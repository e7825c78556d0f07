import DeftRpc.Foundation.Interleave
import DeftRpc.Net.ConnectionLife

/-!
# The connections of a server (TcpSever.cpp, TcpConnection.cpp, Scheduler.h:265-272, Hook.cpp:147-171)

AcceptTask hands each fd to the next scheduler thread, and the tasks and the
coroutines of a thread run one at a time. The fds are shared: a closed one may come
back with the next accept, on any thread. A fetch that would block registers the
coroutine in the Poller of its thread, and the loop swaps it in when the fd is reported.
`epoll_ctl` succeeds, nobody calls Close or Stop, and between two fetches ProcessMag
neither suspends its coroutine nor lets an exception out. `connections` is the heap, its
addresses are not used again.
-/

namespace DeftRpc.Net
open DeftRpc.Foundation

/-- The lambdas of AcceptTask, of NewTcpConnectionEstablish and of ProcessMag. -/
inductive SeverTask where
  | newConnection (fd : ℕ)
  | establish (connection : ℕ)
  | remoteClose (fd : ℕ)
  deriving DecidableEq

/-- `waits` says that the fetch of the coroutine has registered it and is in the loop of IOBase. -/
inductive SeverCoroutine where
  | construct
  | executing (waits : Bool)
  | terminal
  deriving DecidableEq

structure SeverConnection where
  fd : ℕ
  index : ℕ
  mCoroutine : SeverCoroutine := .construct
  deriving DecidableEq

/-- `registeredTwice` is the exception of RegisterRead. -/
inductive SeverError where
  | violation (v : Violation)
  | registeredTwice
  deriving DecidableEq

/-- `index` is the static variable of GetNextScheduler, `registered` the coroutine in the entry of
an fd in the Poller of a thread, `running` the coroutine behind the main one in
`m_coroutines_list_`. An exception that leaves a task or a coroutine ends the process. -/
structure TcpSever where
  index : ℕ := 0
  mConnections : ℕ → ℕ → Option ℕ := fun _ _ => none
  mExtraTasks : ℕ → List SeverTask := fun _ => []
  registered : ℕ → ℕ → Option ℕ := fun _ _ => none
  running : ℕ → Option ℕ := fun _ => none
  connections : ℕ → Option SeverConnection := fun _ => none
  unused : ℕ := 0
  fdOpen : ℕ → Bool := fun _ => false
  thrown : Option SeverError := none

/-- What the `readv` of a fetch returns: EAGAIN, a number of bytes, 0, EBADF or another error. -/
inductive FetchAnswer where
  | again
  | positive
  | eof
  | badFd
  | failed
  deriving DecidableEq

namespace TcpSever

def setTasks (s : TcpSever) (i : ℕ) (tasks : List SeverTask) : TcpSever :=
  { s with mExtraTasks := fun j => if j = i then tasks else s.mExtraTasks j }

def addDefer (s : TcpSever) (i : ℕ) (task : SeverTask) : TcpSever :=
  s.setTasks i (s.mExtraTasks i ++ [task])

def setFd (s : TcpSever) (fd : ℕ) (isOpen : Bool) : TcpSever :=
  { s with fdOpen := fun other => if other = fd then isOpen else s.fdOpen other }

def setEntry (s : TcpSever) (i fd : ℕ) (entry : Option ℕ) : TcpSever :=
  { s with mConnections := fun j other => if j = i ∧ other = fd then entry else s.mConnections j other }

def setRegistered (s : TcpSever) (i fd : ℕ) (coroutine : Option ℕ) : TcpSever :=
  { s with registered := fun j other => if j = i ∧ other = fd then coroutine else s.registered j other }

def setRunning (s : TcpSever) (i : ℕ) (coroutine : Option ℕ) : TcpSever :=
  { s with running := fun j => if j = i then coroutine else s.running j }

def setConnection (s : TcpSever) (address : ℕ) (connection : Option SeverConnection) : TcpSever :=
  { s with connections := fun other => if other = address then connection else s.connections other }

/-- AcceptTask when the kernel returns `fd`. -/
def accept (threads : ℕ) (s : TcpSever) (fd : ℕ) : TcpSever :=
  let s := s.setFd fd true
  if 0 < fd then
    let index := (s.index + 1) % threads
    { s with index := index }.addDefer index (.newConnection fd)
  else s

/-- The connection is made before `emplace` looks for the key. -/
def newConnection (s : TcpSever) (i fd : ℕ) : TcpSever :=
  match s.mConnections i fd with
  | none => (({ s with unused := s.unused + 1 }.setConnection s.unused (some ⟨fd, i, .construct⟩)).setEntry
      i fd (some s.unused)).addDefer i (.establish s.unused)
  | some old => { s with unused := s.unused + 1 }.addDefer i (.establish old)

/-- Scheduler::SwapIn, by the main coroutine of thread `i`. -/
def swapIn (s : TcpSever) (i address : ℕ) : Except SeverError TcpSever :=
  match s.connections address with
  | none => .error (.violation .destroyed)
  | some connection =>
    match connection.mCoroutine with
    | .terminal => .error (.violation .swapInAfterTerminal)
    | .construct => .ok ((s.setRunning i (some address)).setConnection address
        (some { connection with mCoroutine := .executing false }))
    | .executing _ => .ok (s.setRunning i (some address))

/-- The entry owns the connection. -/
def cleanConnection (s : TcpSever) (i fd : ℕ) : Except SeverError TcpSever :=
  match s.mConnections i fd with
  | none => .error (.violation .cleanNotExist)
  | some address => .ok ((s.setConnection address none).setEntry i fd none)

/-- The close is the hooked one. -/
def remoteClose (s : TcpSever) (i fd : ℕ) : Except SeverError TcpSever := do
  let s ← s.cleanConnection i fd
  let s := s.setRegistered i fd none
  if s.fdOpen fd then pure (s.setFd fd false) else .error (.violation .socketCloseError)

def runTask (s : TcpSever) (i : ℕ) : Except SeverError TcpSever :=
  match s.mExtraTasks i with
  | [] => .ok s
  | task :: tasks =>
    let s := s.setTasks i tasks
    match task with
    | .newConnection fd => .ok (s.newConnection i fd)
    | .establish address => s.swapIn i address
    | .remoteClose fd => s.remoteClose i fd

/-- IOBase behind `readv`: a result other than -1 cancels the registration of a wait. -/
def ioBase (s : TcpSever) (i address fd : ℕ) (waits : Bool) : FetchAnswer → Except SeverError TcpSever
  | .again =>
    if waits then .ok s
    else if (s.registered i fd).isSome then .error .registeredTwice
    else .ok (s.setRegistered i fd (some address))
  | .positive | .eof => .ok (if waits then s.setRegistered i fd none else s)
  | .badFd | .failed => .ok s

/-- Up to the next fetch, to the Yield or to Terminal. -/
def processMag (s : TcpSever) (i address : ℕ) (connection : SeverConnection) : FetchAnswer → TcpSever
  | .again => (s.setRunning i none).setConnection address
      (some { connection with mCoroutine := .executing true })
  | .positive => s.setConnection address (some { connection with mCoroutine := .executing false })
  | .eof => ((s.setRunning i none).setConnection address
      (some { connection with mCoroutine := .terminal })).addDefer connection.index
        (.remoteClose connection.fd)
  | .badFd | .failed => (s.setRunning i none).setConnection address
      (some { connection with mCoroutine := .terminal })

def fetched (s : TcpSever) (i address : ℕ) (connection : SeverConnection) (waits : Bool)
    (answer : FetchAnswer) : Except SeverError TcpSever := do
  let s ← s.ioBase i address connection.fd waits answer
  pure (s.processMag i address connection answer)

def outcome (s : TcpSever) : Except SeverError TcpSever → TcpSever
  | .ok s' => s'
  | .error error => { s with thrown := some error }

end TcpSever

/-- `report` is the dispatch of an fd that `epoll_wait` has returned. -/
inductive SeverEvent where
  | accept (fd : ℕ)
  | runTask (i : ℕ)
  | report (i fd : ℕ)
  | fetched (i : ℕ) (answer : FetchAnswer)
  deriving DecidableEq

/-- The kernel returns no fd that is open, it reports no closed one, and EBADF is the answer on a
closed one. -/
def severStep (threads : ℕ) (s : TcpSever) (e : SeverEvent) : Option TcpSever :=
  if s.thrown.isSome then none
  else
    match e with
    | .accept fd => if s.fdOpen fd then none else some (s.accept threads fd)
    | .runTask i => if (s.running i).isSome then none else some (s.outcome (s.runTask i))
    | .report i fd =>
      if (s.running i).isSome ∨ s.fdOpen fd = false then none
      else (s.registered i fd).map fun address => s.outcome (s.swapIn i address)
    | .fetched i answer =>
      match s.running i with
      | none => none
      | some address =>
        match s.connections address with
        | none => some (s.outcome (.error (.violation .destroyed)))
        | some connection =>
          match connection.mCoroutine with
          | .executing waits =>
            if answer = .badFd ↔ s.fdOpen connection.fd = false then
              some (s.outcome (s.fetched i address connection waits answer))
            else none
          | _ => none

/-! ### The stages of an fd -/

/-- In `running` and `lost` the flag says whether the coroutine is registered. -/
inductive Stage where
  | ignored
  | queued
  | made (address : ℕ)
  | running (address : ℕ) (waits : Bool)
  | waiting (address : ℕ)
  | ended (address : ℕ)
  | lost (address : ℕ) (waits : Bool)
  deriving DecidableEq

namespace Stage

/-- The connection that its entry owns. -/
def connection : Stage → Option ℕ
  | .ignored | .queued => none
  | .made address | .running address _ | .waiting address | .ended address | .lost address _ => some address

/-- The coroutine in the Poller. -/
def registration : Stage → Option ℕ
  | .running address true | .waiting address | .lost address true => some address
  | _ => none

/-- A task of the thread waits for it. -/
def pending : Stage → Bool
  | .queued | .made _ | .ended _ => true
  | .ignored | .running _ _ | .waiting _ | .lost _ _ => false

def coroutine : Stage → SeverCoroutine
  | .ignored | .queued | .made _ => .construct
  | .running _ waits => .executing waits
  | .waiting _ => .executing true
  | .ended _ | .lost _ _ => .terminal

end Stage

/-- The open fds, each on its thread and in its stage, and whether the process has gone down. -/
structure Serving where
  index : ℕ := 0
  stage : ℕ → Option (ℕ × Stage) := fun _ => none
  down : Bool := false

def Serving.set (v : Serving) (fd : ℕ) (stage : Option (ℕ × Stage)) : Serving :=
  { v with stage := fun other => if other = fd then stage else v.stage other }

/-- What can happen to the fds of a server. -/
inductive FdStep (threads : ℕ) : Serving → SeverEvent → Serving → Prop
  | accept {v : Serving} {fd : ℕ} : v.stage fd = none → 0 < fd →
      FdStep threads v (.accept fd)
        ({ v with index := (v.index + 1) % threads }.set fd (some ((v.index + 1) % threads, .queued)))
  | ignore {v : Serving} : v.stage 0 = none →
      FdStep threads v (.accept 0) (v.set 0 (some (0, .ignored)))
  | idle {v : Serving} {i : ℕ} : (∀ fd stage, v.stage fd = some (i, stage) → stage.pending = false) →
      FdStep threads v (.runTask i) v
  | make {v : Serving} {i fd address : ℕ} : v.stage fd = some (i, .queued) →
      FdStep threads v (.runTask i) (v.set fd (some (i, .made address)))
  | start {v : Serving} {i fd address : ℕ} : v.stage fd = some (i, .made address) →
      FdStep threads v (.runTask i) (v.set fd (some (i, .running address false)))
  | clean {v : Serving} {i fd address : ℕ} : v.stage fd = some (i, .ended address) →
      FdStep threads v (.runTask i) (v.set fd none)
  | wait {v : Serving} {i fd address : ℕ} {waits : Bool} : v.stage fd = some (i, .running address waits) →
      FdStep threads v (.fetched i .again) (v.set fd (some (i, .waiting address)))
  | wake {v : Serving} {i fd address : ℕ} : v.stage fd = some (i, .waiting address) →
      FdStep threads v (.report i fd) (v.set fd (some (i, .running address true)))
  | serve {v : Serving} {i fd address : ℕ} {waits : Bool} : v.stage fd = some (i, .running address waits) →
      FdStep threads v (.fetched i .positive) (v.set fd (some (i, .running address false)))
  | eof {v : Serving} {i fd address : ℕ} {waits : Bool} : v.stage fd = some (i, .running address waits) →
      FdStep threads v (.fetched i .eof) (v.set fd (some (i, .ended address)))
  | fail {v : Serving} {i fd address : ℕ} {waits : Bool} : v.stage fd = some (i, .running address waits) →
      FdStep threads v (.fetched i .failed) (v.set fd (some (i, .lost address waits)))
  | crash {v : Serving} {i fd address : ℕ} : v.stage fd = some (i, .lost address true) →
      FdStep threads v (.report i fd) { v with down := true }

/-- Nothing happens any more when the process has gone down. -/
def ServingStep (threads : ℕ) (v : Serving) (e : SeverEvent) (v' : Serving) : Prop :=
  v.down = false ∧ FdStep threads v e v'

/-- What the stage of an fd is on thread `i`. -/
def onThread (part : Stage → Option ℕ) : Option (ℕ × Stage) → ℕ → Option ℕ
  | some (j, stage), i => if j = i then part stage else none
  | none, _ => none

def endedOn : Option (ℕ × Stage) → ℕ → Bool
  | some (j, .ended _), i => j == i
  | _, _ => false

/-- A connection whose coroutine has not begun. -/
def startsOn : Option SeverConnection → ℕ → Bool
  | some ⟨_, j, .construct⟩, i => j == i
  | _, _ => false

/-- The server's tables say in which stage each fd is. -/
structure Serves (s : TcpSever) (v : Serving) : Prop where
  thrown : s.thrown = if v.down then some (.violation .swapInAfterTerminal) else none
  index : s.index = v.index
  isOpen : ∀ fd, s.fdOpen fd = (v.stage fd).isSome
  entry : ∀ i fd, s.mConnections i fd = onThread Stage.connection (v.stage fd) i
  registered : ∀ i fd, s.registered i fd = onThread Stage.registration (v.stage fd) i
  nodup : ∀ i, (s.mExtraTasks i).Nodup
  queued : ∀ i fd, .newConnection fd ∈ s.mExtraTasks i ↔ v.stage fd = some (i, .queued)
  made : ∀ i address, .establish address ∈ s.mExtraTasks i ↔ startsOn (s.connections address) i = true
  ended : ∀ i fd, .remoteClose fd ∈ s.mExtraTasks i ↔ endedOn (v.stage fd) i = true
  running : ∀ i address, s.running i = some address →
    ∃ fd waits, v.stage fd = some (i, .running address waits)
  runs : ∀ fd i address waits, v.stage fd = some (i, .running address waits) → s.running i = some address
  connection : ∀ fd i stage address, v.stage fd = some (i, stage) → stage.connection = some address →
    s.connections address = some ⟨fd, i, stage.coroutine⟩
  owned : ∀ address c, s.connections address = some c →
    onThread Stage.connection (v.stage c.fd) c.index = some address
  unused : ∀ address, s.unused ≤ address → s.connections address = none

/-! ### The steps -/

theorem onThread_eq_some {part : Stage → Option ℕ} {stage : Option (ℕ × Stage)} {i address : ℕ}
    (h : onThread part stage i = some address) : ∃ st, stage = some (i, st) ∧ part st = some address := by
  cases stage with
  | none => cases h
  | some p =>
    obtain ⟨j, st⟩ := p
    rw [onThread] at h
    split at h
    case isTrue hj => exact ⟨st, by rw [hj], h⟩
    case isFalse hj => cases h

theorem endedOn_eq_true {stage : Option (ℕ × Stage)} {i : ℕ} (h : endedOn stage i = true) :
    ∃ address, stage = some (i, .ended address) := by
  unfold endedOn at h
  split at h
  case h_1 j address => exact ⟨address, by rw [beq_iff_eq.mp h]⟩
  case h_2 => cases h

theorem startsOn_eq_true {connection : Option SeverConnection} {i : ℕ} (h : startsOn connection i = true) :
    ∃ fd, connection = some ⟨fd, i, .construct⟩ := by
  unfold startsOn at h
  split at h
  case h_1 fd j => exact ⟨fd, by rw [beq_iff_eq.mp h]⟩
  case h_2 => cases h

attribute [grind =] Stage.connection Stage.registration Stage.coroutine onThread endedOn startsOn

section Steps
variable {s : TcpSever} {v : Serving} {i fd address threads : ℕ} {tasks : List SeverTask}

theorem Serves.closed (h : Serves s v) (hfd : s.fdOpen fd = false) : v.stage fd = none := by
  have hopen := h.isOpen fd
  rw [hfd] at hopen
  exact Option.not_isSome_iff_eq_none.mp (by rw [← hopen]; exact Bool.false_ne_true)

/-- On thread `i` the coroutine of `fd` runs, on the others those that ran before. -/
theorem Serving.running_set {running : ℕ → Option ℕ} {stage : Stage}
    (h : ∀ i address, running i = some address → ∃ fd waits, v.stage fd = some (i, .running address waits))
    (hstage : v.stage fd = some (i, stage)) (waits : Bool) {j other : ℕ} (hsame : j = i → other = address)
    (hother : j ≠ i → running j = some other) :
    ∃ fd' waits', (v.set fd (some (i, .running address waits))).stage fd' = some (j, .running other waits') := by
  by_cases hj : j = i
  · refine ⟨fd, waits, ?_⟩
    rw [hj, hsame hj]
    exact if_pos rfl
  · obtain ⟨fd', waits', hrun⟩ := h j other (hother hj)
    have hne : fd' ≠ fd := by
      rintro rfl
      rw [hstage, Option.some.injEq, Prod.mk.injEq] at hrun
      exact hj hrun.1.symm
    exact ⟨fd', waits', (if_neg hne).trans hrun⟩

theorem Serves.accept (h : Serves s v) (hnone : v.stage fd = none) (hpos : 0 < fd) :
    Serves (s.accept threads fd)
      ({ v with index := (v.index + 1) % threads }.set fd (some ((v.index + 1) % threads, .queued))) := by
  obtain ⟨thrown, index, isOpen, entry, registered, nodup, queued, made, ended, running, runs, connection,
    owned, unused⟩ := h
  simp only [TcpSever.accept, if_pos hpos, TcpSever.setFd, TcpSever.addDefer, TcpSever.setTasks, Serving.set]
  constructor <;> dsimp only <;> intros <;> grind

theorem Serves.newConnection (h : Serves s v) (hhead : s.mExtraTasks i = .newConnection fd :: tasks) :
    v.stage fd = some (i, .queued) ∧
      Serves ((s.setTasks i tasks).newConnection i fd) (v.set fd (some (i, .made s.unused))) := by
  obtain ⟨thrown, index, isOpen, entry, registered, nodup, queued, made, ended, running, runs, connection,
    owned, unused⟩ := h
  have hstage : v.stage fd = some (i, .queued) := by
    rw [← queued, hhead]
    exact List.mem_cons_self
  have hnone : s.mConnections i fd = none := by
    rw [entry, hstage]
    simp [onThread, Stage.connection]
  have hnodup := nodup i
  rw [hhead] at hnodup
  have hfresh := unused s.unused (le_refl _)
  refine ⟨hstage, ?_⟩
  simp only [TcpSever.newConnection, TcpSever.setTasks, hnone, TcpSever.setConnection, TcpSever.setEntry,
    TcpSever.addDefer, Serving.set]
  constructor <;> dsimp only <;> intros <;> grind

theorem Serves.ignore (h : Serves s v) (hnone : v.stage 0 = none) :
    Serves (s.accept threads 0) (v.set 0 (some (i, .ignored))) := by
  obtain ⟨thrown, index, isOpen, entry, registered, nodup, queued, made, ended, running, runs, connection,
    owned, unused⟩ := h
  simp only [TcpSever.accept, Nat.lt_irrefl, if_false, TcpSever.setFd, Serving.set]
  constructor <;> dsimp only <;> intros <;> grind

theorem Serves.establish (h : Serves s v) (hidle : s.running i = none)
    (hhead : s.mExtraTasks i = .establish address :: tasks) :
    ∃ s' fd, (s.setTasks i tasks).swapIn i address = .ok s' ∧ v.stage fd = some (i, .made address) ∧
      Serves s' (v.set fd (some (i, .running address false))) := by
  obtain ⟨thrown, index, isOpen, entry, registered, nodup, queued, made, ended, running, runs, connection,
    owned, unused⟩ := h
  have hstarts : startsOn (s.connections address) i = true := by
    rw [← made, hhead]
    exact List.mem_cons_self
  obtain ⟨fd, hconn⟩ := startsOn_eq_true hstarts
  have hstage : v.stage fd = some (i, .made address) := by
    obtain ⟨stage, hstage, haddress⟩ := onThread_eq_some (owned _ _ hconn)
    have hback := connection _ _ _ _ hstage haddress
    cases stage <;> grind
  have hnodup := nodup i
  rw [hhead] at hnodup
  simp only [TcpSever.swapIn, TcpSever.setTasks, hconn, TcpSever.setConnection, TcpSever.setRunning,
    Serving.set]
  refine ⟨_, fd, rfl, hstage, ?_⟩
  constructor
  case running =>
    intro j other hj
    exact Serving.running_set running hstage false (by grind) (by grind)
  all_goals
    dsimp only
    intros
    grind

theorem Serves.remoteClose (h : Serves s v) (hhead : s.mExtraTasks i = .remoteClose fd :: tasks) :
    ∃ s' address, (s.setTasks i tasks).remoteClose i fd = .ok s' ∧ v.stage fd = some (i, .ended address) ∧
      Serves s' (v.set fd none) := by
  obtain ⟨thrown, index, isOpen, entry, registered, nodup, queued, made, ended, running, runs, connection,
    owned, unused⟩ := h
  obtain ⟨address, hstage⟩ : ∃ address, v.stage fd = some (i, .ended address) := by
    apply endedOn_eq_true
    rw [← ended, hhead]
    exact List.mem_cons_self
  have hentry : s.mConnections i fd = some address := by
    rw [entry, hstage]
    simp [onThread, Stage.connection]
  have hconn := connection fd i (.ended address) address hstage rfl
  have hnodup := nodup i
  rw [hhead] at hnodup
  have hopen := isOpen fd
  rw [hstage] at hopen
  have hclean : (s.setTasks i tasks).remoteClose i fd = .ok (((((s.setTasks i tasks).setConnection address
      none).setEntry i fd none).setRegistered i fd none).setFd fd false) := by
    simp only [TcpSever.remoteClose, TcpSever.cleanConnection, TcpSever.setTasks, hentry]
    exact if_pos hopen
  refine ⟨_, address, hclean, hstage, ?_⟩
  simp only [TcpSever.setTasks, TcpSever.setConnection, TcpSever.setEntry, TcpSever.setRegistered,
    TcpSever.setFd, Serving.set]
  constructor <;> dsimp only <;> intros <;> grind

/-- The loop swaps in a coroutine that waits for the fd. -/
theorem Serves.wake (h : Serves s v) (hidle : s.running i = none)
    (hstage : v.stage fd = some (i, .waiting address)) :
    ∃ s', s.swapIn i address = .ok s' ∧ Serves s' (v.set fd (some (i, .running address true))) := by
  obtain ⟨thrown, index, isOpen, entry, registered, nodup, queued, made, ended, running, runs, connection,
    owned, unused⟩ := h
  have hconn := connection fd i (.waiting address) address hstage rfl
  simp only [TcpSever.swapIn, hconn, Stage.coroutine, TcpSever.setRunning, Serving.set]
  refine ⟨_, rfl, ?_⟩
  constructor
  case running =>
    intro j other hj
    exact Serving.running_set running hstage true (by grind) (by grind)
  all_goals
    dsimp only
    intros
    grind

/-- The registration of a failed fetch leads to a coroutine that has ended. -/
theorem Serves.crash (h : Serves s v) (hstage : v.stage fd = some (i, .lost address true)) :
    s.swapIn i address = .error (.violation .swapInAfterTerminal) ∧
      Serves { s with thrown := some (.violation .swapInAfterTerminal) } { v with down := true } := by
  have hconn := h.connection fd i _ address hstage rfl
  exact ⟨by simp only [TcpSever.swapIn, hconn, Stage.coroutine], { h with thrown := rfl }⟩

/-- The coroutine of an fd that is served, and whether it is registered. -/
theorem Serves.served {waits : Bool} (h : Serves s v) (hstage : v.stage fd = some (i, .running address waits)) :
    s.running i = some address ∧ s.connections address = some ⟨fd, i, .executing waits⟩ ∧
      s.fdOpen fd = true ∧ s.registered i fd = if waits then some address else none := by
  refine ⟨h.runs fd i address waits hstage, h.connection fd i _ address hstage rfl, ?_, ?_⟩
  · rw [h.isOpen, hstage]
    rfl
  · rw [h.registered, hstage, onThread, if_pos rfl]
    cases waits <;> rfl

theorem Serves.current (h : Serves s v) (hrun : s.running i = some address) :
    ∃ fd waits, v.stage fd = some (i, .running address waits) ∧
      s.connections address = some ⟨fd, i, .executing waits⟩ ∧ s.fdOpen fd = true := by
  obtain ⟨fd, waits, hstage⟩ := h.running i address hrun
  obtain ⟨-, hconn, hopen, -⟩ := h.served hstage
  exact ⟨fd, waits, hstage, hconn, hopen⟩

theorem Serves.wait {waits : Bool} (h : Serves s v) (hstage : v.stage fd = some (i, .running address waits)) :
    ∃ s', s.fetched i address ⟨fd, i, .executing waits⟩ waits .again = .ok s' ∧
      Serves s' (v.set fd (some (i, .waiting address))) := by
  obtain ⟨-, hconn, hopen, hregistered⟩ := h.served hstage
  obtain ⟨thrown, index, isOpen, entry, registered, nodup, queued, made, ended, running, runs, connection,
    owned, unused⟩ := h
  cases waits with
  | true =>
    refine ⟨s.processMag i address ⟨fd, i, .executing true⟩ .again, rfl, ?_⟩
    simp only [TcpSever.processMag, TcpSever.setRunning, TcpSever.setConnection, Serving.set]
    constructor <;> dsimp only <;> intros <;> grind
  | false =>
    have hfree : (s.registered i fd).isSome = false := by
      rw [hregistered]
      rfl
    refine ⟨(s.setRegistered i fd (some address)).processMag i address ⟨fd, i, .executing false⟩ .again,
      ?_, ?_⟩
    · simp only [TcpSever.fetched, TcpSever.ioBase, hfree, Bool.false_eq_true, if_false]
      rfl
    · simp only [TcpSever.processMag, TcpSever.setRunning, TcpSever.setRegistered, TcpSever.setConnection,
        Serving.set]
      constructor <;> dsimp only <;> intros <;> grind

theorem Serves.serve {waits : Bool} (h : Serves s v) (hstage : v.stage fd = some (i, .running address waits)) :
    ∃ s', s.fetched i address ⟨fd, i, .executing waits⟩ waits .positive = .ok s' ∧
      Serves s' (v.set fd (some (i, .running address false))) := by
  obtain ⟨hrun, hconn, hopen, hregistered⟩ := h.served hstage
  obtain ⟨thrown, index, isOpen, entry, registered, nodup, queued, made, ended, running, runs, connection,
    owned, unused⟩ := h
  refine ⟨_, rfl, ?_⟩
  cases waits <;>
    simp only [TcpSever.processMag, TcpSever.setRegistered, TcpSever.setConnection, Serving.set,
      Bool.false_eq_true, if_false, if_true]
  all_goals
    constructor
    case running =>
      intro j other hj
      exact Serving.running_set running hstage false (by grind) (by grind)
    all_goals
      dsimp only
      intros
      grind

theorem Serves.eof {waits : Bool} (h : Serves s v) (hstage : v.stage fd = some (i, .running address waits)) :
    ∃ s', s.fetched i address ⟨fd, i, .executing waits⟩ waits .eof = .ok s' ∧
      Serves s' (v.set fd (some (i, .ended address))) := by
  obtain ⟨hrun, hconn, hopen, hregistered⟩ := h.served hstage
  obtain ⟨thrown, index, isOpen, entry, registered, nodup, queued, made, ended, running, runs, connection,
    owned, unused⟩ := h
  refine ⟨_, rfl, ?_⟩
  cases waits <;>
    simp only [TcpSever.processMag, TcpSever.setRegistered, TcpSever.setRunning, TcpSever.setConnection,
      TcpSever.addDefer, TcpSever.setTasks, Serving.set, Bool.false_eq_true, if_false, if_true]
  all_goals constructor <;> dsimp only <;> intros <;> grind

theorem Serves.fail {waits : Bool} (h : Serves s v) (hstage : v.stage fd = some (i, .running address waits)) :
    ∃ s', s.fetched i address ⟨fd, i, .executing waits⟩ waits .failed = .ok s' ∧
      s'.mExtraTasks = s.mExtraTasks ∧ Serves s' (v.set fd (some (i, .lost address waits))) := by
  obtain ⟨hrun, hconn, hopen, hregistered⟩ := h.served hstage
  obtain ⟨thrown, index, isOpen, entry, registered, nodup, queued, made, ended, running, runs, connection,
    owned, unused⟩ := h
  refine ⟨_, rfl, rfl, ?_⟩
  simp only [TcpSever.processMag, TcpSever.setRunning, TcpSever.setConnection, Serving.set]
  cases waits <;> constructor <;> dsimp only <;> intros <;> grind

/-- A thread without tasks has only fds that wait, that are served or that are stuck. -/
theorem Serves.idle {stage : Stage} (h : Serves s v) (hhead : s.mExtraTasks i = [])
    (hstage : v.stage fd = some (i, stage)) : stage.pending = false := by
  have hqueued := h.queued i fd
  have hended := h.ended i fd
  rw [hhead] at hqueued hended
  cases stage with
  | queued => cases hqueued.mpr hstage
  | made address =>
    have hmade := h.made i address
    rw [hhead, h.connection fd i _ address hstage rfl] at hmade
    cases hmade.mpr (beq_self_eq_true i)
  | ended address =>
    rw [hstage] at hended
    cases hended.mpr (beq_self_eq_true i)
  | ignored => rfl
  | running address waits => rfl
  | waiting address => rfl
  | lost address waits => rfl

end Steps

/-! ### Every run -/

section Runs
variable {s s' : TcpSever} {v : Serving} {threads : ℕ}

theorem Serves.runTask {i : ℕ} (h : Serves s v) (hidle : s.running i = none) (threads : ℕ) :
    ∃ s' v', s.runTask i = .ok s' ∧ FdStep threads v (.runTask i) v' ∧ Serves s' v' := by
  cases hhead : s.mExtraTasks i with
  | nil =>
    exact ⟨s, v, by simp [TcpSever.runTask, hhead], .idle fun _ _ hstage => h.idle hhead hstage, h⟩
  | cons task tasks =>
    cases task with
    | newConnection fd =>
      obtain ⟨hstage, hserves⟩ := h.newConnection hhead
      exact ⟨_, _, by simp [TcpSever.runTask, hhead], .make hstage, hserves⟩
    | establish address =>
      obtain ⟨s', fd, hrun, hstage, hserves⟩ := h.establish hidle hhead
      exact ⟨s', _, by simp [TcpSever.runTask, hhead, hrun], .start hstage, hserves⟩
    | remoteClose fd =>
      obtain ⟨s', address, hrun, hstage, hserves⟩ := h.remoteClose hhead
      exact ⟨s', _, by simp [TcpSever.runTask, hhead, hrun], .clean hstage, hserves⟩

/-- The entry of a reported fd leads to a coroutine that waits or to one that has been lost. -/
theorem Serves.report {i fd address : ℕ} (h : Serves s v) (hidle : s.running i = none)
    (hregistered : s.registered i fd = some address) (threads : ℕ) :
    ∃ v', FdStep threads v (.report i fd) v' ∧ Serves (s.outcome (s.swapIn i address)) v' := by
  rw [h.registered] at hregistered
  obtain ⟨stage, hstage, hpart⟩ := onThread_eq_some hregistered
  cases stage with
  | waiting other =>
    obtain rfl : other = address := Option.some.inj hpart
    obtain ⟨s', hswap, hserves⟩ := h.wake hidle hstage
    exact ⟨_, .wake hstage, by rw [hswap]; exact hserves⟩
  | running other waits =>
    rw [h.runs fd i other waits hstage] at hidle
    cases hidle
  | lost other waits =>
    cases waits with
    | true =>
      obtain rfl : other = address := Option.some.inj hpart
      obtain ⟨hswap, hserves⟩ := h.crash hstage
      exact ⟨_, .crash hstage, by rw [hswap]; exact hserves⟩
    | false => cases hpart
  | ignored => cases hpart
  | queued => cases hpart
  | made other => cases hpart
  | ended other => cases hpart

theorem Serves.fetched {i address fd : ℕ} {waits : Bool} {answer : FetchAnswer} (h : Serves s v)
    (hstage : v.stage fd = some (i, .running address waits)) (hgood : answer ≠ .badFd) (threads : ℕ) :
    ∃ s' v', s.fetched i address ⟨fd, i, .executing waits⟩ waits answer = .ok s' ∧
      FdStep threads v (.fetched i answer) v' ∧ Serves s' v' := by
  cases answer with
  | again =>
    obtain ⟨s', hrun, hserves⟩ := h.wait hstage
    exact ⟨s', _, hrun, .wait hstage, hserves⟩
  | positive =>
    obtain ⟨s', hrun, hserves⟩ := h.serve hstage
    exact ⟨s', _, hrun, .serve hstage, hserves⟩
  | eof =>
    obtain ⟨s', hrun, hserves⟩ := h.eof hstage
    exact ⟨s', _, hrun, .eof hstage, hserves⟩
  | badFd => exact absurd rfl hgood
  | failed =>
    obtain ⟨s', hrun, -, hserves⟩ := h.fail hstage
    exact ⟨s', _, hrun, .fail hstage, hserves⟩

theorem Serves.step {e : SeverEvent} (h : Serves s v) (hstep : severStep threads s e = some s') :
    ∃ v', ServingStep threads v e v' ∧ Serves s' v' := by
  obtain ⟨hgoes, hstep⟩ := Option.ite_none_left_eq_some.mp hstep
  have hup : v.down = false := by
    rw [h.thrown] at hgoes
    cases hdown : v.down with
    | false => rfl
    | true => exact absurd (by rw [hdown]; rfl) hgoes
  have hwrap : (∃ v', FdStep threads v e v' ∧ Serves s' v') →
      ∃ v', ServingStep threads v e v' ∧ Serves s' v' := by
    intro hfound
    obtain ⟨v', hspec, hserves⟩ := hfound
    exact ⟨v', ⟨hup, hspec⟩, hserves⟩
  apply hwrap
  cases e with
  | accept fd =>
    obtain ⟨hclosed, hstep⟩ := Option.ite_none_left_eq_some.mp hstep
    cases hstep
    rw [Bool.not_eq_true] at hclosed
    have hnone : v.stage fd = none := h.closed hclosed
    rcases Nat.eq_zero_or_pos fd with rfl | hpos
    · exact ⟨_, .ignore hnone, h.ignore hnone⟩
    · exact ⟨_, .accept hnone hpos, h.accept hnone hpos⟩
  | runTask i =>
    obtain ⟨hidle, hstep⟩ := Option.ite_none_left_eq_some.mp hstep
    cases hstep
    obtain ⟨s1, v', hrun, hspec, hserves⟩ := h.runTask (Option.not_isSome_iff_eq_none.mp hidle) threads
    exact ⟨v', hspec, by rw [hrun]; exact hserves⟩
  | report i fd =>
    obtain ⟨hidle, hstep⟩ := Option.ite_none_left_eq_some.mp hstep
    obtain ⟨address, hregistered, rfl⟩ := Option.map_eq_some_iff.mp hstep
    exact h.report (Option.not_isSome_iff_eq_none.mp fun hsome => hidle (Or.inl hsome)) hregistered threads
  | fetched i answer =>
    cases hrun : s.running i with
    | none => simp [hrun] at hstep
    | some address =>
      obtain ⟨fd, waits, hstage, hconn, hopen⟩ := h.current hrun
      simp only [hrun, hconn] at hstep
      obtain ⟨hanswer, hstep⟩ := Option.ite_none_right_eq_some.mp hstep
      cases hstep
      -- the fd of a coroutine that runs is open
      have hgood : answer ≠ .badFd := by
        intro he
        rw [hanswer.mp he] at hopen
        cases hopen
      obtain ⟨s1, v', hfetched, hspec, hserves⟩ := h.fetched hstage hgood threads
      exact ⟨v', hspec, by rw [hfetched]; exact hserves⟩

theorem Serves.start : Serves {} {} := by
  constructor <;> intros <;> simp_all [onThread, endedOn, startsOn]

theorem Serves.run {events : List SeverEvent} (hserves : Serves s v)
    (h : interleave (severStep threads) s events = some s') :
    ∃ v', Follows (ServingStep threads) v events v' ∧ Serves s' v' := by
  have hsim : ∀ s v e s', Serves s v → severStep threads s e = some s' →
      ∃ v', ServingStep threads v e v' ∧ Serves s' v' := by
    intro s v e s' hserves hstep
    exact hserves.step hstep
  exact interleave_follows hsim events s s' v hserves h

/-! ### The threads, the fds that stay, and the fds that do not -/

theorem ServingStep.thread_lt {v' : Serving} {e : SeverEvent} (hthreads : 0 < threads)
    (hv : ∀ fd i stage, v.stage fd = some (i, stage) → i < threads) (h : ServingStep threads v e v') :
    ∀ fd i stage, v'.stage fd = some (i, stage) → i < threads := by
  have hmod := Nat.mod_lt (v.index + 1) hthreads
  intro fd i stage hstage
  cases h.2 <;> grind [Serving.set]

/-- No fd is lost without a fetch that fails, and then the process does not go down. -/
theorem ServingStep.not_lost {v' : Serving} {e : SeverEvent}
    (hv : v.down = false ∧ ∀ fd i address waits, v.stage fd ≠ some (i, .lost address waits))
    (he : ∀ i, e ≠ .fetched i .failed) (h : ServingStep threads v e v') :
    v'.down = false ∧ ∀ fd i address waits, v'.stage fd ≠ some (i, .lost address waits) := by
  obtain ⟨hdown, hlost⟩ := hv
  constructor
  · cases h.2 <;> grind [Serving.set]
  · intro fd i address waits
    have hfd := hlost fd i address waits
    cases h.2 <;> grind [Serving.set]

theorem ServingStep.not_ignored {v' : Serving} {e : SeverEvent}
    (hv : ∀ fd i, v.stage fd ≠ some (i, .ignored)) (he : e ≠ .accept 0) (h : ServingStep threads v e v') :
    ∀ fd i, v'.stage fd ≠ some (i, .ignored) := by
  intro fd i
  have hfd := hv fd i
  cases h.2 <;> grind [Serving.set]

theorem ServingStep.lost {v' : Serving} {e : SeverEvent} {fd i address : ℕ} {waits : Bool}
    (hlost : v.stage fd = some (i, .lost address waits)) (h : ServingStep threads v e v') :
    v'.stage fd = some (i, .lost address waits) := by
  cases h.2 <;> grind [Serving.set]

theorem follows_not_lost {events : List SeverEvent} (hevents : ∀ e ∈ events, ∀ i, e ≠ .fetched i .failed)
    (h : Follows (ServingStep threads) {} events v) :
    v.down = false ∧ ∀ fd i address waits, v.stage fd ≠ some (i, .lost address waits) := by
  apply follows_invariant (fun v e v' hv he hstep => ServingStep.not_lost hv he hstep) _ hevents h
  refine ⟨rfl, ?_⟩
  intro fd i address waits hstage
  cases hstage

theorem sever_refines {events : List SeverEvent} (hthreads : 0 < threads)
    (h : interleave (severStep threads) {} events = some s) :
    (∃ v, Follows (ServingStep threads) {} events v ∧ Serves s v ∧
      ∀ fd i stage, v.stage fd = some (i, stage) → i < threads) ∧
      ((∀ i, .fetched i .failed ∉ events) → s.thrown = none) := by
  obtain ⟨v, hfollows, hserves⟩ := Serves.start.run h
  refine ⟨⟨v, hfollows, hserves, ?_⟩, ?_⟩
  · apply follows_invariant (fun v e v' hv _ hstep => ServingStep.thread_lt hthreads hv hstep) _
      (fun _ _ => trivial) hfollows
    intro fd i stage hstage
    cases hstage
  · intro hevents
    have hup : v.down = false := by
      refine (follows_not_lost ?_ hfollows).1
      intro e he i hfailed
      exact hevents i (hfailed ▸ he)
    rw [hserves.thrown, hup]
    rfl

/-- The fd of a closed connection comes back on the other thread. -/
theorem sever_refines_reuse : ∃ s, interleave (severStep 2) {} [.accept 5, .runTask 1, .runTask 1,
      .fetched 1 .again, .report 1 5, .fetched 1 .positive, .fetched 1 .eof, .runTask 1, .accept 5,
      .runTask 0] = some s ∧
    (∃ v, Follows (ServingStep 2) {} [.accept 5, .runTask 1, .runTask 1, .fetched 1 .again, .report 1 5,
      .fetched 1 .positive, .fetched 1 .eof, .runTask 1, .accept 5, .runTask 0] v ∧ Serves s v ∧
      ∀ fd i stage, v.stage fd = some (i, stage) → i < 2) ∧
      ((∀ i, .fetched i .failed ∉ [SeverEvent.accept 5, .runTask 1, .runTask 1, .fetched 1 .again,
        .report 1 5, .fetched 1 .positive, .fetched 1 .eof, .runTask 1, .accept 5, .runTask 0]) →
        s.thrown = none) :=
  ⟨_, rfl, sever_refines (by decide) rfl⟩

/-- With the queues empty and no coroutine that runs or waits, nothing of the connections is left. -/
theorem sever_closes_all {events : List SeverEvent}
    (hevents : ∀ e ∈ events, e ≠ .accept 0 ∧ ∀ i, e ≠ .fetched i .failed)
    (htasks : ∀ i, s.mExtraTasks i = [])
    (hwaiting : ∀ address c, s.connections address = some c → ∀ waits, c.mCoroutine ≠ .executing waits)
    (h : interleave (severStep threads) {} events = some s) :
    (∀ fd, s.fdOpen fd = false) ∧ (∀ i fd, s.mConnections i fd = none) ∧
      (∀ i fd, s.registered i fd = none) ∧ ∀ address, s.connections address = none := by
  obtain ⟨v, hfollows, hserves⟩ := Serves.start.run h
  obtain ⟨-, hlost⟩ := follows_not_lost (fun e he => (hevents e he).2) hfollows
  have hignored : ∀ fd i, v.stage fd ≠ some (i, .ignored) := by
    apply follows_invariant (fun v e v' hv he hstep => ServingStep.not_ignored hv (And.left he) hstep) _
      hevents hfollows
    intro fd i hstage
    cases hstage
  have hnone : ∀ fd, v.stage fd = none := by
    intro fd
    rw [Option.eq_none_iff_forall_ne_some]
    intro p hstage
    obtain ⟨i, stage⟩ := p
    have hidle := hserves.idle (htasks i) hstage
    cases stage with
    | queued => cases hidle
    | made address => cases hidle
    | ended address => cases hidle
    | ignored => exact hignored fd i hstage
    | running address waits =>
      exact hwaiting address _ (hserves.connection fd i _ address hstage rfl) waits rfl
    | waiting address => exact hwaiting address _ (hserves.connection fd i _ address hstage rfl) true rfl
    | lost address waits => exact hlost fd i address waits hstage
  refine ⟨fun fd => ?_, fun i fd => ?_, fun i fd => ?_, fun address => ?_⟩
  · rw [hserves.isOpen, hnone]
    rfl
  · rw [hserves.entry, hnone]
    rfl
  · rw [hserves.registered, hnone]
    rfl
  · rw [Option.eq_none_iff_forall_ne_some]
    intro c hc
    obtain ⟨stage, hstage, -⟩ := onThread_eq_some (hserves.owned address c hc)
    rw [hnone] at hstage
    cases hstage

theorem sever_closes_all_one : ∃ s, interleave (severStep 2) {} [.accept 5, .runTask 1, .runTask 1,
      .fetched 1 .again, .report 1 5, .fetched 1 .eof, .runTask 1] = some s ∧
    (∀ fd, s.fdOpen fd = false) ∧ (∀ i fd, s.mConnections i fd = none) ∧
    (∀ i fd, s.registered i fd = none) ∧ ∀ address, s.connections address = none := by
  refine ⟨_, rfl, @sever_closes_all _ 2 [.accept 5, .runTask 1, .runTask 1, .fetched 1 .again, .report 1 5,
    .fetched 1 .eof, .runTask 1] (by simp) ?_ ?_ rfl⟩
  · intro i
    by_cases hi : i = 1
    · rw [hi]
      rfl
    · simp [TcpSever.accept, TcpSever.setFd, TcpSever.addDefer, TcpSever.setTasks, TcpSever.outcome,
        TcpSever.runTask, TcpSever.newConnection, TcpSever.setConnection, TcpSever.setEntry, TcpSever.swapIn,
        TcpSever.setRunning, TcpSever.setRegistered, TcpSever.fetched, TcpSever.ioBase, TcpSever.processMag,
        TcpSever.remoteClose, TcpSever.cleanConnection, bind, Except.bind, pure, Except.pure, hi]
  · intro address c hc
    by_cases ha : address = 0
    · rw [ha] at hc
      cases hc
    · simp [TcpSever.accept, TcpSever.setFd, TcpSever.addDefer, TcpSever.setTasks, TcpSever.outcome,
        TcpSever.runTask, TcpSever.newConnection, TcpSever.setConnection, TcpSever.setEntry, TcpSever.swapIn,
        TcpSever.setRunning, TcpSever.setRegistered, TcpSever.fetched, TcpSever.ioBase, TcpSever.processMag,
        TcpSever.remoteClose, TcpSever.cleanConnection, bind, Except.bind, pure, Except.pure, ha] at hc

/-- ProcessMag ends without a task when the fetch fails, and nothing closes the fd later. A fetch that
had waited leaves its registration, and the next report of the fd swaps the ended coroutine in. -/
theorem failed_fetch_leaks {before later : List SeverEvent} {s1 s2 : TcpSever} {i address : ℕ}
    {c : SeverConnection} {waits : Bool} (h : interleave (severStep threads) {} before = some s)
    (hrun : s.running i = some address) (hc : s.connections address = some c)
    (hwaits : c.mCoroutine = .executing waits) (hfail : severStep threads s (.fetched i .failed) = some s1)
    (hlater : interleave (severStep threads) s1 later = some s2) :
    s1.mExtraTasks = s.mExtraTasks ∧ s2.fdOpen c.fd = true ∧ s2.mConnections i c.fd = some address ∧
      s2.connections address = some ⟨c.fd, i, .terminal⟩ ∧
      s2.registered i c.fd = (if waits then some address else none) ∧
      (waits = true → s2.thrown = none → s2.running i = none → severStep threads s2 (.report i c.fd) =
        some { s2 with thrown := some (.violation .swapInAfterTerminal) }) := by
  obtain ⟨v, -, hserves⟩ := Serves.start.run h
  obtain ⟨fd, w, hstage, hconn, hopen⟩ := hserves.current hrun
  rw [hc, Option.some.injEq] at hconn
  subst hconn
  cases hwaits
  obtain ⟨t, hfetched, htasks, hserves1⟩ := hserves.fail hstage
  have hfirst : s1 = t := by
    obtain ⟨-, hfail⟩ := Option.ite_none_left_eq_some.mp hfail
    simp only [hrun, hc] at hfail
    obtain ⟨-, hfail⟩ := Option.ite_none_right_eq_some.mp hfail
    rw [hfetched] at hfail
    exact (Option.some.inj hfail).symm
  subst hfirst
  obtain ⟨v2, hfollows, hserves2⟩ := hserves1.run hlater
  have hlost : v2.stage fd = some (i, .lost address waits) :=
    follows_invariant (I := fun v => v.stage fd = some (i, .lost address waits))
      (fun _ _ _ hv _ hstep => ServingStep.lost hv hstep) (if_pos rfl) (fun _ _ => trivial) hfollows
  have hopen2 : s2.fdOpen fd = true := by
    rw [hserves2.isOpen, hlost]
    rfl
  have hregistered : s2.registered i fd = if waits then some address else none := by
    rw [hserves2.registered, hlost, onThread, if_pos rfl]
    cases waits <;> rfl
  refine ⟨htasks, hopen2, ?_, hserves2.connection _ _ _ _ hlost rfl, hregistered, ?_⟩
  · rw [hserves2.entry, hlost]
    exact if_pos rfl
  · rintro rfl hup hidle
    obtain ⟨hswap, -⟩ := hserves2.crash hlost
    simp [severStep, hup, hidle, hopen2, hregistered, hswap, TcpSever.outcome]

/-- The fetch fails behind a wait. -/
theorem failed_fetch_leaks_one : ∃ s s1 s2, interleave (severStep 1) {} [.accept 5, .runTask 0, .runTask 0,
      .fetched 0 .again, .report 0 5] = some s ∧ severStep 1 s (.fetched 0 .failed) = some s1 ∧
    interleave (severStep 1) s1 [.accept 6, .runTask 0] = some s2 ∧
    s1.mExtraTasks = s.mExtraTasks ∧ s2.fdOpen 5 = true ∧ s2.mConnections 0 5 = some 0 ∧
      s2.connections 0 = some ⟨5, 0, .terminal⟩ ∧ s2.registered 0 5 = (if true then some 0 else none) ∧
      (true = true → s2.thrown = none → s2.running 0 = none → severStep 1 s2 (.report 0 5) =
        some { s2 with thrown := some (.violation .swapInAfterTerminal) }) :=
  ⟨_, _, _, rfl, rfl, rfl, @failed_fetch_leaks _ 1 [.accept 5, .runTask 0, .runTask 0, .fetched 0 .again,
    .report 0 5] [.accept 6, .runTask 0] _ _ 0 0 ⟨5, 0, .executing true⟩ true rfl rfl rfl rfl rfl rfl⟩

end Runs

end DeftRpc.Net
