import Mathlib.Tactic

/-!
# How a TcpConnection ends (TcpConnection.cpp:12-94)

The coroutine is suspended in the fetch of ProcessMag, and the callback and the
flushes do not suspend it. Tasks of the connection run one at a time on its
scheduler. Memory is not modelled, only whether the connection still exists.
-/

namespace DeftRpc.Net

/-- The lambdas of NewTcpConnectionEstablish, of ProcessMag and of Close. -/
inductive Deferred where
  | establish
  | remoteClose
  | localClose
  deriving DecidableEq

inductive CoroutineState where
  | construct
  | suspended
  | terminal
  deriving DecidableEq

/-- What ends the run: a use of the destroyed connection, a SwapIn behind Terminal, or
one of the two exceptions. -/
inductive Violation where
  | destroyed
  | swapInAfterTerminal
  | socketCloseError
  | cleanNotExist
  deriving DecidableEq

/-- The answer of a fetch; a positive one comes with the number of times that the
message callback calls Close. -/
inductive Fetched where
  | positive (closes : ℕ)
  | eof
  | badFd
  | failed
  deriving DecidableEq

/-- `closed` counts the successful closes of the fd, `cleaned` the executions of
CleanConnection. -/
structure Connection where
  mCoroutine : CoroutineState := .construct
  fdOpen : Bool := true
  inConnections : Bool := true
  mExtraTasks : List Deferred := [.establish]
  cleaned : ℕ := 0
  closed : ℕ := 0
  deriving DecidableEq

namespace Connection

def closeFd (c : Connection) : Except Violation Connection :=
  if c.fdOpen then .ok { c with fdOpen := false, closed := c.closed + 1 }
  else .error .socketCloseError

/-- The connection is destroyed with its entry. -/
def cleanConnection (c : Connection) : Except Violation Connection :=
  if c.inConnections then .ok { c with inConnections := false, cleaned := c.cleaned + 1 }
  else .error .cleanNotExist

/-- ProcessMag from the return of a fetch to the next fetch or to Terminal. -/
def processMag (c : Connection) : Fetched → Connection
  | .positive closes => { c with
      mCoroutine := .suspended
      mExtraTasks := c.mExtraTasks ++ List.replicate closes .localClose }
  | .eof => { c with mCoroutine := .terminal, mExtraTasks := c.mExtraTasks ++ [.remoteClose] }
  | .badFd => { c with mCoroutine := .terminal }
  | .failed => { c with mCoroutine := .terminal }

/-- On an open fd the coroutine waits for data, on a closed one its fetch fails. -/
def swapIn (c : Connection) : Except Violation Connection :=
  match c.mCoroutine with
  | .terminal => .error .swapInAfterTerminal
  | _ => if c.fdOpen then .ok { c with mCoroutine := .suspended } else .ok (c.processMag .badFd)

def close (c : Connection) : Except Violation Connection :=
  if c.inConnections then .ok { c with mExtraTasks := c.mExtraTasks ++ [.localClose] }
  else .error .destroyed

def runTask (c : Connection) : Except Violation Connection :=
  match c.mExtraTasks with
  | [] => .ok c
  | .establish :: tasks =>
    if c.inConnections then { c with mExtraTasks := tasks }.swapIn else .error .destroyed
  | .remoteClose :: tasks => do
    let c ← { c with mExtraTasks := tasks }.cleanConnection
    c.closeFd
  | .localClose :: tasks =>
    if c.inConnections then do
      let c ← { c with mExtraTasks := tasks }.closeFd
      let c ← c.swapIn
      c.cleanConnection
    else .error .destroyed

inductive Event where
  | fetched (answer : Fetched)
  | close
  | runTask
  deriving DecidableEq

/-- A fetch answers only a coroutine that waits on an open fd, otherwise nothing
happens. Behind EBADF the fd is closed, by somebody else. -/
def step (c : Connection) : Event → Except Violation Connection
  | .fetched answer =>
    if c.mCoroutine = .suspended ∧ c.fdOpen = true then
      .ok ({ c with fdOpen := decide (answer ≠ Fetched.badFd) }.processMag answer)
    else .ok c
  | .close => c.close
  | .runTask => c.runTask

def run (c : Connection) : List Event → Except Violation Connection
  | [] => .ok c
  | e :: events => c.step e >>= fun c => c.run events

/-! ### The condition -/

/-- The fetch of a waiting coroutine fails in no way, and while a Close waits in the
queue there is no second one and the peer does not close; nobody calls Close once the
coroutine has left ProcessMag. -/
def StepOk (c : Connection) : Event → Prop
  | .runTask => True
  | .close => c.mCoroutine ≠ .terminal ∧ .localClose ∉ c.mExtraTasks
  | .fetched answer => c.mCoroutine = .suspended ∧ c.fdOpen = true →
    match answer with
    | .positive closes => closes = 0 ∨ closes = 1 ∧ .localClose ∉ c.mExtraTasks
    | .eof => .localClose ∉ c.mExtraTasks
    | .badFd => False
    | .failed => False

def StepsOk (c : Connection) : List Event → Prop
  | [] => True
  | e :: events => c.StepOk e ∧ ∀ c', c.step e = .ok c' → c'.StepsOk events

def Ended (c : Connection) : Prop := c.mCoroutine = .terminal ∧ c.mExtraTasks = []

/-- What the end should be. -/
def CleanedOnce (c : Connection) : Prop := c.cleaned = 1 ∧ c.closed = 1

/-- The states between the steps of a run that meets the condition. -/
inductive Inv : Connection → Prop where
  | construct (pending : List Deferred) : pending = [] ∨ pending = [.localClose] →
      Inv ⟨.construct, true, true, .establish :: pending, 0, 0⟩
  | suspended (pending : List Deferred) : pending = [] ∨ pending = [.localClose] →
      Inv ⟨.suspended, true, true, pending, 0, 0⟩
  | left : Inv ⟨.terminal, true, true, [.remoteClose], 0, 0⟩
  | ended : Inv ⟨.terminal, false, false, [], 1, 1⟩

/-- Too many Close, a Close behind the end, or an end without a cleanup. -/
def Doomed (c : Connection) : Prop :=
  c.mCoroutine = .terminal ∧ .localClose ∈ c.mExtraTasks ∨
    2 ≤ c.mExtraTasks.count .localClose ∨
    c.mCoroutine = .terminal ∧ c.cleaned = 0 ∧ .remoteClose ∉ c.mExtraTasks

theorem Inv.step {c : Connection} (h : Inv c) {e : Event} (hok : c.StepOk e) :
    ∃ c', c.step e = .ok c' ∧ Inv c' := by
  cases e with
  | runTask =>
    cases h with
    | construct pending hp => exact ⟨_, rfl, .suspended pending hp⟩
    | suspended pending hp =>
      rcases hp with rfl | rfl
      · exact ⟨_, rfl, .suspended [] (.inl rfl)⟩
      · exact ⟨_, rfl, .ended⟩
    | left => exact ⟨_, rfl, .ended⟩
    | ended => exact ⟨_, rfl, .ended⟩
  | close =>
    obtain ⟨hnot, hpending⟩ := hok
    cases h with
    | construct pending hp =>
      rcases hp with rfl | rfl
      · exact ⟨_, rfl, .construct [.localClose] (.inr rfl)⟩
      · simp at hpending
    | suspended pending hp =>
      rcases hp with rfl | rfl
      · exact ⟨_, rfl, .suspended [.localClose] (.inr rfl)⟩
      · simp at hpending
    | left => exact absurd rfl hnot
    | ended => exact absurd rfl hnot
  | fetched answer =>
    cases h with
    | construct pending hp => exact ⟨_, rfl, .construct pending hp⟩
    | left => exact ⟨_, rfl, .left⟩
    | ended => exact ⟨_, rfl, .ended⟩
    | suspended pending hp =>
      have hanswer := hok ⟨rfl, rfl⟩
      cases answer with
      | eof =>
        rcases hp with rfl | rfl
        · exact ⟨_, rfl, .left⟩
        · simp at hanswer
      | badFd => exact hanswer.elim
      | failed => exact hanswer.elim
      | positive closes =>
        rcases hanswer with rfl | ⟨rfl, hnot⟩
        · refine ⟨_, rfl, ?_⟩
          simpa [processMag] using Inv.suspended pending hp
        · rcases hp with rfl | rfl
          · exact ⟨_, rfl, .suspended [.localClose] (.inr rfl)⟩
          · simp at hnot

/-- A step that does not meet the condition stops the run or dooms it. -/
theorem Inv.doomed {c c' : Connection} (h : Inv c) {e : Event} (hok : ¬ c.StepOk e)
    (hstep : c.step e = .ok c') : Doomed c' := by
  cases e with
  | runTask => exact absurd trivial hok
  | close =>
    cases h with
    | construct pending hp =>
      rcases hp with rfl | rfl
      · exact absurd ⟨by simp, by simp⟩ hok
      · cases hstep
        exact .inr (.inl (by decide))
    | suspended pending hp =>
      rcases hp with rfl | rfl
      · exact absurd ⟨by simp, by simp⟩ hok
      · cases hstep
        exact .inr (.inl (by decide))
    | left =>
      cases hstep
      exact .inl ⟨rfl, by simp⟩
    | ended => cases hstep
  | fetched answer =>
    cases h with
    | construct pending hp => exact absurd (by simp [StepOk]) hok
    | left => exact absurd (by simp [StepOk]) hok
    | ended => exact absurd (by simp [StepOk]) hok
    | suspended pending hp =>
      cases answer with
      | eof =>
        rcases hp with rfl | rfl
        · exact absurd (by simp [StepOk]) hok
        · cases hstep
          exact .inl ⟨rfl, by simp [processMag]⟩
      | badFd =>
        cases hstep
        rcases hp with rfl | rfl <;> exact .inr (.inr ⟨rfl, rfl, by simp [processMag]⟩)
      | failed =>
        cases hstep
        rcases hp with rfl | rfl <;> exact .inr (.inr ⟨rfl, rfl, by simp [processMag]⟩)
      | positive closes =>
        cases hstep
        refine .inr (.inl ?_)
        rcases hp with rfl | rfl
        · simp [StepOk] at hok
          simp [processMag]
          omega
        · simp [StepOk] at hok
          simp [processMag]
          omega

/-! ### A doomed run -/

theorem swapIn_ok {c c' : Connection} (h : c.swapIn = .ok c') :
    c.mCoroutine ≠ .terminal ∧ c'.mExtraTasks = c.mExtraTasks := by
  obtain ⟨coroutine, fdOpen, inConnections, tasks, cleaned, closed⟩ := c
  cases coroutine with
  | terminal => cases h
  | construct =>
    cases fdOpen <;> cases h <;> exact ⟨by simp, rfl⟩
  | suspended =>
    cases fdOpen <;> cases h <;> exact ⟨by simp, rfl⟩

theorem cleanConnection_ok {c c' : Connection} (h : c.cleanConnection = .ok c') :
    c'.mCoroutine = c.mCoroutine ∧ c'.mExtraTasks = c.mExtraTasks := by
  unfold cleanConnection at h
  split at h
  · cases h
    exact ⟨rfl, rfl⟩
  · cases h

theorem closeFd_ok {c c' : Connection} (h : c.closeFd = .ok c') :
    c'.fdOpen = false ∧ c'.mCoroutine = c.mCoroutine ∧ c'.mExtraTasks = c.mExtraTasks := by
  unfold closeFd at h
  split at h
  · cases h
    exact ⟨rfl, rfl, rfl⟩
  · cases h

theorem bind_ok {α β : Type} {x : Except Violation α} {f : α → Except Violation β} {b : β}
    (h : (x >>= f) = .ok b) : ∃ a, x = .ok a ∧ f a = .ok b := by
  cases x with
  | error e => cases h
  | ok a => exact ⟨a, rfl, h⟩

/-- The lambda of Close works once, while the coroutine has not left. -/
theorem runTask_localClose {c c' : Connection} {tasks : List Deferred}
    (htasks : c.mExtraTasks = .localClose :: tasks) (h : c.runTask = .ok c') :
    c.mCoroutine ≠ .terminal ∧ c'.mCoroutine = .terminal ∧ c'.mExtraTasks = tasks := by
  unfold runTask at h
  rw [htasks] at h
  simp only at h
  split at h
  · obtain ⟨c1, hclose, h⟩ := bind_ok h
    obtain ⟨c2, hswap, hclean⟩ := bind_ok h
    obtain ⟨hfd, hcoroutine, htasks1⟩ := closeFd_ok hclose
    obtain ⟨hnot, htasks2⟩ := swapIn_ok hswap
    obtain ⟨hcoroutine3, htasks3⟩ := cleanConnection_ok hclean
    have hleft : c2.mCoroutine = .terminal := by
      unfold swapIn at hswap
      split at hswap
      · cases hswap
      · rw [hfd] at hswap
        cases hswap
        rfl
    exact ⟨hcoroutine ▸ hnot, hcoroutine3.trans hleft, htasks3.trans (htasks2.trans htasks1)⟩
  · cases h

theorem Doomed.runTask {c c' : Connection} (h : Doomed c) (hstep : c.runTask = .ok c') :
    Doomed c' := by
  cases htasks : c.mExtraTasks with
  | nil =>
    rw [Connection.runTask, htasks] at hstep
    cases hstep
    exact h
  | cons task tasks =>
    cases task with
    | localClose =>
      obtain ⟨hnot, hleft, htasks'⟩ := runTask_localClose htasks hstep
      rcases h with ⟨hterm, -⟩ | hcount | ⟨hterm, -⟩
      · exact absurd hterm hnot
      · refine .inl ⟨hleft, ?_⟩
        rw [htasks, List.count_cons_self] at hcount
        rw [htasks']
        exact List.count_pos_iff.mp (by omega)
      · exact absurd hterm hnot
    | establish =>
      unfold Connection.runTask at hstep
      rw [htasks] at hstep
      simp only at hstep
      split at hstep
      · obtain ⟨hnot, htasks'⟩ := swapIn_ok hstep
        rcases h with ⟨hterm, -⟩ | hcount | ⟨hterm, -⟩
        · exact absurd hterm hnot
        · refine .inr (.inl ?_)
          rw [htasks']
          simpa [htasks] using hcount
        · exact absurd hterm hnot
      · cases hstep
    | remoteClose =>
      unfold Connection.runTask at hstep
      rw [htasks] at hstep
      obtain ⟨c1, hclean, hclose⟩ := bind_ok hstep
      obtain ⟨hcoroutine1, htasks1⟩ := cleanConnection_ok hclean
      obtain ⟨-, hcoroutine2, htasks2⟩ := closeFd_ok hclose
      have hall := htasks2.trans htasks1
      rcases h with ⟨hterm, hmem⟩ | hcount | ⟨-, -, hnot⟩
      · refine .inl ⟨hcoroutine2.trans (hcoroutine1.trans hterm), ?_⟩
        rw [hall]
        simpa [htasks] using hmem
      · refine .inr (.inl ?_)
        rw [hall]
        simpa [htasks] using hcount
      · exact absurd (htasks ▸ List.mem_cons_self) hnot

theorem Doomed.step {c c' : Connection} (h : Doomed c) {e : Event} (hstep : c.step e = .ok c') :
    Doomed c' := by
  cases e with
  | runTask => exact h.runTask hstep
  | close =>
    simp only [Connection.step, Connection.close] at hstep
    split at hstep
    · cases hstep
      rcases h with ⟨hterm, hmem⟩ | hcount | ⟨hterm, -⟩
      · exact .inl ⟨hterm, by simp⟩
      · refine .inr (.inl ?_)
        show 2 ≤ (c.mExtraTasks ++ [Deferred.localClose]).count Deferred.localClose
        rw [List.count_append]
        omega
      · exact .inl ⟨hterm, by simp⟩
    · cases hstep
  | fetched answer =>
    simp only [Connection.step] at hstep
    split at hstep
    · next hwaits =>
      cases hstep
      have hcount : 2 ≤ c.mExtraTasks.count .localClose := by
        rcases h with ⟨hterm, -⟩ | hcount | ⟨hterm, -⟩
        · rw [hwaits.1] at hterm
          cases hterm
        · exact hcount
        · rw [hwaits.1] at hterm
          cases hterm
      have hmore : ∃ more, (({ c with fdOpen := decide (answer ≠ Fetched.badFd) } : Connection).processMag
          answer).mExtraTasks = c.mExtraTasks ++ more := by
        cases answer with
        | positive closes => exact ⟨_, rfl⟩
        | eof => exact ⟨_, rfl⟩
        | badFd => exact ⟨[], (List.append_nil _).symm⟩
        | failed => exact ⟨[], (List.append_nil _).symm⟩
      obtain ⟨more, hmore⟩ := hmore
      refine .inr (.inl ?_)
      rw [hmore, List.count_append]
      omega
    · cases hstep
      exact h

theorem Doomed.run {c c' : Connection} (events : List Event) (h : Doomed c)
    (hrun : c.run events = .ok c') : Doomed c' := by
  induction events generalizing c with
  | nil =>
    cases hrun
    exact h
  | cons e events ih =>
    obtain ⟨c1, hstep, hrest⟩ := bind_ok hrun
    exact ih (h.step hstep) hrest

/-! ### Every order of the events -/

theorem Inv.run {c : Connection} (events : List Event) (h : Inv c) (hok : c.StepsOk events) :
    ∃ c', c.run events = .ok c' ∧ Inv c' := by
  induction events generalizing c with
  | nil => exact ⟨c, rfl, h⟩
  | cons e events ih =>
    obtain ⟨c1, hstep, h1⟩ := h.step hok.1
    obtain ⟨c2, hrun, h2⟩ := ih h1 (hok.2 c1 hstep)
    exact ⟨c2, by rw [Connection.run, hstep]; exact hrun, h2⟩

/-- An ended run that meets the condition somewhere not has not cleaned up once. -/
theorem Inv.run_doomed {c c' : Connection} (events : List Event) (h : Inv c)
    (hok : ¬ c.StepsOk events) (hrun : c.run events = .ok c') : Doomed c' := by
  induction events generalizing c with
  | nil => exact absurd trivial hok
  | cons e events ih =>
    obtain ⟨c1, hstep, hrest⟩ := bind_ok hrun
    by_cases he : c.StepOk e
    · obtain ⟨c1', hstep', h1⟩ := h.step he
      rw [hstep] at hstep'
      cases hstep'
      refine ih h1 (fun hrest' => hok ⟨he, fun c'' hc'' => ?_⟩) hrest
      rw [hstep] at hc''
      cases hc''
      exact hrest'
    · exact (h.doomed he hstep).run events hrest

theorem Inv.cleanedOnce {c : Connection} (h : Inv c) (hended : c.Ended) : CleanedOnce c := by
  obtain ⟨hterm, htasks⟩ := hended
  cases h with
  | construct pending _ => cases hterm
  | suspended pending _ => cases hterm
  | left => cases htasks
  | ended => exact ⟨rfl, rfl⟩

theorem Doomed.not_cleanedOnce {c : Connection} (h : Doomed c) (hended : c.Ended) :
    ¬ CleanedOnce c := by
  obtain ⟨-, htasks⟩ := hended
  rcases h with ⟨-, hmem⟩ | hcount | ⟨-, hcleaned, -⟩
  · simp [htasks] at hmem
  · simp [htasks] at hcount
  · rintro ⟨hone, -⟩
    omega

theorem fresh_inv : Inv {} := .construct [] (.inl rfl)

/-- A run that meets the condition meets no violation and, once the coroutine has left
and the queue is empty, has cleaned up and closed the fd exactly once. An ended run
does so only under the condition. -/
theorem cleanedOnce_iff (events : List Event) :
    (StepsOk {} events → ∃ c, run {} events = .ok c ∧ (c.Ended → CleanedOnce c)) ∧
      ((∃ c, run {} events = .ok c ∧ c.Ended ∧ CleanedOnce c) → StepsOk {} events) := by
  refine ⟨fun hok => ?_, ?_⟩
  · obtain ⟨c, hrun, hinv⟩ := fresh_inv.run events hok
    exact ⟨c, hrun, hinv.cleanedOnce⟩
  · rintro ⟨c, hrun, hended, honce⟩
    by_contra hok
    exact (fresh_inv.run_doomed events hok hrun).not_cleanedOnce hended honce

/-- A reset by the peer: nothing is cleaned up. A second Close runs on the destroyed
connection, and a peer that closes behind a Close makes the lambda swap in a coroutine
that has terminated. -/
theorem not_cleaned_once :
    run {} [.runTask, .fetched .failed] = .ok ⟨.terminal, true, true, [], 0, 0⟩ ∧
      run {} [.runTask, .close, .close, .runTask, .runTask] = .error .destroyed ∧
      run {} [.runTask, .close, .fetched .eof, .runTask] = .error .swapInAfterTerminal := by
  decide

end Connection

end DeftRpc.Net
