import DeftRpc.Coroutine.ActiveList
import DeftRpc.Coroutine.TwoDirections

/-!
# The loop and its coroutines (Scheduler.cpp:132-157, Poller.cpp:18-91, Hook.cpp:92-196)

Any number of coroutines that are swapped in from the main one and make hooked calls on
sockets; one that would block registers its coroutine and yields. The main one makes no
such call, no coroutine is destroyed or reset while it is away, and nothing else uses the
Poller. A step that calls `epoll_ctl` comes with its answer. A run is followed up to its
first error.
-/

namespace DeftRpc.Coroutine
open DeftRpc.Foundation

/-- A pointer of the batch into a table that is gone, a SwapIn of a coroutine that is not away
in a call, a slot with no callback, an exception of the Poller. -/
inductive LoopError where
  | dangling
  | notWaiting
  | unregistered
  | thrown (what : String)
  deriving DecidableEq

/-- `running` is the coroutine behind the main one in `m_coroutines_list_`, `waits` the fd and the
direction of the call in which a coroutine is away, `left` the fd whose registration a failed call
of the running coroutine has not cancelled. -/
structure EventLoop where
  poller : Poller := {}
  block : ℕ := 0
  active : List RunnablePtr := []
  running : Option ℕ := none
  waits : ℕ → Option (ℤ × Direction) := fun _ => none
  left : Option ℤ := none
  error : Option LoopError := none

/-- `swapIn` is what a task of the loop does, `yield` is a Yield without a registration or
Terminal. -/
inductive LoopAct where
  | swapIn (c : ℕ)
  | block (fd : ℤ) (d : Direction) (mayWork : Bool)
  | yield
  | close (fd : ℤ) (mayWork : Bool)
  | epollWait (events : List (ℤ × ℕ))
  | dispatch (result : Resumed) (mayWork : Bool)
  deriving DecidableEq

namespace EventLoop

def setWaits (s : EventLoop) (c : ℕ) (w : Option (ℤ × Direction)) : EventLoop :=
  { s with waits := fun other => if other = c then w else s.waits other }

/-- A larger table is another block of memory. -/
def setPoller (s : EventLoop) (poller : Poller) : EventLoop :=
  { s with poller := poller, block := if poller.size = s.poller.size then s.block else s.block + 1 }

/-- A hooked call that would block, of the running coroutine `c`. -/
def blockOn (s : EventLoop) (c : ℕ) (fd : ℤ) (d : Direction) (mayWork : Bool) : EventLoop :=
  let r := IoPair.register s.poller d fd (.coroutine c) mayWork
  let s := s.setPoller r.2
  match r.1 with
  | .returned => { s with running := none }.setWaits c (some (fd, d))
  | .thrown what => { s with error := some (.thrown what) }

/-- CancelRegister and its exception. -/
def cancel (s : EventLoop) (fd : ℤ) (mayWork : Bool) : EventLoop :=
  let r := s.poller.cancelRegister fd mayWork
  let s := s.setPoller r.2
  match r.1 with
  | .returned => if s.left = some fd then { s with left := none } else s
  | .thrown what => { s with error := some (.thrown what) }

/-- SwapIn of `c`, which goes on behind the Yield of its call. -/
def resume (s : EventLoop) (c : ℕ) (result : Resumed) (mayWork : Bool) : EventLoop :=
  match s.waits c with
  | none => { s with error := some .notWaiting }
  | some (fd, _) =>
    match result with
    | .blocked => s
    | .failed => { s with running := some c, left := some fd }.setWaits c none
    | .done => ({ s with running := some c }.setWaits c none).cancel fd mayWork

/-- The callback behind a pointer of the batch. -/
def target (s : EventLoop) (p : RunnablePtr) : Runnable := (s.poller.context p.fd).callback p.direction

def dispatch (s : EventLoop) (p : RunnablePtr) (rest : List RunnablePtr) (result : Resumed)
    (mayWork : Bool) : EventLoop :=
  if p.block ≠ s.block then { s with error := some .dangling }
  else
    let s' := { s with active := rest }
    match s.target p with
    | .coroutine c => s'.resume c result mayWork
    | .task _ => s'
    | .monostate => { s' with error := some .unregistered }

def step (s : EventLoop) (a : LoopAct) : Option EventLoop :=
  if s.error.isSome then none
  else
    match a with
    | .swapIn c => if s.running = none then some { s with running := some c } else none
    | .block fd d mayWork => s.running.map fun c => s.blockOn c fd d mayWork
    | .yield => if s.running.isSome then some { s with running := none } else none
    | .close fd mayWork => some (s.cancel fd mayWork)
    | .epollWait events =>
      if s.running = none ∧ s.active = [] ∧ (events.map Prod.fst).Nodup ∧
          ∀ e ∈ events, 0 ≤ e.1 ∧ (s.poller.interest e.1).isSome = true then
        some { s with active := (s.poller.epollWait events).map fun slot => ⟨s.block, slot.1, slot.2⟩ }
      else none
    | .dispatch result mayWork =>
      match s.running, s.active with
      | none, p :: rest => some (s.dispatch p rest result mayWork)
      | _, _ => none

/-- The event fd and the timer fd, with the tasks of the constructor of the Scheduler. -/
def start (eventFd timerFd : ℤ) : EventLoop :=
  { poller := ((({} : Poller).registerRead eventFd (.task 0) true).2.registerRead timerFd (.task 1) true).2 }

/-- Nobody waits for the fd, and no registration is left there. -/
def Free (eventFd timerFd : ℤ) (s : EventLoop) (fd : ℤ) : Prop :=
  fd ≠ eventFd ∧ fd ≠ timerFd ∧ ∀ c d, s.waits c ≠ some (fd, d)

/-- `epoll_ctl` succeeds, and no fd is negative. An fd belongs to one coroutine, which closes it
after a call that has failed. While pointers are left, no fd is registered that lies behind the
table. A task swaps in no coroutine that is away in a call. -/
def StepOk (eventFd timerFd : ℤ) (s : EventLoop) : LoopAct → Prop
  | .swapIn c => s.waits c = none
  | .block fd _ mayWork => mayWork = true ∧ 0 ≤ fd ∧ Free eventFd timerFd s fd ∧ s.left = none ∧
      (s.active = [] ∨ fd < int32 s.poller.size)
  | .yield => s.left = none
  | .close fd mayWork => mayWork = true ∧ 0 ≤ fd ∧ Free eventFd timerFd s fd
  | .epollWait _ => True
  | .dispatch _ mayWork => mayWork = true

/-! ### What is registered -/

/-- The entry of `fd` and the interest of the kernel have one registration or none. -/
def At (p : Poller) (fd : ℤ) : Option (Direction × TaskOrCoroutine) → Prop
  | none => p.context fd = {} ∧ p.interest fd = none
  | some (d, t) => p.context fd = IoPair.request d fd t ∧ p.interest fd = some d.event

theorem slot_of_empty {p : Poller} {fd : ℤ} (hfd : 0 ≤ fd) {slot : Option (Direction × TaskOrCoroutine)}
    (hat : At p fd slot) (hempty : p.context fd = {}) : slot = none := by
  cases slot with
  | none => rfl
  | some entry =>
    obtain ⟨hcontext, -⟩ := hat
    have hneg : (-1 : ℤ) = fd := by
      rw [← (IoPair.request_event entry.1 fd entry.2).2.1, ← hcontext, hempty]
    omega

structure Slots (eventFd timerFd : ℤ) (s : EventLoop) (slots : ℤ → Option (Direction × TaskOrCoroutine)) :
    Prop where
  error : s.error = none
  size : 0 < s.poller.size
  table : ∀ fd, 0 ≤ fd → At s.poller fd (slots fd)
  event : slots eventFd = some (.read, .task 0)
  timer : slots timerFd = some (.read, .task 1)
  waits : ∀ c fd d, s.waits c = some (fd, d) → 0 ≤ fd ∧ slots fd = some (d, .coroutine c)
  owned : ∀ fd d c, slots fd = some (d, .coroutine c) → s.waits c = some (fd, d) ∨ s.left = some fd
  running : ∀ c, s.running = some c → s.waits c = none
  tasks : ∀ fd d n, slots fd = some (d, .task n) → fd = eventFd ∨ fd = timerFd
  left : ∀ fd, s.left = some fd → 0 ≤ fd ∧ s.running.isSome = true ∧ ∃ d c, slots fd = some (d, .coroutine c)
  active : ∀ p ∈ s.active, p.block = s.block ∧ 0 ≤ p.fd ∧ s.left ≠ some p.fd ∧
    ∃ t, slots p.fd = some (p.direction, t)
  nodup : (s.active.map RunnablePtr.fd).Nodup

def setSlot (slots : ℤ → Option (Direction × TaskOrCoroutine)) (fd : ℤ)
    (slot : Option (Direction × TaskOrCoroutine)) : ℤ → Option (Direction × TaskOrCoroutine) :=
  fun other => if other = fd then slot else slots other

theorem table_set {p q : Poller} {fd : ℤ} {slots : ℤ → Option (Direction × TaskOrCoroutine)}
    {slot : Option (Direction × TaskOrCoroutine)} (htable : ∀ fd, 0 ≤ fd → At p fd (slots fd))
    (hfd : At q fd slot) (hother : ∀ fd', 0 ≤ fd' → fd' ≠ fd → Poller.SameAt fd' p q) :
    ∀ fd', 0 ≤ fd' → At q fd' (setSlot slots fd slot fd') := by
  intro fd' hpos
  by_cases he : fd' = fd
  · rw [he, setSlot, if_pos rfl]
    exact hfd
  · obtain ⟨hcontext, hinterest⟩ := hother fd' hpos he
    have hat := htable fd' hpos
    rw [setSlot, if_neg he]
    unfold At at hat ⊢
    rw [hcontext, hinterest]
    exact hat

/-- A registration where nothing is registered. -/
theorem register_free {p : Poller} (hp : 0 < p.size) {fd : ℤ} (hfd : 0 ≤ fd) (hat : At p fd none)
    (d : Direction) (t : TaskOrCoroutine) :
    ∃ q, IoPair.register p d fd t true = (.returned, q) ∧ At q fd (some (d, t)) ∧ 0 < q.size ∧
      (q.size = p.size ↔ fd < int32 p.size) ∧
      ∀ fd', 0 ≤ fd' → fd' ≠ fd → Poller.SameAt fd' p q := by
  obtain ⟨hcontext, hinterest⟩ := hat
  have hreq := (IoPair.request_event d fd t).2.1
  have hnew : Poller.registered (p.context fd) (IoPair.request d fd t) = IoPair.request d fd t := by
    rw [hcontext]
    rfl
  obtain ⟨q, hq, hqcontext, hqinterest, hpos, hother⟩ := Poller.registerFd_spec hp (IoPair.request d fd t)
    (by rw [hreq]; exact hfd) true (by rw [hreq, hcontext, hinterest]; rfl)
  rw [hreq] at hqcontext hqinterest hother
  have hcall : IoPair.register p d fd t true = p.registerFd (IoPair.request d fd t) true := by
    cases d with
    | read =>
      rw [IoPair.register, Poller.registerRead_eq p hfd, hcontext]
      exact if_pos (Or.inr rfl)
    | write =>
      rw [IoPair.register, Poller.registerWrite_eq p fd, hcontext]
      exact if_pos (Or.inr rfl)
  have hsize : (p.registerFd (IoPair.request d fd t) true).2.size = p.size ↔ fd < int32 p.size := by
    have hiff := (Batch.register_size hp fd (IoPair.request d fd t) hreq true (Or.inr (Or.inr rfl))).2
    rw [hiff]
    omega
  rw [hq] at hsize
  rw [hnew] at hqcontext hqinterest
  refine ⟨q, hcall.trans hq, ⟨hqcontext, ?_⟩, hpos, hsize, hother⟩
  rw [hqinterest, if_pos rfl, (IoPair.request_event d fd t).1]

theorem request_wants (d d' : Direction) (fd : ℤ) (t : TaskOrCoroutine) :
    (IoPair.request d fd t).wants d' = decide (d' = d) := by
  cases d <;> cases d' <;> simp [IoPair.request, Poller.wanted, RunnableContext.wants,
    RunnableContext.isReading, RunnableContext.isWriting, epollIn, epollOut]

theorem request_coroutine {d d' : Direction} {fd : ℤ} {t : TaskOrCoroutine} {c : ℕ}
    (h : (IoPair.request d' fd t).callback d = .coroutine c) : d = d' ∧ t = .coroutine c := by
  cases d <;> cases d' <;> cases t <;> cases h <;> exact ⟨rfl, rfl⟩

/-- CancelRegister on an fd with one registration or none. -/
theorem cancel_at {p : Poller} {fd : ℤ} (hfd : 0 ≤ fd)
    {slot : Option (Direction × TaskOrCoroutine)} (hat : At p fd slot) :
    ∃ q, p.cancelRegister fd true = (.returned, q) ∧ At q fd none ∧ q.size = p.size ∧
      ∀ fd', 0 ≤ fd' → fd' ≠ fd → Poller.SameAt fd' p q := by
  cases slot with
  | none => exact ⟨p, Poller.cancelRegister_empty hfd hat.1 true, hat, rfl, fun _ _ _ => ⟨rfl, rfl⟩⟩
  | some entry =>
    obtain ⟨d, t⟩ := entry
    obtain ⟨hcontext, hinterest⟩ := hat
    have hevent : (p.context fd).mEvent ≠ 0 := by
      rw [hcontext, (IoPair.request_event d fd t).1]
      cases d <;> decide
    obtain ⟨q, hq, hqcontext, hqinterest, -, hother⟩ :=
      Poller.cancelRegister_spec hfd hevent (by rw [hinterest]; rfl) true
    have hsize := Batch.cancelRegister_size p fd true
    rw [hq] at hsize
    exact ⟨q, hq, ⟨hqcontext, hqinterest⟩, hsize, hother⟩

/-! ### What a step leaves alone -/

theorem cancel_other (s : EventLoop) (fd : ℤ) (mayWork : Bool) :
    (s.cancel fd mayWork).active = s.active ∧ (s.cancel fd mayWork).waits = s.waits ∧
      (s.left = none → (s.cancel fd mayWork).left = none) := by
  unfold cancel setPoller
  dsimp only
  split
  · split
    · exact ⟨rfl, rfl, fun _ => rfl⟩
    · exact ⟨rfl, rfl, id⟩
  · exact ⟨rfl, rfl, id⟩

theorem cancel_size (s : EventLoop) (fd : ℤ) (mayWork : Bool) :
    (s.cancel fd mayWork).poller.size = s.poller.size := by
  have hsize := Batch.cancelRegister_size s.poller fd mayWork
  unfold cancel setPoller
  dsimp only
  split
  · split <;> exact hsize
  · exact hsize

theorem blockOn_other (s : EventLoop) {c c' : ℕ} (hne : c' ≠ c) (fd : ℤ) (d : Direction)
    (mayWork : Bool) : (s.blockOn c fd d mayWork).active = s.active ∧
      (s.blockOn c fd d mayWork).waits c' = s.waits c' := by
  unfold blockOn setPoller setWaits
  dsimp only
  split
  · exact ⟨rfl, if_neg hne⟩
  · exact ⟨rfl, rfl⟩

theorem blockOn_left (s : EventLoop) (c : ℕ) (fd : ℤ) (d : Direction) (mayWork : Bool) :
    (s.blockOn c fd d mayWork).left = s.left := by
  unfold blockOn setPoller setWaits
  dsimp only
  split <;> rfl

theorem resume_other (s : EventLoop) {c c' : ℕ} (hne : c' ≠ c) (result : Resumed) (mayWork : Bool) :
    (s.resume c result mayWork).active = s.active ∧
      (s.resume c result mayWork).waits c' = s.waits c' := by
  unfold resume
  split
  · exact ⟨rfl, rfl⟩
  · split
    · exact ⟨rfl, rfl⟩
    · exact ⟨rfl, if_neg hne⟩
    · rw [(cancel_other _ _ _).1, (cancel_other _ _ _).2.1]
      exact ⟨rfl, if_neg hne⟩

/-! ### The steps -/

section Steps
variable {eventFd timerFd : ℤ} {s : EventLoop} {slots : ℤ → Option (Direction × TaskOrCoroutine)}

theorem Slots.block {c : ℕ} {fd : ℤ} {d : Direction} (h : Slots eventFd timerFd s slots)
    (hrun : s.running = some c) (hok : StepOk eventFd timerFd s (.block fd d true)) :
    Slots eventFd timerFd (s.blockOn c fd d true) (setSlot slots fd (some (d, .coroutine c))) := by
  obtain ⟨-, hfd, ⟨hevent, htimer, hfree⟩, hleft, hfits⟩ := hok
  have hwait := h.running c hrun
  have hslot : slots fd = none := by
    cases hs : slots fd with
    | none => rfl
    | some entry =>
      obtain ⟨d', t⟩ := entry
      cases t with
      | coroutine c' =>
        rcases h.owned fd d' c' hs with hw | hl
        · exact absurd hw (hfree c' d')
        · rw [hleft] at hl
          cases hl
      | task n =>
        rcases h.tasks fd d' n hs with he | he
        · exact absurd he hevent
        · exact absurd he htimer
  have hat := h.table fd hfd
  rw [hslot] at hat
  obtain ⟨q, hq, hqat, hpos, hsize, hother⟩ := register_free h.size hfd hat d (.coroutine c)
  have hblock : s.active = [] ∨ q.size = s.poller.size := hfits.imp id hsize.mpr
  simp only [blockOn, hq, setPoller, setWaits]
  exact {
    error := h.error
    size := hpos
    table := table_set h.table hqat hother
    event := by rw [setSlot, if_neg (Ne.symm hevent)]; exact h.event
    timer := by rw [setSlot, if_neg (Ne.symm htimer)]; exact h.timer
    waits := by
      have hw := h.waits
      intro c' fd' d'
      grind [setSlot]
    owned := by
      have ho := h.owned
      intro fd' d' c'
      grind [setSlot]
    running := by
      intro c' hc
      cases hc
    tasks := by
      have ht := h.tasks
      intro fd' d' n
      grind [setSlot]
    left := by
      intro fd' hl
      rw [hleft] at hl
      cases hl
    active := by
      intro p hp
      obtain ⟨hb, hpos', hl, t, ht⟩ := h.active p hp
      have hne : p.fd ≠ fd := by
        intro he
        rw [he, hslot] at ht
        cases ht
      refine ⟨?_, hpos', hl, t, ?_⟩
      · rcases hblock with hnil | hsame
        · rw [hnil] at hp
          cases hp
        · rw [if_pos hsame]
          exact hb
      · rw [setSlot, if_neg hne]
        exact ht
    nodup := h.nodup }

/-- A pointer of the batch leads to a task or to the coroutine that waits there. -/
theorem Slots.target {p : RunnablePtr} (h : Slots eventFd timerFd s slots) (hp : p ∈ s.active) :
    (∃ n, s.target p = .task n ∧ slots p.fd = some (p.direction, .task n)) ∨
      ∃ c, s.target p = .coroutine c ∧ s.waits c = some (p.fd, p.direction) := by
  obtain ⟨-, hpos, hleft, t, ht⟩ := h.active p hp
  have hat := h.table p.fd hpos
  rw [ht] at hat
  have htarget : s.target p = t.runnable := by
    rw [EventLoop.target, hat.1]
    exact (IoPair.request_event _ _ _).2.2
  cases t with
  | task n => exact Or.inl ⟨n, htarget, ht⟩
  | coroutine c =>
    rcases h.owned p.fd p.direction c ht with hw | hl
    · exact Or.inr ⟨c, htarget, hw⟩
    · exact absurd hl hleft

theorem Slots.cancel {fd : ℤ} (h : Slots eventFd timerFd s slots) (hfd : 0 ≤ fd)
    (hfree : Free eventFd timerFd s fd) :
    Slots eventFd timerFd (s.cancel fd true) (setSlot slots fd none) := by
  obtain ⟨hevent, htimer, hnobody⟩ := hfree
  obtain ⟨q, hq, hqat, hsize, hother⟩ := cancel_at hfd (h.table fd hfd)
  have hactive : ∀ p ∈ s.active, p.fd ≠ fd := by
    intro p hp he
    rcases h.target hp with ⟨n, -, hslot⟩ | ⟨c, -, hw⟩
    · rcases h.tasks p.fd p.direction n hslot with ho | ho
      · exact hevent (he.symm.trans ho)
      · exact htimer (he.symm.trans ho)
    · rw [he] at hw
      exact hnobody c p.direction hw
  obtain ⟨s', hs'⟩ : ∃ s', s' = s.cancel fd true := ⟨_, rfl⟩
  have hcancel : s' = { s with poller := q, left := if s.left = some fd then none else s.left } := by
    rw [hs', EventLoop.cancel, hq]
    simp only [setPoller, hsize, if_true]
    split <;> rfl
  rw [← hs', hcancel]
  exact {
    error := h.error
    size := by rw [hsize]; exact h.size
    table := table_set h.table hqat hother
    event := by rw [setSlot, if_neg (Ne.symm hevent)]; exact h.event
    timer := by rw [setSlot, if_neg (Ne.symm htimer)]; exact h.timer
    waits := by
      have hw := h.waits
      intro c fd' d
      grind [setSlot]
    owned := by
      have ho := h.owned
      intro fd' d c
      grind [setSlot]
    running := h.running
    tasks := by
      have ht := h.tasks
      intro fd' d n
      grind [setSlot]
    left := by
      have hl := h.left
      intro fd'
      grind [setSlot]
    active := by
      have ha := h.active
      intro p hp
      have hne := hactive p hp
      grind [setSlot]
    nodup := h.nodup }

theorem Slots.left_none (h : Slots eventFd timerFd s slots) (hrun : s.running = none) : s.left = none := by
  cases hl : s.left with
  | none => rfl
  | some fd =>
    have hsome := (h.left fd hl).2.1
    rw [hrun] at hsome
    cases hsome

/-- A coroutine that comes back and leaves its registration. -/
theorem Slots.comeBack {c : ℕ} {fd : ℤ} {d : Direction} (h : Slots eventFd timerFd s slots)
    (hrun : s.running = none) (hw : s.waits c = some (fd, d)) (hnot : ∀ p ∈ s.active, p.fd ≠ fd) :
    Slots eventFd timerFd ({ s with running := some c, left := some fd }.setWaits c none) slots := by
  have hleft := h.left_none hrun
  obtain ⟨hpos, hslot⟩ := h.waits c _ _ hw
  exact {
    error := h.error
    size := h.size
    table := h.table
    event := h.event
    timer := h.timer
    waits := by
      have hw' := h.waits
      intro c' fd' d'
      grind [setWaits]
    owned := by
      have ho := h.owned
      intro fd' d' c'
      grind [setWaits]
    running := by
      intro c'
      grind [setWaits]
    tasks := h.tasks
    left := by
      intro fd' hl
      cases hl
      exact ⟨hpos, rfl, d, c, hslot⟩
    active := by
      intro p hp
      obtain ⟨hb, hpos', -, ht⟩ := h.active p hp
      refine ⟨hb, hpos', ?_, ht⟩
      intro he
      exact hnot p hp (Option.some.inj he).symm
    nodup := h.nodup }

/-- The registration that it would have left is the one that is cancelled. -/
theorem Slots.cancel_left {c : ℕ} {fd : ℤ} (h : Slots eventFd timerFd s slots) (hrun : s.running = none)
    (hfd : 0 ≤ fd) : ({ s with running := some c }.setWaits c none).cancel fd true =
      ({ s with running := some c, left := some fd }.setWaits c none).cancel fd true := by
  obtain ⟨q, hq, -⟩ := cancel_at hfd (h.table fd hfd)
  simp only [EventLoop.cancel, setWaits, hq, setPoller, h.left_none hrun, if_true, reduceCtorEq, if_false]

theorem Slots.completed {c : ℕ} {fd : ℤ} {d : Direction} (h : Slots eventFd timerFd s slots)
    (hrun : s.running = none) (hw : s.waits c = some (fd, d)) (hnot : ∀ p ∈ s.active, p.fd ≠ fd) :
    Slots eventFd timerFd (({ s with running := some c }.setWaits c none).cancel fd true)
      (setSlot slots fd none) := by
  have hback := h.comeBack hrun hw hnot
  obtain ⟨hpos, hslot⟩ := h.waits c _ _ hw
  have hfree : Free eventFd timerFd ({ s with running := some c, left := some fd }.setWaits c none) fd := by
    refine ⟨?_, ?_, ?_⟩
    · intro he
      have hevent := h.event
      rw [← he, hslot] at hevent
      simp at hevent
    · intro he
      have htimer := h.timer
      rw [← he, hslot] at htimer
      simp at htimer
    · intro c' d' hc'
      obtain ⟨-, hother⟩ := hback.waits c' _ _ hc'
      rw [hslot] at hother
      cases hother
      simp [setWaits] at hc'
  rw [h.cancel_left hrun hpos]
  exact hback.cancel hpos hfree

theorem Slots.tail {p : RunnablePtr} {rest : List RunnablePtr} (h : Slots eventFd timerFd s slots)
    (hactive : s.active = p :: rest) : Slots eventFd timerFd { s with active := rest } slots := by
  have hnodup := h.nodup
  rw [hactive, List.map_cons, List.nodup_cons] at hnodup
  exact { h with
    active := by
      intro p' hp'
      exact h.active p' (by rw [hactive]; exact List.mem_cons_of_mem p hp')
    nodup := hnodup.2 }

theorem Slots.dispatch {p : RunnablePtr} {rest : List RunnablePtr} (h : Slots eventFd timerFd s slots)
    (hrun : s.running = none) (hactive : s.active = p :: rest) (result : Resumed) :
    ∃ slots', Slots eventFd timerFd (s.dispatch p rest result true) slots' := by
  have hp : p ∈ s.active := by
    rw [hactive]
    exact List.mem_cons_self
  have htail := h.tail hactive
  have hblock := (h.active p hp).1
  rcases h.target hp with ⟨n, htarget, -⟩ | ⟨c, htarget, hw⟩
  · refine ⟨slots, ?_⟩
    simp only [EventLoop.dispatch, hblock, ne_eq, not_true_eq_false, if_false, htarget]
    exact htail
  · have hnot : ∀ p' ∈ rest, p'.fd ≠ p.fd := by
      have hnodup := h.nodup
      rw [hactive, List.map_cons, List.nodup_cons] at hnodup
      intro p' hp' he
      exact hnodup.1 (he ▸ List.mem_map_of_mem hp')
    simp only [EventLoop.dispatch, hblock, ne_eq, not_true_eq_false, if_false, htarget, resume, hw]
    cases result with
    | blocked => exact ⟨slots, htail⟩
    | failed => exact ⟨slots, htail.comeBack hrun hw hnot⟩
    | done => exact ⟨_, htail.completed hrun hw hnot⟩

/-- Each event on a registered fd gives one callback. -/
theorem epollWait_fds {p : Poller} {events : List (ℤ × ℕ)}
    (h : ∀ e ∈ events, ∃ d t, p.context e.1 = IoPair.request d e.1 t) :
    (p.epollWait events).map Prod.fst = events.map Prod.fst ∧
      ∀ slot ∈ p.epollWait events, (p.context slot.1).wants slot.2 = true := by
  induction events with
  | nil => exact ⟨rfl, fun _ h => absurd h List.not_mem_nil⟩
  | cons e events ih =>
    obtain ⟨hfds, hwants⟩ := ih fun e' he' => h e' (List.mem_cons_of_mem e he')
    obtain ⟨d, t, hcontext⟩ := h e List.mem_cons_self
    have hone : p.epollWait [e] = [(e.1, d)] := by
      have hread := request_wants d .read e.1 t
      have hwrite := request_wants d .write e.1 t
      rw [← hcontext] at hread hwrite
      simp only [RunnableContext.wants] at hread hwrite
      simp only [Poller.epollWait, List.flatMap_cons, List.flatMap_nil, List.append_nil, hread, hwrite]
      cases d <;> rfl
    have hsplit : p.epollWait (e :: events) = p.epollWait [e] ++ p.epollWait events := by
      simp only [Poller.epollWait, List.flatMap_cons, List.flatMap_nil, List.append_nil]
    rw [hsplit, hone, List.singleton_append]
    refine ⟨by rw [List.map_cons, List.map_cons, hfds], ?_⟩
    intro slot hslot
    rcases List.mem_cons.mp hslot with rfl | hslot
    · rw [hcontext, request_wants]
      exact decide_eq_true rfl
    · exact hwants slot hslot

theorem Slots.epollWait {events : List (ℤ × ℕ)} (h : Slots eventFd timerFd s slots)
    (hrun : s.running = none) (hevents : (events.map Prod.fst).Nodup)
    (hknown : ∀ e ∈ events, 0 ≤ e.1 ∧ (s.poller.interest e.1).isSome = true) :
    Slots eventFd timerFd { s with
      active := (s.poller.epollWait events).map fun slot => ⟨s.block, slot.1, slot.2⟩ } slots := by
  have hslots : ∀ e ∈ events, ∃ d t, slots e.1 = some (d, t) := by
    intro e he
    obtain ⟨hpos, hsome⟩ := hknown e he
    have hat := h.table e.1 hpos
    cases hs : slots e.1 with
    | none =>
      rw [hs] at hat
      rw [hat.2] at hsome
      cases hsome
    | some entry => exact ⟨entry.1, entry.2, rfl⟩
  have hcontexts : ∀ e ∈ events, ∃ d t, s.poller.context e.1 = IoPair.request d e.1 t := by
    intro e he
    obtain ⟨d, t, hs⟩ := hslots e he
    have hat := h.table e.1 (hknown e he).1
    rw [hs] at hat
    exact ⟨d, t, hat.1⟩
  obtain ⟨hfds, hwants⟩ := epollWait_fds hcontexts
  exact { h with
    active := by
      intro p hp
      obtain ⟨slot, hslot, rfl⟩ := List.mem_map.mp hp
      have hmem : slot.1 ∈ events.map Prod.fst := by
        rw [← hfds]
        exact List.mem_map_of_mem hslot
      obtain ⟨e, he, hfst⟩ := List.mem_map.mp hmem
      obtain ⟨d, t, hs⟩ := hslots e he
      have hpos := (hknown e he).1
      have hat := h.table e.1 hpos
      rw [hs] at hat
      have hw := hwants slot hslot
      rw [hfst] at hs hpos hat
      rw [hat.1, request_wants, decide_eq_true_iff] at hw
      refine ⟨rfl, hpos, ?_, t, hw ▸ hs⟩
      rw [h.left_none hrun]
      exact Option.some_ne_none _ ∘ Eq.symm
    nodup := by
      have hmap : ((s.poller.epollWait events).map fun slot =>
          (⟨s.block, slot.1, slot.2⟩ : RunnablePtr)).map RunnablePtr.fd = events.map Prod.fst := by
        rw [List.map_map, ← hfds]
        rfl
      rw [hmap]
      exact hevents }

theorem Slots.step {a : LoopAct} {s' : EventLoop} (h : Slots eventFd timerFd s slots)
    (hok : StepOk eventFd timerFd s a) (hstep : s.step a = some s') :
    ∃ slots', Slots eventFd timerFd s' slots' := by
  have hgoes : ¬ s.error.isSome = true := by
    rw [h.error]
    exact Bool.false_ne_true
  unfold EventLoop.step at hstep
  rw [if_neg hgoes] at hstep
  cases a with
  | swapIn c =>
    obtain ⟨hrun, hstep⟩ := Option.ite_none_right_eq_some.mp hstep
    cases hstep
    have hleft := h.left_none hrun
    refine ⟨slots, { h with
      running := ?_
      left := ?_ }⟩
    · intro c' hc
      cases hc
      exact hok
    · intro fd hl
      rw [hleft] at hl
      cases hl
  | block fd d mayWork =>
    obtain ⟨c, hrun, rfl⟩ := Option.map_eq_some_iff.mp hstep
    obtain rfl : mayWork = true := hok.1
    exact ⟨_, h.block hrun hok⟩
  | yield =>
    obtain ⟨-, hstep⟩ := Option.ite_none_right_eq_some.mp hstep
    cases hstep
    have hleft : s.left = none := hok
    refine ⟨slots, { h with
      running := ?_
      left := ?_ }⟩
    · intro c hc
      cases hc
    · intro fd hl
      rw [hleft] at hl
      cases hl
  | close fd mayWork =>
    cases hstep
    obtain ⟨rfl, hfd, hfree⟩ := hok
    exact ⟨_, h.cancel hfd hfree⟩
  | epollWait events =>
    obtain ⟨⟨hrun, -, hevents, hknown⟩, hstep⟩ := Option.ite_none_right_eq_some.mp hstep
    cases hstep
    exact ⟨slots, h.epollWait hrun hevents hknown⟩
  | dispatch result mayWork =>
    obtain rfl : mayWork = true := hok
    cases hrun : s.running with
    | some c =>
      rw [hrun] at hstep
      cases hstep
    | none =>
      cases hactive : s.active with
      | nil =>
        rw [hrun, hactive] at hstep
        cases hstep
      | cons p rest =>
        rw [hrun, hactive] at hstep
        cases hstep
        exact h.dispatch hrun hactive result

theorem slots_start (hevent : 0 ≤ eventFd) (htimer : 0 ≤ timerFd) (hne : eventFd ≠ timerFd) :
    ∃ slots, Slots eventFd timerFd (start eventFd timerFd) slots := by
  have hfresh : ∀ fd, 0 ≤ fd → At {} fd none := fun fd _ => ⟨Poller.fresh_context fd, rfl⟩
  obtain ⟨p, hp, hpat, hppos, -, hpother⟩ :=
    register_free Poller.fresh_mirrorInv.pos hevent (hfresh eventFd hevent) .read (.task 0)
  have htable := table_set hfresh hpat hpother
  have hfree : At p timerFd none := by
    have hat := htable timerFd htimer
    rw [setSlot, if_neg (Ne.symm hne)] at hat
    exact hat
  obtain ⟨q, hq, hqat, hqpos, -, hqother⟩ := register_free hppos htimer hfree .read (.task 1)
  have hstart : start eventFd timerFd = { poller := q } := by
    have hp' : ({} : Poller).registerRead eventFd (.task 0) true = (.returned, p) := hp
    have hq' : p.registerRead timerFd (.task 1) true = (.returned, q) := hq
    rw [start, hp', hq']
  rw [hstart]
  exact ⟨_, {
    error := rfl
    size := hqpos
    table := table_set htable hqat hqother
    event := by simp [setSlot, hne]
    timer := by simp [setSlot]
    waits := by
      intro c fd d hw
      cases hw
    owned := by
      intro fd d c
      grind [setSlot]
    running := fun c hc => rfl
    tasks := by
      intro fd d n
      grind [setSlot]
    left := by
      intro fd hl
      cases hl
    active := by
      intro p' hp'
      cases hp'
    nodup := List.nodup_nil }⟩

end Steps

/-! ### Every run -/

/-- A pointer into the table that is there now, to a task or to a coroutine that waits for it. -/
def LeadsOn (s : EventLoop) (p : RunnablePtr) : Prop :=
  p.block = s.block ∧ ((∃ n, s.target p = .task n) ∨
    ∃ c, s.target p = .coroutine c ∧ s.waits c = some (p.fd, p.direction))

section Runs
variable {eventFd timerFd : ℤ} {s : EventLoop} {slots : ℤ → Option (Direction × TaskOrCoroutine)}

theorem Slots.mirror (h : Slots eventFd timerFd s slots) : s.poller.Mirror := by
  intro fd hfd
  have hat := h.table fd hfd
  cases hs : slots fd with
  | none =>
    rw [hs] at hat
    rw [hat.1, hat.2]
    exact Poller.Mirrors.empty fd
  | some entry =>
    obtain ⟨d, t⟩ := entry
    rw [hs] at hat
    have hnew := (Poller.Mirrors.empty fd).register List.mem_cons_self (decide (d = .read)) t
    have hevent := (IoPair.request_event d fd t).1
    rw [hat.1, hat.2, ← hevent]
    exact hnew.2.2

theorem Slots.registered {c : ℕ} {fd : ℤ} {d : Direction} (h : Slots eventFd timerFd s slots)
    (hw : s.waits c = some (fd, d)) : IoPair.Registered fd (fun _ => c) s.poller d := by
  obtain ⟨hfd, hslot⟩ := h.waits c fd d hw
  have hat := h.table fd hfd
  rw [hslot] at hat
  refine ⟨?_, ?_, d.event, hat.2, ?_⟩
  · rw [hat.1, request_wants]
    exact decide_eq_true rfl
  · rw [hat.1]
    exact (IoPair.request_event d fd _).2.2
  · cases d <;> decide

theorem Slots.run {as : List LoopAct} {s' : EventLoop} (h : Slots eventFd timerFd s slots)
    (hok : GoodSteps EventLoop.step (StepOk eventFd timerFd) s as)
    (hrun : interleave EventLoop.step s as = some s') : ∃ slots', Slots eventFd timerFd s' slots' := by
  have hkeep : ∀ s a s', (∃ slots, Slots eventFd timerFd s slots) → StepOk eventFd timerFd s a →
      s.step a = some s' → ∃ slots', Slots eventFd timerFd s' slots' := by
    intro s a s' hs ha hstep
    obtain ⟨slots, hs⟩ := hs
    exact hs.step ha hstep
  exact goodSteps_invariant hkeep as s s' ⟨slots, h⟩ hok hrun

theorem eventLoop_safe (hevent : 0 ≤ eventFd) (htimer : 0 ≤ timerFd) (hne : eventFd ≠ timerFd)
    {as : List LoopAct} (hok : GoodSteps step (StepOk eventFd timerFd) (start eventFd timerFd) as)
    (hrun : interleave step (start eventFd timerFd) as = some s) :
    s.error = none ∧ s.poller.Mirror ∧ (∀ p ∈ s.active, s.LeadsOn p) ∧
      (∀ c fd d, s.waits c = some (fd, d) → IoPair.Registered fd (fun _ => c) s.poller d) ∧
      ∀ fd d c, 0 ≤ fd → (s.poller.context fd).callback d = .coroutine c →
        s.waits c = some (fd, d) ∨ s.left = some fd := by
  obtain ⟨slots0, h0⟩ := slots_start hevent htimer hne
  obtain ⟨slots, h⟩ := h0.run hok hrun
  refine ⟨h.error, h.mirror, ?_, fun c fd d hw => h.registered hw, ?_⟩
  · intro p hp
    refine ⟨(h.active p hp).1, ?_⟩
    rcases h.target hp with ⟨n, htarget, -⟩ | hw
    · exact Or.inl ⟨n, htarget⟩
    · exact Or.inr hw
  · intro fd d c hfd hcallback
    have hat := h.table fd hfd
    cases hs : slots fd with
    | none =>
      rw [hs] at hat
      rw [hat.1] at hcallback
      cases d <;> cases hcallback
    | some entry =>
      obtain ⟨d', t⟩ := entry
      rw [hs] at hat
      rw [hat.1] at hcallback
      obtain ⟨rfl, rfl⟩ := request_coroutine hcallback
      exact h.owned fd d c hs

/-- Coroutine 7 blocks, and its fd is reported. -/
theorem eventLoop_safe_one : ∃ s, interleave step (start 4 3) [.swapIn 7, .block 5 .read true,
      .epollWait [(5, 1)]] = some s ∧ (s.running, s.active.map RunnablePtr.fd) = (none, [5]) ∧
    s.error = none ∧ s.poller.Mirror ∧ (∀ p ∈ s.active, s.LeadsOn p) ∧
      (∀ c fd d, s.waits c = some (fd, d) → IoPair.Registered fd (fun _ => c) s.poller d) ∧
      ∀ fd d c, 0 ≤ fd → (s.poller.context fd).callback d = .coroutine c →
        s.waits c = some (fd, d) ∨ s.left = some fd := by
  have hrun : (interleave step (start 4 3) [.swapIn 7, .block 5 .read true, .epollWait [(5, 1)]]).map
      (fun s => (s.running, s.active.map RunnablePtr.fd)) = some (none, [5]) := by
    decide +kernel
  obtain ⟨s, hs, he⟩ := Option.map_eq_some_iff.mp hrun
  have hfree : Free 4 3 { start 4 3 with running := some 7 } 5 := by
    refine ⟨by decide, by decide, ?_⟩
    intro c d h
    cases h
  have hok : GoodSteps step (StepOk 4 3) (start 4 3) [.swapIn 7, .block 5 .read true, .epollWait [(5, 1)]] :=
    goodSteps_cons rfl rfl (goodSteps_cons ⟨rfl, by decide, hfree, rfl, Or.inl rfl⟩ rfl (goodSteps_one trivial))
  exact ⟨s, hs, he, eventLoop_safe (by decide) (by decide) (by decide) hok hs⟩

/-- The coroutine that the next turn of the loop over the batch swaps in. -/
def resumes (s : EventLoop) : Option ℕ :=
  match s.active with
  | [] => none
  | p :: _ =>
    match s.target p with
    | .coroutine c => some c
    | _ => none

/-- `c` waits for an fd that has been reported. -/
structure Due (s : EventLoop) (c : ℕ) (fd : ℤ) (d : Direction) : Prop where
  waits : s.waits c = some (fd, d)
  active : ∃ p ∈ s.active, p.fd = fd

/-- A due coroutine is the next one that is swapped in, or it is still due. -/
theorem Slots.due {a : LoopAct} {s' : EventLoop} {c : ℕ} {fd : ℤ} {d : Direction}
    (h : Slots eventFd timerFd s slots) (hdue : s.Due c fd d) (hstep : s.step a = some s') :
    (∃ result mayWork, a = .dispatch result mayWork ∧ s.resumes = some c) ∨ s'.Due c fd d := by
  obtain ⟨hw, p, hp, hpfd⟩ := hdue
  have hgoes : ¬ s.error.isSome = true := by
    rw [h.error]
    exact Bool.false_ne_true
  unfold EventLoop.step at hstep
  rw [if_neg hgoes] at hstep
  cases a with
  | swapIn c' =>
    obtain ⟨-, hstep⟩ := Option.ite_none_right_eq_some.mp hstep
    cases hstep
    exact Or.inr ⟨hw, p, hp, hpfd⟩
  | block fd' d' mayWork =>
    obtain ⟨c', hrun, rfl⟩ := Option.map_eq_some_iff.mp hstep
    have hne : c ≠ c' := by
      rintro rfl
      rw [h.running c hrun] at hw
      cases hw
    obtain ⟨hactive, hwaits⟩ := s.blockOn_other hne fd' d' mayWork
    exact Or.inr ⟨hwaits.trans hw, p, hactive ▸ hp, hpfd⟩
  | yield =>
    obtain ⟨-, hstep⟩ := Option.ite_none_right_eq_some.mp hstep
    cases hstep
    exact Or.inr ⟨hw, p, hp, hpfd⟩
  | close fd' mayWork =>
    cases hstep
    obtain ⟨hactive, hwaits, -⟩ := s.cancel_other fd' mayWork
    exact Or.inr ⟨hwaits ▸ hw, p, hactive ▸ hp, hpfd⟩
  | epollWait events =>
    obtain ⟨⟨-, hnil, -⟩, -⟩ := Option.ite_none_right_eq_some.mp hstep
    rw [hnil] at hp
    cases hp
  | dispatch result mayWork =>
    cases hrun : s.running with
    | some c' =>
      rw [hrun] at hstep
      cases hstep
    | none =>
      cases hactive : s.active with
      | nil =>
        rw [hactive] at hp
        cases hp
      | cons first rest =>
        rw [hrun, hactive] at hstep
        cases hstep
        have hfirst : first ∈ s.active := by
          rw [hactive]
          exact List.mem_cons_self
        by_cases he : first.fd = fd
        · left
          refine ⟨result, mayWork, rfl, ?_⟩
          obtain ⟨-, hslot⟩ := h.waits c fd d hw
          rcases h.target hfirst with ⟨n, -, hother⟩ | ⟨c', htarget, hw'⟩
          · rw [he, hslot] at hother
            simp at hother
          · obtain ⟨-, hother⟩ := h.waits c' _ _ hw'
            rw [he, hslot] at hother
            simp only [Option.some.injEq, Prod.mk.injEq, TaskOrCoroutine.coroutine.injEq] at hother
            simp only [resumes, hactive, htarget, hother.2]
        · right
          have hrest : p ∈ rest := by
            rw [hactive] at hp
            rcases List.mem_cons.mp hp with rfl | hp
            · exact absurd hpfd he
            · exact hp
          have hblock := (h.active first hfirst).1
          simp only [EventLoop.dispatch, hblock, ne_eq, not_true_eq_false, if_false]
          rcases h.target hfirst with ⟨n, htarget, -⟩ | ⟨c', htarget, hw'⟩
          · rw [htarget]
            exact ⟨hw, p, hrest, hpfd⟩
          · have hne : c ≠ c' := by
              rintro rfl
              rw [hw] at hw'
              simp only [Option.some.injEq, Prod.mk.injEq] at hw'
              exact he hw'.1.symm
            rw [htarget]
            obtain ⟨hsame, hwaits⟩ := ({ s with active := rest } : EventLoop).resume_other hne result mayWork
            exact ⟨hwaits.trans hw, p, hsame ▸ hrest, hpfd⟩

/-- The coroutines whose fds are reported are due behind `epoll_wait`. -/
theorem Slots.due_of_events {events : List (ℤ × ℕ)} {s' : EventLoop} {c : ℕ} {fd : ℤ} {d : Direction}
    (h : Slots eventFd timerFd s slots) (hw : s.waits c = some (fd, d))
    (hstep : s.step (.epollWait events) = some s') (hfd : fd ∈ events.map Prod.fst) : s'.Due c fd d := by
  have hgoes : ¬ s.error.isSome = true := by
    rw [h.error]
    exact Bool.false_ne_true
  unfold EventLoop.step at hstep
  rw [if_neg hgoes] at hstep
  obtain ⟨-, hstep⟩ := Option.ite_none_right_eq_some.mp hstep
  cases hstep
  obtain ⟨e, he, rfl⟩ := List.mem_map.mp hfd
  have hwants := (h.registered hw).wants
  have hmem : (e.1, d) ∈ s.poller.epollWait events := by
    simp only [Poller.epollWait, List.mem_flatMap]
    refine ⟨e, he, ?_⟩
    cases d with
    | write =>
      have hwriting : (s.poller.context e.1).isWriting = true := hwants
      rw [if_pos hwriting]
      exact List.mem_append_left _ (List.mem_singleton_self _)
    | read =>
      have hreading : (s.poller.context e.1).isReading = true := hwants
      rw [if_pos hreading]
      exact List.mem_append_right _ (List.mem_singleton_self _)
  exact ⟨hw, _, List.mem_map_of_mem hmem, rfl⟩

theorem wakeUp_not_lost (hevent : 0 ≤ eventFd) (htimer : 0 ≤ timerFd) (hne : eventFd ≠ timerFd)
    {before later : List LoopAct} {events : List (ℤ × ℕ)} {s1 s2 : EventLoop} {c : ℕ} {fd : ℤ} {d : Direction}
    (hok : GoodSteps step (StepOk eventFd timerFd) (start eventFd timerFd) before)
    (hrun : interleave step (start eventFd timerFd) before = some s) (hw : s.waits c = some (fd, d))
    (hwait : s.step (.epollWait events) = some s1) (hfd : fd ∈ events.map Prod.fst)
    (hlater : GoodSteps step (StepOk eventFd timerFd) s1 later)
    (hrest : interleave step s1 later = some s2) (hall : s2.active = []) :
    ∃ pre result mayWork post t, later = pre ++ .dispatch result mayWork :: post ∧
      interleave step s1 pre = some t ∧ t.resumes = some c := by
  obtain ⟨slots0, h0⟩ := slots_start hevent htimer hne
  obtain ⟨slots, h⟩ := h0.run hok hrun
  have hdue := h.due_of_events hw hwait hfd
  have h1 : ∃ slots, Slots eventFd timerFd s1 slots := h.step (a := .epollWait events) trivial hwait
  have hkeep : ∀ s a s', (∃ slots, Slots eventFd timerFd s slots) → StepOk eventFd timerFd s a →
      s.step a = some s' → ∃ slots', Slots eventFd timerFd s' slots' := by
    intro s a s' hs ha hstep
    obtain ⟨slots, hs⟩ := hs
    exact hs.step ha hstep
  have huntil : ∀ s a s', (∃ slots, Slots eventFd timerFd s slots) → s.Due c fd d → s.step a = some s' →
      (∃ result mayWork, a = .dispatch result mayWork ∧ s.resumes = some c) ∨ s'.Due c fd d := by
    intro s a s' hs hdue hstep
    obtain ⟨slots, hs⟩ := hs
    exact hs.due hdue hstep
  rcases goodSteps_until hkeep huntil later s1 s2 h1 hdue hlater hrest with hend | hfound
  · obtain ⟨p, hp, -⟩ := hend.active
    rw [hall] at hp
    cases hp
  · obtain ⟨pre, a, post, t, hsplit, hpre, result, mayWork, rfl, hresumes⟩ := hfound
    exact ⟨pre, result, mayWork, post, t, hsplit, hpre, hresumes⟩

theorem wakeUp_not_lost_one : ∃ s s1 s2, interleave step (start 4 3) [.swapIn 7, .block 5 .read true] = some s ∧
    s.step (.epollWait [(5, 1)]) = some s1 ∧ interleave step s1 [.dispatch .done true] = some s2 ∧
    ∃ pre result mayWork post t, [LoopAct.dispatch .done true] = pre ++ .dispatch result mayWork :: post ∧
      interleave step s1 pre = some t ∧ t.resumes = some 7 := by
  have hrun : ((interleave step (start 4 3) [.swapIn 7, .block 5 .read true]).bind fun s =>
      (s.step (.epollWait [(5, 1)])).bind fun s1 => (interleave step s1 [.dispatch .done true]).map fun s2 =>
        (s.waits 7, s2.active.isEmpty)) = some (some (5, .read), true) := by
    decide +kernel
  obtain ⟨s, hs, hrun⟩ := Option.bind_eq_some_iff.mp hrun
  obtain ⟨s1, hs1, hrun⟩ := Option.bind_eq_some_iff.mp hrun
  obtain ⟨s2, hs2, he⟩ := Option.map_eq_some_iff.mp hrun
  obtain ⟨hw, hempty⟩ := Prod.mk.inj he
  have hfree : Free 4 3 { start 4 3 with running := some 7 } 5 := by
    refine ⟨by decide, by decide, ?_⟩
    intro c d h
    cases h
  have hok : GoodSteps step (StepOk 4 3) (start 4 3) [.swapIn 7, .block 5 .read true] :=
    goodSteps_cons rfl rfl (goodSteps_one ⟨rfl, by decide, hfree, rfl, Or.inl rfl⟩)
  exact ⟨s, s1, s2, hs, hs1, hs2, wakeUp_not_lost (by decide) (by decide) (by decide) hok hs hw hs1
    List.mem_cons_self (goodSteps_one rfl) hs2 (List.isEmpty_iff.mp hempty)⟩

end Runs

end EventLoop

end DeftRpc.Coroutine
