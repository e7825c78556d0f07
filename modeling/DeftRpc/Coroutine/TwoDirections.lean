import DeftRpc.Coroutine.PollerMirror
import DeftRpc.Foundation.Interleave

/-!
# A reading and a writing coroutine on one socket (Hook.cpp:147-171, Poller.cpp:18-91)

A hooked call that does not block leaves the poller alone, so it is no step. A call
that blocks registers its coroutine and yields; the dispatch of a collected callback
resumes it.
-/

namespace DeftRpc.Coroutine
open DeftRpc.Foundation

def Direction.other : Direction → Direction
  | .read => .write
  | .write => .read

instance (p : Direction → Prop) [DecidablePred p] : Decidable (∀ d, p d) :=
  decidable_of_iff (p .read ∧ p .write)
    ⟨fun h d => by cases d; exacts [h.1, h.2], fun h => ⟨h .read, h .write⟩⟩

def epollErr : ℕ := 8

/-- What the underlying function returns to a resumed call: EAGAIN or EINTR, another error, or a
result. -/
inductive Resumed where
  | blocked
  | failed
  | done
  deriving DecidableEq

/-- `active` are the callbacks collected and not dispatched yet. An exception that leaves a
coroutine ends the program. -/
structure IoPair where
  poller : Poller := {}
  active : List (ℤ × Direction) := []
  suspended : Direction → Bool := fun _ => false
  terminated : Bool := false

inductive IoAct where
  | block (d : Direction) (mayWork : Bool)
  | epollWait (events : List (ℤ × ℕ))
  | dispatch (result : Resumed) (mayWork : Bool)

namespace IoPair

/-- `Scheduler::RegisterRead` or `Scheduler::RegisterWrite`. -/
def register (p : Poller) (d : Direction) (fd : ℤ) (t : TaskOrCoroutine) (mayWork : Bool) :
    Outcome × Poller :=
  match d with
  | .read => p.registerRead fd t mayWork
  | .write => p.registerWrite fd t mayWork

section
variable (fd : ℤ) (coroutine : Direction → ℕ)

/-- The suspended coroutine that the next callback of the batch swaps in. -/
def resumes (s : IoPair) : Option Direction :=
  match s.active with
  | [] => none
  | slot :: _ =>
    match (s.poller.context slot.1).callback slot.2 with
    | .coroutine pointer =>
      if pointer = coroutine .read ∧ s.suspended .read then some .read
      else if pointer = coroutine .write ∧ s.suspended .write then some .write
      else none
    | _ => none

def step (s : IoPair) : IoAct → Option IoPair
  | .block d mayWork =>
    if s.terminated ∨ s.suspended d then none
    else
      let r := register s.poller d fd (.coroutine (coroutine d)) mayWork
      match r.1 with
      | .returned => some { s with poller := r.2, suspended := Function.update s.suspended d true }
      | .thrown _ => some { s with poller := r.2, terminated := true }
  | .epollWait events =>
    if s.terminated ∨ s.active ≠ [] then none
    else some { s with active := s.poller.epollWait events }
  | .dispatch result mayWork =>
    if s.terminated ∨ s.active = [] then none
    else
      match s.resumes coroutine, result with
      | none, _ => some { s with active := s.active.tail }
      | some _, .blocked => some { s with active := s.active.tail }
      | some d, .failed =>
        some { s with active := s.active.tail, suspended := Function.update s.suspended d false }
      | some d, .done =>
        let r := s.poller.cancelRegister fd mayWork
        match r.1 with
        | .returned => some { s with
            poller := r.2, active := s.active.tail, suspended := Function.update s.suspended d false }
        | .thrown _ => some { s with
            poller := r.2, active := s.active.tail, suspended := Function.update s.suspended d false,
            terminated := true }

/-- The entry of `fd` and the kernel have the coroutine of this direction. -/
structure Registered (p : Poller) (d : Direction) : Prop where
  wants : (p.context fd).wants d = true
  callback : (p.context fd).callback d = .coroutine (coroutine d)
  interest : ∃ mask, p.interest fd = some mask ∧ mask &&& d.event ≠ 0

def Kept (s : IoPair) : Prop := ∀ d, s.suspended d = true → Registered fd coroutine s.poller d

/-- The mask reports the direction or an error. -/
def reports (mask : ℕ) (d : Direction) : Bool := mask &&& d.event != 0 || mask &&& epollErr != 0

/-- EpollWait collects the callback of a suspended coroutine only for an event that reports its
direction or an error. -/
def Woken (s : IoPair) : IoAct → Prop
  | .epollWait events => ∀ event ∈ events, event.1 = fd → ∀ d, s.suspended d = true →
      (fd, d) ∈ s.poller.epollWait [event] → reports event.2 d = true
  | .block _ _ => True
  | .dispatch _ _ => True

/-- Events report every direction of their entry or an error; a call completes only while the
other direction is not suspended. -/
def StepOk (s : IoPair) : IoAct → Prop
  | .epollWait events => ∀ event ∈ events, ∀ d,
      (s.poller.context event.1).wants d = true → reports event.2 d = true
  | .block _ _ => True
  | .dispatch result _ => result = .done → ∀ d, s.resumes coroutine = some d →
      s.suspended d.other = false

end

instance (coroutine : Direction → ℕ) (s : IoPair) : ∀ a, Decidable (s.StepOk coroutine a)
  | .epollWait events => inferInstanceAs (Decidable (∀ event ∈ events, ∀ d,
      (s.poller.context event.1).wants d = true → reports event.2 d = true))
  | .dispatch result _ => inferInstanceAs (Decidable (result = .done → ∀ d,
      s.resumes coroutine = some d → s.suspended d.other = false))
  | .block _ _ => .isTrue trivial

/-! ### Registering -/

theorem or_and_ne_zero {a b m : ℕ} : (a ||| b) &&& m ≠ 0 ↔ a &&& m ≠ 0 ∨ b &&& m ≠ 0 := by
  rw [Nat.and_or_distrib_right, ne_eq, Nat.or_eq_zero_iff, not_and_or]

theorem wants_iff (c : RunnableContext) (d : Direction) :
    c.wants d = true ↔ c.mEvent &&& d.event ≠ 0 := by
  cases d <;> simp [RunnableContext.wants, RunnableContext.isReading, RunnableContext.isWriting,
    Direction.event]

/-- What `register` gives to RegisterFd. -/
def request (d : Direction) (fd : ℤ) (t : TaskOrCoroutine) : RunnableContext :=
  Poller.wanted (d = .read) fd t

theorem request_event (d : Direction) (fd : ℤ) (t : TaskOrCoroutine) :
    (request d fd t).mEvent = d.event ∧ (request d fd t).mFd = fd ∧
      (request d fd t).callback d = t.runnable := by
  cases d <;> exact ⟨rfl, rfl, rfl⟩

theorem registered_entry (old : RunnableContext) (d : Direction) (fd : ℤ) (t : TaskOrCoroutine) :
    (Poller.registered old (request d fd t)).callback d = t.runnable ∧
      (old.mEvent ≠ 0 → (Poller.registered old (request d fd t)).callback d.other = old.callback d.other) ∧
      (Poller.registered old (request d fd t)).mEvent = old.mEvent ||| d.event := by
  unfold Poller.registered RunnableContext.isNoneEvent
  by_cases hnone : old.mEvent = 0
  · rw [if_pos (by simp [hnone])]
    refine ⟨(request_event d fd t).2.2, fun h => absurd hnone h, ?_⟩
    rw [(request_event d fd t).1, hnone, Nat.zero_or]
  · rw [if_neg (by simp [hnone])]
    cases d with
    | read =>
      have hread : (request .read fd t).isReading = true := by
        simp [request, Poller.wanted, RunnableContext.isReading, epollIn]
      rw [if_pos hread]
      exact ⟨rfl, fun _ => rfl, rfl⟩
    | write =>
      have hread : (request .write fd t).isReading = false := by
        simp [request, Poller.wanted, RunnableContext.isReading, epollIn, epollOut]
      have hwrite : (request .write fd t).isWriting = true := by
        simp [request, Poller.wanted, RunnableContext.isWriting, epollOut]
      rw [if_neg (by rw [hread]; exact Bool.false_ne_true), if_pos hwrite]
      exact ⟨rfl, fun _ => rfl, rfl⟩

/-- A registration leaves the poller alone, or the entry has the new callback and the kernel has
followed or not. -/
theorem register_cases {p : Poller} (h : p.MirrorInv) (d : Direction) {fd : ℤ} (hfd : 0 ≤ fd)
    (t : TaskOrCoroutine) (mayWork : Bool) :
    (∃ what, register p d fd t mayWork = (.thrown what, p)) ∨
    ∃ q, register p d fd t mayWork =
        (if mayWork then .returned else .thrown "register m_socket_ failed!", q) ∧
      q.context fd = Poller.registered (p.context fd) (request d fd t) ∧
      q.interest fd = (if mayWork then
        some (Poller.registered (p.context fd) (request d fd t)).mEvent else p.interest fd) := by
  have hreq := (request_event d fd t).2.1
  obtain ⟨q, hq, hcontext, hinterest, -⟩ := Poller.registerFd_spec h.pos (request d fd t)
    (by rw [hreq]; exact hfd) mayWork (by rw [hreq]; exact (h.mirror fd hfd).known)
  rw [hreq] at hcontext hinterest
  cases d with
  | read =>
    rw [register, Poller.registerRead_eq p hfd]
    split
    · exact Or.inr ⟨q, hq, hcontext, hinterest⟩
    · exact Or.inl ⟨_, rfl⟩
  | write =>
    rw [register, Poller.registerWrite_eq p fd]
    split
    · exact Or.inr ⟨q, hq, hcontext, hinterest⟩
    · exact Or.inl ⟨_, rfl⟩

variable {fd : ℤ} {coroutine : Direction → ℕ}

/-- The other direction keeps its registration, whatever the kernel answers. -/
theorem Registered.kept {p q : Poller} {d : Direction} (h : Registered fd coroutine p d.other)
    {t : TaskOrCoroutine} {mayWork : Bool}
    (hcontext : q.context fd = Poller.registered (p.context fd) (request d fd t))
    (hinterest : q.interest fd = if mayWork then
      some (Poller.registered (p.context fd) (request d fd t)).mEvent else p.interest fd) :
    Registered fd coroutine q d.other := by
  obtain ⟨-, hcallback, hevent⟩ := registered_entry (p.context fd) d fd t
  have hwants := (wants_iff _ _).mp h.wants
  have hne : (p.context fd).mEvent ≠ 0 := by
    intro hzero
    rw [hzero, Nat.zero_and] at hwants
    exact hwants rfl
  refine ⟨?_, ?_, ?_⟩
  · rw [hcontext, wants_iff, hevent]
    exact or_and_ne_zero.mpr (Or.inl hwants)
  · rw [hcontext, hcallback hne]
    exact h.callback
  · rw [hinterest]
    cases mayWork with
    | false => exact h.interest
    | true =>
      refine ⟨_, rfl, ?_⟩
      rw [hevent]
      exact or_and_ne_zero.mpr (Or.inl hwants)

theorem registered_new {p q : Poller} {d : Direction}
    (hcontext : q.context fd =
      Poller.registered (p.context fd) (request d fd (.coroutine (coroutine d))))
    (hinterest : q.interest fd =
      some (Poller.registered (p.context fd) (request d fd (.coroutine (coroutine d)))).mEvent) :
    Registered fd coroutine q d := by
  obtain ⟨hcallback, -, hevent⟩ := registered_entry (p.context fd) d fd (.coroutine (coroutine d))
  have hself : d.event &&& d.event ≠ 0 := by cases d <;> decide
  refine ⟨?_, ?_, ?_⟩
  · rw [hcontext, wants_iff, hevent]
    exact or_and_ne_zero.mpr (Or.inr hself)
  · rw [hcontext, hcallback]
    rfl
  · refine ⟨_, hinterest, ?_⟩
    rw [hevent]
    exact or_and_ne_zero.mpr (Or.inr hself)

/-! ### The invariant -/

structure PairInv (fd : ℤ) (coroutine : Direction → ℕ) (s : IoPair) : Prop where
  kept : s.Kept fd coroutine
  mirror : s.terminated = false → s.poller.MirrorInv

theorem pairInv_start : PairInv fd coroutine {} where
  kept d h := by cases h
  mirror _ := Poller.fresh_mirrorInv

theorem Kept.resume {s : IoPair} (h : s.Kept fd coroutine) (d : Direction) {active : List (ℤ × Direction)} :
    Kept fd coroutine
      { s with active := active, suspended := Function.update s.suspended d false } := by
  intro d' hd
  dsimp only at hd
  by_cases he : d' = d
  · subst he
    rw [Function.update_self] at hd
    cases hd
  · rw [Function.update_of_ne he] at hd
    exact h d' hd

theorem PairInv.block (hfd : 0 ≤ fd) {s s' : IoPair} (hi : PairInv fd coroutine s) {d : Direction}
    {mayWork : Bool} (h : s.step fd coroutine (.block d mayWork) = some s') :
    PairInv fd coroutine s' := by
  obtain ⟨hgo, h⟩ := Option.ite_none_left_eq_some.mp h
  obtain ⟨hrun, hidle⟩ := not_or.mp hgo
  have hmirror := hi.mirror (by simpa using hrun)
  rcases register_cases hmirror d hfd (.coroutine (coroutine d)) mayWork with
    ⟨what, hthrow⟩ | ⟨q, hq, hcontext, hinterest⟩
  · rw [hthrow] at h
    cases h
    exact ⟨hi.kept, fun ht => by cases ht⟩
  · have hother : ∀ d', d' ≠ d → s.suspended d' = true → Registered fd coroutine q d' := by
      intro d' hne hd
      have he : d' = d.other := by
        cases d <;> cases d' <;> first | rfl | exact absurd rfl hne
      rw [he] at hd ⊢
      exact (hi.kept _ hd).kept hcontext hinterest
    rw [hq] at h
    cases mayWork with
    | false =>
      cases h
      refine ⟨fun d' hd => ?_, fun ht => by cases ht⟩
      have hne : d' ≠ d := by
        intro he
        rw [he] at hd
        exact hidle hd
      exact hother d' hne hd
    | true =>
      cases h
      refine ⟨fun d' hd => ?_, fun _ => ?_⟩
      · dsimp only at hd
        by_cases he : d' = d
        · subst he
          exact registered_new hcontext hinterest
        · rw [Function.update_of_ne he] at hd
          exact hother d' he hd
      · cases d with
        | read =>
          have hcall : (s.poller.call (.registerRead fd (.coroutine (coroutine .read)) true)).2 = q :=
            congrArg Prod.snd hq
          obtain ⟨hiff, hkeep⟩ := Poller.call_mirror hmirror
            (c := .registerRead fd (.coroutine (coroutine .read)) true) hfd
          rw [← hcall]
          exact hkeep (hiff.mpr (Or.inl rfl))
        | write =>
          have hcall : (s.poller.call (.registerWrite fd (.coroutine (coroutine .write)) true)).2 = q :=
            congrArg Prod.snd hq
          obtain ⟨hiff, hkeep⟩ := Poller.call_mirror hmirror
            (c := .registerWrite fd (.coroutine (coroutine .write)) true) hfd
          rw [← hcall]
          exact hkeep (hiff.mpr (Or.inl rfl))

theorem suspended_of_resumes {s : IoPair} {d : Direction} (h : s.resumes coroutine = some d) :
    s.suspended d = true := by
  unfold resumes at h
  split at h
  · cases h
  · split at h
    · split at h
      · next hread =>
        cases h
        exact hread.2
      · split at h
        · next hwrite =>
          cases h
          exact hwrite.2
        · cases h
    · cases h

theorem PairInv.complete (hfd : 0 ≤ fd) {s s' : IoPair} (hi : PairInv fd coroutine s)
    (hrun : s.terminated = false) {d : Direction} (hd : s.resumes coroutine = some d)
    (hother : s.suspended d.other = false) {mayWork : Bool}
    (h : (match (s.poller.cancelRegister fd mayWork).1 with
      | .returned => some { s with
          poller := (s.poller.cancelRegister fd mayWork).2, active := s.active.tail,
          suspended := Function.update s.suspended d false }
      | .thrown _ => some { s with
          poller := (s.poller.cancelRegister fd mayWork).2, active := s.active.tail,
          suspended := Function.update s.suspended d false, terminated := true }) = some s') :
    PairInv fd coroutine s' := by
  have hmirror := hi.mirror hrun
  have hreg := hi.kept d (suspended_of_resumes hd)
  have hwants := (wants_iff _ _).mp hreg.wants
  have hne : (s.poller.context fd).mEvent ≠ 0 := by
    intro hzero
    rw [hzero, Nat.zero_and] at hwants
    exact hwants rfl
  obtain ⟨mask, hmask, -⟩ := hreg.interest
  obtain ⟨q, hq, -⟩ := Poller.cancelRegister_spec hfd hne (by rw [hmask]; rfl) mayWork
  have hnone : ∀ d', ¬Function.update s.suspended d false d' = true := by
    intro d' hd'
    by_cases he : d' = d
    · subst he
      rw [Function.update_self] at hd'
      cases hd'
    · have heq : d' = d.other := by
        cases d <;> cases d' <;> first | rfl | exact absurd rfl he
      rw [Function.update_of_ne he, heq, hother] at hd'
      cases hd'
  cases mayWork with
  | false =>
    rw [hq] at h
    cases h
    exact ⟨fun d' hd' => absurd hd' (hnone d'), fun ht => by cases ht⟩
  | true =>
    obtain ⟨hiff, hkeep⟩ := Poller.call_mirror hmirror (c := .cancelRegister fd true) hfd
    have hnew := hkeep (hiff.mpr (Or.inl rfl))
    simp only [Poller.call] at hnew
    rw [hq] at h hnew
    cases h
    exact ⟨fun d' hd' => absurd hd' (hnone d'), fun _ => hnew⟩

theorem pairInv_step (hfd : 0 ≤ fd) (s : IoPair) (a : IoAct) (s' : IoPair)
    (hi : PairInv fd coroutine s) (hok : s.StepOk coroutine a)
    (h : s.step fd coroutine a = some s') : PairInv fd coroutine s' := by
  cases a with
  | block d mayWork => exact hi.block hfd h
  | epollWait events =>
    obtain ⟨-, h⟩ := Option.ite_none_left_eq_some.mp h
    cases h
    exact ⟨hi.kept, hi.mirror⟩
  | dispatch result mayWork =>
    obtain ⟨hgo, h⟩ := Option.ite_none_left_eq_some.mp h
    obtain ⟨hrun, -⟩ := not_or.mp hgo
    have hrun' : s.terminated = false := by simpa using hrun
    cases hd : s.resumes coroutine with
    | none =>
      rw [hd] at h
      cases h
      exact ⟨hi.kept, hi.mirror⟩
    | some d =>
      rw [hd] at h
      cases result with
      | blocked =>
        cases h
        exact ⟨hi.kept, hi.mirror⟩
      | failed =>
        cases h
        exact ⟨hi.kept.resume d, hi.mirror⟩
      | done => exact hi.complete hfd hrun' hd (hok rfl d hd) h

theorem wants_of_epollWait {p : Poller} {event : ℤ × ℕ} {d : Direction}
    (h : (event.1, d) ∈ p.epollWait [event]) : (p.context event.1).wants d = true := by
  simp only [Poller.epollWait, List.flatMap_cons, List.flatMap_nil, List.append_nil] at h
  rcases List.mem_append.mp h with h | h
  · split at h
    · next hw =>
      cases List.mem_singleton.mp h
      exact hw
    · cases h
  · split at h
    · next hr =>
      cases List.mem_singleton.mp h
      exact hr
    · cases h

theorem woken_of_stepOk {s : IoPair} {a : IoAct} (hok : s.StepOk coroutine a) : s.Woken fd a := by
  cases a with
  | block d mayWork => trivial
  | dispatch result mayWork => trivial
  | epollWait events =>
    intro event hevent _ d _ hslot
    have he : event.1 = fd := by assumption
    rw [← he] at hslot
    exact hok event hevent d (wants_of_epollWait hslot)

/-- In every interleaving of the two coroutines in which events report every direction of their
entry or an error, and in which a call completes only while the other direction is not suspended:
a suspended coroutine keeps its registration, and it is collected only for its direction. -/
theorem directions_kept (fd : ℕ) (coroutine : Direction → ℕ) (as : List IoAct) (s : IoPair)
    (hok : GoodSteps (step fd coroutine) (StepOk coroutine) {} as)
    (h : interleave (step fd coroutine) {} as = some s) :
    s.Kept fd coroutine ∧ GoodSteps (step fd coroutine) (Woken fd) {} as := by
  have hfd : (0 : ℤ) ≤ fd := Int.natCast_nonneg fd
  have hwoken : ∀ s a, StepOk coroutine s a → Woken fd s a := fun s a hs => woken_of_stepOk hs
  constructor
  · exact (goodSteps_invariant (pairInv_step hfd) as {} s pairInv_start hok h).kept
  · exact goodSteps_mono hwoken as {} hok

/-- The events and results of a run in which the writer blocks, is woken for EPOLLOUT and
completes before the reader blocks. -/
def oneAfterOther : List IoAct := [.block .write true, .epollWait [(5, 4)], .dispatch .done true,
  .block .read true, .epollWait [(5, 1)], .dispatch .blocked true]

theorem directions_kept_two :
    ∃ s, interleave (step (5 : ℕ) fun d => if d = .read then 7 else 8) {} oneAfterOther = some s ∧
      (s.suspended .read, s.suspended .write) = (true, false) ∧
      s.Kept (5 : ℕ) (fun d => if d = .read then 7 else 8) ∧
      GoodSteps (step (5 : ℕ) fun d => if d = .read then 7 else 8) (Woken (5 : ℕ)) {} oneAfterOther := by
  have hrun : (interleave (step (5 : ℕ) fun d => if d = .read then 7 else 8) {} oneAfterOther).map
      (fun s => (s.suspended .read, s.suspended .write)) = some (true, false) := by
    decide +kernel
  obtain ⟨s, hs, he⟩ := Option.map_eq_some_iff.mp hrun
  exact ⟨s, hs, he, directions_kept 5 _ oneAfterOther s (by decide +kernel) hs⟩

/-- Both are suspended when EPOLLOUT is reported: both callbacks are collected, and the writer's
completion takes the reader's registration away. -/
theorem reader_loses_registration :
    (interleave (step (5 : ℕ) fun d => if d = .read then 7 else 8) {}
        [.block .read true, .block .write true, .epollWait [(5, 4)]]).map
        (fun s => (s.active, s.suspended .read)) = some ([(5, .write), (5, .read)], true) ∧
      (interleave (step (5 : ℕ) fun d => if d = .read then 7 else 8) {}
        [.block .read true, .block .write true, .epollWait [(5, 4)], .dispatch .done true]).map
        (fun s => (s.suspended .read, s.poller.context 5, s.poller.interest 5)) =
          some (true, {}, none) := by
  decide +kernel

end IoPair

end DeftRpc.Coroutine
