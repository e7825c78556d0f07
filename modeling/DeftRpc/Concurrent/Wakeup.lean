import DeftRpc.Concurrent.Scheduler

/-!
# No lost wakeup

Once the loop has seen an empty count behind its last store of EpollWait, a
call that counts its task later reads that state and notifies. What can wait
behind an unsignalled event fd is a task whose count was used up for one
inserted before it, and then the call that inserted that one is still to notify:
the order of the insertions is left to the next module.
-/

namespace DeftRpc.Concurrent
open DeftRpc.Foundation

variable {ι κ : Type}

/-- A call that has counted its task and may still notify. -/
def DeferPc.pending : DeferPc → Prop
  | .loadState | .notify => True
  | _ => False

/-- A call that has stored m_stop_ and has not returned. -/
def StopPc.pending : StopPc → Prop
  | .loadState | .notify => True
  | _ => False

namespace LoopPc

def state : LoopPc → SchedulerState
  | .storeRunning | .enterEpollWait | .stopped => .doNothing
  | .loadStop | .epollWait | .enterHandleActiveFd _ | .loadEmpty | .notify | .enterDoNothing => .epollWait
  | .handleActiveFd _ | .enterHandleExtraState => .handleActiveFd
  | .loadSize | .dequeue | .subSize | .emptyTask | .reenterEpollWait => .handleExtraState

/-- From the check of Empty() to the next return of epoll_wait. -/
def checked : LoopPc → Prop
  | .storeRunning | .enterEpollWait | .loadStop | .epollWait | .enterDoNothing | .stopped => True
  | _ => False

def dequeuing : LoopPc → Prop
  | .dequeue | .subSize => True
  | _ => False

/-- From a return of epoll_wait to the next check of Empty(), outside of Dequeue. -/
def handling : LoopPc → Prop
  | .enterHandleActiveFd _ | .handleActiveFd _ | .enterHandleExtraState | .loadSize
  | .reenterEpollWait | .loadEmpty | .notify => True
  | _ => False

/-- Elements taken off the queue and not off the count. -/
def uncounted : LoopPc → ℕ
  | .subSize => 1
  | _ => 0

theorem asleep_of_checked {pc : LoopPc} (h : pc.checked) : pc.state.asleep = true := by
  cases pc <;> first | rfl | exact h.elim

theorem uncounted_eq_zero {pc : LoopPc} (h : ¬ pc.dequeuing) : pc.uncounted = 0 := by
  cases pc with
  | subSize => exact absurd trivial h
  | _ => rfl

theorem not_dequeuing_of_handling {pc : LoopPc} (h : pc.handling) : ¬ pc.dequeuing := by
  cases pc <;> first | exact id | exact h.elim

theorem not_dequeuing_of_checked {pc : LoopPc} (h : pc.checked) : ¬ pc.dequeuing := by
  cases pc <;> first | exact id | exact h.elim

end LoopPc

namespace Scheduler

/-- `inserted` are the calls that have inserted their task and not counted it. -/
structure WakeInv (s : Scheduler ι κ) (inserted : Finset ι) : Prop where
  state : s.mState = s.loop.state
  member : ∀ i, i ∈ inserted ↔ s.defers i = .addSize
  size : s.mSize + inserted.card = s.mExtraTasks.length + s.loop.uncounted
  nonneg : 0 ≤ s.mSize
  positive : s.loop.dequeuing → 1 ≤ s.mSize
  full : s.loop ≠ .emptyTask
  deferred : s.loop.checked → 0 < s.size → 0 < s.mEventFd ∨ ∃ i, (s.defers i).pending
  stopping : s.loop = .epollWait → s.mStop = true → 0 < s.mEventFd ∨ ∃ k, (s.stops k).pending

theorem wakeInv_start : WakeInv ({} : Scheduler ι κ) ∅ where
  state := rfl
  member i := by simp
  size := rfl
  nonneg := le_refl 0
  positive h := h.elim
  full h := by cases h
  deferred _ h := absurd h (lt_irrefl (0 : ℤ))
  stopping h := by cases h

theorem writeEventFd_pos (s : Scheduler ι κ) : 0 < s.writeEventFd.mEventFd := by
  simp only [writeEventFd]
  split <;> omega

/-! ### Calls of AddDefer -/

section
variable [DecidableEq ι]

theorem pending_setDefer {s : Scheduler ι κ} {i : ι} {pc : DeferPc}
    (h : ∃ j, (s.defers j).pending) (hkeep : (s.defers i).pending → pc.pending) :
    ∃ j, ((s.setDefer i pc).defers j).pending := by
  obtain ⟨j, hj⟩ := h
  by_cases hji : j = i
  · subst hji
    exact ⟨j, by simpa [setDefer] using hkeep hj⟩
  · exact ⟨j, by simpa [setDefer, Function.update_of_ne hji] using hj⟩

theorem WakeInv.addDefer {s : Scheduler ι κ} {inserted : Finset ι} (hi : WakeInv s inserted) {i : ι}
    {s' : Scheduler ι κ} (h : s.addDefer i = some s') : ∃ inserted', WakeInv s' inserted' := by
  have hsize := hi.size
  unfold Scheduler.addDefer at h
  cases hpc : s.defers i with
  | insert =>
    simp only [hpc, Option.some.injEq] at h
    subst h
    have hnot : i ∉ inserted := by
      rw [hi.member, hpc]
      exact fun h => by cases h
    refine ⟨insert i inserted, hi.state, ?_, ?_, hi.nonneg, hi.positive, hi.full, ?_, hi.stopping⟩
    · intro j
      by_cases hj : j = i
      · simp [hj, setDefer]
      · simp [hj, setDefer, hi.member]
    · simp only [setDefer, Finset.card_insert_of_notMem hnot, List.length_append,
        List.length_singleton]
      push_cast
      omega
    · intro hc hpos
      refine (hi.deferred hc hpos).imp id fun hp => ?_
      refine pending_setDefer (s := { s with mExtraTasks := s.mExtraTasks ++ [i] }) hp ?_
      intro hp'
      simp [hpc, DeferPc.pending] at hp'
  | addSize =>
    simp only [hpc, Option.some.injEq] at h
    subst h
    have hin : i ∈ inserted := (hi.member i).mpr hpc
    have hcard : (inserted.erase i).card + 1 = inserted.card := Finset.card_erase_add_one hin
    have hnonneg := hi.nonneg
    refine ⟨inserted.erase i, hi.state, ?_, ?_, ?_, ?_, hi.full, ?_, hi.stopping⟩
    · intro j
      by_cases hj : j = i
      · simp [hj, setDefer]
      · simp [hj, setDefer, hi.member]
    · simp only [setDefer]
      omega
    · simp only [setDefer]
      omega
    · intro hd
      simp only [setDefer]
      omega
    · exact fun _ _ => Or.inr ⟨i, by simp [setDefer, DeferPc.pending]⟩
  | loadState =>
    simp only [hpc, Option.some.injEq] at h
    subst h
    refine ⟨inserted, hi.state, ?_, hi.size, hi.nonneg, hi.positive, hi.full, ?_, hi.stopping⟩
    · intro j
      by_cases hj : j = i
      · subst hj
        simp only [setDefer, Function.update_self, hi.member, hpc]
        split <;> simp
      · simp [hj, setDefer, hi.member]
    · intro hc _
      have hasleep : s.mState.asleep = true := by
        rw [hi.state]
        exact LoopPc.asleep_of_checked hc
      exact Or.inr ⟨i, by simp [setDefer, hasleep, DeferPc.pending]⟩
  | notify =>
    simp only [hpc, Option.some.injEq] at h
    subst h
    refine ⟨inserted, hi.state, ?_, hi.size, hi.nonneg, hi.positive, hi.full, ?_, ?_⟩
    · intro j
      by_cases hj : j = i
      · subst hj
        simp [setDefer, hi.member, hpc]
      · simp [hj, setDefer, writeEventFd, hi.member]
    · exact fun _ _ => Or.inl s.writeEventFd_pos
    · exact fun _ _ => Or.inl s.writeEventFd_pos
  | returned =>
    simp only [hpc] at h
    cases h

end

/-! ### Calls of Stop -/

section
variable [DecidableEq κ]

theorem pending_setStop {s : Scheduler ι κ} {k : κ} {pc : StopPc}
    (h : ∃ j, (s.stops j).pending) (hkeep : (s.stops k).pending → pc.pending) :
    ∃ j, ((s.setStop k pc).stops j).pending := by
  obtain ⟨j, hj⟩ := h
  by_cases hjk : j = k
  · subst hjk
    exact ⟨j, by simpa [setStop] using hkeep hj⟩
  · exact ⟨j, by simpa [setStop, Function.update_of_ne hjk] using hj⟩

theorem WakeInv.stop {s : Scheduler ι κ} {inserted : Finset ι} (hi : WakeInv s inserted) {k : κ}
    {s' : Scheduler ι κ} (h : s.stop k = some s') : WakeInv s' inserted := by
  unfold Scheduler.stop at h
  cases hpc : s.stops k with
  | loadStop =>
    simp only [hpc, Option.some.injEq] at h
    subst h
    refine ⟨hi.state, hi.member, hi.size, hi.nonneg, hi.positive, hi.full, hi.deferred, ?_⟩
    intro hw hs
    refine (hi.stopping hw hs).imp id fun hp => pending_setStop hp ?_
    intro hp'
    simp [hpc, StopPc.pending] at hp'
  | storeStop =>
    simp only [hpc, Option.some.injEq] at h
    subst h
    exact ⟨hi.state, hi.member, hi.size, hi.nonneg, hi.positive, hi.full, hi.deferred,
      fun _ _ => Or.inr ⟨k, by simp [setStop, StopPc.pending]⟩⟩
  | loadState =>
    simp only [hpc, Option.some.injEq] at h
    subst h
    refine ⟨hi.state, hi.member, hi.size, hi.nonneg, hi.positive, hi.full, hi.deferred, ?_⟩
    intro hw _
    have hstate : s.mState = .epollWait := by
      have hloop : s.loop = .epollWait := hw
      rw [hi.state, hloop]
      rfl
    exact Or.inr ⟨k, by simp [setStop, hstate, StopPc.pending]⟩
  | notify =>
    simp only [hpc, Option.some.injEq] at h
    subst h
    exact ⟨hi.state, hi.member, hi.size, hi.nonneg, hi.positive, hi.full,
      fun _ _ => Or.inl s.writeEventFd_pos, fun _ _ => Or.inl s.writeEventFd_pos⟩
  | returned =>
    simp only [hpc] at h
    cases h

end

/-! ### The loop -/

/-- A step of the loop outside of Dequeue. -/
structure Moves (s s' : Scheduler ι κ) : Prop where
  tasks : s'.mExtraTasks = s.mExtraTasks
  count : s'.mSize = s.mSize
  defers : s'.defers = s.defers
  uncounted : s'.loop.uncounted = s.loop.uncounted
  state : s'.mState = s'.loop.state
  positive : s'.loop.dequeuing → 0 < s.size
  full : s'.loop ≠ .emptyTask
  checked : s'.loop.checked →
    (s.loop.checked ∧ s'.mEventFd = s.mEventFd) ∨ 0 < s'.mEventFd ∨ s.size = 0
  stopping : s'.loop = .epollWait → s'.mStop = false

/-- Nothing is asked of the event fd until Empty() is checked again. -/
theorem Moves.handling {s : Scheduler ι κ} {loop : LoopPc} {state : SchedulerState} {eventFd : ℕ}
    (hfrom : ¬ s.loop.dequeuing) (hto : loop.handling) (hstate : state = loop.state) :
    Moves s { s with mState := state, mEventFd := eventFd, loop := loop } where
  tasks := rfl
  count := rfl
  defers := rfl
  uncounted := (LoopPc.uncounted_eq_zero (LoopPc.not_dequeuing_of_handling hto)).trans
    (LoopPc.uncounted_eq_zero hfrom).symm
  state := hstate
  positive hd := absurd hd (LoopPc.not_dequeuing_of_handling hto)
  full he := by cases loop <;> first | exact hto.elim | cases he
  checked hc := by cases loop <;> first | exact hc.elim | exact hto.elim
  stopping hw := by cases loop <;> first | exact hto.elim | cases hw

theorem Moves.checked_pc {s : Scheduler ι κ} {loop : LoopPc} {state : SchedulerState} {stop : Bool}
    {eventFd : ℕ} (hfrom : ¬ s.loop.dequeuing) (hto : loop.checked) (hstate : state = loop.state)
    (hseen : (s.loop.checked ∧ eventFd = s.mEventFd) ∨ 0 < eventFd ∨ s.size = 0)
    (hstop : loop = .epollWait → stop = false) :
    Moves s { s with mStop := stop, mState := state, mEventFd := eventFd, loop := loop } where
  tasks := rfl
  count := rfl
  defers := rfl
  uncounted := (LoopPc.uncounted_eq_zero (LoopPc.not_dequeuing_of_checked hto)).trans
    (LoopPc.uncounted_eq_zero hfrom).symm
  state := hstate
  positive hd := absurd hd (LoopPc.not_dequeuing_of_checked hto)
  full he := by cases loop <;> first | exact hto.elim | cases he
  checked _ := hseen
  stopping := hstop

theorem start_moves {s s' : Scheduler ι κ} (hstate : s.mState = s.loop.state)
    (hfull : s.loop ≠ .emptyTask) (hout : ¬ s.loop.dequeuing) {ready : Ready}
    (h : s.start ready = some s') : Moves s s' := by
  unfold Scheduler.start at h
  cases hpc : s.loop with
  | storeRunning =>
    rw [hpc] at hstate
    simp only [hpc, Option.some.injEq] at h
    subst h
    exact .checked_pc hout trivial hstate (Or.inl ⟨by rw [hpc]; trivial, rfl⟩) fun hw => by cases hw
  | enterEpollWait =>
    simp only [hpc, Option.some.injEq] at h
    subst h
    exact .checked_pc hout trivial rfl (Or.inl ⟨by rw [hpc]; trivial, rfl⟩) fun hw => by cases hw
  | loadStop =>
    rw [hpc] at hstate
    simp only [hpc, Option.some.injEq] at h
    subst h
    have hseen : s.loop.checked ∧ s.mEventFd = s.mEventFd := ⟨by rw [hpc]; trivial, rfl⟩
    cases hstop : s.mStop with
    | true => exact .checked_pc hout trivial hstate (Or.inl hseen) fun hw => by cases hw
    | false => exact .checked_pc hout trivial hstate (Or.inl hseen) fun _ => rfl
  | epollWait =>
    rw [hpc] at hstate
    cases ready with
    | eventFd =>
      by_cases hreadable : 0 < s.mEventFd
      · simp only [hpc, if_pos hreadable, Option.some.injEq] at h
        subst h
        exact .handling hout trivial hstate
      · simp only [hpc, if_neg hreadable, reduceCtorEq] at h
    | otherFd =>
      simp only [hpc, Option.some.injEq] at h
      subst h
      exact .handling hout trivial hstate
    | none =>
      simp only [hpc, Option.some.injEq] at h
      subst h
      exact .checked_pc hout trivial hstate (Or.inl ⟨by rw [hpc]; trivial, rfl⟩) fun hw => by cases hw
  | enterHandleActiveFd eventFd =>
    simp only [hpc, Option.some.injEq] at h
    subst h
    exact .handling hout trivial rfl
  | handleActiveFd eventFd =>
    rw [hpc] at hstate
    simp only [hpc, Option.some.injEq] at h
    subst h
    exact .handling hout trivial hstate
  | enterHandleExtraState =>
    simp only [hpc, Option.some.injEq] at h
    subst h
    exact .handling hout trivial rfl
  | loadSize =>
    rw [hpc] at hstate
    simp only [hpc, Option.some.injEq] at h
    subst h
    by_cases hmore : 0 < s.size
    · -- The only way into Dequeue.
      rw [if_pos hmore]
      refine ⟨rfl, rfl, rfl, (LoopPc.uncounted_eq_zero hout).symm, hstate, fun _ => hmore, ?_, fun hc => hc.elim, ?_⟩
      · intro he
        cases he
      · intro hw
        cases hw
    · rw [if_neg hmore]
      exact .handling hout trivial hstate
  | dequeue | subSize => exact absurd (by rw [hpc]; trivial) hout
  | emptyTask => exact absurd hpc hfull
  | reenterEpollWait =>
    simp only [hpc, Option.some.injEq] at h
    subst h
    exact .handling hout trivial rfl
  | loadEmpty =>
    rw [hpc] at hstate
    simp only [hpc, Option.some.injEq] at h
    subst h
    by_cases hempty : s.size = 0
    · rw [if_pos hempty]
      exact .checked_pc hout trivial hstate (Or.inr (Or.inr hempty)) fun hw => by cases hw
    · rw [if_neg hempty]
      exact .handling hout trivial hstate
  | notify =>
    rw [hpc] at hstate
    simp only [hpc, Option.some.injEq] at h
    subst h
    exact .checked_pc hout trivial hstate (Or.inr (Or.inl s.writeEventFd_pos)) fun hw => by cases hw
  | enterDoNothing =>
    simp only [hpc, Option.some.injEq] at h
    subst h
    exact .checked_pc hout trivial rfl (Or.inl ⟨by rw [hpc]; trivial, rfl⟩) fun hw => by cases hw
  | stopped =>
    simp only [hpc] at h
    cases h

theorem WakeInv.move {s s' : Scheduler ι κ} {inserted : Finset ι} (hi : WakeInv s inserted)
    (h : Moves s s') : WakeInv s' inserted where
  state := h.state
  member i := by rw [h.defers]; exact hi.member i
  size := by rw [h.count, h.tasks, h.uncounted]; exact hi.size
  nonneg := h.count ▸ hi.nonneg
  positive hd := by
    have hnonneg := hi.nonneg
    have hpos := h.positive hd
    unfold Scheduler.size at hpos
    rw [h.count]
    omega
  full := h.full
  deferred hc hpos := by
    have hsize : s'.size = s.size := congrArg (· % 4294967296) h.count
    rw [hsize] at hpos
    rcases h.checked hc with ⟨hold, hfd⟩ | hsignalled | hempty
    · rw [hfd, h.defers]
      exact hi.deferred hold hpos
    · exact Or.inl hsignalled
    · omega
  stopping hw hs := by
    rw [h.stopping hw] at hs
    cases hs

theorem WakeInv.start {s : Scheduler ι κ} {inserted : Finset ι} (hi : WakeInv s inserted)
    {ready : Ready} {s' : Scheduler ι κ} (h : s.start ready = some s') : WakeInv s' inserted := by
  by_cases hout : ¬ s.loop.dequeuing
  · exact hi.move (start_moves hi.state hi.full hout h)
  have hstate := hi.state
  have hsize := hi.size
  have hnonneg := hi.nonneg
  have hpos := hi.positive (not_not.mp hout)
  unfold Scheduler.start at h
  cases hpc : s.loop with
  | dequeue =>
    rw [hpc] at hstate hsize
    have hcard : (0 : ℤ) ≤ inserted.card := Int.natCast_nonneg _
    cases htasks : s.mExtraTasks with
    | nil =>
      -- The count is positive, so some inserted task is still there.
      rw [htasks] at hsize
      simp only [List.length_nil, LoopPc.uncounted, Nat.cast_zero] at hsize
      omega
    | cons i tasks =>
      simp only [hpc, htasks, Option.some.injEq] at h
      subst h
      refine ⟨hstate, hi.member, ?_, hnonneg, fun _ => hpos, nofun, fun hc => hc.elim,
        fun hw => by cases hw⟩
      rw [htasks] at hsize
      simp only [List.length_cons, LoopPc.uncounted] at hsize ⊢
      push_cast at hsize ⊢
      omega
  | subSize =>
    rw [hpc] at hstate hsize
    simp only [hpc, Option.some.injEq] at h
    subst h
    refine ⟨hstate, hi.member, ?_, ?_, fun hd => hd.elim, nofun, fun hc => hc.elim,
      fun hw => by cases hw⟩
    · simp only [LoopPc.uncounted] at hsize ⊢
      push_cast at hsize ⊢
      omega
    · dsimp only
      omega
  | _ => exact absurd (by rw [hpc]; exact id) hout

/-! ### Every interleaving -/

section
variable [DecidableEq ι] [DecidableEq κ]

theorem wakeInv_step (s : Scheduler ι κ) (a : SchedulerAct ι κ) (s' : Scheduler ι κ)
    (hi : ∃ inserted, WakeInv s inserted) (h : s.step a = some s') :
    ∃ inserted, WakeInv s' inserted := by
  obtain ⟨inserted, hi⟩ := hi
  cases a with
  | addDefer i => exact hi.addDefer h
  | stop k => exact ⟨inserted, hi.stop h⟩
  | loop ready => exact ⟨inserted, hi.start h⟩

/-- Whenever the loop is blocked behind a positive Size(), the event fd is readable or a call
that has counted its task has yet to notify. -/
theorem blocked_with_size (as : List (SchedulerAct ι κ)) (s : Scheduler ι κ)
    (h : interleave step {} as = some s) (hblocked : s.loop = .epollWait) (hsize : 0 < s.size) :
    0 < s.mEventFd ∨ ∃ i, (s.defers i).pending := by
  obtain ⟨inserted, hi⟩ := interleave_invariant wakeInv_step as {} s ⟨∅, wakeInv_start⟩ h
  exact hi.deferred (by rw [hblocked]; trivial) hsize

end

end Scheduler

end DeftRpc.Concurrent
