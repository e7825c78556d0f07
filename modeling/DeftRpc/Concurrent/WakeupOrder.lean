import DeftRpc.Concurrent.Wakeup

/-!
# No lost wakeup, in the order of the insertions

When the loop finds the count at zero although a task is queued, a call that inserted
its task no later has not counted it yet: so many calls are still to count as tasks
are queued, and fewer tasks than that stand behind the one in question.
-/

namespace DeftRpc.Concurrent
open DeftRpc.Foundation

variable {ι κ : Type}

/-- A call that has inserted its task and has not returned. -/
def DeferPc.inFlight : DeferPc → Prop
  | .addSize | .loadState | .notify => True
  | _ => False

/-- The first step of a call of AddDefer inserts its task: that of `j` was made before
that of `i`. -/
def InsertedBefore (acts : List (SchedulerAct ι κ)) (j i : ι) : Prop :=
  ∃ before after, acts = before ++ .addDefer i :: after ∧ .addDefer i ∉ before ∧ .addDefer j ∈ before

theorem InsertedBefore.snoc {acts : List (SchedulerAct ι κ)} {j i : ι} (h : InsertedBefore acts j i)
    (a : SchedulerAct ι κ) : InsertedBefore (acts ++ [a]) j i := by
  obtain ⟨before, after, rfl, hnot, hin⟩ := h
  exact ⟨before, after ++ [a], by simp, hnot, hin⟩

namespace Scheduler

/-- `ordered` are the inserted tasks in their order, of which the last ones are queued. -/
structure Queued (past : List (SchedulerAct ι κ)) (s : Scheduler ι κ) (ordered : List ι) : Prop where
  called : ∀ i, .addDefer i ∈ past ↔ s.defers i ≠ .insert
  member : ∀ i, i ∈ ordered ↔ s.defers i ≠ .insert
  order : ordered.Pairwise (InsertedBefore past)
  queue : s.mExtraTasks <:+ ordered

/-- The event fd is readable, or the call of the task or one that inserted its task before
has not returned. -/
def Covered (past : List (SchedulerAct ι κ)) (s : Scheduler ι κ) (i : ι) : Prop :=
  0 < s.mEventFd ∨ ∃ j, (j = i ∨ InsertedBefore past j i) ∧ (s.defers j).inFlight

/-- What is kept by the steps: `inserted` as in the invariant of the count. -/
structure OrderInv (past : List (SchedulerAct ι κ)) (s : Scheduler ι κ) (inserted : Finset ι)
    (ordered : List ι) : Prop where
  wake : WakeInv s inserted
  queued : Queued past s ordered
  covered : s.loop.checked → s.mExtraTasks.length < 4294967296 → ∀ i ∈ s.mExtraTasks, Covered past s i

theorem orderInv_start : OrderInv [] ({} : Scheduler ι κ) ∅ [] where
  wake := wakeInv_start
  queued := ⟨by simp, by simp, List.Pairwise.nil, List.suffix_rfl⟩
  covered _ _ i hi := absurd hi List.not_mem_nil

theorem Covered.snoc {past : List (SchedulerAct ι κ)} {s s' : Scheduler ι κ} {i : ι} (h : Covered past s i)
    (a : SchedulerAct ι κ) (hfd : s.mEventFd ≤ s'.mEventFd) (hdefers : s'.defers = s.defers) :
    Covered (past ++ [a]) s' i := by
  rcases h with hfd' | ⟨j, hj, hflight⟩
  · exact Or.inl (lt_of_lt_of_le hfd' hfd)
  · rw [← hdefers] at hflight
    exact Or.inr ⟨j, hj.imp_right fun hb => hb.snoc a, hflight⟩

/-- A step of Stop or of the loop. -/
theorem Queued.snoc {past : List (SchedulerAct ι κ)} {s s' : Scheduler ι κ} {ordered : List ι}
    (h : Queued past s ordered) {a : SchedulerAct ι κ} (ha : ∀ i, a ≠ .addDefer i)
    (hdefers : s'.defers = s.defers) (htasks : s'.mExtraTasks <:+ s.mExtraTasks) :
    Queued (past ++ [a]) s' ordered where
  called i := by
    rw [hdefers, ← h.called, List.mem_append, List.mem_singleton]
    exact or_iff_left (ha i).symm
  member i := by
    rw [hdefers]
    exact h.member i
  order := h.order.imp fun hb => hb.snoc a
  queue := htasks.trans h.queue

/-- The count is zero: as many calls are still to count their task as tasks are queued. -/
theorem OrderInv.covered_of_empty {past : List (SchedulerAct ι κ)} {s : Scheduler ι κ} {inserted : Finset ι}
    {ordered : List ι} (h : OrderInv past s inserted ordered) (hcard : inserted.card = s.mExtraTasks.length)
    {i : ι} (hi : i ∈ s.mExtraTasks) :
    ∃ j, (j = i ∨ InsertedBefore past j i) ∧ (s.defers j).inFlight := by
  classical
  by_contra hnone
  obtain ⟨front, back, hsplit⟩ := List.append_of_mem hi
  obtain ⟨gone, hgone⟩ := h.queued.queue
  have hbehind : inserted ⊆ back.toFinset := by
    intro j hj
    have hpc := (h.wake.member j).mp hj
    have hflight : (s.defers j).inFlight := by
      rw [hpc]
      trivial
    have hne : ¬(j = i ∨ InsertedBefore past j i) := fun hb => hnone ⟨j, hb, hflight⟩
    have hin : j ∈ ordered := by
      rw [h.queued.member, hpc]
      exact DeferPc.noConfusion
    have hall : ordered = (gone ++ front) ++ i :: back := by
      rw [← hgone, hsplit, List.append_assoc]
    have horder := h.queued.order
    rw [hall, List.pairwise_append] at horder
    rw [hall, List.mem_append, List.mem_cons] at hin
    rcases hin with hfront | rfl | hback
    · exact absurd (Or.inr (horder.2.2 j hfront i List.mem_cons_self)) hne
    · exact absurd (Or.inl rfl) hne
    · exact List.mem_toFinset.mpr hback
  have hle := (Finset.card_le_card hbehind).trans back.toFinset_card_le
  rw [hcard, hsplit, List.length_append, List.length_cons] at hle
  omega

/-! ### The steps -/

section
variable [DecidableEq κ]

theorem stop_keeps {s s' : Scheduler ι κ} {k : κ} (h : s.stop k = some s') :
    s'.defers = s.defers ∧ s'.mExtraTasks = s.mExtraTasks ∧ s'.loop = s.loop ∧ s.mEventFd ≤ s'.mEventFd := by
  unfold Scheduler.stop at h
  cases hpc : s.stops k <;> simp only [hpc, Option.some.injEq, reduceCtorEq] at h <;> subst h
  case notify =>
    refine ⟨rfl, rfl, rfl, ?_⟩
    simp only [setStop, writeEventFd]
    split <;> omega
  all_goals exact ⟨rfl, rfl, rfl, le_refl _⟩

theorem OrderInv.stop {past : List (SchedulerAct ι κ)} {s s' : Scheduler ι κ} {inserted : Finset ι}
    {ordered : List ι} (hi : OrderInv past s inserted ordered) {k : κ} (h : s.stop k = some s') :
    OrderInv (past ++ [.stop k]) s' inserted ordered := by
  obtain ⟨hdefers, htasks, hloop, hfd⟩ := stop_keeps h
  refine ⟨hi.wake.stop h, hi.queued.snoc (fun _ he => by cases he) hdefers (by rw [htasks]), ?_⟩
  rw [hloop, htasks]
  exact fun hc hlt i hin => (hi.covered hc hlt i hin).snoc _ hfd hdefers

end

theorem OrderInv.move {past : List (SchedulerAct ι κ)} {s s' : Scheduler ι κ} {inserted : Finset ι}
    {ordered : List ι} (hi : OrderInv past s inserted ordered) (h : Moves s s') {a : SchedulerAct ι κ}
    (ha : ∀ i, a ≠ .addDefer i) : OrderInv (past ++ [a]) s' inserted ordered := by
  refine ⟨hi.wake.move h, hi.queued.snoc ha h.defers (by rw [h.tasks]), ?_⟩
  intro hc hlt i hin
  rw [h.tasks] at hlt hin
  rcases h.checked hc with ⟨hold, hfd⟩ | hsignalled | hempty
  · exact (hi.covered hold hlt i hin).snoc a (by rw [hfd]) h.defers
  · exact Or.inl hsignalled
  · -- Size() is read as zero, and it has not wrapped
    have hsize := hi.wake.size
    have hnonneg := hi.wake.nonneg
    have hout : s.loop.uncounted = 0 :=
      h.uncounted.symm.trans (LoopPc.uncounted_eq_zero (LoopPc.not_dequeuing_of_checked hc))
    unfold Scheduler.size at hempty
    rw [hout] at hsize
    have hcard : inserted.card = s.mExtraTasks.length := by omega
    obtain ⟨j, hj, hflight⟩ := hi.covered_of_empty hcard hin
    rw [← h.defers] at hflight
    exact Or.inr ⟨j, hj.imp_right fun hb => hb.snoc a, hflight⟩

theorem OrderInv.start {past : List (SchedulerAct ι κ)} {s s' : Scheduler ι κ} {inserted : Finset ι}
    {ordered : List ι} (hi : OrderInv past s inserted ordered) {ready : Ready}
    (h : s.start ready = some s') : OrderInv (past ++ [.loop ready]) s' inserted ordered := by
  have hact : ∀ i, (SchedulerAct.loop ready : SchedulerAct ι κ) ≠ .addDefer i := fun _ he => by cases he
  by_cases hout : ¬ s.loop.dequeuing
  · exact hi.move (start_moves hi.wake.state hi.wake.full hout h) hact
  have hkeeps : s'.defers = s.defers ∧ s'.mExtraTasks <:+ s.mExtraTasks ∧ ¬ s'.loop.checked := by
    unfold Scheduler.start at h
    cases hpc : s.loop with
    | dequeue =>
      cases htasks : s.mExtraTasks with
      | nil =>
        simp only [hpc, htasks, Option.some.injEq] at h
        subst h
        exact ⟨rfl, List.suffix_rfl, id⟩
      | cons i tasks =>
        simp only [hpc, htasks, Option.some.injEq] at h
        subst h
        exact ⟨rfl, List.suffix_cons i tasks, id⟩
    | subSize =>
      simp only [hpc, Option.some.injEq] at h
      subst h
      exact ⟨rfl, List.suffix_rfl, id⟩
    | _ => exact absurd (by rw [hpc]; exact id) hout
  obtain ⟨hdefers, htasks, hpc⟩ := hkeeps
  exact ⟨hi.wake.start h, hi.queued.snoc hact hdefers htasks, fun hc => absurd hc hpc⟩

section
variable [DecidableEq ι]

/-- What a step of AddDefer behind its insertion changes. -/
theorem addDefer_keeps {s s' : Scheduler ι κ} {i : ι} (hpc : s.defers i ≠ .insert)
    (h : s.addDefer i = some s') :
    s'.mExtraTasks = s.mExtraTasks ∧ s'.loop = s.loop ∧ s.mEventFd ≤ s'.mEventFd ∧
      (∀ j, j ≠ i → s'.defers j = s.defers j) ∧ s'.defers i ≠ .insert ∧
      ((s.defers i).inFlight → s.mState.asleep = true → 0 < s'.mEventFd ∨ (s'.defers i).inFlight) := by
  unfold Scheduler.addDefer at h
  cases hdefer : s.defers i with
  | insert => exact absurd hdefer hpc
  | addSize =>
    simp only [hdefer, Option.some.injEq] at h
    subst h
    refine ⟨rfl, rfl, le_refl _, fun j hj => Function.update_of_ne hj _ _, ?_, fun _ _ => Or.inr ?_⟩
    · simp [setDefer]
    · simp [setDefer, DeferPc.inFlight]
  | loadState =>
    simp only [hdefer, Option.some.injEq] at h
    subst h
    refine ⟨rfl, rfl, le_refl _, fun j hj => Function.update_of_ne hj _ _, ?_, fun _ hasleep => Or.inr ?_⟩
    · simp only [setDefer, Function.update_self]
      split <;> exact DeferPc.noConfusion
    · simp [setDefer, hasleep, DeferPc.inFlight]
  | notify =>
    simp only [hdefer, Option.some.injEq] at h
    subst h
    refine ⟨rfl, rfl, ?_, fun j hj => Function.update_of_ne hj _ _, ?_, fun _ _ => Or.inl ?_⟩
    · simp only [setDefer, writeEventFd]
      split <;> omega
    · simp [setDefer]
    · exact s.writeEventFd_pos
  | returned =>
    simp only [hdefer, reduceCtorEq] at h

theorem OrderInv.later {past : List (SchedulerAct ι κ)} {s s' : Scheduler ι κ} {inserted inserted' : Finset ι}
    {ordered : List ι} (hi : OrderInv past s inserted ordered) (hwake : WakeInv s' inserted') {i : ι}
    (hpc : s.defers i ≠ .insert) (h : s.addDefer i = some s') :
    OrderInv (past ++ [.addDefer i]) s' inserted' ordered := by
  obtain ⟨htasks, hloop, hfd, hother, hself, hflight⟩ := addDefer_keeps hpc h
  have hsame : ∀ j, s'.defers j ≠ .insert ↔ s.defers j ≠ .insert := by
    intro j
    by_cases hj : j = i
    · rw [hj]
      exact iff_of_true hself hpc
    · rw [hother j hj]
  refine ⟨hwake, ⟨?_, fun j => (hi.queued.member j).trans (hsame j).symm,
    hi.queued.order.imp fun hb => hb.snoc _, by rw [htasks]; exact hi.queued.queue⟩, ?_⟩
  · intro j
    rw [hsame, ← hi.queued.called, List.mem_append, List.mem_singleton]
    refine or_iff_left_of_imp fun he => ?_
    cases he
    exact (hi.queued.called i).mpr hpc
  · rw [hloop, htasks]
    intro hc hlt k hk
    rcases hi.covered hc hlt k hk with hpos | ⟨j, hj, hjf⟩
    · exact Or.inl (lt_of_lt_of_le hpos hfd)
    · have hbefore : j = k ∨ InsertedBefore (past ++ [.addDefer i]) j k := hj.imp_right fun hb => hb.snoc _
      by_cases hji : j = i
      · have hasleep : s.mState.asleep = true := by
          rw [hi.wake.state]
          exact LoopPc.asleep_of_checked hc
        rw [hji] at hjf hbefore
        exact (hflight hjf hasleep).imp_right fun hstill => ⟨i, hbefore, hstill⟩
      · rw [← hother j hji] at hjf
        exact Or.inr ⟨j, hbefore, hjf⟩

theorem OrderInv.insert {past : List (SchedulerAct ι κ)} {s s' : Scheduler ι κ} {inserted inserted' : Finset ι}
    {ordered : List ι} (hi : OrderInv past s inserted ordered) (hwake : WakeInv s' inserted') {i : ι}
    (hpc : s.defers i = .insert) (h : s.addDefer i = some s') :
    OrderInv (past ++ [.addDefer i]) s' inserted' (ordered ++ [i]) := by
  unfold Scheduler.addDefer at h
  simp only [hpc, Option.some.injEq] at h
  subst h
  have hnew : SchedulerAct.addDefer i ∉ past := fun hin => (hi.queued.called i).mp hin hpc
  have hdefers : ∀ j, (Function.update s.defers i DeferPc.addSize) j ≠ .insert ↔ s.defers j ≠ .insert ∨ j = i := by
    intro j
    by_cases hj : j = i
    · rw [hj, Function.update_self]
      exact iff_of_true DeferPc.noConfusion (Or.inr rfl)
    · rw [Function.update_of_ne hj]
      exact (or_iff_left hj).symm
  refine ⟨hwake, ⟨?_, ?_, ?_, ?_⟩, ?_⟩
  · intro j
    rw [List.mem_append, List.mem_singleton, hi.queued.called, SchedulerAct.addDefer.injEq]
    exact (hdefers j).symm
  · intro j
    rw [List.mem_append, List.mem_singleton, hi.queued.member]
    exact (hdefers j).symm
  · rw [List.pairwise_append]
    refine ⟨hi.queued.order.imp fun hb => hb.snoc _, List.pairwise_singleton _ _, ?_⟩
    intro j hj k hk
    rw [List.mem_singleton.mp hk]
    exact ⟨past, [], rfl, hnew, (hi.queued.called j).mpr ((hi.queued.member j).mp hj)⟩
  · obtain ⟨gone, hgone⟩ := hi.queued.queue
    exact ⟨gone, by rw [← hgone, List.append_assoc]; rfl⟩
  · intro hc hlt k hk
    have hself : (Function.update s.defers i DeferPc.addSize) i = .addSize := Function.update_self _ _ _
    rcases List.mem_append.mp hk with hk | hk
    · have hlt' : s.mExtraTasks.length < 4294967296 := by
        have hlen : (s.mExtraTasks ++ [i]).length = s.mExtraTasks.length + 1 := List.length_append
        have hlt'' : (s.mExtraTasks ++ [i]).length < 4294967296 := hlt
        omega
      rcases hi.covered hc hlt' k hk with hpos | ⟨j, hj, hjf⟩
      · exact Or.inl hpos
      · have hji : j ≠ i := by
          rintro rfl
          rw [hpc] at hjf
          exact hjf
        refine Or.inr ⟨j, hj.imp_right fun hb => hb.snoc _, ?_⟩
        have hsame : (Function.update s.defers i DeferPc.addSize) j = s.defers j := Function.update_of_ne hji _ _
        show ((Function.update s.defers i DeferPc.addSize) j).inFlight
        rw [hsame]
        exact hjf
    · rw [List.mem_singleton.mp hk]
      refine Or.inr ⟨i, Or.inl rfl, ?_⟩
      show ((Function.update s.defers i DeferPc.addSize) i).inFlight
      rw [hself]
      trivial

end

/-! ### Every interleaving -/

section
variable [DecidableEq ι] [DecidableEq κ]

theorem orderInv_step (past : List (SchedulerAct ι κ)) (s : Scheduler ι κ) (a : SchedulerAct ι κ)
    (s' : Scheduler ι κ) (hi : ∃ inserted ordered, OrderInv past s inserted ordered)
    (h : s.step a = some s') : ∃ inserted ordered, OrderInv (past ++ [a]) s' inserted ordered := by
  obtain ⟨inserted, ordered, hi⟩ := hi
  cases a with
  | addDefer i =>
    obtain ⟨inserted', hwake⟩ := hi.wake.addDefer h
    by_cases hpc : s.defers i = .insert
    · exact ⟨inserted', ordered ++ [i], hi.insert hwake hpc h⟩
    · exact ⟨inserted', ordered, hi.later hwake hpc h⟩
  | stop k => exact ⟨inserted, ordered, hi.stop h⟩
  | loop ready => exact ⟨inserted, ordered, hi.start h⟩

/-- Whenever the loop is blocked: behind a queued task the event fd is readable once its call and
those that inserted their tasks before have returned, and behind a stored m_stop_ it is once the
calls that stored it have. -/
theorem blocked_is_signalled (acts : List (SchedulerAct ι κ)) (s : Scheduler ι κ)
    (h : interleave step {} acts = some s) (hblocked : s.loop = .epollWait) :
    (∀ i ∈ s.mExtraTasks, s.mExtraTasks.length < 4294967296 → s.defers i = .returned →
        (∀ j, InsertedBefore acts j i → s.defers j = .returned) → 0 < s.mEventFd) ∧
      (s.mStop = true → (∀ k, ¬(s.stops k).pending) → 0 < s.mEventFd) := by
  obtain ⟨inserted, ordered, hi⟩ : ∃ inserted ordered, OrderInv ([] ++ acts) s inserted ordered :=
    interleave_history (I := fun past s => ∃ inserted ordered, OrderInv past s inserted ordered)
      orderInv_step acts ⟨∅, [], orderInv_start⟩ h
  rw [List.nil_append] at hi
  constructor
  · intro i hin hlt hself hbefore
    refine (hi.covered (by rw [hblocked]; trivial) hlt i hin).resolve_right ?_
    rintro ⟨j, rfl | hj, hflight⟩
    · rw [hself] at hflight
      exact hflight
    · rw [hbefore j hj] at hflight
      exact hflight
  · intro hstop hreturned
    refine (hi.wake.stopping hblocked hstop).resolve_right ?_
    rintro ⟨k, hk⟩
    exact hreturned k hk

/-- One call while the loop is awake, one while it is blocked, and a third that has inserted its
task behind it. -/
theorem blocked_is_signalled_three :
    ∃ s : Scheduler ℕ ℕ, interleave step {} (([.addDefer 0, .addDefer 0, .addDefer 0, .addDefer 0] : List (SchedulerAct ℕ ℕ)) ++
          List.replicate 3 (.loop .none) ++ [.loop .eventFd, .loop .none, .loop .none, .loop .none] ++
          [.addDefer 1, .addDefer 1, .addDefer 1] ++ List.replicate 10 (.loop .none) ++
          [.addDefer 2, .addDefer 2, .addDefer 2, .addDefer 2, .addDefer 3]) = some s ∧
        s.loop = .epollWait ∧ s.mExtraTasks = [2, 3] ∧ s.defers 2 = .returned ∧
      (∀ i ∈ s.mExtraTasks, s.mExtraTasks.length < 4294967296 → s.defers i = .returned →
        (∀ j, InsertedBefore (([.addDefer 0, .addDefer 0, .addDefer 0, .addDefer 0] : List (SchedulerAct ℕ ℕ)) ++
          List.replicate 3 (.loop .none) ++ [.loop .eventFd, .loop .none, .loop .none, .loop .none] ++
          [.addDefer 1, .addDefer 1, .addDefer 1] ++ List.replicate 10 (.loop .none) ++
          [.addDefer 2, .addDefer 2, .addDefer 2, .addDefer 2, .addDefer 3]) j i → s.defers j = .returned) →
          0 < s.mEventFd) ∧
      (s.mStop = true → (∀ k, ¬(s.stops k).pending) → 0 < s.mEventFd) := by
  have reaches : ∀ acts : List (SchedulerAct ℕ ℕ),
      (interleave step {} acts).map (fun s => (s.loop, s.mExtraTasks, s.defers 2))
          = some (.epollWait, [2, 3], .returned) →
        ∃ s, interleave step {} acts = some s ∧ s.loop = .epollWait ∧ s.mExtraTasks = [2, 3] ∧
          s.defers 2 = .returned := by
    intro acts hrun
    obtain ⟨s, h, heq⟩ := Option.map_eq_some_iff.mp hrun
    simp only [Prod.mk.injEq] at heq
    exact ⟨s, h, heq⟩
  refine (reaches _ ?_).imp fun s h =>
    ⟨h.1, h.2.1, h.2.2.1, h.2.2.2, blocked_is_signalled _ s h.1 h.2.1⟩
  decide

/-- Blocked, with a task that was counted and whose call has returned, and an event
fd that nothing has written: its count was used up for the task inserted before it. -/
theorem blocked_behind_uncounted :
    (interleave (step (ι := ℕ) (κ := ℕ)) {} ((List.replicate 3 (.loop .none) : List (SchedulerAct ℕ ℕ)) ++ [.loop .otherFd] ++
        List.replicate 3 (.loop .none) ++ [.addDefer 0, .addDefer 1, .addDefer 1, .addDefer 1] ++
        List.replicate 7 (.loop .none))).map
      (fun s => (s.loop, s.mExtraTasks, s.defers 1, s.mEventFd, s.defers 0))
    = some (.epollWait, [1], .returned, 0, .addSize) := by
  decide

/-- The calls `k`, …, `k + n - 1` of AddDefer, none of which has to notify. -/
theorem calls_awake (n k : ℕ) (s : Scheduler ℕ κ) (hawake : s.mState.asleep = false)
    (hfresh : ∀ i, k ≤ i → s.defers i = .insert) (hreturned : ∀ i, i < k → s.defers i = .returned) :
    ∃ defers, (∀ i, i < k + n → defers i = .returned) ∧ (∀ i, k + n ≤ i → defers i = .insert) ∧
      interleave step s ((List.range' k n).flatMap fun i => List.replicate 3 (.addDefer i))
        = some { s with mExtraTasks := s.mExtraTasks ++ List.range' k n, mSize := s.mSize + n,
                        defers := defers } := by
  induction n generalizing k s with
  | zero =>
    refine ⟨s.defers, hreturned, hfresh, ?_⟩
    simp [interleave]
  | succ n ih =>
    obtain ⟨s1, hs1⟩ : ∃ s1, s1 = { s with
      mExtraTasks := s.mExtraTasks ++ [k], mSize := s.mSize + 1,
      defers := Function.update s.defers k .returned } := ⟨_, rfl⟩
    have hcall : interleave step s (List.replicate 3 (.addDefer k)) = some s1 := by
      simp [interleave, List.replicate, step, addDefer, setDefer, hfresh k (le_refl k), hawake, hs1]
    have hfresh1 : ∀ i, k + 1 ≤ i → s1.defers i = .insert := by
      intro i hi
      rw [hs1]
      exact (Function.update_of_ne (by omega) _ _).trans (hfresh i (by omega))
    have hreturned1 : ∀ i, i < k + 1 → s1.defers i = .returned := by
      intro i hi
      rw [hs1]
      by_cases hk : i = k
      · rw [hk]
        exact Function.update_self _ _ _
      · exact (Function.update_of_ne hk _ _).trans (hreturned i (by omega))
    obtain ⟨defers, hdone, hrest, hrun⟩ := ih (k + 1) s1 (by rw [hs1]; exact hawake) hfresh1 hreturned1
    refine ⟨defers, fun i hi => hdone i (by omega), fun i hi => hrest i (by omega), ?_⟩
    rw [List.range'_succ, List.flatMap_cons]
    refine (interleave_append hcall hrun).trans ?_
    rw [hs1]
    simp only [List.append_assoc, List.singleton_append, Nat.cast_add, Nat.cast_one]
    congr 2
    ring

/-- With 2^32 tasks Size() has wrapped to zero: the loop is blocked in front of them although
all calls have returned. -/
theorem blocked_behind_wrapped : ∃ (acts : List (SchedulerAct ℕ ℕ)) (s : Scheduler ℕ ℕ),
    interleave step {} acts = some s ∧ s.loop = .epollWait ∧ s.mExtraTasks.length = 4294967296 ∧
      (∀ i ∈ s.mExtraTasks, s.defers i = .returned) ∧
      (∀ j, s.defers j = .insert ∨ s.defers j = .returned) ∧ s.mEventFd = 0 := by
  obtain ⟨s0, hs0⟩ : ∃ s0 : Scheduler ℕ ℕ, s0 = { mStop := false, mState := .handleActiveFd, loop := .handleActiveFd false } :=
    ⟨_, rfl⟩
  have hbegin : interleave step ({} : Scheduler ℕ ℕ) (List.replicate 3 (.loop .none) ++
      [.loop .otherFd, .loop .none]) = some s0 := by
    rw [hs0]
    rfl
  obtain ⟨defers, hdone, hrest, hcalls⟩ := calls_awake 4294967296 0 s0 (by rw [hs0]; rfl)
    (by rw [hs0]; exact fun _ _ => rfl) (fun i hi => absurd hi (by omega))
  have hend : ∀ s : Scheduler ℕ ℕ, s.loop = .handleActiveFd false → s.mStop = false →
      s.mSize % 4294967296 = 0 → interleave step s (List.replicate 6 (.loop .none))
        = some { s with mState := .epollWait, loop := .epollWait } := by
    intro s hloop hstop hsize
    have hwrapped : (4294967296 : ℤ) ∣ s.mSize := Int.dvd_of_emod_eq_zero hsize
    simp [interleave, List.replicate, step, start, size, hloop, hstop, hsize, hwrapped]
  refine ⟨_, _, interleave_append (interleave_append hbegin hcalls)
    (hend _ (by rw [hs0]) (by rw [hs0]) (by rw [hs0]; rfl)), rfl, ?_, ?_, ?_, by rw [hs0]⟩
  · rw [hs0]
    simp
  · intro i hi
    rw [hs0] at hi
    simp only [List.nil_append, List.mem_range'_1] at hi
    exact hdone i (by omega)
  · intro j
    by_cases hj : j < 4294967296
    · exact Or.inr (hdone j (by omega))
    · exact Or.inl (hrest j (by omega))

end

end Scheduler

end DeftRpc.Concurrent
