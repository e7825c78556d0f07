import DeftRpc.Timers.QueueInvariant

/-!
# What one expiry event does

As long as no two active timers expire at the same time the set of active timers
drops nothing and erases nothing but what is asked for. The tasks, the loop over the
repeated timers and the one over m_cancel_timer_ are described one after the other.
-/

namespace DeftRpc.Timers
open DeftRpc.Foundation

namespace TimerQueue

/-! ### Active timers that expire at different times -/

def FreeAt (q : TimerQueue) (time : ℤ) : Prop := ∀ p ∈ q.mActiveTimers, q.expire p ≠ time

instance (q : TimerQueue) (time : ℤ) : Decidable (q.FreeAt time) :=
  inferInstanceAs (Decidable (∀ p ∈ q.mActiveTimers, q.expire p ≠ time))

/-- The ids that AddTimer returns are not 0. -/
def ActApart (q : TimerQueue) : Action → Prop
  | .add interval _ created _ => q.FreeAt (created + interval)
  | .cancel id _ => id ≠ 0

instance (q : TimerQueue) : ∀ a, Decidable (q.ActApart a)
  | .add interval _ created _ => inferInstanceAs (Decidable (q.FreeAt (created + interval)))
  | .cancel id _ => inferInstanceAs (Decidable (id ≠ 0))

/-- Each call of a task meets the condition `ok` when it is made. -/
def ActsOk (ok : TimerQueue → Action → Prop) : TimerQueue → List Action → Prop
  | _, [] => True
  | q, a :: as => ok q a ∧ match q.act a with
    | .ok q' => ActsOk ok q' as
    | .error _ => True

instance decidableActsOk (ok : TimerQueue → Action → Prop) [d : ∀ q a, Decidable (ok q a)] :
    ∀ (q : TimerQueue) (as : List Action), Decidable (ActsOk ok q as)
  | _, [] => .isTrue trivial
  | q, a :: as =>
    have : Decidable (match q.act a with
        | .ok q' => ActsOk ok q' as
        | .error _ => True) :=
      match q.act a with
      | .ok q' => decidableActsOk ok q' as
      | .error _ => .isTrue trivial
    instDecidableAnd

def TasksOk (ok : TimerQueue → Action → Prop) (task : ℤ → List Action) : List ℤ → TimerQueue → Prop
  | [], _ => True
  | p :: ps, q => ActsOk ok q (task p) ∧ match q.acts (task p) with
    | .ok q' => TasksOk ok task ps (q'.eraseActive p)
    | .error _ => True

instance decidableTasksOk (ok : TimerQueue → Action → Prop) [d : ∀ q a, Decidable (ok q a)]
    (task : ℤ → List Action) : ∀ (ps : List ℤ) (q : TimerQueue), Decidable (TasksOk ok task ps q)
  | [], _ => .isTrue trivial
  | p :: ps, q =>
    have : Decidable (match q.acts (task p) with
        | .ok q' => TasksOk ok task ps (q'.eraseActive p)
        | .error _ => True) :=
      match q.acts (task p) with
      | .ok q' => decidableTasksOk ok task ps (q'.eraseActive p)
      | .error _ => .isTrue trivial
    instDecidableAnd

def RenewApart (renewed : ℤ → ℤ) : List ℤ → TimerQueue → Prop
  | [], _ => True
  | p :: ps, q =>
    match q.mTimers.lookup p with
    | none => True
    | some timer =>
      if timer.mRepeat && !decide (timer.mId ∈ q.mCancelTimer) then
        q.FreeAt (renewed p + timer.mInterval) ∧
          RenewApart renewed ps (q.renew p timer (renewed p))
      else RenewApart renewed ps { q with mTimers := q.mTimers.erase timer.mId }

instance decidableRenewApart (renewed : ℤ → ℤ) :
    ∀ (ps : List ℤ) (q : TimerQueue), Decidable (RenewApart renewed ps q)
  | [], _ => .isTrue trivial
  | p :: ps, q => by
    unfold RenewApart
    have := decidableRenewApart renewed ps
    split
    · exact .isTrue trivial
    · split <;> infer_instance

/-- Every timer that becomes active in the event expires apart from the others. -/
def EventApart (q : TimerQueue) (e : Event) : Prop :=
  TasksOk ActApart e.task (q.beginHandling e.now).expired (q.beginHandling e.now) ∧
    match runTasks e.task (q.beginHandling e.now).expired (q.beginHandling e.now) with
    | .ok q' => RenewApart e.renewed (q.beginHandling e.now).expired q'
    | .error _ => True

instance (q : TimerQueue) (e : Event) : Decidable (q.EventApart e) := by
  unfold EventApart
  have : Decidable (match runTasks e.task (q.beginHandling e.now).expired (q.beginHandling e.now) with
      | .ok q' => RenewApart e.renewed (q.beginHandling e.now).expired q'
      | .error _ => True) := by
    split <;> infer_instance
  infer_instance

def CallApart (q : TimerQueue) : Call → Prop
  | .act a => q.ActApart a
  | .handle e => q.EventApart e

instance (q : TimerQueue) : ∀ c, Decidable (q.CallApart c)
  | .act a => inferInstanceAs (Decidable (q.ActApart a))
  | .handle e => inferInstanceAs (Decidable (q.EventApart e))

/-! ### Calls of the tasks -/

/-- The timers that calls add, from the next id on. -/
def addedTimers (id : ℤ) : List Action → List Timer
  | [] => []
  | .add interval repeated created _ :: as =>
    ⟨repeated, interval, created + interval, id⟩ :: addedTimers (id + 1) as
  | .cancel _ _ :: as => addedTimers id as

def cancelledIds : List Action → List ℤ
  | [] => []
  | .add _ _ _ _ :: as => cancelledIds as
  | .cancel id _ :: as => id :: cancelledIds as

theorem addedTimers_append (id : ℤ) (as bs : List Action) : addedTimers id (as ++ bs)
    = addedTimers id as ++ addedTimers (id + (addedTimers id as).length) bs := by
  induction as generalizing id with
  | nil => simp [addedTimers]
  | cons a as ih =>
    cases a with
    | add interval repeated created armed =>
      have hid : id + ((addedTimers (id + 1) as).length + 1 : ℕ)
          = id + 1 + (addedTimers (id + 1) as).length := by omega
      simp only [List.cons_append, addedTimers, ih, List.length_cons, hid]
    | cancel c armed => exact ih id

theorem cancelledIds_append (as bs : List Action) :
    cancelledIds (as ++ bs) = cancelledIds as ++ cancelledIds bs := by
  induction as with
  | nil => rfl
  | cons a as ih => cases a <;> simp [cancelledIds, ih]

theorem mem_addedTimers {id : ℤ} {as : List Action} {t : Timer} (h : t ∈ addedTimers id as) :
    id ≤ t.mId ∧ t.mId < id + (addedTimers id as).length := by
  induction as generalizing id with
  | nil => cases h
  | cons a as ih =>
    cases a with
    | add interval repeated created armed =>
      simp only [addedTimers, List.mem_cons, List.length_cons] at h ⊢
      rcases h with rfl | h
      · dsimp only
        omega
      · have := ih h
        omega
    | cancel c armed => exact ih h

/-- `q'` comes from `q` by the calls `as`; the timers `gone` are not active any more. -/
structure Effect (q : TimerQueue) (as : List Action) (gone : List ℤ) (q' : TimerQueue) : Prop where
  handling : q'.mHandlingEvent = q.mHandlingEvent
  next : q'.id = q.id + (addedTimers q.id as).length
  new : ∀ t ∈ addedTimers q.id as, q'.mTimers.lookup t.mId = some t
  old : ∀ p, (∀ t ∈ addedTimers q.id as, t.mId ≠ p) → q'.mTimers.lookup p = q.mTimers.lookup p
  active : ∀ p, p ∈ q'.mActiveTimers ↔
    (p ∈ q.mActiveTimers ∧ p ∉ gone) ∨ ∃ t ∈ addedTimers q.id as, t.mId = p
  cancelled : ∀ id, id ∈ q'.mCancelTimer ↔ id ∈ q.mCancelTimer ∨ id ∈ cancelledIds as
  ids : ∀ id ∈ cancelledIds as, id ≠ 0

theorem Effect.refl (q : TimerQueue) : Effect q [] [] q where
  handling := rfl
  next := by simp [addedTimers]
  new t ht := absurd ht List.not_mem_nil
  old p _ := rfl
  active p := by simp [addedTimers]
  cancelled id := by simp [cancelledIds]
  ids id hid := absurd hid List.not_mem_nil

theorem Effect.trans {q q1 q2 : TimerQueue} {as bs : List Action} {gone gone' : List ℤ}
    (h1 : Effect q as gone q1) (h2 : Effect q1 bs gone' q2) (hgone : ∀ p ∈ gone', p < q.id) :
    Effect q (as ++ bs) (gone ++ gone') q2 := by
  have hadded : addedTimers q.id (as ++ bs) = addedTimers q.id as ++ addedTimers q1.id bs := by
    rw [addedTimers_append, h1.next]
  have hapart : ∀ t ∈ addedTimers q.id as, ∀ t' ∈ addedTimers q1.id bs, t'.mId ≠ t.mId := by
    intro t ht t' ht'
    have h := mem_addedTimers ht
    have h' := mem_addedTimers ht'
    have hnext := h1.next
    omega
  refine ⟨h2.handling.trans h1.handling, ?_, ?_, ?_, ?_, ?_, ?_⟩
  · rw [hadded, List.length_append, h2.next, h1.next]
    omega
  · intro t ht
    rw [hadded, List.mem_append] at ht
    rcases ht with ht | ht
    · rw [h2.old t.mId (hapart t ht)]
      exact h1.new t ht
    · exact h2.new t ht
  · intro p hp
    rw [hadded] at hp
    rw [h2.old p fun t ht => hp t (List.mem_append_right _ ht)]
    exact h1.old p fun t ht => hp t (List.mem_append_left _ ht)
  · intro p
    rw [h2.active, h1.active, hadded, List.mem_append]
    constructor
    · rintro (⟨⟨hp, hg⟩ | ⟨t, ht, rfl⟩, hg'⟩ | ⟨t, ht, rfl⟩)
      · exact Or.inl ⟨hp, fun h => h.elim hg hg'⟩
      · exact Or.inr ⟨t, List.mem_append_left _ ht, rfl⟩
      · exact Or.inr ⟨t, List.mem_append_right _ ht, rfl⟩
    · rintro (⟨hp, hg⟩ | ⟨t, ht, rfl⟩)
      · exact Or.inl ⟨Or.inl ⟨hp, fun h => hg (Or.inl h)⟩, fun h => hg (Or.inr h)⟩
      · rcases List.mem_append.mp ht with ht | ht
        · have hnot : t.mId ∉ gone' := by
            intro hg
            have hlt := hgone _ hg
            have hle := mem_addedTimers ht
            omega
          exact Or.inl ⟨Or.inr ⟨t, ht, rfl⟩, hnot⟩
        · exact Or.inr ⟨t, ht, rfl⟩
  · intro id
    rw [h2.cancelled, h1.cancelled, cancelledIds_append, List.mem_append, or_assoc]
  · intro id hid
    rw [cancelledIds_append, List.mem_append] at hid
    exact hid.elim (h1.ids id) (h2.ids id)

theorem Inv.addTimer_effect {q : TimerQueue} (h : Inv q) (interval : ℤ) (repeated : Bool)
    (created armed : ℤ) (hfree : q.FreeAt (created + interval)) :
    ∃ q', q.addTimer interval repeated created armed = .ok (q.id, q') ∧ Inv q' ∧
      Effect q [.add interval repeated created armed] [] q' := by
  obtain ⟨q', hadd, hi, -⟩ := h.addTimer interval repeated created armed
  refine ⟨q', hadd, hi, ?_⟩
  rw [h.addTimer_eq] at hadd
  have hq' := (Prod.mk.inj (Except.ok.inj hadd)).2
  obtain ⟨timer, htimer⟩ : ∃ timer : Timer, ⟨repeated, interval, created + interval, q.id⟩ = timer :=
    ⟨_, rfl⟩
  have hid : timer.mId = q.id := by rw [← htimer]
  have hadded : addedTimers q.id [.add interval repeated created armed] = [timer] := by
    rw [← htimer]
    rfl
  rw [htimer] at hq'
  have heff : Effect q [.add interval repeated created armed] [] (q.inserted timer) := by
    refine ⟨rfl, ?_, ?_, ?_, ?_, ?_, fun id hid => absurd hid List.not_mem_nil⟩
    · rw [hadded]
      rfl
    · rw [hadded]
      intro t ht
      rw [List.mem_singleton.mp ht]
      exact AList.lookup_insert q.mTimers
    · rw [hadded]
      intro p hp
      exact AList.lookup_insert_ne (hp timer (List.mem_singleton_self timer)).symm
    · intro p
      rw [hadded]
      simp only [List.not_mem_nil, not_false_iff, and_true, List.mem_singleton, exists_eq_left]
      have hself : timer.mId ∈ (q.inserted timer).mActiveTimers := by
        refine mem_keyInsert_self fun y hy => ?_
        have hy' := h.expire_inserted hid hy
        have hnew := expire_inserted_new q timer
        have hne : (q.inserted timer).expire y ≠ (q.inserted timer).expire timer.mId := by
          rw [hy', hnew, ← htimer]
          exact hfree y hy
        exact hne
      constructor
      · intro hp
        rcases mem_keyInsert hp with rfl | hp
        · exact Or.inr rfl
        · exact Or.inl hp
      · rintro (hp | rfl)
        · exact mem_keyInsert_of_mem _ hp
        · exact hself
    · intro id
      have hsame : (q.inserted timer).mCancelTimer = q.mCancelTimer := rfl
      simp [cancelledIds, hsame]
  rw [← hq']
  split
  · exact ⟨heff.handling, heff.next, heff.new, heff.old, heff.active, heff.cancelled, heff.ids⟩
  · exact heff

/-! ### The loop that runs the tasks -/

theorem mem_heldBack {ids : List ℤ} {id armed c : ℤ} :
    c ∈ (if id ∈ ids then ids else id :: ids) ↔ c ∈ ids ∨ c ∈ cancelledIds [.cancel id armed] := by
  simp only [cancelledIds, List.mem_singleton]
  by_cases hin : id ∈ ids
  · rw [if_pos hin]
    refine ⟨Or.inl, ?_⟩
    rintro (hc | rfl)
    · exact hc
    · exact hin
  · rw [if_neg hin, List.mem_cons, or_comm]

theorem Inv.act_effect {q : TimerQueue} (h : Inv q) (hh : q.mHandlingEvent = true) {a : Action}
    (hapart : q.ActApart a) : ∃ q', q.act a = .ok q' ∧ Inv q' ∧ Effect q [a] [] q' := by
  cases a with
  | add interval repeated created armed =>
    obtain ⟨q', hadd, hi, heff⟩ := h.addTimer_effect interval repeated created armed hapart
    refine ⟨q', ?_, hi, heff⟩
    rw [act, hadd]
    rfl
  | cancel id armed =>
    have heff := Effect.refl q
    refine ⟨_, cancelTimer_handling hh id armed,
      ⟨h.live, h.sorted, h.pos, h.own, h.next, h.sentinel⟩,
      ⟨heff.handling, heff.next, heff.new, heff.old, heff.active, fun _ => mem_heldBack, ?_⟩⟩
    intro c hc
    rw [List.mem_singleton.mp hc]
    exact hapart

theorem Inv.acts_effect {q : TimerQueue} (h : Inv q) (hh : q.mHandlingEvent = true) (as : List Action)
    (hapart : ActsOk ActApart q as) : ∃ q', q.acts as = .ok q' ∧ Inv q' ∧ Effect q as [] q' := by
  induction as generalizing q with
  | nil => exact ⟨q, rfl, h, .refl q⟩
  | cons a as ih =>
    obtain ⟨q1, ha, h1, heff1⟩ := h.act_effect hh hapart.1
    have hrest := hapart.2
    rw [ha] at hrest
    obtain ⟨q2, has, h2, heff2⟩ := ih h1 (heff1.handling.trans hh) hrest
    refine ⟨q2, ?_, h2, heff1.trans heff2 fun p hp => absurd hp List.not_mem_nil⟩
    rw [acts, ha, Exec.ok_bind, has]

theorem Inv.lt_of_active {q : TimerQueue} (h : Inv q) {p : ℤ} (hp : p ∈ q.mActiveTimers) : p < q.id := by
  obtain ⟨timer, ht⟩ := Option.isSome_iff_exists.mp (h.live p hp)
  exact (h.own p timer ht).2

theorem Inv.mem_eraseActive_iff {q : TimerQueue} (h : Inv q) {p y : ℤ} (hp : p ∈ q.mActiveTimers) :
    y ∈ (q.eraseActive p).mActiveTimers ↔ y ∈ q.mActiveTimers ∧ y ≠ p := by
  constructor
  · intro hy
    refine ⟨mem_of_mem_keyErase hy, ?_⟩
    rintro rfl
    exact h.not_mem_eraseActive y hy
  · exact fun hy => h.mem_eraseActive hp hy.1 hy.2

theorem Inv.eraseActive_effect {q : TimerQueue} (h : Inv q) {p : ℤ} (hp : p ∈ q.mActiveTimers) :
    Effect q [] [p] (q.eraseActive p) := by
  have heff := Effect.refl q
  refine ⟨heff.handling, heff.next, heff.new, heff.old, ?_, heff.cancelled, heff.ids⟩
  intro y
  rw [h.mem_eraseActive_iff hp]
  simp [addedTimers]

/-- The tasks run one after the other; a timer whose task ran is not active any more. -/
theorem Inv.runTasks_effect {q : TimerQueue} (h : Inv q) (hh : q.mHandlingEvent = true)
    (task : ℤ → List Action) (ps : List ℤ) (hnodup : ps.Nodup) (hactive : ∀ p ∈ ps, p ∈ q.mActiveTimers)
    (hapart : TasksOk ActApart task ps q) :
    ∃ q', TimerQueue.runTasks task ps q = .ok q' ∧ Inv q' ∧ Effect q (ps.flatMap task) ps q' := by
  induction ps generalizing q with
  | nil => exact ⟨q, rfl, h, .refl q⟩
  | cons p ps ih =>
    obtain ⟨hnot, hnodup⟩ := List.nodup_cons.mp hnodup
    have hp := hactive p List.mem_cons_self
    obtain ⟨timer, ht⟩ := Option.isSome_iff_exists.mp (h.live p hp)
    obtain ⟨q1, hacts, h1, heff1⟩ := h.acts_effect hh (task p) hapart.1
    have hkept : ∀ y ∈ q.mActiveTimers, y ∈ q1.mActiveTimers := fun y hy =>
      (heff1.active y).mpr (Or.inl ⟨hy, List.not_mem_nil⟩)
    have hp1 := hkept p hp
    have hrest : ∀ y ∈ ps, y ∈ (q1.eraseActive p).mActiveTimers := by
      intro y hy
      refine h1.mem_eraseActive hp1 (hkept y (hactive y (List.mem_cons_of_mem p hy))) ?_
      rintro rfl
      exact hnot hy
    have hlater := hapart.2
    rw [hacts] at hlater
    obtain ⟨q2, hrun, h2, heff2⟩ := ih (h1.eraseActive p) (heff1.handling.trans hh) hnodup hrest hlater
    have herase := (h1.eraseActive_effect hp1).trans heff2 fun y hy =>
      h1.lt_of_active (hkept y (hactive y (List.mem_cons_of_mem p hy)))
    have hall := heff1.trans herase fun y hy => h.lt_of_active (hactive y hy)
    refine ⟨q2, ?_, h2, hall⟩
    have hsome : (q1.mTimers.lookup p).isNone = false := Option.isNone_eq_false_iff.mpr (h1.live p hp1)
    rw [TimerQueue.runTasks, ht]
    dsimp only
    rw [hacts, Exec.ok_bind, h1.live_eq, hsome]
    exact hrun

/-! ### The loop over the repeated timers -/

/-- What the loop does to the timers `ps`, which are not active before it. -/
structure Renewed (renewed : ℤ → ℤ) (q : TimerQueue) (ps : List ℤ) (q' : TimerQueue) : Prop where
  handling : q'.mHandlingEvent = q.mHandlingEvent
  cancelled : q'.mCancelTimer = q.mCancelTimer
  again : ∀ p ∈ ps, ∀ timer, q.mTimers.lookup p = some timer → timer.mRepeat = true →
    p ∉ q.mCancelTimer → p ∈ q'.mActiveTimers ∧
      q'.mTimers.lookup p = some { timer with mExpire := renewed p + timer.mInterval }
  gone : ∀ p ∈ ps, ∀ timer, q.mTimers.lookup p = some timer →
    timer.mRepeat = false ∨ p ∈ q.mCancelTimer → p ∉ q'.mActiveTimers ∧ q'.mTimers.lookup p = none
  other : ∀ p, p ∉ ps → (p ∈ q'.mActiveTimers ↔ p ∈ q.mActiveTimers) ∧
    q'.mTimers.lookup p = q.mTimers.lookup p

theorem Renewed.cons {renewed : ℤ → ℤ} {q q1 q2 : TimerQueue} {p : ℤ} {ps : List ℤ} (hnot : p ∉ ps)
    (h1 : Renewed renewed q [p] q1) (h2 : Renewed renewed q1 ps q2) : Renewed renewed q (p :: ps) q2 := by
  have hother : ∀ y ∈ ps, (y ∈ q1.mActiveTimers ↔ y ∈ q.mActiveTimers) ∧
      q1.mTimers.lookup y = q.mTimers.lookup y := by
    intro y hy
    refine h1.other y fun hp => ?_
    rw [List.mem_singleton.mp hp] at hy
    exact hnot hy
  have hlater := h2.other p hnot
  refine ⟨h2.handling.trans h1.handling, h2.cancelled.trans h1.cancelled, ?_, ?_, ?_⟩
  · intro y hy timer ht hrepeat hkeep
    rcases List.mem_cons.mp hy with rfl | hy
    · rw [hlater.1, hlater.2]
      exact h1.again y (List.mem_singleton_self y) timer ht hrepeat hkeep
    · rw [← (hother y hy).2] at ht
      rw [← h1.cancelled] at hkeep
      exact h2.again y hy timer ht hrepeat hkeep
  · intro y hy timer ht hgone
    rcases List.mem_cons.mp hy with rfl | hy
    · rw [hlater.1, hlater.2]
      exact h1.gone y (List.mem_singleton_self y) timer ht hgone
    · rw [← (hother y hy).2] at ht
      rw [← h1.cancelled] at hgone
      exact h2.gone y hy timer ht hgone
  · intro y hy
    have hy1 := h1.other y fun hp => hy (by rw [List.mem_singleton.mp hp]; exact List.mem_cons_self)
    have hy2 := h2.other y fun hp => hy (List.mem_cons_of_mem p hp)
    exact ⟨hy2.1.trans hy1.1, hy2.2.trans hy1.2⟩

theorem renewed_renew {renewed : ℤ → ℤ} {q : TimerQueue} {p : ℤ} {timer : Timer}
    (ht : q.mTimers.lookup p = some timer) (hp : p ∉ q.mActiveTimers) (hrepeat : timer.mRepeat = true)
    (hkeep : p ∉ q.mCancelTimer) (hfree : q.FreeAt (renewed p + timer.mInterval)) :
    Renewed renewed q [p] (q.renew p timer (renewed p)) := by
  obtain ⟨q1, hq1⟩ : ∃ q1 : TimerQueue, q1 = { q with
    mTimers := q.mTimers.insert p { timer with mExpire := renewed p + timer.mInterval } } := ⟨_, rfl⟩
  have hself : q1.mTimers.lookup p = some { timer with mExpire := renewed p + timer.mInterval } := by
    rw [hq1]
    exact AList.lookup_insert q.mTimers
  have hothers : ∀ y, y ≠ p → q1.mTimers.lookup y = q.mTimers.lookup y := by
    intro y hy
    rw [hq1]
    exact AList.lookup_insert_ne hy
  have hactive : (q.renew p timer (renewed p)).mActiveTimers = keyInsert q1.expire p q.mActiveTimers := by
    rw [hq1]
    rfl
  have htimers : (q.renew p timer (renewed p)).mTimers = q1.mTimers := by
    rw [hq1]
    rfl
  have hin : p ∈ keyInsert q1.expire p q.mActiveTimers := by
    refine mem_keyInsert_self fun y hy => ?_
    have hne : y ≠ p := by
      rintro rfl
      exact hp hy
    rw [expire_of_lookup hself, expire_congr (hothers y hne)]
    exact hfree y hy
  refine ⟨rfl, rfl, ?_, ?_, ?_⟩
  · intro y hy t hl _ _
    obtain rfl := List.mem_singleton.mp hy
    rw [ht] at hl
    cases hl
    rw [hactive, htimers]
    exact ⟨hin, hself⟩
  · intro y hy t hl hgone
    obtain rfl := List.mem_singleton.mp hy
    rw [ht] at hl
    cases hl
    rw [hrepeat] at hgone
    rcases hgone with hgone | hgone
    · cases hgone
    · exact absurd hgone hkeep
  · intro y hy
    have hne : y ≠ p := fun he => hy (List.mem_singleton.mpr he)
    rw [hactive, htimers]
    refine ⟨⟨fun hmem => (mem_keyInsert hmem).resolve_left hne, mem_keyInsert_of_mem p⟩, hothers y hne⟩

theorem renewed_erase {renewed : ℤ → ℤ} {q : TimerQueue} {p : ℤ} {timer : Timer}
    (ht : q.mTimers.lookup p = some timer) (hp : p ∉ q.mActiveTimers)
    (hgone : ¬ (timer.mRepeat = true ∧ p ∉ q.mCancelTimer)) :
    Renewed renewed q [p] { q with mTimers := q.mTimers.erase p } := by
  refine ⟨rfl, rfl, ?_, ?_, ?_⟩
  · intro y hy t hl hrepeat hkeep
    obtain rfl := List.mem_singleton.mp hy
    rw [ht] at hl
    cases hl
    exact absurd ⟨hrepeat, hkeep⟩ hgone
  · intro y hy t hl _
    obtain rfl := List.mem_singleton.mp hy
    exact ⟨hp, AList.lookup_erase y q.mTimers⟩
  · intro y hy
    have hne : y ≠ p := fun he => hy (List.mem_singleton.mpr he)
    exact ⟨Iff.rfl, AList.lookup_erase_ne hne⟩

theorem Inv.renewTimers_renewed {q : TimerQueue} (h : Inv q) (renewed : ℤ → ℤ) (ps : List ℤ)
    (hnodup : ps.Nodup) (hpos : ∀ p ∈ ps, 0 < p)
    (hlive : ∀ p ∈ ps, (q.mTimers.lookup p).isSome = true) (hidle : ∀ p ∈ ps, p ∉ q.mActiveTimers)
    (hapart : RenewApart renewed ps q) :
    ∃ q', TimerQueue.renewTimers renewed ps q = .ok q' ∧ Inv q' ∧ Renewed renewed q ps q' := by
  induction ps generalizing q with
  | nil =>
    exact ⟨q, rfl, h, rfl, rfl, fun _ hp => absurd hp List.not_mem_nil,
      fun _ hp => absurd hp List.not_mem_nil, fun _ _ => ⟨Iff.rfl, rfl⟩⟩
  | cons p ps ih =>
    obtain ⟨hnot, hnodup⟩ := List.nodup_cons.mp hnodup
    obtain ⟨timer, ht⟩ := Option.isSome_iff_exists.mp (hlive p List.mem_cons_self)
    have hown := (h.own p timer ht).1
    have hp := hidle p List.mem_cons_self
    have hpos' : ∀ y ∈ ps, 0 < y := fun y hy => hpos y (List.mem_cons_of_mem p hy)
    -- What a turn of the loop leaves to the turns after it.
    have hrest : ∀ {q1 : TimerQueue}, Inv q1 → Renewed renewed q [p] q1 → RenewApart renewed ps q1 →
        ∃ q', TimerQueue.renewTimers renewed ps q1 = .ok q' ∧ Inv q' ∧ Renewed renewed q (p :: ps) q' := by
      intro q1 h1 hturn hapart1
      have hother : ∀ y ∈ ps, (y ∈ q1.mActiveTimers ↔ y ∈ q.mActiveTimers) ∧
          q1.mTimers.lookup y = q.mTimers.lookup y := by
        intro y hy
        refine hturn.other y fun he => ?_
        rw [List.mem_singleton.mp he] at hy
        exact hnot hy
      obtain ⟨q', hrun, h', hlater⟩ := ih h1 hnodup hpos'
        (fun y hy => by rw [(hother y hy).2]; exact hlive y (List.mem_cons_of_mem p hy))
        (fun y hy => by rw [(hother y hy).1]; exact hidle y (List.mem_cons_of_mem p hy)) hapart1
      exact ⟨q', hrun, h', hturn.cons hnot hlater⟩
    rw [RenewApart, ht] at hapart
    rw [TimerQueue.renewTimers, ht]
    dsimp only at hapart ⊢
    by_cases hr : (timer.mRepeat && !decide (timer.mId ∈ q.mCancelTimer)) = true
    · have hboth : timer.mRepeat = true ∧ p ∉ q.mCancelTimer := by simpa [hown] using hr
      obtain ⟨hset, hinv⟩ := h.renew ht hp (hpos p List.mem_cons_self) (renewed p)
      rw [if_pos hr] at hapart
      rw [if_pos hr, hset.live_eq, Bool.not_true, if_neg Bool.false_ne_true]
      exact hrest hinv (renewed_renew ht hp hboth.1 hboth.2 hapart.1) hapart.2
    · have hnone : ¬ (timer.mRepeat = true ∧ p ∉ q.mCancelTimer) := by simpa [hown] using hr
      rw [if_neg hr, hown] at hapart
      rw [if_neg hr, hown]
      exact hrest (h.eraseTimer hp) (renewed_erase ht hp hnone) hapart

/-! ### The loop over the cancelled timers -/

/-- Every timer but the sentinel is active. -/
def AllActive (q : TimerQueue) : Prop :=
  ∀ p, p ≠ 0 → (q.mTimers.lookup p).isSome = true → p ∈ q.mActiveTimers

/-- The timers `ids` are gone and the others are not touched. -/
structure Removed (q : TimerQueue) (ids : List ℤ) (q' : TimerQueue) : Prop where
  gone : ∀ p ∈ ids, p ∉ q'.mActiveTimers ∧ q'.mTimers.lookup p = none
  other : ∀ p, p ∉ ids → (p ∈ q'.mActiveTimers ↔ p ∈ q.mActiveTimers) ∧
    q'.mTimers.lookup p = q.mTimers.lookup p

theorem AllActive.removed {q q' : TimerQueue} {ids : List ℤ} (h : AllActive q) (hr : Removed q ids q') :
    AllActive q' := by
  intro p hp hsome
  by_cases hin : p ∈ ids
  · rw [(hr.gone p hin).2] at hsome
    cases hsome
  · rw [(hr.other p hin).2] at hsome
    exact (hr.other p hin).1.mpr (h p hp hsome)

theorem Inv.removeTimer_removed {q : TimerQueue} (h : Inv q) (hall : AllActive q) {id : ℤ} (hid : id ≠ 0) :
    Removed q [id] (q.removeTimer id) := by
  unfold TimerQueue.removeTimer
  cases hl : q.mTimers.lookup id with
  | none =>
    refine ⟨fun p hp => ?_, fun p _ => ⟨Iff.rfl, rfl⟩⟩
    obtain rfl := List.mem_singleton.mp hp
    refine ⟨fun hactive => ?_, hl⟩
    have hlive := h.live p hactive
    rw [hl] at hlive
    cases hlive
  | some timer =>
    have hactive := hall id hid (by rw [hl]; rfl)
    refine ⟨fun p hp => ?_, fun p hp => ?_⟩
    · obtain rfl := List.mem_singleton.mp hp
      exact ⟨h.not_mem_eraseActive p, AList.lookup_erase p q.mTimers⟩
    · have hne : p ≠ id := fun he => hp (List.mem_singleton.mpr he)
      refine ⟨?_, AList.lookup_erase_ne hne⟩
      have hiff := h.mem_eraseActive_iff (y := p) hactive
      exact hiff.trans ⟨fun hy => hy.1, fun hy => ⟨hy, hne⟩⟩

theorem Removed.cons {q q1 q2 : TimerQueue} {id : ℤ} {ids : List ℤ} (h1 : Removed q [id] q1)
    (h2 : Removed q1 ids q2) : Removed q (id :: ids) q2 := by
  refine ⟨fun p hp => ?_, fun p hp => ?_⟩
  · by_cases hin : p ∈ ids
    · exact h2.gone p hin
    · have hp1 := h1.gone p (List.mem_singleton.mpr ((List.mem_cons.mp hp).resolve_right hin))
      rw [(h2.other p hin).1, (h2.other p hin).2]
      exact hp1
  · have hp1 := h1.other p fun he => hp (by rw [List.mem_singleton.mp he]; exact List.mem_cons_self)
    have hp2 := h2.other p fun hin => hp (List.mem_cons_of_mem id hin)
    exact ⟨hp2.1.trans hp1.1, hp2.2.trans hp1.2⟩

theorem Inv.eraseCancelled_removed {q : TimerQueue} (h : Inv q) (hall : AllActive q) (ids : List ℤ)
    (hids : ∀ id ∈ ids, id ≠ 0) :
    ∃ q', TimerQueue.eraseCancelled ids q = .ok q' ∧ Inv q' ∧ AllActive q' ∧ Removed q ids q' := by
  induction ids generalizing q with
  | nil =>
    exact ⟨q, rfl, h, hall, fun _ hp => absurd hp List.not_mem_nil, fun _ _ => ⟨Iff.rfl, rfl⟩⟩
  | cons id ids ih =>
    have hremove := h.removeTimer_removed hall (hids id List.mem_cons_self)
    obtain ⟨q', hrun, h', hall', hlater⟩ := ih (h.removeTimer id) (hall.removed hremove)
      (fun y hy => hids y (List.mem_cons_of_mem id hy))
    refine ⟨q', ?_, h', hall', hremove.cons hlater⟩
    rw [TimerQueue.eraseCancelled, h.live_eq, Bool.not_true, if_neg Bool.false_ne_true]
    exact hrun

/-! ### The event -/

/-- What becomes of the timers in the event `e` when the tasks of `ran` run. Timer 0 is
the sentinel. -/
structure Outcome (q : TimerQueue) (e : Event) (ran : List ℤ) (q' : TimerQueue) : Prop where
  once : ∀ p ∈ ran, ∀ timer, q.mTimers.lookup p = some timer → timer.mRepeat = false →
    p ∉ q'.mActiveTimers ∧ q'.mTimers.lookup p = none
  cancelled : ∀ p ∈ cancelledIds (ran.flatMap e.task),
    p ∉ q'.mActiveTimers ∧ q'.mTimers.lookup p = none
  repeated : ∀ p ∈ ran, p ∉ cancelledIds (ran.flatMap e.task) → ∀ timer,
    q.mTimers.lookup p = some timer → timer.mRepeat = true → p ∈ q'.mActiveTimers ∧
      q'.mTimers.lookup p = some { timer with mExpire := e.renewed p + timer.mInterval }
  added : ∀ t ∈ addedTimers q.id (ran.flatMap e.task), t.mId ∉ cancelledIds (ran.flatMap e.task) →
    t.mId ∈ q'.mActiveTimers ∧ q'.mTimers.lookup t.mId = some t
  untouched : ∀ p, p ≠ 0 → p ∉ ran → p ∉ cancelledIds (ran.flatMap e.task) →
    (∀ t ∈ addedTimers q.id (ran.flatMap e.task), t.mId ≠ p) →
      (p ∈ q'.mActiveTimers ↔ p ∈ q.mActiveTimers) ∧ q'.mTimers.lookup p = q.mTimers.lookup p

/-- The tasks of the expired timers run in the order of their expiries. -/
structure Handled (q : TimerQueue) (e : Event) (ran : List ℤ) (q' : TimerQueue) : Prop
    extends Outcome q e ran q' where
  sorted : ran.Pairwise fun a b => q.expire a < q.expire b
  expired : ∀ p, p ∈ ran ↔ p ∈ q.mActiveTimers ∧ q.expire p ≤ e.now
  idle : q'.mHandlingEvent = false
  noneCancelled : q'.mCancelTimer = []

/-- Between the calls of a run. -/
structure Settled (q : TimerQueue) : Prop where
  inv : Inv q
  allActive : AllActive q
  idle : q.mHandlingEvent = false
  noneCancelled : q.mCancelTimer = []

theorem Effect.mem_active {q q' : TimerQueue} {as : List Action} {gone : List ℤ}
    (h : Effect q as gone q') (hall : AllActive q) {p : ℤ} (hp : p ≠ 0) (hgone : p ∉ gone)
    (hsome : (q'.mTimers.lookup p).isSome = true) : p ∈ q'.mActiveTimers := by
  by_cases hnew : ∃ t ∈ addedTimers q.id as, t.mId = p
  · exact (h.active p).mpr (Or.inr hnew)
  · have hold := h.old p fun t ht he => hnew ⟨t, ht, he⟩
    rw [hold] at hsome
    exact (h.active p).mpr (Or.inl ⟨hall p hp hsome, hgone⟩)

theorem Renewed.allActive_of_rest {renewed : ℤ → ℤ} {q q' : TimerQueue} {ps : List ℤ}
    (h : Renewed renewed q ps q')
    (hrest : ∀ p, p ≠ 0 → p ∉ ps → (q.mTimers.lookup p).isSome = true → p ∈ q.mActiveTimers)
    (hlive : ∀ p ∈ ps, (q.mTimers.lookup p).isSome = true) : AllActive q' := by
  intro p hp hsome
  by_cases hin : p ∈ ps
  · obtain ⟨timer, ht⟩ := Option.isSome_iff_exists.mp (hlive p hin)
    by_cases hgone : timer.mRepeat = false ∨ p ∈ q.mCancelTimer
    · rw [(h.gone p hin timer ht hgone).2] at hsome
      cases hsome
    · rw [not_or, Bool.not_eq_false] at hgone
      exact (h.again p hin timer ht hgone.1 hgone.2).1
  · rw [(h.other p hin).2] at hsome
    exact (h.other p hin).1.mpr (hrest p hp hin hsome)

theorem Renewed.allActive {renewed : ℤ → ℤ} {q0 q q' : TimerQueue} {as : List Action} {ps : List ℤ}
    (h : Renewed renewed q ps q') (heff : Effect q0 as ps q) (hall : AllActive q0)
    (hlive : ∀ p ∈ ps, (q.mTimers.lookup p).isSome = true) : AllActive q' :=
  h.allActive_of_rest (fun _ hp hin hsome => heff.mem_active hall hp hin hsome) hlive

theorem Removed.congr {q q' : TimerQueue} {ids ids' : List ℤ} (h : Removed q ids q')
    (hids : ∀ p, p ∈ ids ↔ p ∈ ids') : Removed q ids' q' :=
  ⟨fun p hp => h.gone p ((hids p).mpr hp), fun p hp => h.other p fun hin => hp ((hids p).mp hin)⟩

theorem Inv.loops {q : TimerQueue} (h : Inv q) (hall : AllActive q) (hh : q.mHandlingEvent = true)
    (hcancel : q.mCancelTimer = []) {order : List ℤ → List ℤ} (horder : ∀ ids, (order ids).Perm ids)
    (task : ℤ → List Action) (renewed : ℤ → ℤ) (ps : List ℤ) (hnodup : ps.Nodup)
    (hactive : ∀ p ∈ ps, p ∈ q.mActiveTimers) (hapart : TasksOk ActApart task ps q)
    (hrenew : ∀ q', TimerQueue.runTasks task ps q = .ok q' → RenewApart renewed ps q') :
    ∃ q1 q2 q3, TimerQueue.runTasks task ps q = .ok q1 ∧ TimerQueue.renewTimers renewed ps q1 = .ok q2 ∧
      TimerQueue.eraseCancelled (order q2.mCancelTimer) q2 = .ok q3 ∧ Inv q3 ∧ AllActive q3 ∧
      Effect q (ps.flatMap task) ps q1 ∧ Renewed renewed q1 ps q2 ∧
      Removed q2 (cancelledIds (ps.flatMap task)) q3 := by
  obtain ⟨q1, hrun, h1, heff⟩ := h.runTasks_effect hh task ps hnodup hactive hapart
  have hlive : ∀ p ∈ ps, (q1.mTimers.lookup p).isSome = true := by
    intro p hp
    have hold : ∀ t ∈ addedTimers q.id (ps.flatMap task), t.mId ≠ p := by
      intro t ht
      have hlt := h.lt_of_active (hactive p hp)
      have hle := mem_addedTimers ht
      omega
    rw [heff.old p hold]
    exact h.live p (hactive p hp)
  have hidle : ∀ p ∈ ps, p ∉ q1.mActiveTimers := by
    intro p hp hin
    rcases (heff.active p).mp hin with ⟨-, hnot⟩ | ⟨t, ht, he⟩
    · exact hnot hp
    · have hlt := h.lt_of_active (hactive p hp)
      have hle := mem_addedTimers ht
      omega
  obtain ⟨q2, hrenewed, h2, hrel⟩ := h1.renewTimers_renewed renewed ps hnodup
    (fun p hp => h.pos p (hactive p hp)) hlive hidle (hrenew q1 hrun)
  have hall2 := hrel.allActive heff hall hlive
  have hids : ∀ id, id ∈ order q2.mCancelTimer ↔ id ∈ cancelledIds (ps.flatMap task) := by
    intro id
    rw [(horder _).mem_iff, hrel.cancelled, heff.cancelled, hcancel]
    simp
  obtain ⟨q3, herase, h3, hall3, hremoved⟩ := h2.eraseCancelled_removed hall2 (order q2.mCancelTimer)
    (fun id hid => heff.ids id ((hids id).mp hid))
  exact ⟨q1, q2, q3, hrun, hrenewed, herase, h3, hall3, heff, hrel, hremoved.congr hids⟩

theorem Inv.outcome {q q1 q2 q3 : TimerQueue} (h : Inv q) (hcancel : q.mCancelTimer = []) {e : Event}
    {ran : List ℤ} (hactive : ∀ p ∈ ran, p ∈ q.mActiveTimers)
    (heff : Effect q (ran.flatMap e.task) ran q1) (hrenewed : Renewed e.renewed q1 ran q2)
    (hremoved : Removed q2 (cancelledIds (ran.flatMap e.task)) q3) : Outcome q e ran q3 := by
  have hcancelled : ∀ id, id ∈ q1.mCancelTimer ↔ id ∈ cancelledIds (ran.flatMap e.task) := by
    intro id
    rw [heff.cancelled, hcancel]
    simp
  have hnew : ∀ p ∈ ran, ∀ t ∈ addedTimers q.id (ran.flatMap e.task), t.mId ≠ p := by
    intro p hp t ht
    have hlt := h.lt_of_active (hactive p hp)
    have hle := mem_addedTimers ht
    omega
  refine ⟨?_, hremoved.gone, ?_, ?_, ?_⟩
  · intro p hp timer ht honce
    by_cases hin : p ∈ cancelledIds (ran.flatMap e.task)
    · exact hremoved.gone p hin
    · rw [← heff.old p (hnew p hp)] at ht
      rw [(hremoved.other p hin).1, (hremoved.other p hin).2]
      exact hrenewed.gone p hp timer ht (Or.inl honce)
  · intro p hp hkeep timer ht hrepeat
    rw [← heff.old p (hnew p hp)] at ht
    rw [(hremoved.other p hkeep).1, (hremoved.other p hkeep).2]
    exact hrenewed.again p hp timer ht hrepeat fun hin => hkeep ((hcancelled p).mp hin)
  · intro t ht hkeep
    have hran : t.mId ∉ ran := fun hin => hnew t.mId hin t ht rfl
    rw [(hremoved.other _ hkeep).1, (hremoved.other _ hkeep).2, (hrenewed.other _ hran).1,
      (hrenewed.other _ hran).2]
    exact ⟨(heff.active _).mpr (Or.inr ⟨t, ht, rfl⟩), heff.new t ht⟩
  · intro p _ hran hkeep hold
    rw [(hremoved.other _ hkeep).1, (hremoved.other _ hkeep).2, (hrenewed.other _ hran).1,
      (hrenewed.other _ hran).2]
    refine ⟨(heff.active p).trans ?_, heff.old p hold⟩
    constructor
    · rintro (⟨hp, -⟩ | ⟨t, ht, he⟩)
      · exact hp
      · exact absurd he (hold t ht)
    · exact fun hp => Or.inl ⟨hp, hran⟩

theorem Outcome.of_begin {q q0 q' : TimerQueue} {e : Event} {ran : List ℤ} (hout : Outcome q0 e ran q')
    (hpos : ∀ p ∈ ran, p ≠ 0) (hnext : q0.id = q.id)
    (hactive : q0.mActiveTimers = q.mActiveTimers)
    (hlook : ∀ p, p ≠ 0 → q0.mTimers.lookup p = q.mTimers.lookup p) : Outcome q e ran q' := by
  refine ⟨?_, hout.cancelled, ?_, ?_, ?_⟩
  · intro p hp timer ht
    rw [← hlook p (hpos p hp)] at ht
    exact hout.once p hp timer ht
  · intro p hp hkeep timer ht
    rw [← hlook p (hpos p hp)] at ht
    exact hout.repeated p hp hkeep timer ht
  · rw [← hnext]
    exact hout.added
  · intro p hp
    rw [← hnext, ← hactive, ← hlook p hp]
    exact hout.untouched p hp

theorem outcome_nil {q q' : TimerQueue} (e : Event) (hactive : q'.mActiveTimers = q.mActiveTimers)
    (hlook : ∀ p, p ≠ 0 → q'.mTimers.lookup p = q.mTimers.lookup p) : Outcome q e [] q' :=
  ⟨fun _ hp => absurd hp List.not_mem_nil, fun _ hp => absurd hp List.not_mem_nil,
    fun _ hp => absurd hp List.not_mem_nil, fun _ ht => absurd ht List.not_mem_nil,
    fun p hp _ _ _ => ⟨by rw [hactive], hlook p hp⟩⟩

theorem Settled.handle {q : TimerQueue} (h : Settled q) {order : List ℤ → List ℤ}
    (horder : ∀ ids, (order ids).Perm ids) {e : Event} (hapart : q.EventApart e) :
    ∃ ran q', q.handleExpireEvent order e = .ok (ran, q') ∧ Handled q e ran q' ∧ Settled q' := by
  obtain ⟨hb, -, -⟩ := h.inv.beginHandling e.now
  have hexpired := h.inv.mem_expired_iff e.now
  obtain ⟨q0, hq0⟩ : ∃ q0, q.beginHandling e.now = q0 := ⟨_, rfl⟩
  have hactive : q0.mActiveTimers = q.mActiveTimers := by rw [← hq0]; rfl
  have hnext : q0.id = q.id := by rw [← hq0]; rfl
  have hcancel : q0.mCancelTimer = [] := by rw [← hq0]; exact h.noneCancelled
  have hhandling : q0.mHandlingEvent = true := by rw [← hq0]; rfl
  have hlook : ∀ p, p ≠ 0 → q0.mTimers.lookup p = q.mTimers.lookup p := by
    intro p hp
    rw [← hq0]
    exact AList.lookup_insert_ne hp
  have hall : AllActive q0 := by
    intro p hp hsome
    rw [hlook p hp] at hsome
    rw [hactive]
    exact h.allActive p hp hsome
  unfold EventApart at hapart
  unfold TimerQueue.handleExpireEvent TimerQueue.beforeArming
  rw [hq0] at hb hexpired hapart ⊢
  dsimp only
  rw [hb.live_eq, Bool.not_true, if_neg Bool.false_ne_true]
  have hsorted : q0.expired.Pairwise fun a b => q.expire a < q.expire b := by
    have hs := h.inv.sorted
    unfold KeySorted at hs
    rw [← hactive] at hs
    exact hs.sublist (List.takeWhile_sublist _)
  have hsub : ∀ p ∈ q0.expired, p ∈ q0.mActiveTimers := fun p hp =>
    (List.takeWhile_sublist _).subset hp
  by_cases hempty : q0.expired.isEmpty = true
  · have hnil : q0.expired = [] := List.isEmpty_iff.mp hempty
    rw [hnil] at hexpired
    rw [if_pos hempty]
    exact ⟨[], _, rfl, ⟨outcome_nil e hactive hlook, List.Pairwise.nil, hexpired, rfl, hcancel⟩,
      ⟨⟨hb.live, hb.sorted, hb.pos, hb.own, hb.next, hb.sentinel⟩, hall, rfl, hcancel⟩⟩
  · have hnodup : q0.expired.Nodup := hsorted.imp fun hlt heq => absurd (heq ▸ hlt) (lt_irrefl _)
    have hrenew : ∀ q', TimerQueue.runTasks e.task q0.expired q0 = .ok q' →
        RenewApart e.renewed q0.expired q' := by
      intro q' hrun
      have hmatch := hapart.2
      rw [hrun] at hmatch
      exact hmatch
    obtain ⟨q1, q2, q3, hrun, hrenewed, herase, h3, hall3, heff, hrel, hremoved⟩ :=
      hb.loops hall hhandling hcancel horder e.task e.renewed q0.expired hnodup hsub hapart.1 hrenew
    have hpos : ∀ p ∈ q0.expired, p ≠ 0 := by
      intro p hp
      have := hb.pos p (hsub p hp)
      omega
    have hout := (hb.outcome hcancel hsub heff hrel hremoved).of_begin hpos hnext hactive hlook
    rw [if_neg hempty, hrun, Exec.ok_bind, hrenewed, Exec.ok_bind, herase, Exec.ok_bind]
    refine ⟨q0.expired, q3.finishHandling e.armed, ?_, ?_, ?_⟩
    · rw [Exec.pure_eq_ok, Exec.ok_bind]
      dsimp only
      rw [if_neg hempty]
      rfl
    · exact ⟨⟨hout.once, hout.cancelled, hout.repeated, hout.added, hout.untouched⟩, hsorted, hexpired,
        rfl, rfl⟩
    · exact ⟨h3.finishHandling e.armed, hall3, rfl, rfl⟩

/-! ### Every run -/

theorem Effect.settled {q q' : TimerQueue} {as : List Action} (heff : Effect q as [] q') (h : Settled q)
    (hinv : Inv q') (hids : cancelledIds as = []) : Settled q' := by
  refine ⟨hinv, fun p hp hsome => heff.mem_active h.allActive hp List.not_mem_nil hsome,
    heff.handling.trans h.idle, List.eq_nil_iff_forall_not_mem.mpr fun id hid => ?_⟩
  have hmem := (heff.cancelled id).mp hid
  rw [h.noneCancelled, hids] at hmem
  exact hmem.elim List.not_mem_nil List.not_mem_nil

theorem Settled.call {q : TimerQueue} (h : Settled q) {order : List ℤ → List ℤ}
    (horder : ∀ ids, (order ids).Perm ids) {c : Call} (hapart : q.CallApart c) :
    ∃ ran q', q.call order c = .ok (ran, q') ∧ Settled q' := by
  cases c with
  | handle e =>
    obtain ⟨ran, q', hhandle, -, h'⟩ := h.handle horder hapart
    exact ⟨ran, q', hhandle, h'⟩
  | act a =>
    cases a with
    | add interval repeated created armed =>
      obtain ⟨q', hadd, hi, heff⟩ := h.inv.addTimer_effect interval repeated created armed hapart
      refine ⟨[], q', ?_, heff.settled h hi rfl⟩
      rw [TimerQueue.call, act, hadd]
      rfl
    | cancel id armed =>
      have hremoved : Removed q [id] (q.removeTimer id) := h.inv.removeTimer_removed h.allActive hapart
      have hi := h.inv.removeTimer id
      have hall := h.allActive.removed hremoved
      have hsame : (q.removeTimer id).mHandlingEvent = false ∧ (q.removeTimer id).mCancelTimer = [] := by
        unfold TimerQueue.removeTimer
        cases q.mTimers.lookup id with
        | none => exact ⟨h.idle, h.noneCancelled⟩
        | some timer => exact ⟨h.idle, h.noneCancelled⟩
      rw [TimerQueue.call, act, h.inv.cancelTimer_idle h.idle id armed]
      refine ⟨[], _, rfl, ?_⟩
      split
      · exact ⟨⟨hi.live, hi.sorted, hi.pos, hi.own, hi.next, hi.sentinel⟩, hall, hsame.1, hsame.2⟩
      · exact ⟨hi, hall, hsame.1, hsame.2⟩

theorem settled_new : Settled {} where
  inv := fresh_inv
  allActive p _ hsome := by
    rw [AList.lookup_empty] at hsome
    cases hsome
  idle := rfl
  noneCancelled := rfl

/-- After every run the event runs the tasks of exactly the expired timers, and does to the
timers what it should, as long as no two timers are active with one expiry. -/
theorem handleExpireEvent_handled (order : List ℤ → List ℤ) (horder : ∀ ids, (order ids).Perm ids)
    (calls : List Call) (e : Event) (h : StepsOk (call order) CallApart {} (calls ++ [.handle e])) :
    ∃ outs q ran q', runOps (call order) {} calls = .ok (outs, q) ∧
      q.handleExpireEvent order e = .ok (ran, q') ∧ Handled q e ran q' := by
  have keep : ∀ q c, Settled q → q.CallApart c → ∃ ran q', q.call order c = .ok (ran, q') ∧
      Settled q' := fun q c hq hapart => hq.call horder hapart
  obtain ⟨hcalls, hlast⟩ := stepsOk_append h
  obtain ⟨outs, q, hrun, hq⟩ := run_invariant keep calls {} settled_new hcalls
  have hapart : q.CallApart (.handle e) := stepsOk_head (hlast outs q hrun)
  obtain ⟨ran, q', hhandle, hhandled, -⟩ := hq.handle horder hapart
  exact ⟨outs, q, ran, q', hrun, hhandle, hhandled⟩

/-- Timers 1, 2 and 3 are due and repeated. The first task adds timers 5 and 6, the second one
cancels its own timer and timer 5, and the third one cancels timer 4. -/
theorem handleExpireEvent_handled_four :
    ∃ outs q ran q', runOps (call List.reverse) {} [.act (.add 10 true 0 1), .act (.add 20 true 0 1),
        .act (.add 30 true 0 1), .act (.add 80 false 0 1)] = .ok (outs, q) ∧
      q.handleExpireEvent List.reverse ⟨30, fun p => if p = 1 then [.add 5 false 31 31, .add 7 true 31 31]
        else if p = 2 then [.cancel 2 32, .cancel 5 32] else [.cancel 4 33],
          fun p => 40 + p, 50⟩ = .ok (ran, q') ∧
      Handled q ⟨30, fun p => if p = 1 then [.add 5 false 31 31, .add 7 true 31 31]
        else if p = 2 then [.cancel 2 32, .cancel 5 32] else [.cancel 4 33],
          fun p => 40 + p, 50⟩ ran q' :=
  handleExpireEvent_handled List.reverse List.reverse_perm _ _ (by decide)

end TimerQueue

end DeftRpc.Timers
