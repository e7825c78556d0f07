import DeftRpc.Timers.ExpireEvent

/-!
# The ids in m_timers_

m_timers_ goes by the id, so what the calls do to it does not depend on the expiries:
an id is not used twice, and a cancelled one is gone when the call or the event ends.
-/

namespace DeftRpc.Timers
open DeftRpc.Foundation

namespace TimerQueue

/-! ### The calls of the tasks -/

/-- What the calls `as` of the tasks do to m_timers_ and m_cancel_timer_. -/
structure Ids (q : TimerQueue) (as : List Action) (q' : TimerQueue) : Prop where
  handling : q'.mHandlingEvent = q.mHandlingEvent
  next : q'.id = q.id + (addedTimers q.id as).length
  old : ∀ p, p < q.id → q'.mTimers.lookup p = q.mTimers.lookup p
  new : ∀ p, q.id ≤ p → p < q'.id → (q'.mTimers.lookup p).isSome = true
  cancelled : ∀ id, id ∈ q'.mCancelTimer ↔ id ∈ q.mCancelTimer ∨ id ∈ cancelledIds as

theorem Ids.refl (q : TimerQueue) : Ids q [] q where
  handling := rfl
  next := by simp [addedTimers]
  old p _ := rfl
  new p hle hlt := absurd hle (by omega)
  cancelled id := by simp [cancelledIds]

theorem Ids.next_le {q q' : TimerQueue} {as : List Action} (h : Ids q as q') : q.id ≤ q'.id := by
  have hnext := h.next
  omega

theorem Ids.trans {q q1 q2 : TimerQueue} {as bs : List Action} (h1 : Ids q as q1) (h2 : Ids q1 bs q2) :
    Ids q (as ++ bs) q2 := by
  have hle := h1.next_le
  refine ⟨h2.handling.trans h1.handling, ?_, ?_, ?_, ?_⟩
  · rw [addedTimers_append, List.length_append, h2.next, ← h1.next, h1.next]
    omega
  · intro p hp
    rw [h2.old p (by omega)]
    exact h1.old p hp
  · intro p hp hlt
    by_cases hp1 : p < q1.id
    · rw [h2.old p hp1]
      exact h1.new p hp hp1
    · exact h2.new p (by omega) hlt
  · intro id
    rw [h2.cancelled, h1.cancelled, cancelledIds_append, List.mem_append, or_assoc]

theorem Inv.addTimer_ids {q q' : TimerQueue} (h : Inv q) {interval created armed id : ℤ}
    {repeated : Bool} (hadd : q.addTimer interval repeated created armed = .ok (id, q')) :
    id = q.id ∧ Ids q [.add interval repeated created armed] q' := by
  rw [h.addTimer_eq] at hadd
  obtain ⟨rfl, hq'⟩ := Prod.mk.inj (Except.ok.inj hadd)
  obtain ⟨timer, htimer⟩ : ∃ timer : Timer, ⟨repeated, interval, created + interval, q.id⟩ = timer :=
    ⟨_, rfl⟩
  have hid : timer.mId = q.id := by rw [← htimer]
  rw [htimer] at hq'
  have hids : Ids q [.add interval repeated created armed] (q.inserted timer) := by
    refine ⟨rfl, rfl, ?_, ?_, ?_⟩
    · intro p hp
      exact AList.lookup_insert_ne (by omega)
    · intro p hle hlt
      have hnext : (q.inserted timer).id = q.id + 1 := rfl
      have hp : p = timer.mId := by omega
      rw [hp]
      exact Option.isSome_iff_exists.mpr ⟨timer, AList.lookup_insert q.mTimers⟩
    · intro id
      have hsame : (q.inserted timer).mCancelTimer = q.mCancelTimer := rfl
      simp [cancelledIds, hsame]
  refine ⟨rfl, ?_⟩
  rw [← hq']
  split
  · exact ⟨hids.handling, hids.next, hids.old, hids.new, hids.cancelled⟩
  · exact hids

theorem Inv.act_ids {q q' : TimerQueue} (h : Inv q) (hh : q.mHandlingEvent = true) {a : Action}
    (ha : q.act a = .ok q') : Ids q [a] q' := by
  cases a with
  | add interval repeated created armed =>
    obtain ⟨r, hadd, hr⟩ := Exec.bind_eq_ok ha
    cases hr
    exact (h.addTimer_ids hadd).2
  | cancel id armed =>
    have heq := cancelTimer_handling hh id armed
    have hids := Ids.refl q
    rw [act, heq] at ha
    cases ha
    exact ⟨rfl, hids.next, hids.old, hids.new, fun _ => mem_heldBack⟩

theorem Inv.acts_ids {q q' : TimerQueue} (h : Inv q) (hh : q.mHandlingEvent = true) {as : List Action}
    (has : q.acts as = .ok q') : Ids q as q' := by
  induction as generalizing q with
  | nil =>
    cases has
    exact Ids.refl _
  | cons a as ih =>
    obtain ⟨q1, ha, h1, he⟩ := h.act_handling hh a
    rw [acts, ha, Exec.ok_bind] at has
    exact (h.act_ids hh ha).trans (ih h1 (he.handling.trans hh) has)

theorem Ids.eraseActive {q q' : TimerQueue} {as : List Action} (h : Ids q as q') (p : ℤ) :
    Ids q as (q'.eraseActive p) :=
  ⟨h.handling, h.next, h.old, h.new, h.cancelled⟩

theorem runTasks_cons {task : ℤ → List Action} {p : ℤ} {ps : List ℤ} {q q' : TimerQueue}
    (h : runTasks task (p :: ps) q = .ok q') :
    ∃ q1, q.acts (task p) = .ok q1 ∧ runTasks task ps (q1.eraseActive p) = .ok q' := by
  rw [runTasks] at h
  cases hl : q.mTimers.lookup p with
  | none =>
    rw [hl] at h
    cases h
  | some timer =>
    rw [hl] at h
    obtain ⟨q1, hacts, hrest⟩ := Exec.bind_eq_ok h
    refine ⟨q1, hacts, ?_⟩
    split at hrest
    · cases hrest
    · exact hrest

theorem Inv.runTasks_turn {q q' : TimerQueue} (h : Inv q) (hh : q.mHandlingEvent = true)
    {task : ℤ → List Action} {p : ℤ} {ps : List ℤ}
    (hrun : TimerQueue.runTasks task (p :: ps) q = .ok q') :
    ∃ q1, q.acts (task p) = .ok q1 ∧ Inv q1 ∧ Extends q q1 ∧
      TimerQueue.runTasks task ps (q1.eraseActive p) = .ok q' := by
  obtain ⟨q1, hacts, hrest⟩ := runTasks_cons hrun
  obtain ⟨q1', hacts', h1, he⟩ := h.acts_handling hh (task p)
  rw [hacts] at hacts'
  cases hacts'
  exact ⟨q1, hacts, h1, he, hrest⟩

theorem Inv.runTasks_ids {q q' : TimerQueue} (h : Inv q) (hh : q.mHandlingEvent = true)
    {task : ℤ → List Action} {ps : List ℤ} (hrun : TimerQueue.runTasks task ps q = .ok q') :
    Ids q (ps.flatMap task) q' := by
  induction ps generalizing q with
  | nil =>
    cases hrun
    exact Ids.refl _
  | cons p ps ih =>
    obtain ⟨q1, hacts, h1, he, hrest⟩ := h.runTasks_turn hh hrun
    have hlater := ih (h1.eraseActive p) (he.handling.trans hh) hrest
    exact ((h.acts_ids hh hacts).eraseActive p).trans hlater

/-! ### The two loops after the tasks -/

/-- What the loop over the timers `ps` does to m_timers_. -/
structure Kept (ps : List ℤ) (q q' : TimerQueue) : Prop where
  next : q'.id = q.id
  cancelled : q'.mCancelTimer = q.mCancelTimer
  handling : q'.mHandlingEvent = q.mHandlingEvent
  ran : ∀ p ∈ ps, ∀ timer, q.mTimers.lookup p = some timer →
    ((q'.mTimers.lookup p).isSome = true ↔ timer.mRepeat = true ∧ p ∉ q.mCancelTimer)
  other : ∀ p, p ∉ ps → q'.mTimers.lookup p = q.mTimers.lookup p

def Filed (q : TimerQueue) : Prop := ∀ p timer, q.mTimers.lookup p = some timer → timer.mId = p

theorem Filed.renew {q : TimerQueue} (h : Filed q) {p : ℤ} {timer : Timer}
    (ht : q.mTimers.lookup p = some timer) (now : ℤ) : Filed (q.renew p timer now) := by
  intro y t hl
  have hl' : (q.mTimers.insert p { timer with mExpire := now + timer.mInterval }).lookup y = some t := hl
  by_cases hy : y = p
  · rw [hy, AList.lookup_insert] at hl'
    cases hl'
    rw [hy]
    exact h p timer ht
  · rw [AList.lookup_insert_ne hy] at hl'
    exact h y t hl'

theorem Filed.erase {q : TimerQueue} (h : Filed q) (p : ℤ) :
    Filed { q with mTimers := q.mTimers.erase p } := by
  intro y t hl
  by_cases hy : y = p
  · dsimp only at hl
    rw [hy, AList.lookup_erase] at hl
    cases hl
  · dsimp only at hl
    rw [AList.lookup_erase_ne hy] at hl
    exact h y t hl

theorem Kept.cons {p : ℤ} {ps : List ℤ} {q q1 q2 : TimerQueue} (hnot : p ∉ ps) (h1 : Kept [p] q q1)
    (h2 : Kept ps q1 q2) : Kept (p :: ps) q q2 := by
  refine ⟨h2.next.trans h1.next, h2.cancelled.trans h1.cancelled, h2.handling.trans h1.handling, ?_, ?_⟩
  · intro y hy timer ht
    rcases List.mem_cons.mp hy with rfl | hy
    · rw [h2.other y hnot]
      exact h1.ran y (List.mem_singleton_self y) timer ht
    · have hne : y ∉ [p] := by
        intro he
        rw [List.mem_singleton.mp he] at hy
        exact hnot hy
      rw [← h1.cancelled]
      rw [← h1.other y hne] at ht
      exact h2.ran y hy timer ht
  · intro y hy
    rw [h2.other y fun hin => hy (List.mem_cons_of_mem p hin)]
    refine h1.other y fun he => hy ?_
    rw [List.mem_singleton.mp he]
    exact List.mem_cons_self

theorem kept_renew {q : TimerQueue} {p : ℤ} {timer : Timer} (ht : q.mTimers.lookup p = some timer)
    (hkeep : timer.mRepeat = true ∧ p ∉ q.mCancelTimer) (now : ℤ) : Kept [p] q (q.renew p timer now) := by
  refine ⟨rfl, rfl, rfl, ?_, ?_⟩
  · intro y hy t hl
    obtain rfl := List.mem_singleton.mp hy
    rw [ht] at hl
    cases hl
    have hself : (q.renew y timer now).mTimers.lookup y
        = some { timer with mExpire := now + timer.mInterval } := AList.lookup_insert q.mTimers
    rw [hself]
    exact ⟨fun _ => hkeep, fun _ => rfl⟩
  · intro y hy
    exact AList.lookup_insert_ne fun he => hy (List.mem_singleton.mpr he)

theorem kept_erase {q : TimerQueue} {p : ℤ} {timer : Timer} (ht : q.mTimers.lookup p = some timer)
    (hgone : ¬ (timer.mRepeat = true ∧ p ∉ q.mCancelTimer)) :
    Kept [p] q { q with mTimers := q.mTimers.erase p } := by
  refine ⟨rfl, rfl, rfl, ?_, ?_⟩
  · intro y hy t hl
    obtain rfl := List.mem_singleton.mp hy
    rw [ht] at hl
    cases hl
    dsimp only
    rw [AList.lookup_erase]
    exact ⟨fun hsome => absurd hsome Bool.false_ne_true, fun hkeep => absurd hkeep hgone⟩
  · intro y hy
    exact AList.lookup_erase_ne fun he => hy (List.mem_singleton.mpr he)

theorem Filed.renewTimers_cons {renewed : ℤ → ℤ} {p : ℤ} {ps : List ℤ} {q q' : TimerQueue}
    (hfiled : Filed q) (h : TimerQueue.renewTimers renewed (p :: ps) q = .ok q') :
    ∃ timer, q.mTimers.lookup p = some timer ∧
      ((timer.mRepeat = true ∧ p ∉ q.mCancelTimer ∧
          TimerQueue.renewTimers renewed ps (q.renew p timer (renewed p)) = .ok q') ∨
        (¬ (timer.mRepeat = true ∧ p ∉ q.mCancelTimer) ∧
          TimerQueue.renewTimers renewed ps { q with mTimers := q.mTimers.erase p } = .ok q')) := by
  rw [TimerQueue.renewTimers] at h
  cases hl : q.mTimers.lookup p with
  | none =>
    rw [hl] at h
    cases h
  | some timer =>
    rw [hl] at h
    dsimp only at h
    have hid : timer.mId = p := hfiled p timer hl
    refine ⟨timer, rfl, ?_⟩
    by_cases hr : (timer.mRepeat && !decide (timer.mId ∈ q.mCancelTimer)) = true
    · have hboth : timer.mRepeat = true ∧ p ∉ q.mCancelTimer := by simpa [hid] using hr
      rw [if_pos hr] at h
      split at h
      · cases h
      · exact Or.inl ⟨hboth.1, hboth.2, h⟩
    · have hnone : ¬ (timer.mRepeat = true ∧ p ∉ q.mCancelTimer) := by simpa [hid] using hr
      rw [if_neg hr, hid] at h
      exact Or.inr ⟨hnone, h⟩

theorem Filed.renewTimers_kept {renewed : ℤ → ℤ} {ps : List ℤ} {q q' : TimerQueue} (hfiled : Filed q)
    (hnodup : ps.Nodup) (h : TimerQueue.renewTimers renewed ps q = .ok q') : Kept ps q q' := by
  induction ps generalizing q with
  | nil =>
    cases h
    exact ⟨rfl, rfl, rfl, fun _ hp => absurd hp List.not_mem_nil, fun _ _ => rfl⟩
  | cons p ps ih =>
    obtain ⟨hnot, hnodup⟩ := List.nodup_cons.mp hnodup
    obtain ⟨timer, ht, ⟨hrepeat, hkeep, hrest⟩ | ⟨hgone, hrest⟩⟩ := hfiled.renewTimers_cons h
    · exact (kept_renew ht ⟨hrepeat, hkeep⟩ _).cons hnot (ih (hfiled.renew ht _) hnodup hrest)
    · exact (kept_erase ht hgone).cons hnot (ih (hfiled.erase p) hnodup hrest)

theorem removeTimer_fields (q : TimerQueue) (id : ℤ) : (q.removeTimer id).id = q.id ∧
    (q.removeTimer id).mHandlingEvent = q.mHandlingEvent ∧
    (q.removeTimer id).mCancelTimer = q.mCancelTimer := by
  unfold removeTimer
  cases q.mTimers.lookup id with
  | none => exact ⟨rfl, rfl, rfl⟩
  | some timer => exact ⟨rfl, rfl, rfl⟩

theorem eraseCancelled_cons {id : ℤ} {ids : List ℤ} {q q' : TimerQueue}
    (h : eraseCancelled (id :: ids) q = .ok q') : eraseCancelled ids (q.removeTimer id) = .ok q' := by
  rw [eraseCancelled] at h
  split at h
  · cases h
  · exact h

theorem eraseCancelled_lookup {ids : List ℤ} {q q' : TimerQueue} (h : eraseCancelled ids q = .ok q') :
    q'.id = q.id ∧ ∀ p, q'.mTimers.lookup p = if p ∈ ids then none else q.mTimers.lookup p := by
  induction ids generalizing q with
  | nil =>
    cases h
    exact ⟨rfl, fun p => (if_neg List.not_mem_nil).symm⟩
  | cons id ids ih =>
    obtain ⟨hnext, hlater⟩ := ih (eraseCancelled_cons h)
    refine ⟨hnext.trans (removeTimer_fields q id).1, fun p => ?_⟩
    rw [hlater p, lookup_removeTimer]
    simp only [List.mem_cons]
    by_cases hp : p = id
    · simp [hp]
    · simp [hp]

/-! ### The event -/

theorem Inv.filed {q : TimerQueue} (h : Inv q) : Filed q := fun p timer hl => (h.own p timer hl).1

theorem Inv.expired_nodup {q : TimerQueue} (h : Inv q) : q.expired.Nodup := by
  have hnodup : q.mActiveTimers.Nodup :=
    h.sorted.imp fun hlt heq => absurd (heq ▸ hlt) (lt_irrefl _)
  exact hnodup.sublist (List.takeWhile_sublist _)

theorem mem_of_mem_expired {q : TimerQueue} {p : ℤ} (hp : p ∈ q.expired) : p ∈ q.mActiveTimers :=
  (List.takeWhile_sublist _).subset hp

/-- The three loops of an event that found expired timers. -/
structure Loops (order : List ℤ → List ℤ) (e : Event) (ran : List ℤ) (q q1 q2 q3 : TimerQueue) : Prop where
  run : runTasks e.task ran q = .ok q1
  renew : renewTimers e.renewed ran q1 = .ok q2
  erase : eraseCancelled (order q2.mCancelTimer) q2 = .ok q3
  ranInv : Inv q1
  renewedInv : Inv q2
  erasedInv : Inv q3
  live : ∀ p ∈ ran, (q1.mTimers.lookup p).isSome = true
  idle : ∀ p ∈ ran, p ∉ q1.mActiveTimers

theorem Inv.exists_loops {q : TimerQueue} (h : Inv q) (hh : q.mHandlingEvent = true)
    (order : List ℤ → List ℤ) (e : Event) : ∃ q1 q2 q3, Loops order e q.expired q q1 q2 q3 := by
  obtain ⟨q1, hrun, h1, -, hkept, -, hidle⟩ := h.runTasks hh e.task q.expired h.expired_nodup
    fun p hp => mem_of_mem_expired hp
  have hlive : ∀ p ∈ q.expired, (q1.mTimers.lookup p).isSome = true := by
    intro p hp
    obtain ⟨timer, ht⟩ := Option.isSome_iff_exists.mp (h.live p (mem_of_mem_expired hp))
    rw [hkept p timer ht]
    rfl
  obtain ⟨q2, hrenew, h2, -⟩ := h1.renewTimers e.renewed q.expired h.expired_nodup
    (fun p hp => h.pos p (mem_of_mem_expired hp)) hlive hidle
  obtain ⟨q3, herase, h3, -⟩ := h2.eraseCancelled (order q2.mCancelTimer)
  exact ⟨q1, q2, q3, hrun, hrenew, herase, h1, h2, h3, hlive, hidle⟩

theorem Inv.handle_cases {q : TimerQueue} (h : Inv q) (order : List ℤ → List ℤ) (e : Event) :
    ∃ q', q.handleExpireEvent order e = .ok ((q.beginHandling e.now).expired, q') ∧ Inv q' ∧
      (((q.beginHandling e.now).expired = [] ∧
          q' = { q.beginHandling e.now with mHandlingEvent := false }) ∨
        ∃ q1 q2 q3, Loops order e (q.beginHandling e.now).expired (q.beginHandling e.now) q1 q2 q3 ∧
          q' = q3.finishHandling e.armed) := by
  obtain ⟨hb, -, -⟩ := h.beginHandling e.now
  unfold handleExpireEvent TimerQueue.beforeArming
  dsimp only
  rw [hb.live_eq, Bool.not_true, if_neg Bool.false_ne_true]
  by_cases hempty : (q.beginHandling e.now).expired.isEmpty = true
  · have hnil := List.isEmpty_iff.mp hempty
    rw [if_pos hempty, hnil]
    exact ⟨_, rfl, ⟨hb.live, hb.sorted, hb.pos, hb.own, hb.next, hb.sentinel⟩, Or.inl ⟨rfl, rfl⟩⟩
  · obtain ⟨q1, q2, q3, hloops⟩ := hb.exists_loops rfl order e
    rw [if_neg hempty, hloops.run, Exec.ok_bind, hloops.renew, Exec.ok_bind, hloops.erase, Exec.ok_bind,
      Exec.pure_eq_ok, Exec.ok_bind]
    dsimp only
    rw [if_neg hempty]
    exact ⟨_, rfl, hloops.erasedInv.finishHandling e.armed, Or.inr ⟨q1, q2, q3, hloops, rfl⟩⟩

/-- What an event that runs the tasks of `ran` does to m_timers_, the sentinel apart. -/
structure EventIds (q : TimerQueue) (e : Event) (ran : List ℤ) (q' : TimerQueue) : Prop where
  next : q'.id = q.id + (addedTimers q.id (ran.flatMap e.task)).length
  idle : q'.mHandlingEvent = false
  noneCancelled : q'.mCancelTimer = []
  gone : ∀ p ∈ cancelledIds (ran.flatMap e.task), q'.mTimers.lookup p = none
  kept : ∀ p, p ≠ 0 → p ∉ cancelledIds (ran.flatMap e.task) →
    ((q'.mTimers.lookup p).isSome = true ↔ (q.id ≤ p ∧ p < q'.id) ∨
      ∃ timer, q.mTimers.lookup p = some timer ∧ (p ∈ ran → timer.mRepeat = true))

theorem lookup_beginHandling (q : TimerQueue) (now : ℤ) {p : ℤ} (hp : p ≠ 0) :
    (q.beginHandling now).mTimers.lookup p = q.mTimers.lookup p :=
  AList.lookup_insert_ne hp

theorem Loops.mem_cancelled {order : List ℤ → List ℤ} (horder : ∀ ids, (order ids).Perm ids) {e : Event}
    {q q1 q2 q3 : TimerQueue} (hb : Inv (q.beginHandling e.now)) (hnone : q.mCancelTimer = [])
    (h : Loops order e (q.beginHandling e.now).expired (q.beginHandling e.now) q1 q2 q3) (p : ℤ) :
    p ∈ order q2.mCancelTimer ↔
      p ∈ cancelledIds ((q.beginHandling e.now).expired.flatMap e.task) := by
  have hids := hb.runTasks_ids rfl h.run
  have hkept := h.ranInv.filed.renewTimers_kept hb.expired_nodup h.renew
  have hbegin : (q.beginHandling e.now).mCancelTimer = [] := hnone
  rw [(horder _).mem_iff, hkept.cancelled, hids.cancelled, hbegin]
  simp

theorem Loops.eventIds {order : List ℤ → List ℤ} (horder : ∀ ids, (order ids).Perm ids) {e : Event}
    {q q1 q2 q3 : TimerQueue} (hb : Inv (q.beginHandling e.now)) (hnone : q.mCancelTimer = [])
    (h : Loops order e (q.beginHandling e.now).expired (q.beginHandling e.now) q1 q2 q3) :
    EventIds q e (q.beginHandling e.now).expired (q3.finishHandling e.armed) := by
  obtain ⟨ran, hran⟩ : ∃ ran, (q.beginHandling e.now).expired = ran := ⟨_, rfl⟩
  have hids := hb.runTasks_ids rfl h.run
  have hnodup := hb.expired_nodup
  have hkept := h.ranInv.filed.renewTimers_kept hnodup h.renew
  have herase := eraseCancelled_lookup h.erase
  have hmem := h.mem_cancelled horder hb hnone
  have hlt : ∀ p ∈ ran, p < q.id := by
    intro p hp
    rw [← hran] at hp
    exact hb.lt_of_active (mem_of_mem_expired hp)
  rw [hran] at hids hkept hmem ⊢
  have hnext : q3.id = q.id + (addedTimers q.id (ran.flatMap e.task)).length := by
    rw [herase.1, hkept.next]
    exact hids.next
  have hcancelled : ∀ p, p ∈ q1.mCancelTimer ↔ p ∈ cancelledIds (ran.flatMap e.task) := by
    intro p
    have hbegin : (q.beginHandling e.now).mCancelTimer = [] := hnone
    rw [hids.cancelled, hbegin]
    simp
  refine ⟨hnext, rfl, rfl, ?_, ?_⟩
  · intro p hp
    have hlook := herase.2 p
    rw [if_pos ((hmem p).mpr hp)] at hlook
    exact hlook
  · intro p hp hkeep
    have hlook : (q3.finishHandling e.armed).mTimers.lookup p = q2.mTimers.lookup p := by
      have hl := herase.2 p
      rw [if_neg fun hin => hkeep ((hmem p).mp hin)] at hl
      exact hl
    have hid : (q3.finishHandling e.armed).id = q1.id := herase.1.trans hkept.next
    rw [hlook, hid]
    by_cases hin : p ∈ ran
    · have hold := hids.old p (hlt p hin)
      rw [lookup_beginHandling q e.now hp] at hold
      obtain ⟨timer, ht⟩ := Option.isSome_iff_exists.mp (h.live p (hran ▸ hin))
      rw [hkept.ran p hin timer ht, hcancelled]
      rw [hold] at ht
      constructor
      · exact fun hr => Or.inr ⟨timer, ht, fun _ => hr.1⟩
      · rintro (hnew | ⟨t, hl, hrepeat⟩)
        · exact absurd hnew.1 (by have := hlt p hin; omega)
        · rw [ht] at hl
          cases hl
          exact ⟨hrepeat hin, hkeep⟩
    · rw [hkept.other p hin]
      by_cases hp' : p < q.id
      · rw [hids.old p hp', lookup_beginHandling q e.now hp]
        constructor
        · intro hsome
          obtain ⟨timer, ht⟩ := Option.isSome_iff_exists.mp hsome
          exact Or.inr ⟨timer, ht, fun hin' => absurd hin' hin⟩
        · rintro (hnew | ⟨t, hl, -⟩)
          · exact absurd hnew.1 (by omega)
          · rw [hl]
            rfl
      · constructor
        · intro hsome
          obtain ⟨timer, ht⟩ := Option.isSome_iff_exists.mp hsome
          exact Or.inl ⟨by omega, (h.ranInv.own p timer ht).2⟩
        · rintro (hnew | ⟨t, hl, -⟩)
          · exact hids.new p hnew.1 hnew.2
          · have hown := hb.own p t (by rw [lookup_beginHandling q e.now hp]; exact hl)
            exact absurd hown.2 (by have hsame : (q.beginHandling e.now).id = q.id := rfl; omega)

/-- Whatever the expiries are, the event goes to its end and does to m_timers_ what it should. -/
theorem Inv.handle_ids {q : TimerQueue} (h : Inv q) (hnone : q.mCancelTimer = [])
    {order : List ℤ → List ℤ} (horder : ∀ ids, (order ids).Perm ids) (e : Event) :
    ∃ q', q.handleExpireEvent order e = .ok ((q.beginHandling e.now).expired, q') ∧ Inv q' ∧
      EventIds q e (q.beginHandling e.now).expired q' := by
  obtain ⟨hb, -, -⟩ := h.beginHandling e.now
  obtain ⟨q', hhandle, hinv, ⟨hnil, rfl⟩ | ⟨q1, q2, q3, hloops, rfl⟩⟩ := h.handle_cases order e
  · refine ⟨_, hhandle, hinv, ?_⟩
    rw [hnil]
    refine ⟨by simp [addedTimers, TimerQueue.beginHandling], rfl, hnone, ?_, ?_⟩
    · exact fun p hp => absurd hp List.not_mem_nil
    · intro p hp _
      dsimp only
      rw [lookup_beginHandling q e.now hp, Option.isSome_iff_exists]
      constructor
      · rintro ⟨timer, ht⟩
        exact Or.inr ⟨timer, ht, fun hin => absurd hin List.not_mem_nil⟩
      · rintro (hnew | ⟨timer, ht, -⟩)
        · have hsame : (q.beginHandling e.now).id = q.id := rfl
          exact absurd hnew.2 (by omega)
        · exact ⟨timer, ht⟩
  · exact ⟨_, hhandle, hinv, hloops.eventIds horder hb hnone⟩

/-- Between the calls of a run, whatever the expiries are. -/
structure Resting (q : TimerQueue) : Prop where
  inv : Inv q
  idle : q.mHandlingEvent = false
  noneCancelled : q.mCancelTimer = []

theorem resting_new : Resting {} := ⟨fresh_inv, rfl, rfl⟩

theorem Resting.addTimer {q : TimerQueue} (h : Resting q) (interval : ℤ) (repeated : Bool)
    (created armed : ℤ) : ∃ q', q.addTimer interval repeated created armed = .ok (q.id, q') ∧
      Resting q' ∧ Ids q [.add interval repeated created armed] q' := by
  obtain ⟨q', hadd, hinv, -⟩ := h.inv.addTimer interval repeated created armed
  have hids := (h.inv.addTimer_ids hadd).2
  refine ⟨q', hadd, ⟨hinv, hids.handling.trans h.idle, ?_⟩, hids⟩
  refine List.eq_nil_iff_forall_not_mem.mpr fun id hid => ?_
  have hmem := (hids.cancelled id).mp hid
  rw [h.noneCancelled] at hmem
  exact hmem.elim List.not_mem_nil List.not_mem_nil

/-- Outside of an event CancelTimer removes the timer at once; the fd is all else it sets. -/
theorem Resting.cancelTimer {q : TimerQueue} (h : Resting q) (id armed : ℤ) :
    ∃ q', q.cancelTimer id armed = .ok q' ∧ Resting q' ∧ q'.id = q.id ∧
      q'.mTimers = (q.removeTimer id).mTimers ∧ q'.mActiveTimers = (q.removeTimer id).mActiveTimers := by
  obtain ⟨hid, hh, hcancel⟩ := removeTimer_fields q id
  have hi := h.inv.removeTimer id
  refine ⟨_, h.inv.cancelTimer_idle h.idle id armed, ?_⟩
  split
  · exact ⟨⟨⟨hi.live, hi.sorted, hi.pos, hi.own, hi.next, hi.sentinel⟩, hh.trans h.idle,
      hcancel.trans h.noneCancelled⟩, hid, rfl, rfl⟩
  · exact ⟨⟨hi, hh.trans h.idle, hcancel.trans h.noneCancelled⟩, hid, rfl, rfl⟩

end TimerQueue

end DeftRpc.Timers
