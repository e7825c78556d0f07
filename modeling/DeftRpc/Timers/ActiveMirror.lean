import DeftRpc.Timers.TimerIds

/-!
# When m_active_timers_ mirrors m_timers_

m_active_timers_ goes by the expiry and m_timers_ by the id. The two hold the same timers
as long as no timer is put beside an active one with its expiry.
-/

namespace DeftRpc.Timers
open DeftRpc.Foundation

namespace TimerQueue

/-- Every timer but the sentinel is in m_active_timers_, once, and nothing else is. -/
def Mirrored (q : TimerQueue) : Prop :=
  q.mActiveTimers.Nodup ∧ ∀ p, p ∈ q.mActiveTimers ↔ p ≠ 0 ∧ (q.mTimers.lookup p).isSome = true

/-! ### The condition -/

/-- The id 0 of the sentinel can be cancelled too: its expiry is then no active timer's. -/
def CancelApart (q : TimerQueue) (id : ℤ) : Prop :=
  id = 0 → (q.mTimers.lookup 0).isSome = true → q.FreeAt (q.expire 0)

instance (q : TimerQueue) (id : ℤ) : Decidable (q.CancelApart id) :=
  inferInstanceAs (Decidable (id = 0 → (q.mTimers.lookup 0).isSome = true → q.FreeAt (q.expire 0)))

/-- In an event CancelTimer only takes a note. -/
def ActDistinct (q : TimerQueue) : Action → Prop
  | .add interval _ created _ => q.FreeAt (created + interval)
  | .cancel id _ => q.mHandlingEvent = false → q.CancelApart id

instance (q : TimerQueue) : ∀ a, Decidable (q.ActDistinct a)
  | .add interval _ created _ => inferInstanceAs (Decidable (q.FreeAt (created + interval)))
  | .cancel id _ => inferInstanceAs (Decidable (q.mHandlingEvent = false → q.CancelApart id))

def CancelsApart : List ℤ → TimerQueue → Prop
  | [], _ => True
  | id :: ids, q => q.CancelApart id ∧ CancelsApart ids (q.removeTimer id)

instance decidableCancelsApart : ∀ (ids : List ℤ) (q : TimerQueue), Decidable (CancelsApart ids q)
  | [], _ => .isTrue trivial
  | id :: ids, q =>
    have := decidableCancelsApart ids (q.removeTimer id)
    instDecidableAnd

variable (order : List ℤ → List ℤ)

/-- The loops over the timers `ran` find no two active timers with one expiry. -/
def LoopsDistinct (e : Event) (ran : List ℤ) (q : TimerQueue) : Prop :=
  TasksOk ActDistinct e.task ran q ∧ match runTasks e.task ran q with
    | .error _ => True
    | .ok q1 => RenewApart e.renewed ran q1 ∧ match renewTimers e.renewed ran q1 with
      | .error _ => True
      | .ok q2 => CancelsApart (order q2.mCancelTimer) q2

instance (e : Event) (ran : List ℤ) (q : TimerQueue) : Decidable (LoopsDistinct order e ran q) := by
  unfold LoopsDistinct
  have : Decidable (match runTasks e.task ran q with
      | .error _ => True
      | .ok q1 => RenewApart e.renewed ran q1 ∧ match renewTimers e.renewed ran q1 with
        | .error _ => True
        | .ok q2 => CancelsApart (order q2.mCancelTimer) q2) := by
    split
    · infer_instance
    · next q1 _ =>
      have : Decidable (match renewTimers e.renewed ran q1 with
          | .error _ => True
          | .ok q2 => CancelsApart (order q2.mCancelTimer) q2) := by
        split <;> infer_instance
      infer_instance
  infer_instance

/-- No timer becomes active, or is erased, beside another one with its expiry. -/
def CallDistinct (q : TimerQueue) : Call → Prop
  | .act a => q.ActDistinct a
  | .handle e => LoopsDistinct order e (q.beginHandling e.now).expired (q.beginHandling e.now)

instance (q : TimerQueue) : ∀ c, Decidable (q.CallDistinct order c)
  | .act a => inferInstanceAs (Decidable (q.ActDistinct a))
  | .handle e => inferInstanceAs (Decidable (LoopsDistinct order e (q.beginHandling e.now).expired
      (q.beginHandling e.now)))

/-! ### The calls of the tasks -/

/-- Every timer but the sentinel and the timers `gone` is active. -/
def AllBut (gone : List ℤ) (q : TimerQueue) : Prop :=
  ∀ p, p ≠ 0 → p ∉ gone → (q.mTimers.lookup p).isSome = true → p ∈ q.mActiveTimers

theorem Effect.allBut {q q' : TimerQueue} {as : List Action} {gone : List ℤ} (h : Effect q as [] q')
    (hall : AllBut gone q) : AllBut gone q' := by
  intro p hp hgone hsome
  by_cases hnew : ∃ t ∈ addedTimers q.id as, t.mId = p
  · exact (h.active p).mpr (Or.inr hnew)
  · have hold := h.old p fun t ht he => hnew ⟨t, ht, he⟩
    rw [hold] at hsome
    exact (h.active p).mpr (Or.inl ⟨hall p hp hgone hsome, List.not_mem_nil⟩)

theorem Inv.act_allBut {q q' : TimerQueue} (h : Inv q) (hh : q.mHandlingEvent = true) {gone : List ℤ}
    (hall : AllBut gone q) {a : Action} (hok : q.ActDistinct a) (ha : q.act a = .ok q') :
    AllBut gone q' := by
  cases a with
  | add interval repeated created armed =>
    obtain ⟨q1, hadd, -, heff⟩ := h.addTimer_effect interval repeated created armed hok
    rw [act, hadd] at ha
    cases ha
    exact heff.allBut hall
  | cancel id armed =>
    have heq := cancelTimer_handling hh id armed
    rw [act, heq] at ha
    cases ha
    exact hall

theorem Inv.acts_allBut {q q' : TimerQueue} (h : Inv q) (hh : q.mHandlingEvent = true) {gone : List ℤ}
    (hall : AllBut gone q) {as : List Action} (hok : ActsOk ActDistinct q as) (has : q.acts as = .ok q') :
    AllBut gone q' := by
  induction as generalizing q with
  | nil =>
    cases has
    exact hall
  | cons a as ih =>
    obtain ⟨q1, ha, h1, he⟩ := h.act_handling hh a
    rw [acts, ha, Exec.ok_bind] at has
    rw [ActsOk, ha] at hok
    exact ih h1 (he.handling.trans hh) (h.act_allBut hh hall hok.1 ha) hok.2 has

theorem Inv.eraseActive_allBut {q : TimerQueue} (h : Inv q) {gone : List ℤ} (hall : AllBut gone q) {p : ℤ}
    (hp : p ∈ q.mActiveTimers) : AllBut (gone ++ [p]) (q.eraseActive p) := by
  intro y hy hgone hsome
  rw [List.mem_append, not_or] at hgone
  refine h.mem_eraseActive hp (hall y hy hgone.1 hsome) fun he => hgone.2 ?_
  exact List.mem_singleton.mpr he

theorem Inv.runTasks_allBut {q q' : TimerQueue} (h : Inv q) (hh : q.mHandlingEvent = true)
    {gone : List ℤ} (hall : AllBut gone q) {task : ℤ → List Action} {ps : List ℤ} (hnodup : ps.Nodup)
    (hactive : ∀ p ∈ ps, p ∈ q.mActiveTimers) (hok : TasksOk ActDistinct task ps q)
    (hrun : TimerQueue.runTasks task ps q = .ok q') : AllBut (gone ++ ps) q' := by
  induction ps generalizing q gone with
  | nil =>
    cases hrun
    rw [List.append_nil]
    exact hall
  | cons p ps ih =>
    obtain ⟨hnot, hnodup⟩ := List.nodup_cons.mp hnodup
    obtain ⟨q1, hacts, h1, he, hrest⟩ := h.runTasks_turn hh hrun
    have hp1 := he.active p (hactive p List.mem_cons_self)
    have hall1 := h.acts_allBut hh hall hok.1 hacts
    have hok1 := hok.2
    rw [hacts] at hok1
    have hlater := ih (h1.eraseActive p) (he.handling.trans hh) (h1.eraseActive_allBut hall1 hp1) hnodup
      (fun y hy => h1.mem_eraseActive hp1 (he.active y (hactive y (List.mem_cons_of_mem p hy))) fun heq =>
        hnot (heq ▸ hy)) hok1 hrest
    rw [List.append_assoc] at hlater
    exact hlater

/-! ### The two loops after the tasks -/

theorem Inv.removeTimer_apart {q : TimerQueue} (h : Inv q) (hall : AllActive q) {id : ℤ}
    (hapart : q.CancelApart id) : Removed q [id] (q.removeTimer id) := by
  by_cases hid : id = 0
  · subst hid
    have hzero : (0 : ℤ) ∉ q.mActiveTimers := fun hin => absurd (h.pos 0 hin) (lt_irrefl 0)
    have hactive : (q.removeTimer 0).mActiveTimers = q.mActiveTimers := by
      unfold TimerQueue.removeTimer
      cases hl : q.mTimers.lookup 0 with
      | none => rfl
      | some timer =>
        have hfree := hapart rfl (by rw [hl]; rfl)
        exact keyErase_of_free hfree
    refine ⟨fun p hp => ?_, fun p hp => ?_⟩
    · obtain rfl := List.mem_singleton.mp hp
      rw [hactive, lookup_removeTimer, if_pos rfl]
      exact ⟨hzero, rfl⟩
    · rw [hactive, lookup_removeTimer, if_neg fun he => hp (List.mem_singleton.mpr he)]
      exact ⟨Iff.rfl, rfl⟩
  · exact h.removeTimer_removed hall hid

theorem Inv.eraseCancelled_allActive {q q' : TimerQueue} (h : Inv q) (hall : AllActive q) {ids : List ℤ}
    (hapart : CancelsApart ids q) (herase : TimerQueue.eraseCancelled ids q = .ok q') : AllActive q' := by
  induction ids generalizing q with
  | nil =>
    cases herase
    exact hall
  | cons id ids ih =>
    have hremoved := h.removeTimer_apart hall hapart.1
    exact ih (h.removeTimer id) (hall.removed hremoved) hapart.2 (eraseCancelled_cons herase)

theorem Loops.allActive {e : Event} {q q1 q2 q3 : TimerQueue} (hb : Inv q) (hh : q.mHandlingEvent = true)
    (hall : AllActive q) (h : Loops order e q.expired q q1 q2 q3)
    (hok : LoopsDistinct order e q.expired q) : AllActive q3 := by
  have hbut : AllBut [] q := fun p hp _ hsome => hall p hp hsome
  obtain ⟨htasks, hrest⟩ := hok
  rw [h.run] at hrest
  obtain ⟨hrenew, hcancels⟩ := hrest
  rw [h.renew] at hcancels
  have hran : AllBut q.expired q1 := hb.runTasks_allBut hh hbut hb.expired_nodup
    (fun p hp => mem_of_mem_expired hp) htasks h.run
  obtain ⟨q2', hrun2, -, hrenewed⟩ := h.ranInv.renewTimers_renewed e.renewed q.expired hb.expired_nodup
    (fun p hp => hb.pos p (mem_of_mem_expired hp)) h.live h.idle hrenew
  rw [h.renew] at hrun2
  cases hrun2
  have hall2 := hrenewed.allActive_of_rest hran h.live
  exact h.renewedInv.eraseCancelled_allActive hall2 hcancels h.erase

/-! ### Every run -/

theorem Inv.mirrored {q : TimerQueue} (h : Inv q) (hall : AllActive q) : Mirrored q := by
  refine ⟨h.sorted.imp fun hlt heq => absurd (heq ▸ hlt) (lt_irrefl _), fun p => ⟨fun hp => ?_, ?_⟩⟩
  · have hpos := h.pos p hp
    exact ⟨by omega, h.live p hp⟩
  · rintro ⟨hp, hsome⟩
    exact hall p hp hsome

theorem Resting.handle_distinct {q : TimerQueue} (h : Resting q) (hall : AllActive q)
    (horder : ∀ ids, (order ids).Perm ids) {e : Event} (hok : q.CallDistinct order (.handle e)) :
    ∃ ran q', q.handleExpireEvent order e = .ok (ran, q') ∧ Resting q' ∧ AllActive q' ∧
      EventIds q e ran q' := by
  obtain ⟨q', hhandle, hinv, hids⟩ := h.inv.handle_ids h.noneCancelled horder e
  refine ⟨_, q', hhandle, ⟨hinv, hids.idle, hids.noneCancelled⟩, ?_, hids⟩
  obtain ⟨hb, -, -⟩ := h.inv.beginHandling e.now
  have hbegin : AllActive (q.beginHandling e.now) := by
    intro p hp hsome
    rw [lookup_beginHandling q e.now hp] at hsome
    exact hall p hp hsome
  obtain ⟨q'', hhandle', -, ⟨-, rfl⟩ | ⟨q1, q2, q3, hloops, rfl⟩⟩ := h.inv.handle_cases order e
  · rw [hhandle] at hhandle'
    cases hhandle'
    exact hbegin
  · rw [hhandle] at hhandle'
    cases hhandle'
    have hall3 := hloops.allActive order hb rfl hbegin hok
    exact hall3

theorem Resting.cancel_distinct {q : TimerQueue} (h : Resting q) (hall : AllActive q) {id : ℤ}
    (hok : q.CancelApart id) (armed : ℤ) :
    ∃ q', q.cancelTimer id armed = .ok q' ∧ Resting q' ∧ AllActive q' ∧ Removed q [id] q' := by
  obtain ⟨q', hcancel, hrest, -, htimers, hactive⟩ := h.cancelTimer id armed
  have hremoved := h.inv.removeTimer_apart hall hok
  have hremoved' : Removed q [id] q' := by
    refine ⟨?_, ?_⟩
    · rw [htimers, hactive]
      exact hremoved.gone
    · rw [htimers, hactive]
      exact hremoved.other
  exact ⟨q', hcancel, hrest, hall.removed hremoved', hremoved'⟩

theorem Resting.call_distinct {q : TimerQueue} (h : Resting q) (hall : AllActive q)
    (horder : ∀ ids, (order ids).Perm ids) {c : Call} (hok : q.CallDistinct order c) :
    ∃ ran q', q.call order c = .ok (ran, q') ∧ Resting q' ∧ AllActive q' := by
  cases c with
  | handle e =>
    obtain ⟨ran, q', hhandle, hrest, hall', -⟩ := h.handle_distinct order hall horder hok
    exact ⟨ran, q', hhandle, hrest, hall'⟩
  | act a =>
    cases a with
    | add interval repeated created armed =>
      obtain ⟨q1, hadd, -, heff⟩ := h.inv.addTimer_effect interval repeated created armed hok
      obtain ⟨q1', hadd', hrest, -⟩ := h.addTimer interval repeated created armed
      rw [hadd] at hadd'
      cases hadd'
      refine ⟨[], q1, ?_, hrest, fun p hp hsome => ?_⟩
      · rw [call, act, hadd]
        rfl
      · exact heff.mem_active hall hp List.not_mem_nil hsome
    | cancel id armed =>
      obtain ⟨q', hcancel, hrest, hall', -⟩ := h.cancel_distinct hall (hok h.idle) armed
      refine ⟨[], q', ?_, hrest, hall'⟩
      rw [call, act, hcancel]
      rfl

/-- In every run whose calls put no timer beside an active one with its expiry, m_active_timers_
mirrors m_timers_ after each call; CancelTimer then removes the timer with the id and no
other, and an event removes what its tasks cancelled and the timers that are not repeated. -/
theorem mirrored_of_distinct (horder : ∀ ids, (order ids).Perm ids) (calls : List Call)
    (h : StepsOk (call order) (CallDistinct order) {} calls) :
    ∃ outs q, runOps (call order) {} calls = .ok (outs, q) ∧ Mirrored q ∧
      (∀ id armed, q.CallDistinct order (.act (.cancel id armed)) →
        ∃ q', q.cancelTimer id armed = .ok q' ∧ Mirrored q' ∧ Removed q [id] q') ∧
      ∀ e, q.CallDistinct order (.handle e) →
        ∃ ran q', q.handleExpireEvent order e = .ok (ran, q') ∧ Mirrored q' ∧ EventIds q e ran q' := by
  have keep : ∀ q c, Resting q ∧ AllActive q → q.CallDistinct order c →
      ∃ ran q', q.call order c = .ok (ran, q') ∧ Resting q' ∧ AllActive q' :=
    fun q c hq hok => hq.1.call_distinct order hq.2 horder hok
  obtain ⟨outs, q, hrun, hrest, hall⟩ :=
    run_invariant keep calls {} ⟨resting_new, settled_new.allActive⟩ h
  refine ⟨outs, q, hrun, hrest.inv.mirrored hall, ?_, ?_⟩
  · intro id armed hok
    obtain ⟨q', hcancel, hrest', hall', hremoved⟩ := hrest.cancel_distinct hall (hok hrest.idle) armed
    exact ⟨q', hcancel, hrest'.inv.mirrored hall', hremoved⟩
  · intro e hok
    obtain ⟨ran, q', hhandle, hrest', hall', hids⟩ := hrest.handle_distinct order hall horder hok
    exact ⟨ran, q', hhandle, hrest'.inv.mirrored hall', hids⟩

/-- Three timers; in the event timer 1 is renewed and its task adds timer 4 and cancels timer 3. -/
theorem mirrored_of_distinct_event :
    ∃ outs q, runOps (call List.reverse) {} [.act (.add 10 true 0 1), .act (.add 20 false 2 3),
        .act (.add 90 true 4 5),
        .handle ⟨11, fun _ => [.add 5 false 12 13, .cancel 3 14], fun _ => 14, 15⟩,
        .act (.cancel 2 16)] = .ok (outs, q) ∧ Mirrored q ∧
      (∀ id armed, q.CallDistinct List.reverse (.act (.cancel id armed)) →
        ∃ q', q.cancelTimer id armed = .ok q' ∧ Mirrored q' ∧ Removed q [id] q') ∧
      ∀ e, q.CallDistinct List.reverse (.handle e) →
        ∃ ran q', q.handleExpireEvent List.reverse e = .ok (ran, q') ∧ Mirrored q' ∧
          EventIds q e ran q' :=
  mirrored_of_distinct List.reverse List.reverse_perm _ (by decide)

/-- Two timers with one expiry: the second is not active, and cancelling it takes the first
one out of m_active_timers_. -/
theorem not_mirrored_equal_expiries :
    (∃ outs q, runOps (call List.reverse) {} [.act (.add 10 false 0 1), .act (.add 10 false 0 1)]
        = .ok (outs, q) ∧ ¬ Mirrored q ∧ q.mActiveTimers = [1]) ∧
      ∃ outs q, runOps (call List.reverse) {} [.act (.add 10 false 0 1), .act (.add 10 false 0 1),
        .act (.cancel 2 3)] = .ok (outs, q) ∧ ¬ Mirrored q ∧ q.mActiveTimers = [] := by
  refine ⟨⟨_, _, rfl, fun h => ?_, rfl⟩, ⟨_, _, rfl, fun h => ?_, rfl⟩⟩
  · exact absurd ((h.2 2).mpr ⟨by decide, by decide⟩) (by decide)
  · exact absurd ((h.2 1).mpr ⟨by decide, by decide⟩) (by decide)

end TimerQueue

end DeftRpc.Timers
