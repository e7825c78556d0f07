import DeftRpc.Timers.TimerIds

/-!
# The assertions on the sizes of the two containers

m_timers_ is asserted to have one timer more than m_active_timers_, the sentinel. The
sentinel is made by the first HandleExpireEvent, after that call's first assertion.
-/

namespace DeftRpc.Timers
open DeftRpc.Foundation

namespace TimerQueue

/-! ### The assertions -/

/-- `m_active_timers_.size() + 1 == m_timers_.size()`. -/
def SizesMatch (q : TimerQueue) : Prop := q.mActiveTimers.length + 1 = q.mTimers.keys.length

instance (q : TimerQueue) : Decidable q.SizesMatch :=
  inferInstanceAs (Decidable (q.mActiveTimers.length + 1 = q.mTimers.keys.length))

/-- The assertion at the end of CancelTimer. -/
def ActAsserts (q : TimerQueue) : Action → Prop
  | .add _ _ _ _ => True
  | .cancel id armed => match q.cancelTimer id armed with
    | .ok q' => q'.SizesMatch
    | .error _ => True

variable (order : List ℤ → List ℤ)

/-- HandleExpireEvent asserts at its start and at its end; its tasks may call CancelTimer. -/
def CallAsserts (q : TimerQueue) : Call → Prop
  | .act a => q.ActAsserts a
  | .handle e => q.SizesMatch ∧
      TasksOk ActAsserts e.task (q.beginHandling e.now).expired (q.beginHandling e.now) ∧
      match q.handleExpireEvent order e with
      | .ok r => r.2.SizesMatch
      | .error _ => True

/-! ### The condition -/

/-- As many timers are missing from m_active_timers_ as CancelTimer needs to end with one. -/
def CancelCounts (q : TimerQueue) (id : ℤ) : Prop :=
  q.mTimers.keys.length = q.mActiveTimers.length +
    if (q.mTimers.lookup id).isSome = true ∧ q.FreeAt (q.expire id) then 2 else 1

instance (q : TimerQueue) (id : ℤ) : Decidable (q.CancelCounts id) :=
  inferInstanceAs (Decidable (q.mTimers.keys.length = q.mActiveTimers.length +
    if (q.mTimers.lookup id).isSome = true ∧ q.FreeAt (q.expire id) then 2 else 1))

def CallCounts (q : TimerQueue) : Call → Prop
  | .act (.add _ _ _ _) => True
  | .act (.cancel id _) => q.CancelCounts id
  | .handle _ => False

instance (q : TimerQueue) : ∀ c, Decidable (q.CallCounts c)
  | .act (.add _ _ _ _) => .isTrue trivial
  | .act (.cancel id _) => inferInstanceAs (Decidable (q.CancelCounts id))
  | .handle _ => .isFalse False.elim

def AddApart (q : TimerQueue) : Call → Prop
  | .act (.add interval _ created _) => q.FreeAt (created + interval)
  | .act (.cancel _ _) => True
  | .handle _ => True

instance (q : TimerQueue) : ∀ c, Decidable (q.AddApart c)
  | .act (.add interval _ created _) => inferInstanceAs (Decidable (q.FreeAt (created + interval)))
  | .act (.cancel _ _) => .isTrue trivial
  | .handle _ => .isTrue trivial

def IsAdd : Call → Prop
  | .act (.add _ _ _ _) => True
  | .act (.cancel _ _) => False
  | .handle _ => False

/-! ### CancelTimer -/

theorem removeTimer_sizesMatch {q : TimerQueue} (h : Inv q) (id : ℤ) :
    (q.removeTimer id).SizesMatch ↔ q.CancelCounts id := by
  unfold SizesMatch CancelCounts TimerQueue.removeTimer
  cases hl : q.mTimers.lookup id with
  | none =>
    rw [if_neg (by simp)]
    exact eq_comm
  | some timer =>
    have hmem : id ∈ q.mTimers.keys :=
      AList.mem_keys.mp (AList.lookup_isSome.mp (Option.isSome_iff_exists.mpr ⟨timer, hl⟩))
    have hpos : 0 < q.mTimers.keys.length := List.length_pos_of_mem hmem
    have hkeys : (q.mTimers.erase id).keys.length = q.mTimers.keys.length - 1 := by
      rw [AList.keys_erase, List.length_erase_of_mem hmem]
    have hactive : (q.eraseActive id).mActiveTimers = keyErase q.expire (q.expire id) q.mActiveTimers := rfl
    dsimp only
    rw [hkeys, hactive]
    by_cases hfree : q.FreeAt (q.expire id)
    · rw [if_pos ⟨rfl, hfree⟩, keyErase_of_free hfree]
      omega
    · rw [if_neg fun hboth => hfree hboth.2]
      unfold FreeAt at hfree
      push Not at hfree
      obtain ⟨x, hx, hkey⟩ := hfree
      have hlen := length_keyErase_of_mem h.sorted hx
      rw [hkey] at hlen
      omega

/-! ### Timers that are missing -/

/-- `p` is in m_timers_ and not in m_active_timers_. -/
def Missing (q : TimerQueue) (p : ℤ) : Prop :=
  (q.mTimers.lookup p).isSome = true ∧ p ∉ q.mActiveTimers

theorem mem_keys_of_isSome {q : TimerQueue} {p : ℤ} (h : (q.mTimers.lookup p).isSome = true) :
    p ∈ q.mTimers.keys :=
  AList.mem_keys.mp (AList.lookup_isSome.mp h)

theorem Inv.active_subset {q : TimerQueue} (h : Inv q) : q.mActiveTimers ⊆ q.mTimers.keys :=
  fun p hp => mem_keys_of_isSome (h.live p hp)

theorem Inv.active_nodup {q : TimerQueue} (h : Inv q) : q.mActiveTimers.Nodup :=
  h.sorted.imp fun hlt heq => absurd (heq ▸ hlt) (lt_irrefl _)

theorem Inv.not_sizesMatch {q : TimerQueue} (h : Inv q) {x y : ℤ} (hne : x ≠ y) (hx : q.Missing x)
    (hy : q.Missing y) : ¬ q.SizesMatch := by
  have hnodup : (x :: y :: q.mActiveTimers).Nodup := by
    refine List.nodup_cons.mpr ⟨fun hin => ?_, List.nodup_cons.mpr ⟨hy.2, h.active_nodup⟩⟩
    rcases List.mem_cons.mp hin with he | hin
    · exact hne he
    · exact hx.2 hin
  have hsub : x :: y :: q.mActiveTimers ⊆ q.mTimers.keys := by
    intro p hp
    rcases List.mem_cons.mp hp with rfl | hp
    · exact mem_keys_of_isSome hx.1
    · rcases List.mem_cons.mp hp with rfl | hp
      · exact mem_keys_of_isSome hy.1
      · exact h.active_subset hp
  have hlen := (List.subperm_of_subset hnodup hsub).length_le
  rw [List.length_cons, List.length_cons] at hlen
  unfold SizesMatch
  omega

theorem SizesMatch.exists_missing {q : TimerQueue} (h : q.SizesMatch) : ∃ x, q.Missing x := by
  by_contra hnone
  have hsub : q.mTimers.keys ⊆ q.mActiveTimers := by
    intro p hp
    by_contra hidle
    exact hnone ⟨p, AList.lookup_isSome.mpr (AList.mem_keys.mpr hp), hidle⟩
  have hlen := (List.subperm_of_subset q.mTimers.keys_nodup hsub).length_le
  unfold SizesMatch at h
  omega

theorem Extends.missing {q q' : TimerQueue} (h : Extends q q') {p : ℤ} (hp : q.Missing p) :
    q'.Missing p := by
  obtain ⟨timer, ht⟩ := Option.isSome_iff_exists.mp hp.1
  exact ⟨Option.isSome_iff_exists.mpr ⟨timer, h.kept p timer ht⟩, h.idle p timer ht hp.2⟩

theorem Missing.eraseActive {q : TimerQueue} {p : ℤ} (h : q.Missing p) (y : ℤ) :
    (q.eraseActive y).Missing p :=
  ⟨h.1, fun hin => h.2 (mem_of_mem_keyErase hin)⟩

/-! ### HandleExpireEvent -/

theorem Inv.acts_missing {q q' : TimerQueue} (h : Inv q) (hh : q.mHandlingEvent = true) {x y : ℤ}
    (hne : x ≠ y) (hx : q.Missing x) (hy : q.Missing y) {as : List Action} (hok : ActsOk ActAsserts q as)
    (has : q.acts as = .ok q') : cancelledIds as = [] ∧ q'.Missing x ∧ q'.Missing y := by
  induction as generalizing q with
  | nil =>
    cases has
    exact ⟨rfl, hx, hy⟩
  | cons a as ih =>
    obtain ⟨q1, ha, h1, he⟩ := h.act_handling hh a
    rw [acts, ha, Exec.ok_bind] at has
    rw [ActsOk, ha] at hok
    obtain ⟨hnone, hall⟩ := ih h1 (he.handling.trans hh) (he.missing hx) (he.missing hy) hok.2 has
    cases a with
    | add interval repeated created armed => exact ⟨hnone, hall⟩
    | cancel id armed =>
      have hmatch := hok.1
      rw [act] at ha
      rw [ActAsserts, ha] at hmatch
      exact absurd hmatch (h1.not_sizesMatch hne (he.missing hx) (he.missing hy))

theorem Inv.runTasks_missing {q q' : TimerQueue} (h : Inv q) (hh : q.mHandlingEvent = true) {x y : ℤ}
    (hne : x ≠ y) (hx : q.Missing x) (hy : q.Missing y) {task : ℤ → List Action} {ps : List ℤ}
    (hok : TasksOk ActAsserts task ps q) (hrun : TimerQueue.runTasks task ps q = .ok q') :
    cancelledIds (ps.flatMap task) = [] ∧ q'.Missing x ∧ q'.Missing y := by
  induction ps generalizing q with
  | nil =>
    cases hrun
    exact ⟨rfl, hx, hy⟩
  | cons p ps ih =>
    obtain ⟨q1, hacts, h1, he, hrest⟩ := h.runTasks_turn hh hrun
    obtain ⟨hnone, hx1, hy1⟩ := h.acts_missing hh hne hx hy hok.1 hacts
    have hok1 := hok.2
    rw [hacts] at hok1
    obtain ⟨hnone', hall⟩ := ih (h1.eraseActive p) (he.handling.trans hh) (hx1.eraseActive p)
      (hy1.eraseActive p) hok1 hrest
    rw [List.flatMap_cons, cancelledIds_append, hnone, hnone']
    exact ⟨rfl, hall⟩

/-- The loop over the timers `ps` makes no other timer active. -/
theorem Filed.renewTimers_idle {renewed : ℤ → ℤ} {ps : List ℤ} {q q' : TimerQueue} (hfiled : Filed q)
    (h : TimerQueue.renewTimers renewed ps q = .ok q') {x : ℤ} (hps : x ∉ ps) (hx : x ∉ q.mActiveTimers) :
    x ∉ q'.mActiveTimers := by
  induction ps generalizing q with
  | nil =>
    cases h
    exact hx
  | cons p ps ih =>
    rw [List.mem_cons, not_or] at hps
    obtain ⟨timer, ht, ⟨-, -, hrest⟩ | ⟨-, hrest⟩⟩ := hfiled.renewTimers_cons h
    · refine ih (hfiled.renew ht _) hrest hps.2 fun hin => ?_
      rcases mem_keyInsert hin with he | hin
      · exact hps.1 he
      · exact hx hin
    · exact ih (hfiled.erase p) hrest hps.2 hx

theorem Loops.missing {order : List ℤ → List ℤ} (horder : ∀ ids, (order ids).Perm ids) {e : Event}
    {q q1 q2 q3 : TimerQueue} (hb : Inv q) (hh : q.mHandlingEvent = true) (hnone : q.mCancelTimer = [])
    (h : Loops order e q.expired q q1 q2 q3) {x y : ℤ} (hne : x ≠ y) (hx : q.Missing x)
    (hy : q.Missing y) (hok : TasksOk ActAsserts e.task q.expired q) : q3.Missing x ∧ q3.Missing y := by
  obtain ⟨hnocancel, hx1, hy1⟩ := hb.runTasks_missing hh hne hx hy hok h.run
  have hkept := h.ranInv.filed.renewTimers_kept hb.expired_nodup h.renew
  have hcancel : q2.mCancelTimer = [] := by
    rw [hkept.cancelled]
    refine List.eq_nil_iff_forall_not_mem.mpr fun id hid => ?_
    have hmem := ((hb.runTasks_ids hh h.run).cancelled id).mp hid
    rw [hnone, hnocancel] at hmem
    exact hmem.elim List.not_mem_nil List.not_mem_nil
  have herase := h.erase
  rw [hcancel, List.perm_nil.mp (horder [])] at herase
  cases herase
  have keep : ∀ p, q.Missing p → q1.Missing p → q2.Missing p := by
    intro p hp hp1
    have hps : p ∉ q.expired := fun hin => hp.2 (mem_of_mem_expired hin)
    refine ⟨?_, h.ranInv.filed.renewTimers_idle h.renew hps hp1.2⟩
    rw [hkept.other p hps]
    exact hp1.1
  exact ⟨keep x hx hx1, keep y hy hy1⟩

/-- Without the sentinel no HandleExpireEvent passes all of its assertions. -/
theorem Resting.not_handleAsserts {q : TimerQueue} (h : Resting q) (hzero : q.mTimers.lookup 0 = none)
    (horder : ∀ ids, (order ids).Perm ids) (e : Event) : ¬ q.CallAsserts order (.handle e) := by
  rintro ⟨hstart, htasks, hend⟩
  obtain ⟨x, hx⟩ := hstart.exists_missing
  have hx0 : x ≠ 0 := by
    rintro rfl
    have hsome := hx.1
    rw [hzero] at hsome
    cases hsome
  obtain ⟨hb, -, -⟩ := h.inv.beginHandling e.now
  have hxb : (q.beginHandling e.now).Missing x := by
    refine ⟨?_, hx.2⟩
    rw [lookup_beginHandling q e.now hx0]
    exact hx.1
  have h0b : (q.beginHandling e.now).Missing 0 := by
    refine ⟨?_, fun hin => absurd (hb.pos 0 hin) (lt_irrefl 0)⟩
    have hself : (q.beginHandling e.now).mTimers.lookup 0 = some _ := AList.lookup_insert q.mTimers
    rw [hself]
    rfl
  obtain ⟨q', hhandle, hinv, hcases⟩ := h.inv.handle_cases order e
  rw [hhandle] at hend
  obtain ⟨-, rfl⟩ | ⟨q1, q2, q3, hloops, rfl⟩ := hcases
  · exact hinv.not_sizesMatch hx0 hxb h0b hend
  · obtain ⟨hx3, h03⟩ := hloops.missing horder hb rfl h.noneCancelled hx0 hxb h0b htasks
    exact hinv.not_sizesMatch hx0 hx3 h03 hend

/-! ### Every run -/

/-- Before the first HandleExpireEvent. -/
structure Early (q : TimerQueue) : Prop where
  resting : Resting q
  noSentinel : q.mTimers.lookup 0 = none

theorem early_new : Early {} := ⟨resting_new, rfl⟩

theorem Early.callAsserts_iff {q : TimerQueue} (h : Early q) (horder : ∀ ids, (order ids).Perm ids)
    (c : Call) : q.CallAsserts order c ↔ q.CallCounts c := by
  cases c with
  | handle e => exact ⟨fun ha => h.resting.not_handleAsserts order h.noSentinel horder e ha, False.elim⟩
  | act a =>
    cases a with
    | add interval repeated created armed => exact Iff.rfl
    | cancel id armed =>
      obtain ⟨q', hcancel, -, -, htimers, hactive⟩ := h.resting.cancelTimer id armed
      rw [CallAsserts, ActAsserts, hcancel, CallCounts, ← removeTimer_sizesMatch h.resting.inv]
      dsimp only
      rw [SizesMatch, SizesMatch, htimers, hactive]

theorem Early.add {q q' : TimerQueue} (h : Early q) {interval created armed : ℤ} {repeated : Bool}
    {ran : List ℤ} (hcall : q.call order (.act (.add interval repeated created armed)) = .ok (ran, q')) :
    Early q' := by
  obtain ⟨q1, hadd, hrest, hids⟩ := h.resting.addTimer interval repeated created armed
  rw [call, act, hadd] at hcall
  cases hcall
  refine ⟨hrest, ?_⟩
  rw [hids.old 0 h.resting.inv.next]
  exact h.noSentinel

theorem Early.cancel {q q' : TimerQueue} (h : Early q) {id armed : ℤ} {ran : List ℤ}
    (hcall : q.call order (.act (.cancel id armed)) = .ok (ran, q')) : Early q' := by
  obtain ⟨q1, hcancel, hrest, -, htimers, -⟩ := h.resting.cancelTimer id armed
  rw [call, act, hcancel] at hcall
  cases hcall
  refine ⟨hrest, ?_⟩
  rw [htimers, lookup_removeTimer, h.noSentinel, ite_self]

theorem Early.call {q q' : TimerQueue} (h : Early q) {c : Call} {ran : List ℤ} (hok : q.CallCounts c)
    (hcall : q.call order c = .ok (ran, q')) : Early q' := by
  cases c with
  | handle e => exact False.elim hok
  | act a =>
    cases a with
    | add interval repeated created armed => exact h.add order hcall
    | cancel id armed => exact h.cancel order hcall

theorem Early.not_cancelCounts {q : TimerQueue} (h : Early q) (hall : AllActive q) (id : ℤ) :
    ¬ q.CancelCounts id := by
  have hsub : q.mTimers.keys ⊆ q.mActiveTimers := by
    intro p hp
    have hsome := AList.lookup_isSome.mpr (AList.mem_keys.mpr hp)
    refine hall p ?_ hsome
    rintro rfl
    rw [h.noSentinel] at hsome
    cases hsome
  have hlen := (List.subperm_of_subset q.mTimers.keys_nodup hsub).length_le
  unfold CancelCounts
  split <;> omega

theorem Early.counts_iff_adds {q : TimerQueue} (h : Early q) (hall : AllActive q) (calls : List Call)
    (hapart : StepsOk (TimerQueue.call order) AddApart q calls) :
    StepsOk (TimerQueue.call order) CallCounts q calls ↔ ∀ c ∈ calls, IsAdd c := by
  induction calls generalizing q with
  | nil => exact ⟨fun _ c hc => absurd hc List.not_mem_nil, fun _ => trivial⟩
  | cons c calls ih =>
    cases c with
    | handle e =>
      exact ⟨fun hcounts => False.elim (stepsOk_head hcounts),
        fun hadds => False.elim (hadds _ List.mem_cons_self)⟩
    | act a =>
      cases a with
      | cancel id armed =>
        exact ⟨fun hcounts => absurd (stepsOk_head hcounts) (h.not_cancelCounts hall id),
          fun hadds => False.elim (hadds _ List.mem_cons_self)⟩
      | add interval repeated created armed =>
        have hfree : q.FreeAt (created + interval) := hapart.1
        obtain ⟨q', hadd, -, heff⟩ := h.resting.inv.addTimer_effect interval repeated created armed hfree
        have hcall : q.call order (.act (.add interval repeated created armed)) = .ok ([], q') := by
          rw [TimerQueue.call, act, hadd]
          rfl
        have hall' : AllActive q' := fun p hp hsome => heff.mem_active hall hp List.not_mem_nil hsome
        rw [stepsOk_cons_iff hcall, ih (h.add order hcall) hall' (stepsOk_tail hcall hapart),
          List.forall_mem_cons]
        exact Iff.rfl

/-- The assertions hold all through a run exactly when it has no HandleExpireEvent and each
CancelTimer finds one timer missing, or two when no active timer has the expiry of the one it
cancels. When no two active timers expire at one time, that is a run of AddTimer only. -/
theorem assertions_iff (horder : ∀ ids, (order ids).Perm ids) (calls : List Call) :
    (StepsOk (TimerQueue.call order) (CallAsserts order) {} calls ↔
        StepsOk (TimerQueue.call order) CallCounts {} calls) ∧
      (StepsOk (TimerQueue.call order) AddApart {} calls →
        (StepsOk (TimerQueue.call order) (CallAsserts order) {} calls ↔ ∀ c ∈ calls, IsAdd c)) := by
  have same : ∀ q c, Early q → (q.CallAsserts order c ↔ q.CallCounts c) :=
    fun q c hq => hq.callAsserts_iff order horder c
  have hiff : StepsOk (TimerQueue.call order) (CallAsserts order) {} calls ↔
      StepsOk (TimerQueue.call order) CallCounts {} calls :=
    stepsOk_iff_of_invariant (fun q c hq _ => same q c hq)
      (fun q c ran q' hq _ hok hcall => hq.call order ((same q c hq).mp hok) hcall) calls {} early_new
      (stepsOk_true _ calls)
  refine ⟨hiff, fun hapart => ?_⟩
  rw [hiff]
  exact early_new.counts_iff_adds order settled_new.allActive calls hapart

/-- Of two timers with one expiry the first is cancelled, of two others no one can be. -/
theorem assertions_iff_three :
    StepsOk (TimerQueue.call List.reverse) (CallAsserts List.reverse) {}
        [.act (.add 10 false 0 1), .act (.add 10 false 0 1), .act (.cancel 1 2)] ∧
      ¬ StepsOk (TimerQueue.call List.reverse) (CallAsserts List.reverse) {}
        [.act (.add 10 false 0 1), .act (.add 20 false 0 1), .act (.cancel 1 2)] := by
  refine ⟨(assertions_iff List.reverse List.reverse_perm _).1.mpr (by decide), fun h => ?_⟩
  have hadds := ((assertions_iff List.reverse List.reverse_perm _).2 (by decide)).mp h
  exact hadds (.act (.cancel 1 2)) (List.mem_cons_of_mem _ (List.mem_cons_of_mem _ List.mem_cons_self))

/-- One timer, and then either of the two calls that assert. -/
theorem assertions_fail :
    ¬ StepsOk (TimerQueue.call List.reverse) (CallAsserts List.reverse) {}
        [.act (.add 10 false 0 1), .act (.cancel 1 2)] ∧
      ¬ StepsOk (TimerQueue.call List.reverse) (CallAsserts List.reverse) {}
        [.act (.add 10 false 0 1), .handle ⟨11, fun _ => [], fun _ => 12, 13⟩] := by
  refine ⟨fun h => ?_, fun h => ?_⟩
  · have hcancel : SizesMatch _ := h.2.1
    exact absurd hcancel (by decide)
  · have hstart : SizesMatch _ := h.2.1.1
    exact absurd hstart (by decide)

end TimerQueue

end DeftRpc.Timers
