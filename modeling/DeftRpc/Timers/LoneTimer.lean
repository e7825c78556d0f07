import DeftRpc.Timers.Cancellation

/-!
# A timer that no other timer expires with

m_active_timers_ goes by the expiry: a timer is kept out of it, or dropped from it, only by
another one with the same expiry. A timer that has its expiry for itself stays active until
an event reaches it, whatever the others do to each other.
-/

namespace DeftRpc.Timers
open DeftRpc.Foundation

namespace TimerQueue

/-- No other timer expires at `time`; the sentinel is not looked at. -/
def Alone (id time : ℤ) (q : TimerQueue) : Prop :=
  ∀ p ∈ q.mTimers.keys, p ≠ 0 → p ≠ id → q.expire p ≠ time

instance (id time : ℤ) (q : TimerQueue) : Decidable (Alone id time q) :=
  inferInstanceAs (Decidable (∀ p ∈ q.mTimers.keys, p ≠ 0 → p ≠ id → q.expire p ≠ time))

/-- The calls that `c` makes of the queue, those of the tasks of an event. -/
def made (q : TimerQueue) : Call → List Action
  | .act a => [a]
  | .handle e => (q.beginHandling e.now).expired.flatMap e.task

/-- The expiry of the sentinel when `c` removes timers. -/
def sentinelExpire (q : TimerQueue) : Call → Option ℤ
  | .act _ => (q.mTimers.lookup 0).map Timer.mExpire
  | .handle e => some e.now

/-- The expiries that `c` gives to repeated timers. -/
def renewedExpires (q : TimerQueue) : Call → List ℤ
  | .act _ => []
  | .handle e => (q.beginHandling e.now).expired.filterMap fun p =>
      match q.mTimers.lookup p with
      | some timer => if timer.mRepeat then some (e.renewed p + timer.mInterval) else none
      | none => none

/-- `c` does not cancel the timer `id`, and no other timer gets the expiry `time`. -/
def Spares (id time : ℤ) (q : TimerQueue) (c : Call) : Prop :=
  id ∉ cancelledIds (q.made c) ∧
    (∀ t ∈ addedTimers q.id (q.made c), t.mExpire = time → t.mId = id) ∧
    (∀ expire ∈ q.renewedExpires c, expire ≠ time) ∧
    (0 ∈ cancelledIds (q.made c) → ∀ expire ∈ q.sentinelExpire c, expire ≠ time)

instance (id time : ℤ) (q : TimerQueue) (c : Call) : Decidable (Spares id time q c) := by
  unfold Spares
  infer_instance

theorem alone_iff {id time : ℤ} {q : TimerQueue} : Alone id time q ↔
    ∀ p t, q.mTimers.lookup p = some t → p ≠ 0 → p ≠ id → t.mExpire ≠ time := by
  constructor
  · intro h p t ht hp0 hp
    have hkey : p ∈ q.mTimers.keys := by
      rw [← AList.mem_keys, ← AList.lookup_isSome, ht]
      rfl
    rw [← expire_of_lookup ht]
    exact h p hkey hp0 hp
  · intro h p hkey hp0 hp
    rw [← AList.mem_keys, ← AList.lookup_isSome] at hkey
    obtain ⟨t, ht⟩ := Option.isSome_iff_exists.mp hkey
    rw [expire_of_lookup ht]
    exact h p t ht hp0 hp

theorem Alone.expire_ne {id time : ℤ} {q : TimerQueue} (h : Alone id time q) (hi : Inv q) {p : ℤ}
    (hp : p ∈ q.mActiveTimers) (hne : p ≠ id) : q.expire p ≠ time := by
  have hpos := hi.pos p hp
  obtain ⟨t, ht⟩ := Option.isSome_iff_exists.mp (hi.live p hp)
  rw [expire_of_lookup ht]
  exact alone_iff.mp h p t ht (by omega) hne

/-- The timer `id`, where it expires at `time`, is active, and no other timer expires then. -/
structure Lone (id time : ℤ) (q : TimerQueue) : Prop where
  inv : Inv q
  alone : Alone id time q
  active : ∀ t, q.mTimers.lookup id = some t → t.mExpire = time → id ∈ q.mActiveTimers

theorem Lone.congr {id time : ℤ} {q q' : TimerQueue} (h : Lone id time q) (hi : Inv q')
    (htimers : q'.mTimers = q.mTimers) (hactive : q'.mActiveTimers = q.mActiveTimers) :
    Lone id time q' := by
  refine ⟨hi, ?_, ?_⟩
  · rw [alone_iff, htimers]
    exact alone_iff.mp h.alone
  · rw [htimers, hactive]
    exact h.active

/-! ### The calls -/

theorem Lone.inserted {id time : ℤ} {q : TimerQueue} (h : Lone id time q) {timer : Timer}
    (hid : timer.mId = q.id) (hfree : timer.mExpire = time → timer.mId = id) :
    Lone id time (q.inserted timer) := by
  have hlook : ∀ p t, (q.inserted timer).mTimers.lookup p = some t →
      (p = timer.mId ∧ t = timer) ∨ q.mTimers.lookup p = some t := by
    intro p t hl
    by_cases hp : p = timer.mId
    · have hself : (q.inserted timer).mTimers.lookup timer.mId = some timer := AList.lookup_insert q.mTimers
      rw [hp, hself] at hl
      cases hl
      exact Or.inl ⟨hp, rfl⟩
    · have hother : (q.inserted timer).mTimers.lookup p = q.mTimers.lookup p := AList.lookup_insert_ne hp
      rw [hother] at hl
      exact Or.inr hl
  refine ⟨h.inv.inserted timer hid, alone_iff.mpr ?_, ?_⟩
  · intro p t hl hp0 hp
    rcases hlook p t hl with ⟨rfl, rfl⟩ | hold
    · exact fun he => hp (hfree he)
    · exact alone_iff.mp h.alone p t hold hp0 hp
  · intro t hl he
    rcases hlook id t hl with ⟨rfl, rfl⟩ | hold
    · refine mem_keyInsert_self fun y hy => ?_
      have hlt := h.inv.lt_of_active hy
      have hkey := h.inv.expire_inserted hid hy
      have hnew := expire_inserted_new q t
      have hne : (q.inserted t).expire y ≠ (q.inserted t).expire t.mId := by
        rw [hkey, hnew, he]
        exact h.alone.expire_ne h.inv hy (by omega)
      exact hne
    · exact mem_keyInsert_of_mem _ (h.active t hold he)

theorem Lone.addTimer {id time : ℤ} {q q' : TimerQueue} (h : Lone id time q) {interval created armed p : ℤ}
    {repeated : Bool} (hadd : q.addTimer interval repeated created armed = .ok (p, q'))
    (hfree : created + interval = time → q.id = id) :
    Lone id time q' ∧ q'.mTimers.lookup q.id = some ⟨repeated, interval, created + interval, q.id⟩ := by
  obtain ⟨timer, htimer⟩ : ∃ timer : Timer, ⟨repeated, interval, created + interval, q.id⟩ = timer :=
    ⟨_, rfl⟩
  have hid : timer.mId = q.id := by rw [← htimer]
  have hlone : Lone id time (q.inserted timer) := by
    refine h.inserted hid ?_
    rw [← htimer]
    exact hfree
  have hself : (q.inserted timer).mTimers.lookup q.id = some timer := by
    rw [← hid]
    exact AList.lookup_insert q.mTimers
  rw [h.inv.addTimer_eq, htimer] at hadd
  obtain ⟨-, hq'⟩ := Prod.mk.inj (Except.ok.inj hadd)
  have hi := hlone.inv
  rw [htimer, ← hq']
  split
  · exact ⟨hlone.congr ⟨hi.live, hi.sorted, hi.pos, hi.own, hi.next, hi.sentinel⟩ rfl rfl, hself⟩
  · exact ⟨hlone, hself⟩

theorem Lone.removeTimer {id time : ℤ} {q : TimerQueue} (h : Lone id time q) {p : ℤ} (hp : p ≠ id)
    (hzero : p = 0 → ∀ t, q.mTimers.lookup 0 = some t → t.mExpire ≠ time) :
    Lone id time (q.removeTimer p) := by
  refine ⟨h.inv.removeTimer p, alone_iff.mpr fun y t hl => ?_, fun t hl he => ?_⟩
  · rw [lookup_removeTimer] at hl
    split at hl
    · cases hl
    · exact alone_iff.mp h.alone y t hl
  · rw [lookup_removeTimer, if_neg (Ne.symm hp)] at hl
    have hin := h.active t hl he
    unfold TimerQueue.removeTimer
    cases hlp : q.mTimers.lookup p with
    | none => exact hin
    | some timer =>
      have hne : timer.mExpire ≠ time := by
        by_cases hp0 : p = 0
        · exact hzero hp0 timer (hp0 ▸ hlp)
        · exact alone_iff.mp h.alone p timer hlp hp0 hp
      refine (mem_keyErase_iff h.inv.sorted).mpr ⟨hin, ?_⟩
      rw [expire_of_lookup hl, expire_of_lookup hlp, he]
      exact hne.symm

/-! ### The loops of an event -/

theorem Lone.act {id time : ℤ} {q q' : TimerQueue} (h : Lone id time q) (hh : q.mHandlingEvent = true)
    {a : Action} (hfree : ∀ t ∈ addedTimers q.id [a], t.mExpire = time → t.mId = id)
    (ha : q.act a = .ok q') :
    Lone id time q' ∧ ∀ t ∈ addedTimers q.id [a], q'.mTimers.lookup t.mId = some t := by
  cases a with
  | add interval repeated created armed =>
    obtain ⟨r, hadd, hr⟩ := Exec.bind_eq_ok ha
    cases hr
    have hfree' := hfree _ (List.mem_singleton_self _)
    obtain ⟨hlone, hself⟩ := h.addTimer hadd hfree'
    refine ⟨hlone, fun t ht => ?_⟩
    rw [List.mem_singleton.mp ht]
    exact hself
  | cancel c armed =>
    obtain ⟨q1, hact, hi, -⟩ := h.inv.act_handling hh (.cancel c armed)
    rw [ha] at hact
    cases hact
    rw [TimerQueue.act, cancelTimer_handling hh] at ha
    cases ha
    exact ⟨h.congr hi rfl rfl, fun t ht => absurd ht List.not_mem_nil⟩

theorem Lone.acts {id time : ℤ} {q q' : TimerQueue} (h : Lone id time q) (hh : q.mHandlingEvent = true)
    {as : List Action} (hfree : ∀ t ∈ addedTimers q.id as, t.mExpire = time → t.mId = id)
    (has : q.acts as = .ok q') :
    Lone id time q' ∧ ∀ t ∈ addedTimers q.id as, q'.mTimers.lookup t.mId = some t := by
  induction as generalizing q with
  | nil =>
    cases has
    exact ⟨h, fun t ht => absurd ht List.not_mem_nil⟩
  | cons a as ih =>
    obtain ⟨q1, ha, -, he⟩ := h.inv.act_handling hh a
    rw [TimerQueue.acts, ha, Exec.ok_bind] at has
    have hnext := (h.inv.act_ids hh ha).next
    rw [← List.singleton_append, addedTimers_append, ← hnext] at hfree ⊢
    obtain ⟨h1, hadded⟩ := h.act hh (fun t ht => hfree t (List.mem_append_left _ ht)) ha
    have hh1 := he.handling.trans hh
    obtain ⟨h2, hlater⟩ := ih h1 hh1 (fun t ht => hfree t (List.mem_append_right _ ht)) has
    obtain ⟨q2, hacts, -, hext⟩ := h1.inv.acts_handling hh1 as
    rw [has] at hacts
    cases hacts
    refine ⟨h2, fun t ht => ?_⟩
    rcases List.mem_append.mp ht with ht | ht
    · exact hext.kept t.mId t (hadded t ht)
    · exact hlater t ht

theorem Lone.eraseActive {id time : ℤ} {q : TimerQueue} (h : Lone id time q) {p : ℤ}
    (hp : p ∈ q.mActiveTimers) (hne : p ≠ id) : Lone id time (q.eraseActive p) := by
  refine ⟨h.inv.eraseActive p, h.alone, fun t hl he => ?_⟩
  exact h.inv.mem_eraseActive hp (h.active t hl he) (Ne.symm hne)

theorem Lone.runTasks {id time : ℤ} {q q' : TimerQueue} (h : Lone id time q) (hh : q.mHandlingEvent = true)
    {task : ℤ → List Action} {ps : List ℤ} (hnodup : ps.Nodup) (hactive : ∀ p ∈ ps, p ∈ q.mActiveTimers)
    (hid : id ∉ ps) (hfree : ∀ t ∈ addedTimers q.id (ps.flatMap task), t.mExpire = time → t.mId = id)
    (hrun : TimerQueue.runTasks task ps q = .ok q') :
    Lone id time q' ∧ ∀ t ∈ addedTimers q.id (ps.flatMap task), q'.mTimers.lookup t.mId = some t := by
  induction ps generalizing q with
  | nil =>
    cases hrun
    exact ⟨h, fun t ht => absurd ht List.not_mem_nil⟩
  | cons p ps ih =>
    obtain ⟨hnot, hnodup⟩ := List.nodup_cons.mp hnodup
    rw [List.mem_cons, not_or] at hid
    obtain ⟨hne, hid⟩ := hid
    obtain ⟨q1, hacts, -, he, hrest⟩ := h.inv.runTasks_turn hh hrun
    have hnext := (h.inv.acts_ids hh hacts).next
    rw [List.flatMap_cons, addedTimers_append, ← hnext] at hfree ⊢
    obtain ⟨h1, hadded⟩ := h.acts hh (fun t ht => hfree t (List.mem_append_left _ ht)) hacts
    have hp1 := he.active p (hactive p List.mem_cons_self)
    have hlone := h1.eraseActive hp1 (Ne.symm hne)
    have hh1 := he.handling.trans hh
    have hactive1 : ∀ y ∈ ps, y ∈ (q1.eraseActive p).mActiveTimers := by
      intro y hy
      refine h1.inv.mem_eraseActive hp1 (he.active y (hactive y (List.mem_cons_of_mem p hy))) fun heq => ?_
      exact hnot (heq ▸ hy)
    obtain ⟨h2, hlater⟩ := ih hlone hh1 hnodup hactive1 hid
      (fun t ht => hfree t (List.mem_append_right _ ht)) hrest
    obtain ⟨q2, hrun2, -, -, hkept, -⟩ := hlone.inv.runTasks hh1 task ps hnodup hactive1
    rw [hrest] at hrun2
    cases hrun2
    refine ⟨h2, fun t ht => ?_⟩
    rcases List.mem_append.mp ht with ht | ht
    · exact hkept t.mId t (hadded t ht)
    · exact hlater t ht

theorem Filed.renewTimers_active {renewed : ℤ → ℤ} {ps : List ℤ} {q q' : TimerQueue} (hfiled : Filed q)
    (h : TimerQueue.renewTimers renewed ps q = .ok q') {y : ℤ} (hy : y ∈ q.mActiveTimers) :
    y ∈ q'.mActiveTimers := by
  induction ps generalizing q with
  | nil =>
    cases h
    exact hy
  | cons p ps ih =>
    obtain ⟨timer, ht, ⟨-, -, hrest⟩ | ⟨-, hrest⟩⟩ := hfiled.renewTimers_cons h
    · exact ih (hfiled.renew ht _) hrest (mem_keyInsert_of_mem p hy)
    · exact ih (hfiled.erase p) hrest hy

theorem Filed.renewTimers_alone {renewed : ℤ → ℤ} {ps : List ℤ} {q q' : TimerQueue} (hfiled : Filed q)
    (hnodup : ps.Nodup) {id time : ℤ} (halone : Alone id time q)
    (hfree : ∀ p ∈ ps, ∀ t, q.mTimers.lookup p = some t → t.mRepeat = true →
      renewed p + t.mInterval ≠ time)
    (h : TimerQueue.renewTimers renewed ps q = .ok q') : Alone id time q' := by
  induction ps generalizing q with
  | nil =>
    cases h
    exact halone
  | cons p ps ih =>
    obtain ⟨hnot, hnodup⟩ := List.nodup_cons.mp hnodup
    have hne : ∀ y ∈ ps, y ≠ p := fun y hy he => hnot (he ▸ hy)
    obtain ⟨timer, ht, ⟨hrepeat, -, hrest⟩ | ⟨-, hrest⟩⟩ := hfiled.renewTimers_cons h
    · have hother : ∀ y, y ≠ p →
          (q.renew p timer (renewed p)).mTimers.lookup y = q.mTimers.lookup y :=
        fun y hy => AList.lookup_insert_ne hy
      have hself : (q.renew p timer (renewed p)).mTimers.lookup p
          = some { timer with mExpire := renewed p + timer.mInterval } := AList.lookup_insert q.mTimers
      refine ih (hfiled.renew ht _) hnodup (alone_iff.mpr fun y t hl => ?_) (fun y hy t hl => ?_) hrest
      · by_cases hy : y = p
        · rw [hy, hself] at hl
          cases hl
          exact fun _ _ => hfree p List.mem_cons_self timer ht hrepeat
        · rw [hother y hy] at hl
          exact alone_iff.mp halone y t hl
      · rw [hother y (hne y hy)] at hl
        exact hfree y (List.mem_cons_of_mem p hy) t hl
    · have hother : ∀ y, y ≠ p → (q.mTimers.erase p).lookup y = q.mTimers.lookup y :=
        fun y hy => AList.lookup_erase_ne hy
      refine ih (hfiled.erase p) hnodup (alone_iff.mpr fun y t hl => ?_) (fun y hy t hl => ?_) hrest
      · by_cases hy : y = p
        · rw [hy, AList.lookup_erase] at hl
          cases hl
        · rw [hother y hy] at hl
          exact alone_iff.mp halone y t hl
      · rw [hother y (hne y hy)] at hl
        exact hfree y (List.mem_cons_of_mem p hy) t hl

theorem Lone.eraseCancelled {id time : ℤ} {q q' : TimerQueue} (h : Lone id time q) {ids : List ℤ}
    (hid : id ∉ ids) (hzero : 0 ∈ ids → ∀ t, q.mTimers.lookup 0 = some t → t.mExpire ≠ time)
    (herase : TimerQueue.eraseCancelled ids q = .ok q') : Lone id time q' := by
  induction ids generalizing q with
  | nil =>
    cases herase
    exact h
  | cons p ids ih =>
    rw [List.mem_cons, not_or] at hid
    obtain ⟨hne, hid⟩ := hid
    have h1 := h.removeTimer (Ne.symm hne) fun hp0 => hzero (hp0 ▸ List.mem_cons_self)
    refine ih h1 hid (fun hin t hl => ?_) (eraseCancelled_cons herase)
    rw [lookup_removeTimer] at hl
    split at hl
    · cases hl
    · exact hzero (List.mem_cons_of_mem p hin) t hl

/-! ### An event -/

theorem Lone.beginHandling {id time : ℤ} {q : TimerQueue} (h : Lone id time q) (hpos : 0 < id) (now : ℤ) :
    Lone id time (q.beginHandling now) := by
  refine ⟨(h.inv.beginHandling now).1, alone_iff.mpr fun p t hl hp0 => ?_, fun t hl => ?_⟩
  · rw [lookup_beginHandling q now hp0] at hl
    exact alone_iff.mp h.alone p t hl hp0
  · rw [lookup_beginHandling q now (by omega)] at hl
    exact h.active t hl

theorem Loops.lone {order : List ℤ → List ℤ} (horder : ∀ ids, (order ids).Perm ids) {e : Event}
    {q q1 q2 q3 : TimerQueue} (hnone : q.mCancelTimer = []) {id time : ℤ} (h : Lone id time q)
    (hpos : 0 < id) (hok : Spares id time q (.handle e)) (hid : id ∉ (q.beginHandling e.now).expired)
    (hloops : Loops order e (q.beginHandling e.now).expired (q.beginHandling e.now) q1 q2 q3) :
    Lone id time q3 ∧ q3.mTimers.lookup id = q1.mTimers.lookup id ∧
      ∀ t ∈ addedTimers q.id (q.made (.handle e)), q1.mTimers.lookup t.mId = some t := by
  obtain ⟨hcancel, hfree, hrenew, hsentinel⟩ := hok
  have hb := h.beginHandling hpos e.now
  have hnodup := hb.inv.expired_nodup
  have hids := hb.inv.runTasks_ids rfl hloops.run
  have hkept := hloops.ranInv.filed.renewTimers_kept hnodup hloops.renew
  have herase := (eraseCancelled_lookup hloops.erase).2
  have hmem := hloops.mem_cancelled horder hb.inv hnone
  obtain ⟨h1, hadded⟩ := hb.runTasks rfl hnodup (fun p hp => mem_of_mem_expired hp) hid hfree hloops.run
  have hnew : ∀ p ∈ (q.beginHandling e.now).expired, ∀ t, q1.mTimers.lookup p = some t →
      t.mRepeat = true → e.renewed p + t.mInterval ≠ time := by
    intro p hp t hl hrepeat
    have hactive := mem_of_mem_expired hp
    have hp0 := hb.inv.pos p hactive
    rw [hids.old p (hb.inv.lt_of_active hactive), lookup_beginHandling q e.now (by omega)] at hl
    refine hrenew _ (List.mem_filterMap.mpr ⟨p, hp, ?_⟩)
    rw [hl]
    dsimp only
    rw [if_pos hrepeat]
  have h2 : Lone id time q2 := by
    refine ⟨hloops.renewedInv, hloops.ranInv.filed.renewTimers_alone hnodup h1.alone hnew hloops.renew, ?_⟩
    intro t hl he
    rw [hkept.other id hid] at hl
    exact hloops.ranInv.filed.renewTimers_active hloops.renew (h1.active t hl he)
  have hzero : 0 ∈ order q2.mCancelTimer → ∀ t, q2.mTimers.lookup 0 = some t → t.mExpire ≠ time := by
    intro hin t hl
    have hran : (0 : ℤ) ∉ (q.beginHandling e.now).expired := fun hin =>
      absurd (hb.inv.pos 0 (mem_of_mem_expired hin)) (lt_irrefl 0)
    rw [hkept.other 0 hran, hids.old 0 hb.inv.next] at hl
    have hnow := (h.inv.beginHandling e.now).2.1
    rw [expire_of_lookup hl] at hnow
    rw [hnow]
    exact hsentinel ((hmem 0).mp hin) e.now rfl
  have hnot : id ∉ order q2.mCancelTimer := fun hin => hcancel ((hmem id).mp hin)
  refine ⟨h2.eraseCancelled hnot hzero hloops.erase, ?_, hadded⟩
  rw [herase id, if_neg hnot, hkept.other id hid]

/-- What a call that does not run the timer `id` leaves of it. -/
structure LeftLone (id time : ℤ) (q : TimerQueue) (c : Call) (q' : TimerQueue) : Prop where
  resting : Resting q'
  lone : Lone id time q'
  next : q'.id = q.id + (addedTimers q.id (q.made c)).length
  old : id < q.id → q'.mTimers.lookup id = q.mTimers.lookup id
  added : ∀ t ∈ addedTimers q.id (q.made c), t.mId = id → q'.mTimers.lookup id = some t

variable (order : List ℤ → List ℤ)

theorem Resting.handle_lone {q : TimerQueue} (hrest : Resting q) (horder : ∀ ids, (order ids).Perm ids)
    {id time : ℤ} (h : Lone id time q) (hpos : 0 < id) {e : Event} (hok : Spares id time q (.handle e))
    (hid : id ∉ (q.beginHandling e.now).expired) :
    ∃ q', q.handleExpireEvent order e = .ok ((q.beginHandling e.now).expired, q') ∧
      LeftLone id time q (.handle e) q' := by
  obtain ⟨q', hhandle, hinv, hev⟩ := hrest.inv.handle_ids hrest.noneCancelled horder e
  have hrest' : Resting q' := ⟨hinv, hev.idle, hev.noneCancelled⟩
  have hb := h.beginHandling hpos e.now
  refine ⟨q', hhandle, ?_⟩
  obtain ⟨q'', hhandle', -, ⟨hnil, rfl⟩ | ⟨q1, q2, q3, hloops, rfl⟩⟩ := hrest.inv.handle_cases order e
  · rw [hhandle] at hhandle'
    cases hhandle'
    refine ⟨hrest', hb.congr hinv rfl rfl, hev.next, fun _ => lookup_beginHandling q e.now (by omega), ?_⟩
    intro t ht
    rw [made, hnil] at ht
    exact absurd ht List.not_mem_nil
  · rw [hhandle] at hhandle'
    cases hhandle'
    obtain ⟨h3, hlook, hadded⟩ := hloops.lone horder hrest.noneCancelled h hpos hok hid
    have hsame : (q3.finishHandling e.armed).mTimers.lookup id = q1.mTimers.lookup id := hlook
    refine ⟨hrest', h3.congr hinv rfl rfl, hev.next, fun hlt => ?_, fun t ht he => ?_⟩
    · rw [hsame, (hb.inv.runTasks_ids rfl hloops.run).old id hlt, lookup_beginHandling q e.now (by omega)]
    · rw [hsame, ← he]
      exact hadded t ht

theorem Resting.act_lone {q : TimerQueue} (hrest : Resting q) {id time : ℤ} (h : Lone id time q)
    {a : Action} (hok : Spares id time q (.act a)) :
    ∃ q', q.call order (.act a) = .ok ([], q') ∧ LeftLone id time q (.act a) q' := by
  obtain ⟨hcancel, hfree, -, hsentinel⟩ := hok
  cases a with
  | add interval repeated created armed =>
    obtain ⟨q', hadd, hrest', hids⟩ := hrest.addTimer interval repeated created armed
    obtain ⟨hlone, hself⟩ := h.addTimer hadd (hfree _ (List.mem_singleton_self _))
    refine ⟨q', ?_, hrest', hlone, hids.next, hids.old id, fun t ht he => ?_⟩
    · rw [call, TimerQueue.act, hadd]
      rfl
    · obtain rfl := List.mem_singleton.mp ht
      rw [← he]
      exact hself
  | cancel c armed =>
    obtain ⟨q', hcall, hrest', hid, htimers, hactive⟩ := hrest.cancelTimer c armed
    have hne : c ≠ id := fun he => hcancel (List.mem_singleton.mpr he.symm)
    have hremoved := h.removeTimer hne fun hc t hl =>
      hsentinel (List.mem_singleton.mpr hc.symm) t.mExpire (by
        rw [sentinelExpire, hl]
        rfl)
    refine ⟨q', ?_, hrest', hremoved.congr hrest'.inv htimers hactive, ?_, fun _ => ?_, ?_⟩
    · rw [call, TimerQueue.act, hcall]
      rfl
    · rw [hid]
      exact (Int.add_zero q.id).symm
    · rw [htimers, lookup_removeTimer, if_neg (Ne.symm hne)]
    · exact fun t ht => absurd ht List.not_mem_nil

/-! ### Until the timer is run, and afterwards -/

/-- The timer `id` is not repeated, waits for `time`, and no other timer does. -/
structure Pending (id time : ℤ) (q : TimerQueue) : Prop where
  resting : Resting q
  lone : Lone id time q
  timer : ∃ t, q.mTimers.lookup id = some t ∧ t.mExpire = time ∧ t.mRepeat = false
  pos : 0 < id

theorem Pending.lt {q : TimerQueue} {id time : ℤ} (h : Pending id time q) : id < q.id := by
  obtain ⟨t, ht, -⟩ := h.timer
  exact (h.resting.inv.own id t ht).2

theorem Pending.mem_expired_iff {q : TimerQueue} {id time : ℤ} (h : Pending id time q) (now : ℤ) :
    id ∈ (q.beginHandling now).expired ↔ time ≤ now := by
  obtain ⟨t, ht, he, -⟩ := h.timer
  rw [h.resting.inv.mem_expired_iff, expire_of_lookup ht, he]
  exact and_iff_right (h.lone.active t ht he)

theorem LeftLone.pending {q q' : TimerQueue} {id time : ℤ} {c : Call} (h : LeftLone id time q c q')
    (hq : Pending id time q) : Pending id time q' := by
  refine ⟨h.resting, h.lone, ?_, hq.pos⟩
  rw [h.old hq.lt]
  exact hq.timer

/-- An event at or after the expiry runs the timer, which is then gone; no other call does anything to it. -/
theorem Pending.call_cases {q : TimerQueue} {id time : ℤ} (h : Pending id time q)
    (horder : ∀ ids, (order ids).Perm ids) {c : Call} (hok : Spares id time q c) :
    ∃ ran q', q.call order c = .ok (ran, q') ∧
      ((∃ e, c = .handle e ∧ time ≤ e.now ∧ id ∈ ran ∧ Resting q' ∧ q'.Gone id) ∨
        ((∀ e, c = .handle e → e.now < time) ∧ id ∉ ran ∧ Pending id time q')) := by
  cases c with
  | act a =>
    obtain ⟨q', hcall, hleft⟩ := h.resting.act_lone order h.lone hok
    refine ⟨[], q', hcall, Or.inr ⟨fun e he => ?_, List.not_mem_nil, hleft.pending h⟩⟩
    cases he
  | handle e =>
    by_cases hran : id ∈ (q.beginHandling e.now).expired
    · obtain ⟨q', hhandle, hinv, hev⟩ := h.resting.inv.handle_ids h.resting.noneCancelled horder e
      refine ⟨_, q', hhandle, Or.inl ⟨e, rfl, (h.mem_expired_iff e.now).mp hran, hran, ?_, h.pos, ?_, ?_⟩⟩
      · exact ⟨hinv, hev.idle, hev.noneCancelled⟩
      · have hnext := hev.next
        have hlt := h.lt
        omega
      · have hpos := h.pos
        have hlt := h.lt
        obtain ⟨t, ht, -, honce⟩ := h.timer
        rw [← Option.not_isSome_iff_eq_none, hev.kept id (by omega) hok.1]
        rintro (hnew | ⟨timer, hl, hrepeat⟩)
        · omega
        · rw [ht] at hl
          cases hl
          rw [hrepeat hran] at honce
          cases honce
    · obtain ⟨q', hhandle, hleft⟩ := h.resting.handle_lone order horder h.lone h.pos hok hran
      refine ⟨_, q', hhandle, Or.inr ⟨fun e' he => ?_, hran, hleft.pending h⟩⟩
      cases he
      exact not_le.mp fun hle => hran ((h.mem_expired_iff e.now).mpr hle)

/-- What any call does, whatever the expiries are. -/
structure Onward (q : TimerQueue) (ran : List ℤ) (q' : TimerQueue) : Prop where
  resting : Resting q'
  next_le : q.id ≤ q'.id
  issued : ∀ p ∈ ran, p < q.id
  gone : ∀ p, q.Gone p → p ∉ ran ∧ q'.Gone p

theorem Resting.call_onward {q : TimerQueue} (h : Resting q) (horder : ∀ ids, (order ids).Perm ids) (c : Call) :
    ∃ ran q', q.call order c = .ok (ran, q') ∧ Onward q ran q' := by
  cases c with
  | handle e =>
    obtain ⟨q', hhandle, hinv, hev⟩ := h.inv.handle_ids h.noneCancelled horder e
    have hnext := hev.next
    refine ⟨_, q', hhandle, ⟨hinv, hev.idle, hev.noneCancelled⟩, by omega, fun p hp => ?_, fun p hp => ?_⟩
    · exact h.inv.lt_of_active ((h.inv.mem_expired_iff e.now p).mp hp).1
    · exact ⟨h.inv.not_mem_expired hp e.now, hev.gone_of_gone hp⟩
  | act a =>
    cases a with
    | add interval repeated created armed =>
      obtain ⟨q', hadd, hrest, hids⟩ := h.addTimer interval repeated created armed
      have hle := hids.next_le
      refine ⟨[], q', ?_, hrest, hle, fun p hp => absurd hp List.not_mem_nil, ?_⟩
      · rw [TimerQueue.call, TimerQueue.act, hadd]
        rfl
      · rintro p ⟨hpos, hlt, hnone⟩
        refine ⟨List.not_mem_nil, hpos, by omega, ?_⟩
        rw [hids.old p hlt]
        exact hnone
    | cancel c armed =>
      obtain ⟨q', hcancel, hrest, hid, htimers, -⟩ := h.cancelTimer c armed
      refine ⟨[], q', ?_, hrest, by omega, fun p hp => absurd hp List.not_mem_nil, ?_⟩
      · rw [TimerQueue.call, TimerQueue.act, hcancel]
        rfl
      · rintro p ⟨hpos, hlt, hnone⟩
        refine ⟨List.not_mem_nil, hpos, by omega, ?_⟩
        rw [htimers, lookup_removeTimer, hnone, ite_self]

end TimerQueue

end DeftRpc.Timers
