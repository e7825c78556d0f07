import DeftRpc.Timers.TimerQueue

/-!
# What every call on the timer queue keeps

Every pointer of m_active_timers_ denotes a timer of m_timers_, the set is
sorted by the expiries the timers have, the sentinel is never in it, and ids
are not used twice.
-/

namespace DeftRpc.Timers
open DeftRpc.Foundation

namespace TimerQueue

structure Inv (q : TimerQueue) : Prop where
  live : ∀ p ∈ q.mActiveTimers, (q.mTimers.lookup p).isSome = true
  sorted : KeySorted q.expire q.mActiveTimers
  pos : ∀ p ∈ q.mActiveTimers, 0 < p
  own : ∀ p timer, q.mTimers.lookup p = some timer → timer.mId = p ∧ p < q.id
  next : 0 < q.id
  sentinel : ∀ timer, q.mTimers.lookup 0 = some timer → timer.mInterval = 0

theorem Inv.live_eq {q : TimerQueue} (h : Inv q) : q.live = true :=
  List.all_eq_true.mpr h.live

theorem fresh_inv : Inv {} where
  live p hp := absurd hp List.not_mem_nil
  sorted := List.Pairwise.nil
  pos p hp := absurd hp List.not_mem_nil
  own p timer hl := by
    rw [AList.lookup_empty] at hl
    cases hl
  next := by decide
  sentinel timer hl := by
    rw [AList.lookup_empty] at hl
    cases hl

theorem expire_of_lookup {q : TimerQueue} {p : ℤ} {timer : Timer}
    (h : q.mTimers.lookup p = some timer) : q.expire p = timer.mExpire := by
  rw [expire, h]

theorem expire_congr {q q' : TimerQueue} {p : ℤ} (h : q'.mTimers.lookup p = q.mTimers.lookup p) :
    q'.expire p = q.expire p := by
  rw [expire, expire, h]

/-! ### The set of active timers -/

theorem Inv.with_timers {q : TimerQueue} (h : Inv q) {q' : TimerQueue}
    (hactive : q'.mActiveTimers = q.mActiveTimers)
    (hsame : ∀ p ∈ q.mActiveTimers, q'.mTimers.lookup p = q.mTimers.lookup p)
    (hown : ∀ p timer, q'.mTimers.lookup p = some timer → timer.mId = p ∧ p < q'.id)
    (hnext : 0 < q'.id)
    (hsentinel : ∀ timer, q'.mTimers.lookup 0 = some timer → timer.mInterval = 0) : Inv q' := by
  refine ⟨?_, ?_, ?_, hown, hnext, hsentinel⟩
  · intro p hp
    rw [hactive] at hp
    rw [hsame p hp]
    exact h.live p hp
  · rw [hactive]
    exact h.sorted.congr fun p hp => (expire_congr (hsame p hp)).symm
  · intro p hp
    rw [hactive] at hp
    exact h.pos p hp

theorem Inv.insertActive {q : TimerQueue} (h : Inv q) {p : ℤ} (hpos : 0 < p)
    (hl : (q.mTimers.lookup p).isSome = true) : Inv (q.insertActive p) where
  live y hy := by
    rcases mem_keyInsert hy with rfl | hy
    · exact hl
    · exact h.live y hy
  sorted := keyInsert_sorted p h.sorted
  pos y hy := by
    rcases mem_keyInsert hy with rfl | hy
    · exact hpos
    · exact h.pos y hy
  own := h.own
  next := h.next
  sentinel := h.sentinel

theorem Inv.eraseActive {q : TimerQueue} (h : Inv q) (p : ℤ) : Inv (q.eraseActive p) where
  live y hy := h.live y (mem_of_mem_keyErase hy)
  sorted := keyErase_sorted _ h.sorted
  pos y hy := h.pos y (mem_of_mem_keyErase hy)
  own := h.own
  next := h.next
  sentinel := h.sentinel

theorem Inv.not_mem_eraseActive {q : TimerQueue} (h : Inv q) (p : ℤ) :
    p ∉ (q.eraseActive p).mActiveTimers := by
  intro hp
  exact ((mem_keyErase_iff h.sorted).mp hp).2 rfl

theorem Inv.mem_eraseActive {q : TimerQueue} (h : Inv q) {p y : ℤ} (hp : p ∈ q.mActiveTimers)
    (hy : y ∈ q.mActiveTimers) (hne : y ≠ p) : y ∈ (q.eraseActive p).mActiveTimers := by
  refine (mem_keyErase_iff h.sorted).mpr ⟨hy, ?_⟩
  intro he
  exact hne (h.sorted.key_inj hy hp he)

theorem Inv.eraseTimer {q : TimerQueue} (h : Inv q) {p : ℤ} (hp : p ∉ q.mActiveTimers) :
    Inv { q with mTimers := q.mTimers.erase p } := by
  have hlook : ∀ y timer, (q.mTimers.erase p).lookup y = some timer →
      q.mTimers.lookup y = some timer := by
    intro y timer hl
    by_cases hy : y = p
    · rw [hy, AList.lookup_erase] at hl
      cases hl
    · rwa [AList.lookup_erase_ne hy] at hl
  refine h.with_timers rfl ?_ (fun y timer hl => h.own y timer (hlook y timer hl)) h.next
    (fun timer hl => h.sentinel timer (hlook 0 timer hl))
  intro y hy
  have hne : y ≠ p := by
    intro he
    rw [he] at hy
    exact hp hy
  exact AList.lookup_erase_ne hne

theorem Inv.removeTimer {q : TimerQueue} (h : Inv q) (id : ℤ) : Inv (q.removeTimer id) := by
  unfold TimerQueue.removeTimer
  cases hl : q.mTimers.lookup id with
  | none => exact h
  | some timer => exact (h.eraseActive id).eraseTimer (h.not_mem_eraseActive id)

theorem lookup_removeTimer (q : TimerQueue) (id p : ℤ) :
    (q.removeTimer id).mTimers.lookup p = if p = id then none else q.mTimers.lookup p := by
  unfold TimerQueue.removeTimer
  by_cases hp : p = id
  · rw [if_pos hp, hp]
    cases hl : q.mTimers.lookup id with
    | none => exact hl
    | some timer => exact AList.lookup_erase id q.mTimers
  · rw [if_neg hp]
    cases q.mTimers.lookup id with
    | none => rfl
    | some timer => exact AList.lookup_erase_ne hp

theorem Inv.expire_removeTimer {q : TimerQueue} (h : Inv q) {id y : ℤ}
    (hy : y ∈ (q.removeTimer id).mActiveTimers) : (q.removeTimer id).expire y = q.expire y := by
  have hlive := (h.removeTimer id).live y hy
  apply expire_congr
  unfold TimerQueue.removeTimer at hlive ⊢
  cases hl : q.mTimers.lookup id with
  | none => rfl
  | some timer =>
    rw [hl] at hlive
    have hne : y ≠ id := by
      intro he
      rw [he] at hlive
      dsimp only at hlive
      rw [AList.lookup_erase] at hlive
      cases hlive
    exact AList.lookup_erase_ne hne

/-! ### AddTimer and CancelTimer -/

/-- The queue with a new timer, before its fd is set. -/
def inserted (q : TimerQueue) (timer : Timer) : TimerQueue :=
  ({ q with mTimers := q.mTimers.insert timer.mId timer, id := q.id + 1 } : TimerQueue).insertActive
    timer.mId

theorem Inv.lookup_new {q : TimerQueue} (h : Inv q) : q.mTimers.lookup q.id = none := by
  cases hl : q.mTimers.lookup q.id with
  | none => rfl
  | some timer => exact absurd (h.own _ _ hl).2 (lt_irrefl _)

theorem Inv.lookup_inserted {q : TimerQueue} (h : Inv q) {timer : Timer} (hid : timer.mId = q.id)
    {p : ℤ} {t : Timer} (hl : q.mTimers.lookup p = some t) :
    (q.inserted timer).mTimers.lookup p = some t := by
  have hne : p ≠ timer.mId := by
    have hlt := (h.own p t hl).2
    omega
  rw [← hl]
  exact AList.lookup_insert_ne hne

theorem expire_inserted_new (q : TimerQueue) (timer : Timer) :
    (q.inserted timer).expire timer.mId = timer.mExpire :=
  expire_of_lookup (AList.lookup_insert q.mTimers)

theorem Inv.expire_inserted {q : TimerQueue} (h : Inv q) {timer : Timer} (hid : timer.mId = q.id)
    {p : ℤ} (hp : p ∈ q.mActiveTimers) : (q.inserted timer).expire p = q.expire p := by
  obtain ⟨t, ht⟩ := Option.isSome_iff_exists.mp (h.live p hp)
  rw [expire_of_lookup ht, expire_of_lookup (h.lookup_inserted hid ht)]

theorem Inv.inserted {q : TimerQueue} (h : Inv q) (timer : Timer) (hid : timer.mId = q.id) :
    Inv (q.inserted timer) := by
  have hnext := h.next
  have hlook : ∀ p t, (q.mTimers.insert timer.mId timer).lookup p = some t →
      (p = timer.mId ∧ t = timer) ∨ q.mTimers.lookup p = some t := by
    intro p t hl
    by_cases hp : p = timer.mId
    · rw [hp, AList.lookup_insert] at hl
      exact Or.inl ⟨hp, (Option.some.inj hl).symm⟩
    · rw [AList.lookup_insert_ne hp] at hl
      exact Or.inr hl
  have hnew : Inv { q with mTimers := q.mTimers.insert timer.mId timer, id := q.id + 1 } := by
    refine h.with_timers rfl ?_ ?_ ?_ ?_
    · intro p hp
      obtain ⟨t, ht⟩ := Option.isSome_iff_exists.mp (h.live p hp)
      have hlt := (h.own p t ht).2
      exact AList.lookup_insert_ne (by omega)
    · intro p t hl
      dsimp only
      rcases hlook p t hl with ⟨rfl, rfl⟩ | hl
      · exact ⟨rfl, by omega⟩
      · have ho := h.own p t hl
        exact ⟨ho.1, by omega⟩
    · dsimp only
      omega
    · intro t hl
      rcases hlook 0 t hl with ⟨hz, -⟩ | hl
      · omega
      · exact h.sentinel t hl
  refine hnew.insertActive (by omega) ?_
  dsimp only
  rw [AList.lookup_insert]
  rfl

/-- What a call inside of a callback can change. -/
structure Extends (q q' : TimerQueue) : Prop where
  handling : q'.mHandlingEvent = q.mHandlingEvent
  kept : ∀ p timer, q.mTimers.lookup p = some timer → q'.mTimers.lookup p = some timer
  active : ∀ p ∈ q.mActiveTimers, p ∈ q'.mActiveTimers
  idle : ∀ p timer, q.mTimers.lookup p = some timer → p ∉ q.mActiveTimers → p ∉ q'.mActiveTimers

theorem Extends.refl (q : TimerQueue) : Extends q q :=
  ⟨rfl, fun _ _ h => h, fun _ h => h, fun _ _ _ h => h⟩

theorem Extends.trans {q q1 q2 : TimerQueue} (h1 : Extends q q1) (h2 : Extends q1 q2) :
    Extends q q2 :=
  ⟨h2.handling.trans h1.handling, fun p t h => h2.kept p t (h1.kept p t h),
    fun p h => h2.active p (h1.active p h),
    fun p t h hp => h2.idle p t (h1.kept p t h) (h1.idle p t h hp)⟩

theorem Inv.addTimer_eq {q : TimerQueue} (h : Inv q) (interval : ℤ) (repeated : Bool)
    (created armed : ℤ) :
    q.addTimer interval repeated created armed = .ok (q.id,
      if (q.inserted ⟨repeated, interval, created + interval, q.id⟩).getEarliestTime
          < q.getEarliestTime then
        { q.inserted ⟨repeated, interval, created + interval, q.id⟩ with
          mTimerFd := resetTimerFd q.mTimerFd
            (q.inserted ⟨repeated, interval, created + interval, q.id⟩).getEarliestTime armed }
      else q.inserted ⟨repeated, interval, created + interval, q.id⟩) := by
  unfold addTimer
  rw [h.live_eq, Bool.not_true, if_neg Bool.false_ne_true]
  dsimp only
  rw [h.lookup_new, Option.isSome_none, if_neg Bool.false_ne_true]
  rfl

theorem Inv.addTimer {q : TimerQueue} (h : Inv q) (interval : ℤ) (repeated : Bool)
    (created armed : ℤ) :
    ∃ q', q.addTimer interval repeated created armed = .ok (q.id, q') ∧ Inv q' ∧ Extends q q' := by
  have hi := h.inserted ⟨repeated, interval, created + interval, q.id⟩ rfl
  have he : Extends q (q.inserted ⟨repeated, interval, created + interval, q.id⟩) := by
    refine ⟨rfl, fun p t hl => h.lookup_inserted rfl hl, fun p hp => mem_keyInsert_of_mem _ hp, ?_⟩
    intro p t hl hp hin
    rcases mem_keyInsert hin with rfl | hin
    · have hnew := h.lookup_new
      rw [hl] at hnew
      cases hnew
    · exact hp hin
  refine ⟨_, h.addTimer_eq interval repeated created armed, ?_, ?_⟩
  · split
    · exact ⟨hi.live, hi.sorted, hi.pos, hi.own, hi.next, hi.sentinel⟩
    · exact hi
  · split
    · exact ⟨he.handling, he.kept, he.active, he.idle⟩
    · exact he

theorem cancelTimer_handling {q : TimerQueue} (hh : q.mHandlingEvent = true) (id armed : ℤ) :
    q.cancelTimer id armed = .ok { q with
      mCancelTimer := if id ∈ q.mCancelTimer then q.mCancelTimer else id :: q.mCancelTimer } := by
  rw [cancelTimer, if_pos hh]

theorem Inv.cancelTimer_idle {q : TimerQueue} (h : Inv q) (hh : q.mHandlingEvent = false)
    (id armed : ℤ) :
    q.cancelTimer id armed = .ok (if q.getEarliestTime < (q.removeTimer id).getEarliestTime then
        { q.removeTimer id with
          mTimerFd := resetTimerFd q.mTimerFd (q.removeTimer id).getEarliestTime armed }
      else q.removeTimer id) := by
  have hfd : (q.removeTimer id).mTimerFd = q.mTimerFd := by
    unfold TimerQueue.removeTimer
    cases q.mTimers.lookup id with
    | none => rfl
    | some timer => rfl
  unfold cancelTimer
  rw [hh, if_neg Bool.false_ne_true, h.live_eq, Bool.not_true, if_neg Bool.false_ne_true]
  dsimp only
  rw [hfd]

/-! ### HandleExpireEvent -/

theorem Inv.beginHandling {q : TimerQueue} (h : Inv q) (now : ℤ) :
    Inv (q.beginHandling now) ∧ (q.beginHandling now).expire 0 = now ∧
      ∀ p ∈ q.mActiveTimers, (q.beginHandling now).expire p = q.expire p := by
  have hne : ∀ p ∈ q.mActiveTimers, p ≠ 0 := by
    intro p hp
    have hpos := h.pos p hp
    omega
  obtain ⟨sentinel, hs⟩ : ∃ sentinel, (q.mTimers.lookup 0).getD ⟨false, 0, now, 0⟩ = sentinel :=
    ⟨_, rfl⟩
  have hzero : sentinel.mInterval = 0 ∧ sentinel.mId = 0 := by
    cases hl : q.mTimers.lookup 0 with
    | none =>
      rw [hl] at hs
      rw [← hs]
      exact ⟨rfl, rfl⟩
    | some timer =>
      rw [hl] at hs
      rw [← hs]
      exact ⟨h.sentinel timer hl, (h.own 0 timer hl).1⟩
  have hlook : (q.beginHandling now).mTimers
      = q.mTimers.insert 0 { sentinel with mExpire := now + sentinel.mInterval } := by
    rw [← hs]
    rfl
  have hnext := h.next
  refine ⟨h.with_timers rfl ?_ ?_ h.next ?_, ?_, ?_⟩
  · intro p hp
    rw [hlook]
    exact AList.lookup_insert_ne (hne p hp)
  · intro p timer hl
    rw [hlook] at hl
    by_cases hp : p = 0
    · rw [hp, AList.lookup_insert] at hl
      cases hl
      rw [hp]
      exact ⟨hzero.2, h.next⟩
    · rw [AList.lookup_insert_ne hp] at hl
      exact h.own p timer hl
  · intro timer hl
    rw [hlook, AList.lookup_insert] at hl
    cases hl
    exact hzero.1
  · have hl : (q.beginHandling now).mTimers.lookup 0
        = some { sentinel with mExpire := now + sentinel.mInterval } := by
      rw [hlook]
      exact AList.lookup_insert _
    rw [expire_of_lookup hl]
    dsimp only
    rw [hzero.1, Int.add_zero]
  · intro p hp
    apply expire_congr
    rw [hlook]
    exact AList.lookup_insert_ne (hne p hp)

theorem Inv.mem_expired_iff {q : TimerQueue} (h : Inv q) (now p : ℤ) :
    p ∈ (q.beginHandling now).expired ↔ p ∈ q.mActiveTimers ∧ q.expire p ≤ now := by
  obtain ⟨hb, hsentinel, hexp⟩ := h.beginHandling now
  rw [expired, hsentinel, hb.sorted.mem_takeWhile_iff now p]
  exact and_congr_right fun hp => by rw [hexp p hp]

theorem Inv.act_handling {q : TimerQueue} (h : Inv q) (hh : q.mHandlingEvent = true) (a : Action) :
    ∃ q', q.act a = .ok q' ∧ Inv q' ∧ Extends q q' := by
  cases a with
  | add interval repeated created armed =>
    obtain ⟨q', hadd, hi, he⟩ := h.addTimer interval repeated created armed
    refine ⟨q', ?_, hi, he⟩
    rw [act, hadd]
    rfl
  | cancel id armed =>
    have he := Extends.refl q
    exact ⟨_, cancelTimer_handling hh id armed,
      ⟨h.live, h.sorted, h.pos, h.own, h.next, h.sentinel⟩,
      ⟨he.handling, he.kept, he.active, he.idle⟩⟩

theorem Inv.acts_handling {q : TimerQueue} (h : Inv q) (hh : q.mHandlingEvent = true)
    (as : List Action) : ∃ q', q.acts as = .ok q' ∧ Inv q' ∧ Extends q q' := by
  induction as generalizing q with
  | nil => exact ⟨q, rfl, h, .refl q⟩
  | cons a as ih =>
    obtain ⟨q1, ha, h1, he1⟩ := h.act_handling hh a
    obtain ⟨q2, has, h2, he2⟩ := ih h1 (he1.handling.trans hh)
    refine ⟨q2, ?_, h2, he1.trans he2⟩
    rw [acts, ha, Exec.ok_bind, has]

theorem Inv.runTasks {q : TimerQueue} (h : Inv q) (hh : q.mHandlingEvent = true)
    (task : ℤ → List Action) (ps : List ℤ) (hnodup : ps.Nodup)
    (hactive : ∀ p ∈ ps, p ∈ q.mActiveTimers) :
    ∃ q', runTasks task ps q = .ok q' ∧ Inv q' ∧ q'.mHandlingEvent = true ∧
      (∀ p timer, q.mTimers.lookup p = some timer → q'.mTimers.lookup p = some timer) ∧
      (∀ p timer, q.mTimers.lookup p = some timer → p ∉ q.mActiveTimers → p ∉ q'.mActiveTimers) ∧
      ∀ p ∈ ps, p ∉ q'.mActiveTimers := by
  induction ps generalizing q with
  | nil => exact ⟨q, rfl, h, hh, fun _ _ hl => hl, fun _ _ _ hp => hp, fun _ hp => absurd hp List.not_mem_nil⟩
  | cons p ps ih =>
    obtain ⟨hnot, hnodup⟩ := List.nodup_cons.mp hnodup
    obtain ⟨timer, ht⟩ := Option.isSome_iff_exists.mp (h.live p (hactive p List.mem_cons_self))
    obtain ⟨q1, hacts, h1, he⟩ := h.acts_handling hh (task p)
    have hp1 : p ∈ q1.mActiveTimers := he.active p (hactive p List.mem_cons_self)
    have hrest : ∀ y ∈ ps, y ∈ (q1.eraseActive p).mActiveTimers := by
      intro y hy
      refine h1.mem_eraseActive hp1 (he.active y (hactive y (List.mem_cons_of_mem p hy))) ?_
      intro heq
      rw [heq] at hy
      exact hnot hy
    obtain ⟨q2, hrun, h2, hh2, hkept, hidle, hran⟩ :=
      ih (h1.eraseActive p) (he.handling.trans hh) hnodup hrest
    have hp1' : (q1.eraseActive p).mTimers.lookup p = some timer := he.kept p timer ht
    refine ⟨q2, ?_, h2, hh2, fun y t hl => hkept y t (he.kept y t hl), ?_, ?_⟩
    · have hsome : (q1.mTimers.lookup p).isNone = false := by
        rw [he.kept p timer ht]
        rfl
      rw [TimerQueue.runTasks, ht]
      dsimp only
      rw [hacts, Exec.ok_bind, h1.live_eq, hsome]
      exact hrun
    · intro y t hl hy
      refine hidle y t (he.kept y t hl) ?_
      intro hin
      exact he.idle y t hl hy (mem_of_mem_keyErase hin)
    · intro y hy
      rcases List.mem_cons.mp hy with rfl | hy
      · exact hidle y timer hp1' (h1.not_mem_eraseActive y)
      · exact hran y hy

theorem Inv.setExpire {q : TimerQueue} (h : Inv q) {p : ℤ} {timer : Timer}
    (ht : q.mTimers.lookup p = some timer) (hidle : p ∉ q.mActiveTimers) (hpos : 0 < p) (expire : ℤ) :
    Inv { q with mTimers := q.mTimers.insert p { timer with mExpire := expire } } := by
  refine h.with_timers rfl ?_ ?_ h.next ?_
  · intro y hy
    refine AList.lookup_insert_ne ?_
    intro he
    rw [he] at hy
    exact hidle hy
  · intro y t hl
    dsimp only at hl
    by_cases hy : y = p
    · rw [hy, AList.lookup_insert] at hl
      cases hl
      rw [hy]
      exact h.own p timer ht
    · rw [AList.lookup_insert_ne hy] at hl
      exact h.own y t hl
  · intro t hl
    dsimp only at hl
    rw [AList.lookup_insert_ne (by omega)] at hl
    exact h.sentinel t hl

/-- A repeated timer that was renewed at the reading `now`. -/
def renew (q : TimerQueue) (p : ℤ) (timer : Timer) (now : ℤ) : TimerQueue :=
  ({ q with mTimers := q.mTimers.insert p { timer with mExpire := now + timer.mInterval } } :
    TimerQueue).insertActive p

theorem Inv.renew {q : TimerQueue} (h : Inv q) {p : ℤ} {timer : Timer}
    (ht : q.mTimers.lookup p = some timer) (hp : p ∉ q.mActiveTimers) (hpos : 0 < p) (now : ℤ) :
    Inv { q with mTimers := q.mTimers.insert p { timer with mExpire := now + timer.mInterval } } ∧
      Inv (q.renew p timer now) := by
  have hset := h.setExpire ht hp hpos (now + timer.mInterval)
  refine ⟨hset, hset.insertActive hpos ?_⟩
  dsimp only
  rw [AList.lookup_insert]
  rfl

/-- Renewed timers become active again, the others are gone. -/
theorem Inv.renewTimers {q : TimerQueue} (h : Inv q) (renewed : ℤ → ℤ) (ps : List ℤ)
    (hnodup : ps.Nodup) (hpos : ∀ p ∈ ps, 0 < p)
    (hlive : ∀ p ∈ ps, (q.mTimers.lookup p).isSome = true) (hidle : ∀ p ∈ ps, p ∉ q.mActiveTimers) :
    ∃ q', renewTimers renewed ps q = .ok q' ∧ Inv q' ∧ q'.mHandlingEvent = q.mHandlingEvent := by
  induction ps generalizing q with
  | nil => exact ⟨q, rfl, h, rfl⟩
  | cons p ps ih =>
    obtain ⟨hnot, hnodup⟩ := List.nodup_cons.mp hnodup
    obtain ⟨timer, ht⟩ := Option.isSome_iff_exists.mp (hlive p List.mem_cons_self)
    have hown := h.own p timer ht
    have hp := hidle p List.mem_cons_self
    have hp0 := hpos p List.mem_cons_self
    have hne : ∀ y ∈ ps, y ≠ p := by
      intro y hy he
      rw [he] at hy
      exact hnot hy
    have hpos' : ∀ y ∈ ps, 0 < y := fun y hy => hpos y (List.mem_cons_of_mem p hy)
    rw [TimerQueue.renewTimers, ht]
    dsimp only
    by_cases hr : (timer.mRepeat && !decide (timer.mId ∈ q.mCancelTimer)) = true
    · have hset := h.setExpire ht hp hp0 (renewed p + timer.mInterval)
      have hins := hset.insertActive hp0 (by
        dsimp only
        rw [AList.lookup_insert]
        rfl)
      obtain ⟨q', hrun, h', hh'⟩ := ih hins hnodup hpos'
        (fun y hy => by
          have hl := hlive y (List.mem_cons_of_mem p hy)
          rw [← AList.lookup_insert_ne (hne y hy)] at hl
          exact hl)
        (fun y hy hin => by
          rcases mem_keyInsert hin with he | hin
          · exact hne y hy he
          · exact hidle y (List.mem_cons_of_mem p hy) hin)
      rw [if_pos hr, hset.live_eq, Bool.not_true, if_neg Bool.false_ne_true]
      exact ⟨q', hrun, h', hh'⟩
    · rw [if_neg hr, hown.1]
      exact ih (h.eraseTimer hp) hnodup hpos'
        (fun y hy => by
          have hl := hlive y (List.mem_cons_of_mem p hy)
          rw [← AList.lookup_erase_ne (hne y hy)] at hl
          exact hl)
        (fun y hy => hidle y (List.mem_cons_of_mem p hy))

theorem Inv.eraseCancelled {q : TimerQueue} (h : Inv q) (ids : List ℤ) :
    ∃ q', eraseCancelled ids q = .ok q' ∧ Inv q' ∧ q'.mHandlingEvent = q.mHandlingEvent := by
  induction ids generalizing q with
  | nil => exact ⟨q, rfl, h, rfl⟩
  | cons id ids ih =>
    obtain ⟨q', hrun, h', hh'⟩ := ih (h.removeTimer id)
    have hh : (q.removeTimer id).mHandlingEvent = q.mHandlingEvent := by
      unfold TimerQueue.removeTimer
      cases q.mTimers.lookup id with
      | none => rfl
      | some timer => rfl
    rw [TimerQueue.eraseCancelled, h.live_eq, Bool.not_true, if_neg Bool.false_ne_true]
    exact ⟨q', hrun, h', hh'.trans hh⟩

theorem Inv.finishHandling {q : TimerQueue} (h : Inv q) (armed : ℤ) : Inv (q.finishHandling armed) :=
  ⟨h.live, h.sorted, h.pos, h.own, h.next, h.sentinel⟩

end TimerQueue

end DeftRpc.Timers
