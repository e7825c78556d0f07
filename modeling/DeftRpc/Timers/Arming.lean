import DeftRpc.Timers.QueueSteps

/-!
# When the timer fd is armed for the earliest timer

The fd is set with a delay that a later clock reading has made shorter. A
delay of zero disarms it, a negative one is rejected, and an event that finds
no expired timer leaves the fired fd as it is. During an event the timers whose
tasks have not returned are still active, although the fd has fired for them.
-/

namespace DeftRpc.Timers
open DeftRpc.Foundation

/-! ### Setting the fd -/

/-- The fd fires by `t`; with `unread` it may also have fired already, not read since. -/
def DueBy (unread : Bool) (fd : TimerFd) (t : ℤ) : Prop :=
  (unread && fd.readable) = true ∨ ∃ d ∈ fd.deadline, d ≤ t

instance (unread : Bool) (fd : TimerFd) (t : ℤ) : Decidable (DueBy unread fd t) :=
  inferInstanceAs (Decidable ((unread && fd.readable) = true ∨ ∃ d ∈ fd.deadline, d ≤ t))

/-- Setting the fd for `deadline` at the reading `now`: the deadline is ahead, or it
has passed and the fd was to fire by then anyway. -/
def ArmsFor (unread : Bool) (fd : TimerFd) (deadline now : ℤ) : Prop :=
  now < deadline ∨ (deadline < now ∧ DueBy unread fd deadline)

instance (unread : Bool) (fd : TimerFd) (deadline now : ℤ) : Decidable (ArmsFor unread fd deadline now) :=
  instDecidableOr

theorem resetTimerFd_ahead (fd : TimerFd) {deadline now : ℤ} (h : now < deadline) :
    resetTimerFd fd deadline now = { deadline := some deadline } := by
  have hn : (0 : ℤ) < nano := by decide
  have hs : 0 ≤ (deadline - now).tdiv nano := Int.tdiv_nonneg (by omega) (le_of_lt hn)
  have hm : 0 ≤ (deadline - now).tmod nano := Int.tmod_nonneg nano (by omega)
  have hlt : (deadline - now).tmod nano < nano := Int.tmod_lt_of_pos _ hn
  have hsum : nano * (deadline - now).tdiv nano + (deadline - now).tmod nano = deadline - now :=
    Int.mul_tdiv_add_tmod _ _
  rw [resetTimerFd, settime, howMuchFromNow, if_neg (by dsimp only; omega), if_neg]
  · dsimp only
    rw [Int.mul_comm ((deadline - now).tdiv nano), Int.add_assoc, hsum]
    congr 2
    omega
  · rintro ⟨hz1, hz2⟩
    dsimp only at hz1 hz2
    rw [hz1, hz2] at hsum
    omega

theorem resetTimerFd_now (fd : TimerFd) (now : ℤ) : resetTimerFd fd now now = {} := by
  rw [resetTimerFd, howMuchFromNow, Int.sub_self]
  rfl

theorem resetTimerFd_passed (fd : TimerFd) {deadline now : ℤ} (h : deadline < now) :
    resetTimerFd fd deadline now = fd := by
  have hn : (0 : ℤ) < nano := by decide
  have hs : (deadline - now).tdiv nano ≤ 0 := by
    have h1 : 0 ≤ (-(deadline - now)).tdiv nano := Int.tdiv_nonneg (by omega) (le_of_lt hn)
    rw [Int.neg_tdiv] at h1
    omega
  have hm : (deadline - now).tmod nano ≤ 0 := by
    have h1 : 0 ≤ (-(deadline - now)).tmod nano := Int.tmod_nonneg nano (by omega)
    rw [Int.neg_tmod] at h1
    omega
  have hsum : nano * (deadline - now).tdiv nano + (deadline - now).tmod nano = deadline - now :=
    Int.mul_tdiv_add_tmod _ _
  rw [resetTimerFd, settime, howMuchFromNow, if_pos]
  dsimp only
  by_contra hnot
  have hz1 : (deadline - now).tdiv nano = 0 := by omega
  rw [hz1] at hsum
  omega

theorem dueBy_resetTimerFd (unread : Bool) (fd : TimerFd) (deadline now : ℤ) :
    DueBy unread (resetTimerFd fd deadline now) deadline ↔ ArmsFor unread fd deadline now := by
  rcases lt_trichotomy now deadline with h | h | h
  · rw [resetTimerFd_ahead fd h]
    exact ⟨fun _ => Or.inl h, fun _ => Or.inr ⟨deadline, rfl, le_refl _⟩⟩
  · rw [h, resetTimerFd_now]
    constructor
    · rintro (hr | ⟨d, hd, -⟩)
      · rw [Bool.and_false] at hr
        cases hr
      · cases hd
    · rintro (h | h)
      · exact absurd h (lt_irrefl _)
      · exact absurd h.1 (lt_irrefl _)
  · rw [resetTimerFd_passed fd h]
    constructor
    · exact fun hd => Or.inr ⟨h, hd⟩
    · rintro (h' | h')
      · exact absurd h' (by omega)
      · exact h'.2

/-! ### The keys of the active timers -/

theorem min?_congr {l l' : List ℤ} (h : ∀ k, k ∈ l ↔ k ∈ l') : l.min? = l'.min? := by
  ext m
  simp only [List.min?_eq_some_iff, h]

namespace TimerQueue

/-- The fd fires no later than the earliest active timer expires. -/
def Armed (unread : Bool) (q : TimerQueue) : Prop :=
  ∀ p ∈ q.mActiveTimers.head?, DueBy unread q.mTimerFd (q.expire p)

instance (unread : Bool) (q : TimerQueue) : Decidable (q.Armed unread) :=
  inferInstanceAs (Decidable (∀ p ∈ q.mActiveTimers.head?, DueBy unread q.mTimerFd (q.expire p)))

def keys (q : TimerQueue) : List ℤ := q.mActiveTimers.map q.expire

/-- The earliest key is the one of the first active timer. -/
theorem Inv.min_keys {q : TimerQueue} (h : Inv q) : q.keys.min? = q.mActiveTimers.head?.map q.expire := by
  rw [keys]
  cases hact : q.mActiveTimers with
  | nil => rfl
  | cons p ps =>
    have hs := h.sorted
    rw [hact] at hs
    refine List.min?_eq_some_iff.mpr ⟨List.mem_map_of_mem List.mem_cons_self, ?_⟩
    intro k hk
    obtain ⟨y, hy, rfl⟩ := List.mem_map.mp hk
    exact hs.head_le y hy

/-- What holds of the first active timer's expiry holds of the least key. -/
theorem Inv.head_iff {q : TimerQueue} (h : Inv q) {l : List ℤ} (hl : ∀ k, k ∈ l ↔ k ∈ q.keys)
    (r : ℤ → Prop) : (∀ p ∈ q.mActiveTimers.head?, r (q.expire p)) ↔ ∀ m ∈ l.min?, r m := by
  rw [min?_congr hl, h.min_keys]
  simp

theorem mem_keys_insertActive {q : TimerQueue} {p k : ℤ} :
    k ∈ (q.insertActive p).keys ↔ k ∈ q.keys ∨ k = q.expire p := mem_map_keyInsert

theorem Inv.mem_keys_removeTimer {q : TimerQueue} (h : Inv q) {id k : ℤ} :
    k ∈ (q.removeTimer id).keys ↔
      k ∈ q.keys ∧ ∀ timer, q.mTimers.lookup id = some timer → timer.mExpire ≠ k := by
  have hsame : (q.removeTimer id).keys = (q.removeTimer id).mActiveTimers.map q.expire :=
    List.map_congr_left fun y hy => h.expire_removeTimer hy
  rw [hsame]
  unfold TimerQueue.removeTimer
  cases hl : q.mTimers.lookup id with
  | none =>
    refine ⟨fun hk => ⟨hk, fun _ ht => ?_⟩, fun hk => hk.1⟩
    cases ht
  | some timer =>
    have he := expire_of_lookup hl
    have herase : k ∈ (q.eraseActive id).mActiveTimers.map q.expire ↔ k ∈ q.keys ∧ k ≠ q.expire id :=
      mem_map_keyErase h.sorted
    rw [he] at herase
    refine herase.trans (and_congr_right fun _ => ⟨?_, ?_⟩)
    · rintro hne t ht rfl
      cases ht
      exact hne rfl
    · rintro hall rfl
      exact hall timer rfl rfl

theorem getEarliestTime_cons {q : TimerQueue} {p : ℤ} {ps : List ℤ} (h : q.mActiveTimers = p :: ps) :
    q.getEarliestTime = q.expire p := by
  rw [getEarliestTime, h]

theorem armed_cons {unread : Bool} {q : TimerQueue} {p : ℤ} {ps : List ℤ} (h : q.mActiveTimers = p :: ps) :
    q.Armed unread ↔ DueBy unread q.mTimerFd (q.expire p) := by
  rw [Armed, h]
  simp

theorem armed_nil {unread : Bool} {q : TimerQueue} (h : q.mActiveTimers = []) : q.Armed unread := by
  intro p hp
  rw [h] at hp
  cases hp

/-- The fd of a queue with the keys `l` is set for the earliest one if that one has moved. -/
theorem Inv.armed_setOr {q : TimerQueue} (h : Inv q) (unread : Bool) {l : List ℤ}
    (hl : ∀ k, k ∈ l ↔ k ∈ q.keys) (moved : ℤ → Prop) [DecidablePred moved] (armed : ℤ) :
    (if moved q.getEarliestTime then
        { q with mTimerFd := resetTimerFd q.mTimerFd q.getEarliestTime armed } else q).Armed unread ↔
      ∀ m ∈ l.min?, if moved m then ArmsFor unread q.mTimerFd m armed else DueBy unread q.mTimerFd m := by
  rw [← h.head_iff hl]
  by_cases hact : q.mActiveTimers = []
  · refine ⟨fun _ p hp => ?_, fun _ => ?_⟩
    · rw [hact] at hp
      cases hp
    · split
      · exact armed_nil hact
      · exact armed_nil hact
  · obtain ⟨p, ps, hact⟩ := List.exists_cons_of_ne_nil hact
    have hhead : (∀ p' ∈ q.mActiveTimers.head?, if moved (q.expire p') then
        ArmsFor unread q.mTimerFd (q.expire p') armed else DueBy unread q.mTimerFd (q.expire p')) ↔
        if moved (q.expire p) then ArmsFor unread q.mTimerFd (q.expire p) armed
          else DueBy unread q.mTimerFd (q.expire p) := by
      rw [hact]
      simp
    rw [hhead, getEarliestTime_cons hact]
    split
    · rw [← dueBy_resetTimerFd]
      exact armed_cons hact
    · exact armed_cons hact

/-! ### The condition of each step -/

/-- The keys after CancelTimer outside of events. -/
def keysWithout (q : TimerQueue) (id : ℤ) : List ℤ :=
  match q.mTimers.lookup id with
  | none => q.keys
  | some timer => q.keys.filter fun k => decide (k ≠ timer.mExpire)

/-- The expiries of the timers that the event renews. -/
def renewedKeys (q : TimerQueue) (renewed : ℤ → ℤ) (activeTemp : List ℤ) : List ℤ :=
  ((activeTemp.filterMap q.mTimers.lookup).filter fun timer =>
    timer.mRepeat && !decide (timer.mId ∈ q.mCancelTimer)).map fun timer => renewed timer.mId + timer.mInterval

/-- The expiries of the cancelled timers that the event has not erased before. -/
def cancelledKeys (q : TimerQueue) (activeTemp : List ℤ) : List ℤ :=
  ((q.mCancelTimer.filter fun id => !decide (id ∈ activeTemp)).filterMap q.mTimers.lookup).map Timer.mExpire

/-- The keys after an event whose tasks have all returned. -/
def keysLeft (q : TimerQueue) (renewed : ℤ → ℤ) (activeTemp : List ℤ) : List ℤ :=
  (q.keys ++ q.renewedKeys renewed activeTemp).filter fun k => !decide (k ∈ q.cancelledKeys activeTemp)

/-- Becoming the earliest, the new expiry needs an fd that can be set for it; otherwise
the fd is to be armed already. -/
def AddOk (unread : Bool) (q : TimerQueue) (interval created armed : ℤ) : Prop :=
  ∀ m ∈ ((created + interval) :: q.keys).min?,
    if m < q.getEarliestTime then ArmsFor unread q.mTimerFd m armed else DueBy unread q.mTimerFd m

def CancelOk (unread : Bool) (q : TimerQueue) (id armed : ℤ) : Prop :=
  ∀ m ∈ (q.keysWithout id).min?,
    if q.getEarliestTime < m then ArmsFor unread q.mTimerFd m armed else DueBy unread q.mTimerFd m

/-- Some timer has expired, or the fd was set again after it fired. -/
def EnterOk (unread : Bool) (q : TimerQueue) (now : ℤ) : Prop :=
  ∀ m ∈ q.keys.min?, m ≤ now ∨ DueBy unread (readFromTimerFd q.mTimerFd) m

def LeaveOk (unread : Bool) (q : TimerQueue) (renewed : ℤ → ℤ) (activeTemp : List ℤ) (armed : ℤ) : Prop :=
  ∀ m ∈ (q.keysLeft renewed activeTemp).min?, ArmsFor unread q.mTimerFd m armed

end TimerQueue

namespace QueueState
open TimerQueue

/-- A cancel in a task only notes the id, so the fd is to be armed already. -/
def StepOk (unread : Bool) (s : QueueState) : QueueStep → Prop
  | .fire => True
  | .act (.add interval _ created armed) => s.queue.AddOk unread interval created armed
  | .act (.cancel p armed) =>
    if s.batch.isSome then s.queue.Armed unread else s.queue.CancelOk unread p armed
  | .enter now => s.batch.isSome = true ∨ s.queue.EnterOk unread now
  | .taskEnd => True
  | .leave renewed armed => ∀ b ∈ s.batch, b.left = [] → s.queue.LeaveOk unread renewed b.activeTemp armed

instance (unread : Bool) (s : QueueState) : ∀ a, Decidable (s.StepOk unread a)
  | .fire => .isTrue trivial
  | .act (.add interval _ created armed) =>
    inferInstanceAs (Decidable (∀ m ∈ ((created + interval) :: s.queue.keys).min?,
      if m < s.queue.getEarliestTime then ArmsFor unread s.queue.mTimerFd m armed
        else DueBy unread s.queue.mTimerFd m))
  | .act (.cancel p armed) =>
    inferInstanceAs (Decidable (if s.batch.isSome then s.queue.Armed unread else
      ∀ m ∈ (s.queue.keysWithout p).min?, if s.queue.getEarliestTime < m then
        ArmsFor unread s.queue.mTimerFd m armed else DueBy unread s.queue.mTimerFd m))
  | .enter now =>
    inferInstanceAs (Decidable (s.batch.isSome = true ∨
      ∀ m ∈ s.queue.keys.min?, m ≤ now ∨ DueBy unread (readFromTimerFd s.queue.mTimerFd) m))
  | .taskEnd => .isTrue trivial
  | .leave renewed armed =>
    inferInstanceAs (Decidable (∀ b ∈ s.batch, b.left = [] →
      ∀ m ∈ (s.queue.keysLeft renewed b.activeTemp).min?, ArmsFor unread s.queue.mTimerFd m armed))

variable (unread : Bool) (order : List ℤ → List ℤ)

/-- If the step is the return of a call, the fd is armed then. -/
def ReturnsArmed (s : QueueState) (a : QueueStep) : Prop :=
  match s.step order a with
  | .ok r => r.1 = true → r.2.queue.Armed unread
  | .error _ => False

instance (s : QueueState) (a : QueueStep) : Decidable (s.ReturnsArmed unread order a) := by
  unfold ReturnsArmed
  cases s.step order a <;> infer_instance

end QueueState

namespace TimerQueue

/-! ### AddTimer and CancelTimer -/

theorem Inv.mem_keys_inserted {q : TimerQueue} (h : Inv q) {timer : Timer} (hid : timer.mId = q.id)
    (k : ℤ) : k ∈ timer.mExpire :: q.keys ↔ k ∈ (q.inserted timer).keys := by
  have hold : ({ q with mTimers := q.mTimers.insert timer.mId timer, id := q.id + 1 } : TimerQueue).keys
      = q.keys := List.map_congr_left fun y hy => h.expire_inserted hid hy
  have hnew := expire_inserted_new q timer
  rw [TimerQueue.inserted, mem_keys_insertActive, hold, List.mem_cons, or_comm]
  exact or_congr_right (by rw [← hnew]; rfl)

theorem Inv.addTimer_armed (unread : Bool) {q : TimerQueue} (h : Inv q) (interval : ℤ) (repeated : Bool)
    (created armed : ℤ) :
    ∃ q', q.addTimer interval repeated created armed = .ok (q.id, q') ∧
      (q'.Armed unread ↔ q.AddOk unread interval created armed) := by
  have hi := h.inserted ⟨repeated, interval, created + interval, q.id⟩ rfl
  exact ⟨_, h.addTimer_eq interval repeated created armed,
    hi.armed_setOr unread (h.mem_keys_inserted rfl) (fun m => m < q.getEarliestTime) armed⟩

theorem Inv.mem_keysWithout {q : TimerQueue} (h : Inv q) (id k : ℤ) :
    k ∈ q.keysWithout id ↔ k ∈ (q.removeTimer id).keys := by
  rw [h.mem_keys_removeTimer]
  unfold keysWithout
  cases q.mTimers.lookup id with
  | none =>
    refine ⟨fun hk => ⟨hk, fun _ ht => ?_⟩, fun hk => hk.1⟩
    cases ht
  | some timer => simp [ne_comm]

theorem removeTimer_mTimerFd (q : TimerQueue) (id : ℤ) : (q.removeTimer id).mTimerFd = q.mTimerFd := by
  unfold removeTimer
  cases q.mTimers.lookup id with
  | none => rfl
  | some timer => rfl

theorem removeTimer_mHandlingEvent (q : TimerQueue) (id : ℤ) :
    (q.removeTimer id).mHandlingEvent = q.mHandlingEvent := by
  unfold removeTimer
  cases q.mTimers.lookup id with
  | none => rfl
  | some timer => rfl

theorem Inv.cancelTimer_armed (unread : Bool) {q : TimerQueue} (h : Inv q)
    (hh : q.mHandlingEvent = false) (id armed : ℤ) :
    ∃ q', q.cancelTimer id armed = .ok q' ∧ Inv q' ∧ q'.mHandlingEvent = false ∧
      (q'.Armed unread ↔ q.CancelOk unread id armed) := by
  have hi := h.removeTimer id
  have hfd := removeTimer_mTimerFd q id
  have hidle := (removeTimer_mHandlingEvent q id).trans hh
  have harmed := hi.armed_setOr unread (h.mem_keysWithout id) (fun m => q.getEarliestTime < m) armed
  rw [hfd] at harmed
  refine ⟨_, h.cancelTimer_idle hh id armed, ?_, ?_, harmed⟩
  · split
    · exact ⟨hi.live, hi.sorted, hi.pos, hi.own, hi.next, hi.sentinel⟩
    · exact hi
  · split
    · exact hidle
    · exact hidle

/-! ### The end of HandleExpireEvent -/

theorem renewedKeys_congr {q q' : TimerQueue} {ps : List ℤ} (renewed : ℤ → ℤ)
    (hlook : ∀ p ∈ ps, q'.mTimers.lookup p = q.mTimers.lookup p)
    (hcancel : q'.mCancelTimer = q.mCancelTimer) : q'.renewedKeys renewed ps = q.renewedKeys renewed ps := by
  rw [renewedKeys, renewedKeys, hcancel, List.filterMap_congr hlook]

/-- Renewing makes the new expiries keys, and erases no timer but those of the event. -/
structure Renews (renewed : ℤ → ℤ) (q : TimerQueue) (ps : List ℤ) (q' : TimerQueue) : Prop where
  fd : q'.mTimerFd = q.mTimerFd
  cancelled : q'.mCancelTimer = q.mCancelTimer
  keys : ∀ k, k ∈ q'.keys ↔ k ∈ q.keys ∨ k ∈ q.renewedKeys renewed ps
  other : ∀ p, p ∉ ps → q'.mTimers.lookup p = q.mTimers.lookup p
  gone : ∀ p ∈ ps, p ∈ q.mCancelTimer → q'.mTimers.lookup p = none

theorem Renews.cons {renewed : ℤ → ℤ} {q q1 q2 : TimerQueue} {p : ℤ} {ps : List ℤ} (hnot : p ∉ ps)
    (h1 : Renews renewed q [p] q1) (h2 : Renews renewed q1 ps q2) : Renews renewed q (p :: ps) q2 := by
  have hlook : ∀ y ∈ ps, q1.mTimers.lookup y = q.mTimers.lookup y := by
    intro y hy
    refine h1.other y fun hin => hnot ?_
    rw [← List.mem_singleton.mp hin]
    exact hy
  have hsplit : q.renewedKeys renewed (p :: ps)
      = q.renewedKeys renewed [p] ++ q.renewedKeys renewed ps := by
    have hcons : p :: ps = [p] ++ ps := rfl
    rw [hcons, renewedKeys, List.filterMap_append, List.filter_append, List.map_append]
    rfl
  refine ⟨h2.fd.trans h1.fd, h2.cancelled.trans h1.cancelled, ?_, ?_, ?_⟩
  · intro k
    rw [h2.keys, h1.keys, renewedKeys_congr renewed hlook h1.cancelled, hsplit, List.mem_append, or_assoc]
  · intro y hy
    rw [h2.other y fun hin => hy (List.mem_cons_of_mem p hin)]
    refine h1.other y fun hin => hy ?_
    rw [List.mem_singleton.mp hin]
    exact List.mem_cons_self
  · intro y hy hc
    rcases List.mem_cons.mp hy with rfl | hy
    · rw [h2.other y hnot]
      exact h1.gone y (List.mem_singleton_self y) hc
    · rw [← h1.cancelled] at hc
      exact h2.gone y hy hc

theorem Inv.renews_again {q : TimerQueue} (h : Inv q) {renewed : ℤ → ℤ} {p : ℤ} {timer : Timer}
    (ht : q.mTimers.lookup p = some timer) (hidle : p ∉ q.mActiveTimers)
    (hr : (timer.mRepeat && !decide (timer.mId ∈ q.mCancelTimer)) = true) :
    Renews renewed q [p] (q.renew p timer (renewed p)) := by
  have hid := (h.own p timer ht).1
  obtain ⟨q1, hq1⟩ : ∃ q1 : TimerQueue, { q with
    mTimers := q.mTimers.insert p { timer with mExpire := renewed p + timer.mInterval } } = q1 := ⟨_, rfl⟩
  have hne : ∀ y ∈ q.mActiveTimers, y ≠ p := by
    rintro y hy rfl
    exact hidle hy
  have hother : ∀ y, y ≠ p → q1.mTimers.lookup y = q.mTimers.lookup y := by
    intro y hy
    rw [← hq1]
    exact AList.lookup_insert_ne hy
  have hold : q1.keys = q.keys := by
    have hactive : q1.mActiveTimers = q.mActiveTimers := by rw [← hq1]
    rw [keys, hactive]
    exact List.map_congr_left fun y hy => expire_congr (hother y (hne y hy))
  have hself : q1.mTimers.lookup p = some { timer with mExpire := renewed p + timer.mInterval } := by
    rw [← hq1]
    exact AList.lookup_insert q.mTimers
  have hnew : q1.expire p = renewed p + timer.mInterval := expire_of_lookup hself
  have hkeys : q.renewedKeys renewed [p] = [renewed p + timer.mInterval] := by
    rw [renewedKeys, List.filterMap_cons, ht]
    dsimp only
    rw [List.filterMap_nil, List.filter_singleton, hr, cond_true, List.map_singleton, hid]
  rw [TimerQueue.renew, hq1]
  refine ⟨by rw [← hq1]; rfl, by rw [← hq1]; rfl, ?_, ?_, ?_⟩
  · intro k
    rw [mem_keys_insertActive, hold, hnew, hkeys, List.mem_singleton]
  · intro y hy
    exact hother y fun he => hy (List.mem_singleton.mpr he)
  · intro y hy hc
    rw [List.mem_singleton.mp hy] at hc
    rw [hid, decide_eq_true hc, Bool.not_true, Bool.and_false] at hr
    cases hr

theorem renews_erased {q : TimerQueue} {renewed : ℤ → ℤ} {p : ℤ} {timer : Timer}
    (ht : q.mTimers.lookup p = some timer) (hidle : p ∉ q.mActiveTimers)
    (hr : ¬(timer.mRepeat && !decide (timer.mId ∈ q.mCancelTimer)) = true) :
    Renews renewed q [p] { q with mTimers := q.mTimers.erase p } := by
  have hkeys : q.renewedKeys renewed [p] = [] := by
    rw [renewedKeys, List.filterMap_cons, ht]
    dsimp only
    rw [List.filterMap_nil, List.filter_singleton, Bool.eq_false_iff.mpr hr]
    rfl
  refine ⟨rfl, rfl, ?_, ?_, ?_⟩
  · intro k
    have hold : ({ q with mTimers := q.mTimers.erase p } : TimerQueue).keys = q.keys := by
      refine List.map_congr_left fun y hy => expire_congr (AList.lookup_erase_ne ?_)
      rintro rfl
      exact hidle hy
    rw [hold, hkeys]
    simp
  · intro y hy
    exact AList.lookup_erase_ne fun he => hy (List.mem_singleton.mpr he)
  · intro y hy _
    rw [List.mem_singleton.mp hy]
    exact AList.lookup_erase p q.mTimers

theorem Inv.renewTimers_renews {q : TimerQueue} (h : Inv q) (renewed : ℤ → ℤ) (ps : List ℤ)
    (hnodup : ps.Nodup) (hpos : ∀ p ∈ ps, 0 < p)
    (hlive : ∀ p ∈ ps, (q.mTimers.lookup p).isSome = true) (hidle : ∀ p ∈ ps, p ∉ q.mActiveTimers) :
    ∃ q', TimerQueue.renewTimers renewed ps q = .ok q' ∧ Inv q' ∧ Renews renewed q ps q' := by
  induction ps generalizing q with
  | nil =>
    refine ⟨q, rfl, h, rfl, rfl, ?_, fun _ _ => rfl, fun p hp => absurd hp List.not_mem_nil⟩
    simp [renewedKeys]
  | cons p ps ih =>
    obtain ⟨hnot, hnodup⟩ := List.nodup_cons.mp hnodup
    obtain ⟨timer, ht⟩ := Option.isSome_iff_exists.mp (hlive p List.mem_cons_self)
    have hp := hidle p List.mem_cons_self
    have hp0 := hpos p List.mem_cons_self
    have hne : ∀ y ∈ ps, y ≠ p := by
      rintro y hy rfl
      exact hnot hy
    have hpos' : ∀ y ∈ ps, 0 < y := fun y hy => hpos y (List.mem_cons_of_mem p hy)
    -- the rest of the loop starts where the turn of `p` ends
    have rest : ∀ {q1 : TimerQueue}, Inv q1 → Renews renewed q [p] q1 → (∀ y ∈ ps, y ∉ q1.mActiveTimers) →
        ∃ q', TimerQueue.renewTimers renewed ps q1 = .ok q' ∧ Inv q' ∧ Renews renewed q (p :: ps) q' := by
      intro q1 h1 hturn hidle1
      have hlive1 : ∀ y ∈ ps, (q1.mTimers.lookup y).isSome = true := by
        intro y hy
        rw [hturn.other y fun hin => hne y hy (List.mem_singleton.mp hin)]
        exact hlive y (List.mem_cons_of_mem p hy)
      obtain ⟨q', hrun, h', hrest⟩ := ih h1 hnodup hpos' hlive1 hidle1
      exact ⟨q', hrun, h', hturn.cons hnot hrest⟩
    rw [TimerQueue.renewTimers, ht]
    dsimp only
    by_cases hr : (timer.mRepeat && !decide (timer.mId ∈ q.mCancelTimer)) = true
    · obtain ⟨hset, hins⟩ := h.renew ht hp hp0 (renewed p)
      rw [if_pos hr, hset.live_eq, Bool.not_true, if_neg Bool.false_ne_true]
      refine rest hins (h.renews_again ht hp hr) fun y hy hin => ?_
      rcases mem_keyInsert hin with he | hin
      · exact hne y hy he
      · exact hidle y (List.mem_cons_of_mem p hy) hin
    · rw [if_neg hr, (h.own p timer ht).1]
      exact rest (h.eraseTimer hp) (renews_erased ht hp hr)
        fun y hy => hidle y (List.mem_cons_of_mem p hy)

theorem Inv.eraseCancelled_keys {q : TimerQueue} (h : Inv q) (ids : List ℤ) :
    ∃ q', TimerQueue.eraseCancelled ids q = .ok q' ∧ Inv q' ∧ q'.mTimerFd = q.mTimerFd ∧
      ∀ k, k ∈ q'.keys ↔ k ∈ q.keys ∧
        ∀ id ∈ ids, ∀ timer, q.mTimers.lookup id = some timer → timer.mExpire ≠ k := by
  induction ids generalizing q with
  | nil => exact ⟨q, rfl, h, rfl, fun k => by simp⟩
  | cons id ids ih =>
    obtain ⟨q', hrun, h', hfd, hkeys⟩ := ih (h.removeTimer id)
    rw [TimerQueue.eraseCancelled, h.live_eq, Bool.not_true, if_neg Bool.false_ne_true]
    refine ⟨q', hrun, h', hfd.trans (removeTimer_mTimerFd q id), fun k => ?_⟩
    rw [hkeys, h.mem_keys_removeTimer, and_assoc]
    refine and_congr_right fun _ => ⟨?_, ?_⟩
    · rintro ⟨hid, hrest⟩ y hy timer ht
      by_cases he : y = id
      · rw [he] at ht
        exact hid timer ht
      · refine hrest y ((List.mem_cons.mp hy).resolve_left he) timer ?_
        rw [lookup_removeTimer, if_neg he]
        exact ht
    · intro hall
      refine ⟨hall id List.mem_cons_self, fun y hy timer ht => ?_⟩
      rw [lookup_removeTimer] at ht
      split at ht
      · cases ht
      · exact hall y (List.mem_cons_of_mem id hy) timer ht

theorem finishHandling_armed (unread : Bool) (q : TimerQueue) (armed : ℤ) : (q.finishHandling armed).Armed unread ↔
    ∀ p ∈ q.mActiveTimers.head?, ArmsFor unread q.mTimerFd (q.expire p) armed := by
  have hactive : (q.finishHandling armed).mActiveTimers = q.mActiveTimers := rfl
  cases hact : q.mActiveTimers with
  | nil =>
    rw [List.head?_nil]
    exact ⟨fun _ p hp => absurd hp (Option.not_mem_none p), fun _ => armed_nil (hactive.trans hact)⟩
  | cons p ps =>
    have hfd : (q.finishHandling armed).mTimerFd = resetTimerFd q.mTimerFd (q.expire p) armed := by
      rw [TimerQueue.finishHandling, hact]
    have hexp : (q.finishHandling armed).expire p = q.expire p := rfl
    rw [armed_cons (hactive.trans hact), hfd, hexp, dueBy_resetTimerFd]
    simp

theorem mem_cancelledKeys {q : TimerQueue} {activeTemp : List ℤ} {k : ℤ} :
    k ∈ q.cancelledKeys activeTemp ↔
      ∃ id ∈ q.mCancelTimer, id ∉ activeTemp ∧ ∃ timer, q.mTimers.lookup id = some timer ∧ timer.mExpire = k := by
  simp only [cancelledKeys, List.mem_map, List.mem_filterMap, List.mem_filter, Bool.not_eq_true',
    decide_eq_false_iff_not]
  constructor
  · rintro ⟨timer, ⟨id, ⟨hid, hnot⟩, ht⟩, rfl⟩
    exact ⟨id, hid, hnot, timer, ht, rfl⟩
  · rintro ⟨id, hid, hnot, timer, ht, rfl⟩
    exact ⟨timer, ⟨id, ⟨hid, hnot⟩, ht⟩, rfl⟩

/-- A timer of the event that was cancelled is erased before the loop over m_cancel_timer_. -/
theorem Renews.mem_keysLeft {renewed : ℤ → ℤ} {q q2 q3 : TimerQueue} {activeTemp ids : List ℤ}
    (h : Renews renewed q activeTemp q2) (hids : ids.Perm q2.mCancelTimer)
    (hkeys : ∀ k, k ∈ q3.keys ↔ k ∈ q2.keys ∧
      ∀ id ∈ ids, ∀ timer, q2.mTimers.lookup id = some timer → timer.mExpire ≠ k) (k : ℤ) :
    k ∈ q.keysLeft renewed activeTemp ↔ k ∈ q3.keys := by
  rw [hkeys, h.keys, keysLeft, List.mem_filter, List.mem_append]
  refine and_congr_right fun _ => ?_
  rw [Bool.not_eq_true', decide_eq_false_iff_not, mem_cancelledKeys]
  constructor
  · rintro hnone id hid timer ht rfl
    rw [hids.mem_iff, h.cancelled] at hid
    by_cases hin : id ∈ activeTemp
    · rw [h.gone id hin hid] at ht
      cases ht
    · rw [h.other id hin] at ht
      exact hnone ⟨id, hid, hin, timer, ht, rfl⟩
  · rintro hall ⟨id, hid, hnot, timer, ht, he⟩
    rw [← h.cancelled, ← hids.mem_iff] at hid
    rw [← h.other id hnot] at ht
    exact hall id hid timer ht he

end TimerQueue

/-! ### Every run -/

namespace QueueState
open TimerQueue

variable {unread : Bool} {order : List ℤ → List ℤ}

theorem Running.act {s : QueueState} (h : Running s) (a : Action) :
    ∃ returned s', s.step order (.act a) = .ok (returned, s') ∧ Running s' ∧
      ((returned = true → s'.queue.Armed unread) ↔ s.StepOk unread (.act a)) := by
  cases a with
  | add interval repeated created armed =>
    obtain ⟨q, hadd, hi, he⟩ := h.inv.addTimer interval repeated created armed
    obtain ⟨q', hadd', harm⟩ := h.inv.addTimer_armed unread interval repeated created armed
    rw [hadd] at hadd'
    cases hadd'
    have hact : s.queue.act (.add interval repeated created armed) = .ok q := by
      rw [TimerQueue.act, hadd]
      rfl
    exact ⟨true, _, step_act order hact,
      ⟨hi, he.handling.trans h.handling, fun b hb => (h.batch b hb).extends he⟩,
      (forall_prop_of_true rfl).trans harm⟩
  | cancel id armed =>
    have hhandling := h.handling
    cases hb : s.batch.isSome with
    | true =>
      rw [hb] at hhandling
      have he := Extends.refl s.queue
      refine ⟨true, _, step_act order (cancelTimer_handling hhandling id armed),
        ⟨⟨h.inv.live, h.inv.sorted, h.inv.pos, h.inv.own, h.inv.next, h.inv.sentinel⟩, h.handling,
          fun b hmem => (h.batch b hmem).extends ⟨he.handling, he.kept, he.active, he.idle⟩⟩, ?_⟩
      rw [StepOk, if_pos hb]
      exact forall_prop_of_true rfl
    | false =>
      rw [hb] at hhandling
      obtain ⟨q, hcancel, hi, hidle, harm⟩ := h.inv.cancelTimer_armed unread hhandling id armed
      have hnone : s.batch = none := by
        rw [← Option.not_isSome_iff_eq_none, hb]
        decide
      refine ⟨true, _, step_act order hcancel, ⟨hi, hidle.trans hb.symm, fun b hmem => ?_⟩, ?_⟩
      · rw [hnone] at hmem
        cases hmem
      · rw [StepOk, if_neg (by rw [hb]; decide)]
        exact (forall_prop_of_true rfl).trans harm

theorem Running.enter {s : QueueState} (h : Running s) (now : ℤ) :
    ∃ returned s', s.step order (.enter now) = .ok (returned, s') ∧ Running s' ∧
      ((returned = true → s'.queue.Armed unread) ↔ s.StepOk unread (.enter now)) := by
  obtain ⟨q, b⟩ := s
  cases b with
  | some b =>
    exact ⟨false, _, rfl, h, fun _ => Or.inl rfl, fun _ hr => absurd hr Bool.false_ne_true⟩
  | none =>
    obtain ⟨hb, hsentinel, hexp⟩ := h.inv.beginHandling now
    have hactive : (q.beginHandling now).mActiveTimers = q.mActiveTimers := rfl
    have hexpired := h.inv.mem_expired_iff now
    have hdue := h.inv.head_iff (fun k => Iff.rfl)
      fun m => m ≤ now ∨ DueBy unread (readFromTimerFd q.mTimerFd) m
    rw [StepOk, EnterOk, ← hdue]
    rw [step]
    dsimp only at hb hexpired ⊢
    rw [hb.live_eq, Bool.not_true, if_neg Bool.false_ne_true]
    by_cases hempty : (q.beginHandling now).expired.isEmpty = true
    · rw [if_pos hempty]
      refine ⟨true, _, rfl, ⟨⟨hb.live, hb.sorted, hb.pos, hb.own, hb.next, hb.sentinel⟩, rfl,
        fun b hmem => absurd hmem (Option.not_mem_none b)⟩, ?_⟩
      rw [List.isEmpty_iff] at hempty
      rw [hempty] at hexpired
      -- nothing has expired and nothing sets the fd again
      have hlate : ∀ p ∈ q.mActiveTimers, ¬q.expire p ≤ now :=
        fun p hp hle => absurd ((hexpired p).mpr ⟨hp, hle⟩) List.not_mem_nil
      refine (forall_prop_of_true rfl).trans ⟨fun harm => Or.inr fun p hp => Or.inr ?_, ?_⟩
      · have hpm := List.mem_of_mem_head? hp
        rw [← hexp p hpm]
        exact harm p hp
      · rintro (hsome | hok) p hp
        · cases hsome
        · have hpm := List.mem_of_mem_head? hp
          have hfree := (hok p hp).resolve_left (hlate p hpm)
          rw [← hexp p hpm] at hfree
          exact hfree
    · rw [if_neg hempty]
      refine ⟨false, _, rfl, ⟨hb, rfl, fun b hmem => ?_⟩,
        ⟨fun _ => Or.inr fun p hp => Or.inl ?_, fun _ hr => absurd hr Bool.false_ne_true⟩⟩
      · cases hmem
        exact Batch.good_expired hb
      · obtain ⟨y, hy⟩ := List.exists_mem_of_ne_nil _ (fun he => hempty (List.isEmpty_iff.mpr he))
        obtain ⟨hyin, hyle⟩ := (hexpired y).mp hy
        obtain ⟨ps, hps⟩ := List.head?_eq_some_iff.mp hp
        have hs := h.inv.sorted
        dsimp only at hs
        rw [hps] at hs hyin
        exact le_trans (hs.head_le y hyin) hyle

theorem Running.taskEnd {s : QueueState} (h : Running s) :
    ∃ s', s.step order .taskEnd = .ok (false, s') ∧ Running s' := by
  obtain ⟨q, b⟩ := s
  rcases b with _ | ⟨activeTemp, _ | ⟨p, left⟩⟩
  · exact ⟨_, rfl, h⟩
  · exact ⟨_, rfl, h⟩
  · have hgood := h.batch _ rfl
    have hp : p ∈ q.mActiveTimers := hgood.waiting p List.mem_cons_self
    have hsome : (q.mTimers.lookup p).isNone = false := by
      rw [Option.isNone_eq_false_iff]
      exact h.inv.live p hp
    rw [step]
    dsimp only
    rw [h.inv.live_eq, hsome, Bool.not_true, Bool.or_false, if_neg Bool.false_ne_true]
    refine ⟨_, rfl, h.inv.eraseActive p, h.handling, fun b hmem => ?_⟩
    cases hmem
    exact hgood.taskEnd h.inv

theorem Running.leave (horder : ∀ ids, (order ids).Perm ids) {s : QueueState} (h : Running s)
    (renewed : ℤ → ℤ) (armed : ℤ) :
    ∃ returned s', s.step order (.leave renewed armed) = .ok (returned, s') ∧ Running s' ∧
      ((returned = true → s'.queue.Armed unread) ↔ s.StepOk unread (.leave renewed armed)) := by
  obtain ⟨q, b⟩ := s
  rcases b with _ | ⟨activeTemp, _ | ⟨p, left⟩⟩
  · exact ⟨false, _, rfl, h, fun _ b hb => absurd hb (Option.not_mem_none b),
      fun _ hr => absurd hr Bool.false_ne_true⟩
  · have hgood := h.batch _ rfl
    obtain ⟨q2, hrenew, h2, hrenews⟩ := h.inv.renewTimers_renews renewed activeTemp hgood.nodup hgood.pos
      hgood.known fun p hp => hgood.done p hp List.not_mem_nil
    obtain ⟨q3, herase, h3, hfd, hkeys⟩ := h2.eraseCancelled_keys (order q2.mCancelTimer)
    refine ⟨true, ⟨q3.finishHandling armed, none⟩, ?_,
      ⟨h3.finishHandling armed, rfl, fun b hmem => absurd hmem (Option.not_mem_none b)⟩, ?_⟩
    · rw [step]
      dsimp only
      rw [hrenew, Exec.ok_bind, herase, Exec.ok_bind, Exec.pure_eq_ok]
    · have hleft := hrenews.mem_keysLeft (horder q2.mCancelTimer) hkeys
      have hhead := h3.head_iff hleft fun m => ArmsFor unread q3.mTimerFd m armed
      rw [hfd, hrenews.fd] at hhead
      have hok : StepOk unread ⟨q, some ⟨activeTemp, []⟩⟩ (.leave renewed armed) ↔
          q.LeaveOk unread renewed activeTemp armed :=
        ⟨fun hall => hall _ rfl rfl, fun hok b hmem _ => by cases hmem; exact hok⟩
      rw [hok, LeaveOk, ← hhead, ← hrenews.fd, ← hfd]
      exact (forall_prop_of_true rfl).trans (finishHandling_armed unread q3 armed)
  · refine ⟨false, _, rfl, h, fun _ b hmem hnil => ?_, fun _ hr => absurd hr Bool.false_ne_true⟩
    cases hmem
    cases hnil

theorem Running.step (horder : ∀ ids, (order ids).Perm ids) {s : QueueState} (h : Running s)
    (a : QueueStep) :
    ∃ returned s', s.step order a = .ok (returned, s') ∧ Running s' ∧
      (s.ReturnsArmed unread order a ↔ s.StepOk unread a) := by
  have hfire : ∃ returned s', s.step order a = .ok (returned, s') ∧ Running s' ∧
      ((returned = true → s'.queue.Armed unread) ↔ s.StepOk unread a) := by
    cases a with
    | fire =>
      have he := Extends.refl s.queue
      exact ⟨false, _, rfl,
        ⟨⟨h.inv.live, h.inv.sorted, h.inv.pos, h.inv.own, h.inv.next, h.inv.sentinel⟩, h.handling,
          fun b hmem => (h.batch b hmem).extends ⟨he.handling, he.kept, he.active, he.idle⟩⟩,
        fun _ => trivial, fun _ hr => absurd hr Bool.false_ne_true⟩
    | act a => exact h.act a
    | enter now => exact h.enter now
    | taskEnd =>
      obtain ⟨s', hstep, h'⟩ : ∃ s', s.step order .taskEnd = .ok (false, s') ∧ Running s' := h.taskEnd
      exact ⟨false, s', hstep, h', fun _ => trivial, fun _ hr => absurd hr Bool.false_ne_true⟩
    | leave renewed armed => exact h.leave horder renewed armed
  obtain ⟨returned, s', hstep, h', hiff⟩ := hfire
  refine ⟨returned, s', hstep, h', ?_⟩
  rw [ReturnsArmed, hstep]
  exact hiff

theorem running_fresh : Running {} :=
  ⟨fresh_inv, rfl, fun b hmem => absurd hmem (Option.not_mem_none b)⟩

/-- In no run is a dangling pointer followed. Every call of a run returns with the fd armed
exactly when every step meets its condition, and so it is for each single step after any run. -/
theorem armed_iff_stepOk (unread : Bool) (order : List ℤ → List ℤ) (horder : ∀ ids, (order ids).Perm ids)
    (steps : List QueueStep) :
    ∃ outs s, runOps (step order) {} steps = .ok (outs, s) ∧
      (StepsOk (step order) (fun s a => s.ReturnsArmed unread order a) {} steps ↔
        StepsOk (step order) (StepOk unread) {} steps) ∧
      ∀ a, s.ReturnsArmed unread order a ↔ s.StepOk unread a := by
  have spec : ∀ s a, Running s → ∃ returned s', s.step order a = .ok (returned, s') ∧ Running s' ∧
      (s.ReturnsArmed unread order a ↔ s.StepOk unread a) := fun s a h => h.step horder a
  have keep : ∀ s a, Running s → True → ∃ returned s', s.step order a = .ok (returned, s') ∧
      Running s' := by
    intro s a h _
    obtain ⟨returned, s', hstep, h', -⟩ := spec s a h
    exact ⟨returned, s', hstep, h'⟩
  have stays : ∀ s a returned s', Running s → True → s.ReturnsArmed unread order a →
      s.step order a = .ok (returned, s') → Running s' := by
    intro s a returned s' h _ _ hstep
    obtain ⟨returned', s'', hstep', h', -⟩ := spec s a h
    rw [hstep] at hstep'
    cases hstep'
    exact h'
  have same : ∀ s a, Running s → True → (s.ReturnsArmed unread order a ↔ s.StepOk unread a) := by
    intro s a h _
    obtain ⟨-, -, -, -, hiff⟩ := spec s a h
    exact hiff
  obtain ⟨outs, s, hrun, h⟩ := run_invariant keep steps {} running_fresh (stepsOk_true _ _)
  exact ⟨outs, s, hrun, stepsOk_iff_of_invariant same stays steps {} running_fresh (stepsOk_true _ _),
    fun a => same s a h trivial⟩

/-- The fd fires and is set again for timer 2 before the event is handled, too early for
either timer. In the second event timer 2 runs, in the third one timer 1 is renewed. -/
theorem armed_iff_stepOk_events :
    ∃ outs s, runOps (step List.reverse) {} [.act (.add 10 true 0 1), .fire, .act (.add 3 false 2 4),
        .enter 4, .fire, .enter 6, .taskEnd, .leave (fun _ => 7) 8, .fire, .enter 10, .taskEnd,
        .leave (fun _ => 12) 13, .act (.cancel 1 14)] = .ok (outs, s) ∧
      (StepsOk (step List.reverse) (fun s a => s.ReturnsArmed false List.reverse a) {}
          [.act (.add 10 true 0 1), .fire, .act (.add 3 false 2 4),
        .enter 4, .fire, .enter 6, .taskEnd, .leave (fun _ => 7) 8, .fire, .enter 10, .taskEnd,
        .leave (fun _ => 12) 13, .act (.cancel 1 14)] ↔
        StepsOk (step List.reverse) (StepOk false) {} [.act (.add 10 true 0 1), .fire,
        .act (.add 3 false 2 4), .enter 4, .fire, .enter 6, .taskEnd, .leave (fun _ => 7) 8, .fire,
        .enter 10, .taskEnd, .leave (fun _ => 12) 13, .act (.cancel 1 14)]) ∧
      ∀ a, s.ReturnsArmed false List.reverse a ↔ s.StepOk false a :=
  armed_iff_stepOk false List.reverse List.reverse_perm _

example : StepsOk (step List.reverse) (StepOk false) {} [.act (.add 10 true 0 1), .fire,
    .act (.add 3 false 2 4), .enter 4, .fire, .enter 6, .taskEnd, .leave (fun _ => 7) 8, .fire,
    .enter 10, .taskEnd, .leave (fun _ => 12) 13, .act (.cancel 1 14)] := by decide

/-- A timer with interval zero on a clock that stands still leaves the fd disarmed, so does
an fd that fires one nanosecond early, and so does a timer that a task adds. -/
theorem not_armed_zero_delay :
    ¬StepsOk (step List.reverse) (fun s a => s.ReturnsArmed true List.reverse a) {}
        [.act (.add 0 false 5 5)] ∧
      ¬StepsOk (step List.reverse) (fun s a => s.ReturnsArmed true List.reverse a) {}
        [.act (.add 10 false 5 5), .fire, .enter 14] ∧
      ¬StepsOk (step List.reverse) (fun s a => s.ReturnsArmed true List.reverse a) {}
        [.act (.add 10 false 5 5), .fire, .enter 15, .act (.add 100 false 16 17)] := by
  decide

end QueueState

end DeftRpc.Timers
