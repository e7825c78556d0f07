import DeftRpc.Foundation.OneShot
import DeftRpc.Timers.LoneTimer

/-!
# Scheduler::DoUntil (Scheduler.h)

DoUntil reads the clock and makes one AddTimer call with the difference. In the loop thread
the call is made at once, from another thread it is left to the loop as a task, so that other
calls may come first. The time point is one of the clock of the timers. Time points, readings
and their differences are integers, so sums that do not fit in 64 bits are out of scope.
-/

namespace DeftRpc.Timers
open DeftRpc.Foundation

/-- A time point in ticks of the type that its duration and the nanoseconds of the clock have
in common. -/
structure TimePoint where
  count : ℤ
  perNano : ℕ

def TimePoint.Reached (timePoint : TimePoint) (now : ℤ) : Prop :=
  timePoint.count ≤ now * timePoint.perNano

instance (timePoint : TimePoint) (now : ℤ) : Decidable (timePoint.Reached now) :=
  inferInstanceAs (Decidable (timePoint.count ≤ now * timePoint.perNano))

/-- `now_clock - timePoint`. -/
def TimePoint.delta (timePoint : TimePoint) (now : ℤ) : ℤ := now * timePoint.perNano - timePoint.count

/-- duration_cast to nanoseconds, which the constructor of Timer makes of the interval. -/
def durationCast (ticks : ℤ) (perNano : ℕ) : ℤ := ticks.tdiv perNano

namespace TimerQueue

/-- DoUntil at the reading `now`; AddTimer reads the clock at `created`. -/
def doUntil (timePoint : TimePoint) (now created armed : ℤ) : Action :=
  .add (durationCast (timePoint.delta now) timePoint.perNano) false created armed

def untilExpire (timePoint : TimePoint) (now created : ℤ) : ℤ :=
  created + durationCast (timePoint.delta now) timePoint.perNano

/-! ### What is seen of a timer -/

def readings : List Call → List ℤ
  | [] => []
  | .act _ :: calls => readings calls
  | .handle e :: calls => e.now :: readings calls

/-- The reading of each event, and whether the event ran the timer `id`. -/
def history (id : ℤ) : List Call → List (List ℤ) → List (ℤ × Bool)
  | .act _ :: calls, _ :: outs => history id calls outs
  | .handle e :: calls, ran :: outs => (e.now, decide (id ∈ ran)) :: history id calls outs
  | _, _ => []

/-- Unless the timer is gone, `c` does not cancel it and gives no other timer its expiry. -/
def Undisturbed (id time : ℤ) (q : TimerQueue) (c : Call) : Prop := ¬ q.Gone id → Spares id time q c

instance (id time : ℤ) (q : TimerQueue) (c : Call) : Decidable (Undisturbed id time q c) := by
  unfold Undisturbed Gone
  infer_instance

variable (order : List ℤ → List ℤ)

theorem history_fst {id : ℤ} {calls : List Call} {outs : List (List ℤ)} {q q' : TimerQueue}
    (hrun : runOps (call order) q calls = .ok (outs, q')) :
    (history id calls outs).map Prod.fst = readings calls := by
  induction calls generalizing q outs with
  | nil => rfl
  | cons c calls ih =>
    obtain ⟨ran, q1, rest, -, hrest, rfl⟩ := runOps_cons_inv hrun
    cases c with
    | act a => exact ih hrest
    | handle e =>
      rw [history, List.map_cons, ih hrest]
      rfl

/-! ### Runs -/

theorem Resting.history_gone {q q' : TimerQueue} (h : Resting q) (horder : ∀ ids, (order ids).Perm ids)
    {id : ℤ} (hgone : q.Gone id) (time : ℤ) {calls : List Call} {outs : List (List ℤ)}
    (hrun : runOps (call order) q calls = .ok (outs, q')) : FiredAt time true (history id calls outs) := by
  induction calls generalizing q outs with
  | nil => trivial
  | cons c calls ih =>
    obtain ⟨ran, q1, rest, hcall, hrest, rfl⟩ := runOps_cons_inv hrun
    obtain ⟨ran', q1', hcall', honward⟩ := h.call_onward order horder c
    rw [hcall] at hcall'
    cases hcall'
    obtain ⟨hran, hgone1⟩ := honward.gone id hgone
    have hlater := ih honward.resting hgone1 hrest
    cases c with
    | act a => exact hlater
    | handle e =>
      rw [history, FiredAt]
      simp [hran, hlater]

theorem Pending.history_fired {q q' : TimerQueue} {id time : ℤ} (h : Pending id time q)
    (horder : ∀ ids, (order ids).Perm ids) {calls : List Call} {outs : List (List ℤ)}
    (hok : StepsOk (call order) (Undisturbed id time) q calls)
    (hrun : runOps (call order) q calls = .ok (outs, q')) :
    FiredAt time false (history id calls outs) := by
  induction calls generalizing q outs with
  | nil => trivial
  | cons c calls ih =>
    obtain ⟨ran, q1, rest, hcall, hrest, rfl⟩ := runOps_cons_inv hrun
    have hthere : ¬ q.Gone id := by
      rintro ⟨-, -, hnone⟩
      obtain ⟨t, ht, -⟩ := h.timer
      rw [hnone] at ht
      cases ht
    obtain ⟨ran', q1', hcall', hcases⟩ := h.call_cases order horder (hok.1 hthere)
    rw [hcall] at hcall'
    cases hcall'
    rcases hcases with ⟨e, rfl, hle, hran, hrest1, hgone⟩ | ⟨hlt, hran, hpending⟩
    · have hlater := hrest1.history_gone order horder hgone time hrest
      rw [history, FiredAt]
      simp [hran, hle, hlater]
    · have hlater := ih hpending (stepsOk_tail hcall hok) hrest
      cases c with
      | act a => exact hlater
      | handle e =>
        have hnow := not_le.mpr (hlt e rfl)
        rw [history, FiredAt]
        simp [hran, hnow, hlater]

theorem Resting.history_new {q q' : TimerQueue} (h : Resting q) (horder : ∀ ids, (order ids).Perm ids)
    {calls : List Call} {outs : List (List ℤ)} (hrun : runOps (call order) q calls = .ok (outs, q')) :
    Resting q' ∧ q.id ≤ q'.id ∧ ∀ id, q'.id ≤ id → ∀ x ∈ history id calls outs, x.2 = false := by
  induction calls generalizing q outs with
  | nil =>
    cases hrun
    exact ⟨h, le_refl _, fun id _ x hx => absurd hx List.not_mem_nil⟩
  | cons c calls ih =>
    obtain ⟨ran, q1, rest, hcall, hrest, rfl⟩ := runOps_cons_inv hrun
    obtain ⟨ran', q1', hcall', honward⟩ := h.call_onward order horder c
    rw [hcall] at hcall'
    cases hcall'
    obtain ⟨hrest', hle, hlater⟩ := ih honward.resting hrest
    have hle1 := honward.next_le
    refine ⟨hrest', by omega, fun id hid => ?_⟩
    cases c with
    | act a => exact hlater id hid
    | handle e =>
      have hran : id ∉ ran := by
        intro hin
        have hlt := honward.issued id hin
        omega
      rw [history, List.forall_mem_cons]
      exact ⟨decide_eq_false hran, hlater id hid⟩

theorem Resting.runOps_ok {q : TimerQueue} (h : Resting q) (horder : ∀ ids, (order ids).Perm ids)
    (calls : List Call) : ∃ outs q', runOps (call order) q calls = .ok (outs, q') := by
  have keep : ∀ q c, Resting q → True → ∃ ran q', TimerQueue.call order q c = .ok (ran, q') ∧ Resting q' := by
    intro q c hq _
    obtain ⟨ran, q', hcall, honward⟩ := hq.call_onward order horder c
    exact ⟨ran, q', hcall, honward.resting⟩
  obtain ⟨outs, q', hrun, -⟩ := run_invariant keep calls q h (stepsOk_true q calls)
  exact ⟨outs, q', hrun⟩

/-- In every run: the task of DoUntil comes on time exactly when no event at or after the time point
is handled before the AddTimer call, and the expiry that the difference gives agrees with the time
point at every reading up to the one that runs the task. -/
theorem doUntil_onTime_iff (horder : ∀ ids, (order ids).Perm ids) {earlier before after : List Call}
    {outs0 outs1 : List (List ℤ)} {q0 q : TimerQueue}
    (hearlier : runOps (call order) {} earlier = .ok (outs0, q0))
    (hbefore : runOps (call order) q0 before = .ok (outs1, q))
    {c : Call} {as bs : List Action} {timePoint : TimePoint} {now created armed : ℤ}
    (hmade : q.made c = as ++ doUntil timePoint now created armed :: bs)
    {id : ℤ} (hid : id = q.id + (addedTimers q.id as).length)
    (halone : Alone id (untilExpire timePoint now created) q)
    (hcalls : StepsOk (call order) (Undisturbed id (untilExpire timePoint now created)) q (c :: after)) :
    ∃ ran q1 outs2 q2, q.call order c = .ok (ran, q1) ∧ id ∉ ran ∧
      runOps (call order) q1 after = .ok (outs2, q2) ∧
      (OnTime timePoint.Reached false (history id before outs1 ++ history id after outs2) ↔
        (∀ now' ∈ readings before, ¬ timePoint.Reached now') ∧
          Agree timePoint.Reached (untilExpire timePoint now created) (readings after)) := by
  obtain ⟨hrest0, -, -⟩ := resting_new.history_new order horder hearlier
  obtain ⟨hrest, -, hnew⟩ := hrest0.history_new order horder hbefore
  have hnext := hrest.inv.next
  have hle : q.id ≤ id := by omega
  -- the timer is not there yet, so nothing is asked of the active timers
  have hnone : q.mTimers.lookup id = none := by
    cases hl : q.mTimers.lookup id with
    | none => rfl
    | some t => exact absurd (hrest.inv.own id t hl).2 (by omega)
  have hlone : Lone id (untilExpire timePoint now created) q := by
    refine ⟨hrest.inv, halone, fun t hl => ?_⟩
    rw [hnone] at hl
    cases hl
  have hspares := hcalls.1 fun hgone => absurd hgone.2.1 (by omega)
  have hmem : (⟨false, durationCast (timePoint.delta now) timePoint.perNano,
      untilExpire timePoint now created, id⟩ : Timer) ∈ addedTimers q.id (q.made c) := by
    rw [hmade, addedTimers_append, hid]
    exact List.mem_append_right _ List.mem_cons_self
  have hstart : ∃ ran q1, q.call order c = .ok (ran, q1) ∧ id ∉ ran ∧
      Pending id (untilExpire timePoint now created) q1 := by
    cases c with
    | act a =>
      obtain ⟨q1, hcall, hleft⟩ := hrest.act_lone order hlone hspares
      exact ⟨[], q1, hcall, List.not_mem_nil, hleft.resting, hleft.lone,
        ⟨_, hleft.added _ hmem rfl, rfl, rfl⟩, by omega⟩
    | handle e =>
      have hran : id ∉ (q.beginHandling e.now).expired := by
        intro hin
        have hactive := ((hrest.inv.mem_expired_iff e.now id).mp hin).1
        have hlt := hrest.inv.lt_of_active hactive
        omega
      obtain ⟨q1, hcall, hleft⟩ := hrest.handle_lone order horder hlone (by omega) hspares hran
      exact ⟨_, q1, hcall, hran, hleft.resting, hleft.lone, ⟨_, hleft.added _ hmem rfl, rfl, rfl⟩, by omega⟩
  obtain ⟨ran, q1, hcall, hran, hpending⟩ := hstart
  obtain ⟨outs2, q2, hrun⟩ := hpending.resting.runOps_ok order horder after
  have hfired := hpending.history_fired order horder (stepsOk_tail hcall hcalls) hrun
  refine ⟨ran, q1, outs2, q2, hcall, hran, hrun, ?_⟩
  rw [onTime_append_unfired (hnew id hle), hfired.onTime_iff, history_fst order hrun,
    ← @history_fst order id before outs1 q0 q hbefore]
  simp only [List.forall_mem_map]

/-- Posted at 10 for the time point 100, added at 30 after an event: the timer expires at -60. -/
theorem doUntil_onTime_iff_posted :
    ∃ outs0 q0 outs1 q, runOps (call List.reverse) {} [.act (.add 50 true 0 1)] = .ok (outs0, q0) ∧
      runOps (call List.reverse) q0 [.handle ⟨20, fun _ => [], fun _ => 0, 21⟩] = .ok (outs1, q) ∧
      ∃ ran q1 outs2 q2,
        q.call List.reverse (.act (doUntil ⟨100, 1⟩ 10 30 31)) = .ok (ran, q1) ∧ 2 ∉ ran ∧
        runOps (call List.reverse) q1 [.handle ⟨60, fun _ => [], fun _ => 61, 62⟩, .act (.cancel 1 70)]
          = .ok (outs2, q2) ∧
        (OnTime (TimePoint.Reached ⟨100, 1⟩) false
            (history 2 [.handle ⟨20, fun _ => [], fun _ => 0, 21⟩] outs1 ++
              history 2 [.handle ⟨60, fun _ => [], fun _ => 61, 62⟩, .act (.cancel 1 70)] outs2) ↔
          (∀ now' ∈ readings [.handle ⟨20, fun _ => [], fun _ => 0, 21⟩],
              ¬ TimePoint.Reached ⟨100, 1⟩ now') ∧
            Agree (TimePoint.Reached ⟨100, 1⟩) (untilExpire ⟨100, 1⟩ 10 30)
              (readings [.handle ⟨60, fun _ => [], fun _ => 61, 62⟩, .act (.cancel 1 70)])) := by
  have hearlier : runOps (call List.reverse) {} [.act (.add 50 true 0 1)] = .ok (_, _) := rfl
  refine ⟨_, _, _, _, hearlier, rfl, ?_⟩
  exact @doUntil_onTime_iff List.reverse List.reverse_perm _ _ _ _ _ _ _ hearlier rfl _ [] [] _ _ _ 31 rfl 2 rfl
    (by decide) (by decide)

/-- For the time point 100 at 0: the event at 10 runs the task. -/
theorem doUntil_runs_early :
    ∃ outs q, runOps (call List.reverse) {} [.act (doUntil ⟨100, 1⟩ 0 0 1),
        .handle ⟨10, fun _ => [], fun _ => 0, 11⟩] = .ok (outs, q) ∧
      ¬ OnTime (TimePoint.Reached ⟨100, 1⟩) false (history 1 [.act (doUntil ⟨100, 1⟩ 0 0 1),
        .handle ⟨10, fun _ => [], fun _ => 0, 11⟩] outs) :=
  ⟨_, _, rfl, by decide⟩

end TimerQueue

end DeftRpc.Timers
