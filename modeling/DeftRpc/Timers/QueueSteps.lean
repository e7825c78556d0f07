import DeftRpc.Timers.QueueInvariant

/-!
# The timer queue step by step

HandleExpireEvent is cut where a task starts and where it ends: a call that the task makes
returns long before the event does. The fd can fire between any two steps.
-/

namespace DeftRpc.Timers
open DeftRpc.Foundation

/-- The timers of active_temp, and those of them whose tasks have not returned yet. -/
structure Batch where
  activeTemp : List ℤ
  left : List ℤ

structure QueueState where
  queue : TimerQueue := {}
  batch : Option Batch := none

/-- `enter` is HandleExpireEvent up to its first task, `taskEnd` the return of a task, and
`leave` all that comes after the last one. -/
inductive QueueStep where
  | fire
  | act (a : TimerQueue.Action)
  | enter (now : ℤ)
  | taskEnd
  | leave (renewed : ℤ → ℤ) (armed : ℤ)

namespace QueueState
open TimerQueue

variable (order : List ℤ → List ℤ)

/-- Says whether a call has returned. A step that is not the event's next one does nothing. -/
def step (s : QueueState) : QueueStep → Exec (Bool × QueueState)
  | .fire => .ok (false, { s with queue := { s.queue with mTimerFd := s.queue.mTimerFd.fire } })
  | .act a => do
    let q ← s.queue.act a
    pure (true, { s with queue := q })
  | .enter now =>
    match s.batch with
    | some _ => .ok (false, s)
    | none =>
      let q := s.queue.beginHandling now
      if !q.live then .error .badPointer
      else if q.expired.isEmpty then .ok (true, ⟨{ q with mHandlingEvent := false }, none⟩)
      else .ok (false, ⟨q, some ⟨q.expired, q.expired⟩⟩)
  | .taskEnd =>
    match s.batch with
    | some ⟨activeTemp, p :: left⟩ =>
      if !s.queue.live || (s.queue.mTimers.lookup p).isNone then .error .badPointer
      else .ok (false, ⟨s.queue.eraseActive p, some ⟨activeTemp, left⟩⟩)
    | _ => .ok (false, s)
  | .leave renewed armed =>
    match s.batch with
    | some ⟨activeTemp, []⟩ => do
      let q ← renewTimers renewed activeTemp s.queue
      let q ← eraseCancelled (order q.mCancelTimer) q
      pure (true, ⟨q.finishHandling armed, none⟩)
    | _ => .ok (false, s)

/-! ### The steps of one event -/

def taskSteps (task : ℤ → List Action) (p : ℤ) : List QueueStep := (task p).map .act ++ [.taskEnd]

def eventSteps (e : Event) (ran : List ℤ) : List QueueStep :=
  .enter e.now :: (ran.flatMap (taskSteps e.task) ++ [.leave e.renewed e.armed])

theorem step_act {s : QueueState} {a : Action} {q : TimerQueue} (h : s.queue.act a = .ok q) :
    s.step order (.act a) = .ok (true, { s with queue := q }) := by
  rw [step, h, Exec.ok_bind, Exec.pure_eq_ok]

theorem acts_steps {q q' : TimerQueue} {as : List Action} (h : q.acts as = .ok q') (b : Option Batch) :
    ∃ outs, runOps (step order) ⟨q, b⟩ (as.map .act) = .ok (outs, ⟨q', b⟩) := by
  induction as generalizing q with
  | nil =>
    cases h
    exact ⟨[], rfl⟩
  | cons a as ih =>
    obtain ⟨q1, ha, has⟩ := Exec.bind_eq_ok h
    obtain ⟨outs, hrun⟩ := ih has
    exact ⟨true :: outs, runOps_cons_ok (step_act order ha) hrun⟩

theorem runTasks_steps {q q' : TimerQueue} {task : ℤ → List Action} {ps : List ℤ}
    (h : runTasks task ps q = .ok q') (activeTemp : List ℤ) :
    ∃ outs, runOps (step order) ⟨q, some ⟨activeTemp, ps⟩⟩ (ps.flatMap (taskSteps task))
      = .ok (outs, ⟨q', some ⟨activeTemp, []⟩⟩) := by
  induction ps generalizing q with
  | nil =>
    cases h
    exact ⟨[], rfl⟩
  | cons p ps ih =>
    rw [runTasks] at h
    cases hl : q.mTimers.lookup p with
    | none =>
      rw [hl] at h
      cases h
    | some timer =>
      rw [hl] at h
      obtain ⟨q1, hacts, hrest⟩ := Exec.bind_eq_ok h
      by_cases hfault : (!q1.live || (q1.mTimers.lookup p).isNone) = true
      · rw [if_pos hfault] at hrest
        cases hrest
      · rw [if_neg hfault] at hrest
        obtain ⟨outs, htask⟩ := acts_steps order hacts (some ⟨activeTemp, p :: ps⟩)
        obtain ⟨outs', hrun⟩ := ih hrest
        have hend : runOps (step order) ⟨q1, some ⟨activeTemp, p :: ps⟩⟩ [.taskEnd]
            = .ok ([false], ⟨q1.eraseActive p, some ⟨activeTemp, ps⟩⟩) := by
          refine runOps_cons_ok ?_ rfl
          rw [step]
          dsimp only
          rw [if_neg hfault]
        rw [List.flatMap_cons]
        exact ⟨_, runOps_append_ok (runOps_append_ok htask hend) hrun⟩

/-- HandleExpireEvent as a whole is its steps one after the other. -/
theorem handleExpireEvent_steps {q q' : TimerQueue} {e : Event} {ran : List ℤ}
    (h : q.handleExpireEvent order e = .ok (ran, q')) :
    ∃ outs, runOps (step order) ⟨q, none⟩ (eventSteps e ran) = .ok (outs, ⟨q', none⟩) := by
  unfold handleExpireEvent beforeArming at h
  dsimp only at h
  by_cases hlive : (!(q.beginHandling e.now).live) = true
  · rw [if_pos hlive, Exec.error_bind] at h
    cases h
  rw [if_neg hlive] at h
  by_cases hempty : (q.beginHandling e.now).expired.isEmpty = true
  · rw [if_pos hempty, Exec.ok_bind] at h
    cases h
    have henter : step order ⟨q, none⟩ (.enter e.now)
        = .ok (true, ⟨{ q.beginHandling e.now with mHandlingEvent := false }, none⟩) := by
      rw [step]
      dsimp only
      rw [if_neg hlive, if_pos hempty]
    exact ⟨[true, false], runOps_cons_ok henter rfl⟩
  · rw [if_neg hempty] at h
    obtain ⟨⟨ran', q3⟩, h, hlast⟩ := Exec.bind_eq_ok h
    obtain ⟨q1, hrun, h⟩ := Exec.bind_eq_ok h
    obtain ⟨q2, hrenew, h⟩ := Exec.bind_eq_ok h
    obtain ⟨q3', herase, h⟩ := Exec.bind_eq_ok h
    cases h
    dsimp only at hlast
    rw [if_neg hempty] at hlast
    cases hlast
    obtain ⟨outs, htasks⟩ := runTasks_steps order hrun (q.beginHandling e.now).expired
    have henter : step order ⟨q, none⟩ (.enter e.now) = .ok (false, ⟨q.beginHandling e.now,
        some ⟨(q.beginHandling e.now).expired, (q.beginHandling e.now).expired⟩⟩) := by
      rw [step]
      dsimp only
      rw [if_neg hlive, if_neg hempty]
    have hleave : step order ⟨q1, some ⟨(q.beginHandling e.now).expired, []⟩⟩ (.leave e.renewed e.armed)
        = .ok (true, ⟨q3.finishHandling e.armed, none⟩) := by
      rw [step]
      dsimp only
      rw [hrenew, Exec.ok_bind, herase, Exec.ok_bind, Exec.pure_eq_ok]
    exact ⟨_, runOps_cons_ok henter (runOps_append_ok htasks (runOps_cons_ok hleave rfl))⟩

/-! ### What every step keeps -/

/-- The timers whose tasks are left are still active, the others are not any more. -/
structure Batch.Good (b : Batch) (q : TimerQueue) : Prop where
  nodup : b.activeTemp.Nodup
  pos : ∀ p ∈ b.activeTemp, 0 < p
  known : ∀ p ∈ b.activeTemp, (q.mTimers.lookup p).isSome = true
  suffix : b.left <:+ b.activeTemp
  waiting : ∀ p ∈ b.left, p ∈ q.mActiveTimers
  done : ∀ p ∈ b.activeTemp, p ∉ b.left → p ∉ q.mActiveTimers

structure Running (s : QueueState) : Prop where
  inv : Inv s.queue
  handling : s.queue.mHandlingEvent = s.batch.isSome
  batch : ∀ b ∈ s.batch, Batch.Good b s.queue

theorem Batch.Good.extends {b : Batch} {q q' : TimerQueue} (h : Batch.Good b q) (he : Extends q q') :
    Batch.Good b q' := by
  refine ⟨h.nodup, h.pos, ?_, h.suffix, fun p hp => he.active p (h.waiting p hp), ?_⟩
  · intro p hp
    obtain ⟨timer, ht⟩ := Option.isSome_iff_exists.mp (h.known p hp)
    rw [he.kept p timer ht]
    rfl
  · intro p hp hdone
    obtain ⟨timer, ht⟩ := Option.isSome_iff_exists.mp (h.known p hp)
    exact he.idle p timer ht (h.done p hp hdone)

theorem Batch.good_expired {q : TimerQueue} (h : Inv q) : Batch.Good ⟨q.expired, q.expired⟩ q := by
  have hsub : ∀ p ∈ q.expired, p ∈ q.mActiveTimers := fun p hp => (List.takeWhile_sublist _).subset hp
  have hnodup : q.mActiveTimers.Nodup := h.sorted.imp fun hlt heq => absurd (heq ▸ hlt) (lt_irrefl _)
  exact ⟨hnodup.sublist (List.takeWhile_sublist _), fun p hp => h.pos p (hsub p hp),
    fun p hp => h.live p (hsub p hp), List.suffix_rfl, hsub, fun p hp hdone => absurd hp hdone⟩

theorem Batch.Good.taskEnd {q : TimerQueue} (hq : Inv q) {activeTemp left : List ℤ} {p : ℤ}
    (h : Batch.Good ⟨activeTemp, p :: left⟩ q) : Batch.Good ⟨activeTemp, left⟩ (q.eraseActive p) := by
  have hp : p ∈ q.mActiveTimers := h.waiting p List.mem_cons_self
  have hnot : p ∉ left := (List.nodup_cons.mp (h.nodup.sublist h.suffix.sublist)).1
  refine ⟨h.nodup, h.pos, h.known, (List.suffix_cons p left).trans h.suffix, ?_, ?_⟩
  · intro y hy
    refine hq.mem_eraseActive hp (h.waiting y (List.mem_cons_of_mem p hy)) ?_
    intro he
    rw [he] at hy
    exact hnot hy
  · intro y hy hdone hin
    by_cases he : y = p
    · rw [he] at hin
      exact hq.not_mem_eraseActive p hin
    · refine h.done y hy ?_ (mem_of_mem_keyErase hin)
      exact fun hmem => (List.mem_cons.mp hmem).elim he hdone

end QueueState

end DeftRpc.Timers
