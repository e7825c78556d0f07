import DeftRpc.Concurrent.Scheduler

/-!
# Starting and stopping the threads of schedulers (Scheduler.h, Scheduler.cpp)

A condition variable may wake up without a notification, so `notify_one` is no step
of its own. A mutex is held or not: only its holder comes to a step that unlocks it.
-/

namespace DeftRpc.Concurrent
open DeftRpc.Foundation

/-! ### The stop flag of one scheduler -/

/-- The call has gone past its load of `m_stop_`. -/
def StopPc.loaded : StopPc → Bool
  | .loadStop => false
  | _ => true

/-- `m_stop_` is true for this call. -/
def StopPc.stored : StopPc → Bool
  | .loadState | .notify | .returned => true
  | _ => false

/-- Between two tests of the while loop. -/
def LoopPc.inside : LoopPc → Bool
  | .storeRunning | .enterEpollWait | .enterDoNothing | .stopped => false
  | _ => true

namespace Scheduler
variable {ι κ : Type}

/-- Stop loads `m_stop_` after Start has stored false. -/
def StopAfterStart (s : Scheduler ι κ) (k : κ) : Prop := s.stops k = .loadStop → s.loop ≠ .storeRunning

instance (s : Scheduler ι κ) (k : κ) : Decidable (s.StopAfterStart k) := by
  unfold StopAfterStart
  infer_instance

structure StopInv (s : Scheduler ι κ) : Prop where
  loaded : ∀ k, (s.stops k).loaded = true → s.loop ≠ .storeRunning
  stored : ∀ k, (s.stops k).stored = true → s.mStop = true

theorem stopInv_start : StopInv ({} : Scheduler ι κ) := by
  constructor
  · intro k h
    cases h
  · intro k h
    cases h

/-- The loop neither comes back to its first store nor resets the flag again. -/
theorem start_frame {s s' : Scheduler ι κ} {ready : Ready} (h : s.start ready = some s') :
    s'.stops = s.stops ∧ s'.loop ≠ .storeRunning ∧ (s.loop ≠ .storeRunning → s'.mStop = s.mStop) := by
  unfold start at h
  cases hpc : s.loop with
  | storeRunning =>
    simp only [hpc, Option.some.injEq] at h
    subst h
    exact ⟨rfl, by simp, fun hne => absurd rfl hne⟩
  | enterEpollWait | enterHandleActiveFd | handleActiveFd | enterHandleExtraState | subSize
  | reenterEpollWait | notify | enterDoNothing =>
    simp only [hpc, Option.some.injEq] at h
    subst h
    exact ⟨rfl, by simp, fun _ => rfl⟩
  | loadStop | loadSize | loadEmpty =>
    simp only [hpc, Option.some.injEq] at h
    subst h
    refine ⟨rfl, ?_, fun _ => rfl⟩
    dsimp only
    split <;> decide
  | epollWait =>
    cases ready with
    | eventFd =>
      simp only [hpc] at h
      obtain ⟨-, h⟩ := Option.ite_none_right_eq_some.mp h
      cases h
      exact ⟨rfl, by simp, fun _ => rfl⟩
    | otherFd | none =>
      simp only [hpc, Option.some.injEq] at h
      subst h
      exact ⟨rfl, by simp, fun _ => rfl⟩
  | dequeue =>
    simp only [hpc] at h
    split at h
    · cases h
      exact ⟨rfl, by simp, fun _ => rfl⟩
    · cases h
      exact ⟨rfl, by simp, fun _ => rfl⟩
  | emptyTask | stopped =>
    simp only [hpc] at h
    cases h

theorem StopInv.start {s s' : Scheduler ι κ} (hi : StopInv s) {ready : Ready}
    (h : s.start ready = some s') : StopInv s' := by
  obtain ⟨hstops, hloop, hflag⟩ := start_frame h
  constructor
  · intro k _
    exact hloop
  · intro k hk
    rw [hstops] at hk
    have hloaded : (s.stops k).loaded = true := by
      cases hpc : s.stops k <;> rw [hpc] at hk <;> first | rfl | cases hk
    rw [hflag (hi.loaded k hloaded)]
    exact hi.stored k hk

variable [DecidableEq ι] [DecidableEq κ]

omit [DecidableEq κ] in
theorem StopInv.addDefer {s s' : Scheduler ι κ} (hi : StopInv s) {i : ι}
    (h : s.addDefer i = some s') : StopInv s' := by
  have hsame : s'.stops = s.stops ∧ s'.loop = s.loop ∧ s'.mStop = s.mStop := by
    unfold Scheduler.addDefer at h
    split at h <;> cases h <;> exact ⟨rfl, rfl, rfl⟩
  obtain ⟨hstops, hloop, hflag⟩ := hsame
  constructor
  · rw [hstops, hloop]
    exact hi.loaded
  · rw [hstops, hflag]
    exact hi.stored

omit [DecidableEq ι] in
theorem StopInv.move {s : Scheduler ι κ} (hi : StopInv s) {k : κ} {pc : StopPc} {mStop : Bool}
    {mEventFd : ℕ} (hloop : s.loop ≠ .storeRunning) (hset : s.mStop = true → mStop = true)
    (hpc : pc.stored = true → mStop = true) :
    StopInv (({ s with mStop := mStop, mEventFd := mEventFd } : Scheduler ι κ).setStop k pc) := by
  constructor
  · intro _ _
    exact hloop
  · refine forall_update (P := fun _ pc => pc.stored = true → s.mStop = true)
      (Q := fun _ (pc : StopPc) => pc.stored = true → mStop = true) hpc ?_ hi.stored
    intro j _ hj hs
    exact hset (hj hs)

omit [DecidableEq ι] in
theorem StopInv.stop {s s' : Scheduler ι κ} (hi : StopInv s) {k : κ} (hok : s.StopAfterStart k)
    (h : s.stop k = some s') : StopInv s' := by
  have hloop : s.loop ≠ .storeRunning := by
    by_cases hpc : s.stops k = .loadStop
    · exact hok hpc
    · apply hi.loaded k
      cases hk : s.stops k <;> first | rfl | exact absurd hk hpc
  unfold Scheduler.stop at h
  cases hpc : s.stops k with
  | loadStop =>
    simp only [hpc, Option.some.injEq] at h
    subst h
    apply hi.move hloop id
    intro hs
    by_contra hflag
    rw [if_neg hflag] at hs
    cases hs
  | storeStop =>
    simp only [hpc, Option.some.injEq] at h
    subst h
    exact hi.move hloop (fun _ => rfl) (fun _ => rfl)
  | loadState =>
    simp only [hpc, Option.some.injEq] at h
    subst h
    have hflag := hi.stored k (by rw [hpc]; rfl)
    exact hi.move hloop id (fun _ => hflag)
  | notify =>
    simp only [hpc, Option.some.injEq] at h
    subst h
    have hflag := hi.stored k (by rw [hpc]; rfl)
    exact hi.move hloop id (fun _ => hflag)
  | returned =>
    simp only [hpc] at h
    cases h

/-- A completed Stop is not lost: the loop finds the flag set. -/
def StopKept (s : Scheduler ι κ) : Prop :=
  ∀ k, s.stops k = .returned → s.loop.inside = true → s.mStop = true

omit [DecidableEq ι] [DecidableEq κ] in
theorem StopInv.kept {s : Scheduler ι κ} (hi : StopInv s) : s.StopKept := by
  intro k hk _
  exact hi.stored k (by rw [hk]; rfl)

end Scheduler

/-! ### SchedulerThread -/

/-- SchedulerThread::Start. -/
inductive StarterPc where
  | create
  | lock
  | test
  | wait
  | unlock
  | returned
  deriving DecidableEq

/-- ThreadFunction. -/
inductive WorkerPc where
  | none
  | prepare
  | lock
  | publish
  | unlock
  | start
  | cleanup
  | relock
  | unpublish
  | reunlock
  | returned
  deriving DecidableEq

/-- SchedulerThread::Stop. -/
inductive StopperPc where
  | lock
  | test
  | stop
  | testNull
  | wait
  | unlock
  | join
  | unlockNull
  | returned
  deriving DecidableEq

structure SchedulerThread (ι κ : Type) where
  mMutex : Bool := false
  mScheduler : Bool := false
  scheduler : Scheduler ι κ := {}
  starter : StarterPc := .create
  worker : WorkerPc := .none
  stoppers : κ → StopperPc := fun _ => .lock

inductive ThreadAct (ι κ : Type) where
  | starter
  | worker (ready : Ready)
  | stopper (k : κ)
  | addDefer (i : ι)

namespace SchedulerThread
variable {ι κ : Type}

def startStep (s : SchedulerThread ι κ) : Option (SchedulerThread ι κ) :=
  match s.starter with
  | .create => some { s with worker := .prepare, starter := .lock }
  | .lock | .wait => if s.mMutex then none else some { s with mMutex := true, starter := .test }
  | .test =>
    if s.mScheduler then some { s with starter := .unlock }
    else some { s with mMutex := false, starter := .wait }
  | .unlock => some { s with mMutex := false, starter := .returned }
  | .returned => none

def workerStep (s : SchedulerThread ι κ) (ready : Ready) : Option (SchedulerThread ι κ) :=
  match s.worker with
  | .none => none
  | .prepare => some { s with worker := .lock }
  | .lock => if s.mMutex then none else some { s with mMutex := true, worker := .publish }
  | .publish => some { s with mScheduler := true, worker := .unlock }
  | .unlock => some { s with mMutex := false, worker := .start }
  | .start =>
    if s.scheduler.loop = .stopped then some { s with worker := .cleanup }
    else (s.scheduler.start ready).map fun scheduler => { s with scheduler := scheduler }
  | .cleanup => some { s with worker := .relock }
  | .relock => if s.mMutex then none else some { s with mMutex := true, worker := .unpublish }
  | .unpublish => some { s with mScheduler := false, worker := .reunlock }
  | .reunlock => some { s with mMutex := false, worker := .returned }
  | .returned => none

variable [DecidableEq ι] [DecidableEq κ]

def setStopper (s : SchedulerThread ι κ) (k : κ) (pc : StopperPc) : SchedulerThread ι κ :=
  { s with stoppers := Function.update s.stoppers k pc }

/-- Stop is called after Start has returned. -/
def stopStep (s : SchedulerThread ι κ) (k : κ) : Option (SchedulerThread ι κ) :=
  match s.stoppers k with
  | .lock =>
    if s.starter ≠ .returned ∨ s.mMutex then none else some ({ s with mMutex := true }.setStopper k .test)
  | .test => some (s.setStopper k (if s.mScheduler then .stop else .unlockNull))
  | .stop =>
    if s.scheduler.stops k = .returned then some (s.setStopper k .testNull)
    else (s.scheduler.stop k).map fun scheduler => { s with scheduler := scheduler }
  | .testNull =>
    if s.mScheduler then some ({ s with mMutex := false }.setStopper k .wait)
    else some (s.setStopper k .unlock)
  | .wait => if s.mMutex then none else some ({ s with mMutex := true }.setStopper k .testNull)
  | .unlock => some ({ s with mMutex := false }.setStopper k .join)
  | .join => if s.worker = .returned then some (s.setStopper k .returned) else none
  | .unlockNull => some ({ s with mMutex := false }.setStopper k .returned)
  | .returned => none

def step (s : SchedulerThread ι κ) : ThreadAct ι κ → Option (SchedulerThread ι κ)
  | .starter => s.startStep
  | .worker ready => s.workerStep ready
  | .stopper k => s.stopStep k
  | .addDefer i => (s.scheduler.addDefer i).map fun scheduler => { s with scheduler := scheduler }

/-- The call of Scheduler::Stop that is made here comes after the store of false. -/
def StopAfterStart (s : SchedulerThread ι κ) : ThreadAct ι κ → Prop
  | .stopper k => s.stoppers k = .stop → s.scheduler.StopAfterStart k
  | .starter => True
  | .worker _ => True
  | .addDefer _ => True

instance (s : SchedulerThread ι κ) : ∀ a, Decidable (s.StopAfterStart a)
  | .stopper k => inferInstanceAs (Decidable (s.stoppers k = .stop → s.scheduler.StopAfterStart k))
  | .starter | .worker _ | .addDefer _ => .isTrue trivial

omit [DecidableEq ι] [DecidableEq κ] in
theorem startStep_scheduler {s s' : SchedulerThread ι κ} (h : s.startStep = some s') :
    s'.scheduler = s.scheduler := by
  unfold startStep at h
  split at h
  case h_2 | h_3 =>
    obtain ⟨-, h⟩ := Option.ite_none_left_eq_some.mp h
    cases h
    rfl
  case h_4 => split at h <;> cases h <;> rfl
  all_goals
    cases h
    try rfl

omit [DecidableEq ι] [DecidableEq κ] in
theorem stopInv_workerStep {s s' : SchedulerThread ι κ} (hi : s.scheduler.StopInv) {ready : Ready}
    (h : s.workerStep ready = some s') : s'.scheduler.StopInv := by
  unfold workerStep at h
  cases hpc : s.worker with
  | none | returned =>
    simp only [hpc] at h
    cases h
  | prepare | publish | unlock | cleanup | unpublish | reunlock =>
    simp only [hpc, Option.some.injEq] at h
    subst h
    exact hi
  | lock | relock =>
    simp only [hpc] at h
    obtain ⟨-, h⟩ := Option.ite_none_left_eq_some.mp h
    cases h
    exact hi
  | start =>
    simp only [hpc] at h
    split at h
    · cases h
      exact hi
    · obtain ⟨scheduler, hstart, rfl⟩ := Option.map_eq_some_iff.mp h
      exact hi.start hstart

omit [DecidableEq ι] in
theorem stopInv_stopStep {s s' : SchedulerThread ι κ} (hi : s.scheduler.StopInv) {k : κ}
    (hok : s.stoppers k = .stop → s.scheduler.StopAfterStart k) (h : s.stopStep k = some s') :
    s'.scheduler.StopInv := by
  unfold stopStep at h
  cases hpc : s.stoppers k with
  | lock | wait =>
    simp only [hpc] at h
    obtain ⟨-, h⟩ := Option.ite_none_left_eq_some.mp h
    cases h
    exact hi
  | test | unlock | unlockNull =>
    simp only [hpc, Option.some.injEq] at h
    subst h
    exact hi
  | stop =>
    simp only [hpc] at h
    split at h
    · cases h
      exact hi
    · obtain ⟨scheduler, hstop, rfl⟩ := Option.map_eq_some_iff.mp h
      exact hi.stop (hok hpc) hstop
  | testNull =>
    simp only [hpc] at h
    split at h <;> cases h <;> exact hi
  | join =>
    simp only [hpc] at h
    obtain ⟨-, h⟩ := Option.ite_none_right_eq_some.mp h
    cases h
    exact hi
  | returned =>
    simp only [hpc] at h
    cases h

theorem stopInv_step (s : SchedulerThread ι κ) (a : ThreadAct ι κ) (s' : SchedulerThread ι κ)
    (hi : s.scheduler.StopInv) (hok : s.StopAfterStart a) (h : s.step a = some s') :
    s'.scheduler.StopInv := by
  cases a with
  | starter =>
    rw [startStep_scheduler h]
    exact hi
  | worker ready => exact stopInv_workerStep hi h
  | stopper k => exact stopInv_stopStep hi hok h
  | addDefer i =>
    obtain ⟨scheduler, hdefer, rfl⟩ := Option.map_eq_some_iff.mp h
    exact hi.addDefer hdefer

end SchedulerThread

/-! ### MultiThreadScheduler -/

/-- `started` is the entry of `m_schedulers_` that Start has come to, `stopped` the one that a
call of Stop has come to. -/
structure MultiThreadScheduler (ι κ : Type) where
  base : Scheduler ι κ := {}
  mSchedulers : ℕ → SchedulerThread ι κ := fun _ => {}
  started : ℕ := 0
  stopped : κ → ℕ := fun _ => 0

inductive MultiAct (ι κ : Type) where
  | start (ready : Ready)
  | worker (w : ℕ) (ready : Ready)
  | stop (k : κ)
  | addDefer (i : ι)
  | addDeferTo (w : ℕ) (i : ι)

namespace MultiThreadScheduler
variable {ι κ : Type} [DecidableEq ι] [DecidableEq κ]

def setThread (s : MultiThreadScheduler ι κ) (w : ℕ) (thread : SchedulerThread ι κ) :
    MultiThreadScheduler ι κ :=
  { s with mSchedulers := Function.update s.mSchedulers w thread }

/-- `n` is the size of `m_schedulers_`; Stop is called after they have all been started. -/
def step (n : ℕ) (s : MultiThreadScheduler ι κ) : MultiAct ι κ → Option (MultiThreadScheduler ι κ)
  | .start ready =>
    if s.started < n then
      if (s.mSchedulers s.started).starter = .returned then some { s with started := s.started + 1 }
      else ((s.mSchedulers s.started).step .starter).map (s.setThread s.started)
    else (s.base.start ready).map fun base => { s with base := base }
  | .worker w ready => ((s.mSchedulers w).step (.worker ready)).map (s.setThread w)
  | .stop k =>
    if s.started < n then none
    else if s.stopped k < n then
      if (s.mSchedulers (s.stopped k)).stoppers k = .returned then
        some { s with stopped := Function.update s.stopped k (s.stopped k + 1) }
      else ((s.mSchedulers (s.stopped k)).step (.stopper k)).map (s.setThread (s.stopped k))
    else (s.base.stop k).map fun base => { s with base := base }
  | .addDefer i => (s.base.addDefer i).map fun base => { s with base := base }
  | .addDeferTo w i => ((s.mSchedulers w).step (.addDefer i)).map (s.setThread w)

def StopAfterStart (n : ℕ) (s : MultiThreadScheduler ι κ) : MultiAct ι κ → Prop
  | .stop k =>
    if s.stopped k < n then (s.mSchedulers (s.stopped k)).StopAfterStart (.stopper k)
    else s.base.StopAfterStart k
  | .start _ => True
  | .worker _ _ => True
  | .addDefer _ => True
  | .addDeferTo _ _ => True

instance (n : ℕ) (s : MultiThreadScheduler ι κ) : ∀ a, Decidable (s.StopAfterStart n a)
  | .stop k => by
    simp only [StopAfterStart]
    split <;> infer_instance
  | .start _ | .worker _ _ | .addDefer _ | .addDeferTo _ _ => .isTrue trivial

def StopInv (s : MultiThreadScheduler ι κ) : Prop :=
  s.base.StopInv ∧ ∀ w, (s.mSchedulers w).scheduler.StopInv

theorem StopInv.setThread {s s' : MultiThreadScheduler ι κ} (hi : s.StopInv) (w : ℕ) (a : ThreadAct ι κ)
    (hok : (s.mSchedulers w).StopAfterStart a)
    (h : ((s.mSchedulers w).step a).map (s.setThread w) = some s') : s'.StopInv := by
  obtain ⟨thread, hstep, rfl⟩ := Option.map_eq_some_iff.mp h
  refine ⟨hi.1, ?_⟩
  refine forall_update (P := fun _ (thread : SchedulerThread ι κ) => thread.scheduler.StopInv)
    (Q := fun _ (thread : SchedulerThread ι κ) => thread.scheduler.StopInv) ?_ (fun _ _ h => h) hi.2
  exact SchedulerThread.stopInv_step _ a thread (hi.2 w) hok hstep

theorem stopInv_step (n : ℕ) (s : MultiThreadScheduler ι κ) (a : MultiAct ι κ)
    (s' : MultiThreadScheduler ι κ) (hi : s.StopInv) (hok : s.StopAfterStart n a)
    (h : s.step n a = some s') : s'.StopInv := by
  cases a with
  | start ready =>
    simp only [step] at h
    split at h
    · split at h
      · cases h
        exact hi
      · exact hi.setThread s.started .starter trivial h
    · obtain ⟨base, hstart, rfl⟩ := Option.map_eq_some_iff.mp h
      exact ⟨hi.1.start hstart, hi.2⟩
  | worker w ready => exact hi.setThread w (.worker ready) trivial h
  | stop k =>
    simp only [step] at h
    obtain ⟨-, h⟩ := Option.ite_none_left_eq_some.mp h
    simp only [StopAfterStart] at hok
    split at h
    · next hlt =>
      rw [if_pos hlt] at hok
      split at h
      · cases h
        exact hi
      · exact hi.setThread (s.stopped k) (.stopper k) hok h
    · next hge =>
      rw [if_neg hge] at hok
      obtain ⟨base, hstop, rfl⟩ := Option.map_eq_some_iff.mp h
      exact ⟨hi.1.stop hok hstop, hi.2⟩
  | addDefer i =>
    obtain ⟨base, hdefer, rfl⟩ := Option.map_eq_some_iff.mp h
    exact ⟨hi.1.addDefer hdefer, hi.2⟩
  | addDeferTo w i => exact hi.setThread w (.addDefer i) trivial h

end MultiThreadScheduler

/-! ### Every interleaving -/

/-- In every interleaving, of one SchedulerThread and of a MultiThreadScheduler, in which every
Scheduler::Stop loads the flag after Scheduler::Start has stored false, no stop request is lost. -/
theorem stop_kept {ι κ : Type} [DecidableEq ι] [DecidableEq κ] :
    (∀ (as : List (ThreadAct ι κ)) (s : SchedulerThread ι κ),
      GoodSteps SchedulerThread.step SchedulerThread.StopAfterStart {} as →
        interleave SchedulerThread.step {} as = some s → s.scheduler.StopKept) ∧
    ∀ (n : ℕ) (as : List (MultiAct ι κ)) (s : MultiThreadScheduler ι κ),
      GoodSteps (MultiThreadScheduler.step n) (MultiThreadScheduler.StopAfterStart n) {} as →
        interleave (MultiThreadScheduler.step n) {} as = some s →
          s.base.StopKept ∧ ∀ w, (s.mSchedulers w).scheduler.StopKept := by
  constructor
  · intro as s hok h
    have hi := goodSteps_invariant (I := fun s : SchedulerThread ι κ => s.scheduler.StopInv)
      SchedulerThread.stopInv_step as {} s Scheduler.stopInv_start hok h
    exact hi.kept
  · intro n as s hok h
    have hi := goodSteps_invariant (MultiThreadScheduler.stopInv_step n) as {} s
      ⟨Scheduler.stopInv_start, fun _ => Scheduler.stopInv_start⟩ hok h
    exact ⟨hi.1.kept, fun w => (hi.2 w).kept⟩

/-- Start of a SchedulerThread up to its return. -/
def startReturned : List (ThreadAct ℕ ℕ) :=
  [.starter, .worker .none, .worker .none, .worker .none, .worker .none, .starter, .starter, .starter]

theorem stop_kept_two :
    (∃ s : SchedulerThread ℕ ℕ, interleave SchedulerThread.step {}
        (startReturned ++ List.replicate 3 (.worker .none) ++ List.replicate 6 (.stopper 0)) = some s ∧
      (s.scheduler.stops 0, s.scheduler.loop, s.scheduler.mStop) = (.returned, .epollWait, true) ∧
      s.scheduler.StopKept) ∧
    ∃ s : MultiThreadScheduler ℕ ℕ, interleave (MultiThreadScheduler.step 0) {}
        [.start .none, .start .none, .start .none, .stop 0, .stop 0, .stop 0, .stop 0] = some s ∧
      (s.base.stops 0, s.base.loop, s.base.mStop) = (.returned, .epollWait, true) ∧
      s.base.StopKept ∧ ∀ w, (s.mSchedulers w).scheduler.StopKept := by
  have hone : (interleave SchedulerThread.step {}
      (startReturned ++ List.replicate 3 (.worker .none) ++ List.replicate 6 (.stopper 0))).map
        (fun s => (s.scheduler.stops 0, s.scheduler.loop, s.scheduler.mStop)) =
      some (.returned, .epollWait, true) := by
    decide +kernel
  have hmulti : (interleave (MultiThreadScheduler.step (ι := ℕ) (κ := ℕ) 0) {}
      [.start .none, .start .none, .start .none, .stop 0, .stop 0, .stop 0, .stop 0]).map
        (fun s => (s.base.stops 0, s.base.loop, s.base.mStop)) =
      some (.returned, .epollWait, true) := by
    decide +kernel
  obtain ⟨s, hs, he⟩ := Option.map_eq_some_iff.mp hone
  obtain ⟨m, hm, hme⟩ := Option.map_eq_some_iff.mp hmulti
  exact ⟨⟨s, hs, he, stop_kept.1 _ s (by decide +kernel) hs⟩,
    ⟨m, hm, hme, stop_kept.2 0 _ m (by decide +kernel) hm⟩⟩

/-- Stop comes between the publication of the scheduler and its first store: the flag still has
its first value true, and the request does nothing. -/
theorem stop_lost_before_start :
    (interleave SchedulerThread.step {}
      (startReturned ++ List.replicate 4 (.stopper 0) ++ List.replicate 3 (.worker .none))).map
        (fun s => (s.stoppers 0, s.scheduler.stops 0, s.scheduler.loop, s.scheduler.mStop)) =
      some (.testNull, .returned, .epollWait, false) := by
  decide +kernel

end DeftRpc.Concurrent
