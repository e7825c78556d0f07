import DeftRpc.Foundation.Interleave

/-!
# AddDefer, Stop and the loop of Start (Scheduler.h, Scheduler.cpp)

A call of AddDefer is known by its name `i`, and so is its task; calls of Stop
are named by `k`. A thread that makes several calls one after the other is the
same as several threads whose calls happen to come one after the other, and so
is the loop thread when a coroutine or a task makes a call.
-/

namespace DeftRpc.Concurrent
open DeftRpc.Foundation

/-- `kSchedulerState`. -/
inductive SchedulerState where
  | doNothing
  | epollWait
  | handleActiveFd
  | handleExtraState
  deriving DecidableEq

/-- The states in which a caller notifies. -/
def SchedulerState.asleep : SchedulerState → Bool
  | .epollWait | .doNothing => true
  | _ => false

/-- The next access of a call of AddDefer, or of AddTask on another thread. -/
inductive DeferPc where
  | insert
  | addSize
  | loadState
  | notify
  | returned
  deriving DecidableEq

inductive StopPc where
  | loadStop
  | storeStop
  | loadState
  | notify
  | returned
  deriving DecidableEq

/-- The next access of Start; what epoll_wait reported is kept until it is handled. -/
inductive LoopPc where
  | storeRunning
  | enterEpollWait
  | loadStop
  | epollWait
  | enterHandleActiveFd (eventFd : Bool)
  | handleActiveFd (eventFd : Bool)
  | enterHandleExtraState
  | loadSize
  | dequeue
  | subSize
  | emptyTask
  | reenterEpollWait
  | loadEmpty
  | notify
  | enterDoNothing
  | stopped
  deriving DecidableEq

structure Scheduler (ι κ : Type) where
  mStop : Bool := true
  mState : SchedulerState := .doNothing
  mExtraTasks : List ι := []
  mSize : ℤ := 0
  mEventFd : ℕ := 0
  defers : ι → DeferPc := fun _ => .insert
  stops : κ → StopPc := fun _ => .loadStop
  loop : LoopPc := .storeRunning

/-- What epoll_wait returns: event fd among the ready fds, other fds only, none. -/
inductive Ready where
  | eventFd
  | otherFd
  | none

inductive SchedulerAct (ι κ : Type) where
  | addDefer (i : ι)
  | stop (k : κ)
  | loop (ready : Ready)

namespace Scheduler
variable {ι κ : Type}

/-- `m_extra_tasks_.Size()`. -/
def size (s : Scheduler ι κ) : ℤ := s.mSize % 4294967296

/-- `write` of one on a non-blocking eventfd; at its maximum it stays as it is. -/
def writeEventFd (s : Scheduler ι κ) : Scheduler ι κ :=
  { s with mEventFd := if s.mEventFd < 18446744073709551614 then s.mEventFd + 1 else s.mEventFd }

variable [DecidableEq ι] [DecidableEq κ]

def setDefer (s : Scheduler ι κ) (i : ι) (pc : DeferPc) : Scheduler ι κ :=
  { s with defers := Function.update s.defers i pc }

def setStop (s : Scheduler ι κ) (k : κ) (pc : StopPc) : Scheduler ι κ :=
  { s with stops := Function.update s.stops k pc }

def addDefer (s : Scheduler ι κ) (i : ι) : Option (Scheduler ι κ) :=
  match s.defers i with
  | .insert => some ({ s with mExtraTasks := s.mExtraTasks ++ [i] }.setDefer i .addSize)
  | .addSize => some ({ s with mSize := s.mSize + 1 }.setDefer i .loadState)
  | .loadState => some (s.setDefer i (if s.mState.asleep then .notify else .returned))
  | .notify => some (s.writeEventFd.setDefer i .returned)
  | .returned => none

def stop (s : Scheduler ι κ) (k : κ) : Option (Scheduler ι κ) :=
  match s.stops k with
  | .loadStop => some (s.setStop k (if s.mStop then .returned else .storeStop))
  | .storeStop => some ({ s with mStop := true }.setStop k .loadState)
  | .loadState => some (s.setStop k (if s.mState = .epollWait then .notify else .returned))
  | .notify => some (s.writeEventFd.setStop k .returned)
  | .returned => none

def start (s : Scheduler ι κ) (ready : Ready) : Option (Scheduler ι κ) :=
  match s.loop with
  | .storeRunning => some { s with mStop := false, loop := .enterEpollWait }
  | .enterEpollWait => some { s with mState := .epollWait, loop := .loadStop }
  | .loadStop => some { s with loop := if s.mStop then .enterDoNothing else .epollWait }
  | .epollWait =>
    match ready with
    | .eventFd => if 0 < s.mEventFd then some { s with loop := .enterHandleActiveFd true } else none
    | .otherFd => some { s with loop := .enterHandleActiveFd false }
    | .none => some { s with loop := .loadStop }
  | .enterHandleActiveFd eventFd =>
    some { s with mState := .handleActiveFd, loop := .handleActiveFd eventFd }
  | .handleActiveFd eventFd =>
    some { s with mEventFd := if eventFd then 0 else s.mEventFd, loop := .enterHandleExtraState }
  | .enterHandleExtraState => some { s with mState := .handleExtraState, loop := .loadSize }
  | .loadSize => some { s with loop := if 0 < s.size then .dequeue else .reenterEpollWait }
  | .dequeue =>
    match s.mExtraTasks with
    | [] => some { s with loop := .emptyTask }
    | _ :: tasks => some { s with mExtraTasks := tasks, loop := .subSize }
  | .subSize => some { s with mSize := s.mSize - 1, loop := .loadSize }
  | .emptyTask => none
  | .reenterEpollWait => some { s with mState := .epollWait, loop := .loadEmpty }
  | .loadEmpty => some { s with loop := if s.size = 0 then .loadStop else .notify }
  | .notify => some { s.writeEventFd with loop := .loadStop }
  | .enterDoNothing => some { s with mState := .doNothing, loop := .stopped }
  | .stopped => none

def step (s : Scheduler ι κ) : SchedulerAct ι κ → Option (Scheduler ι κ)
  | .addDefer i => s.addDefer i
  | .stop k => s.stop k
  | .loop ready => s.start ready

end Scheduler

end DeftRpc.Concurrent
