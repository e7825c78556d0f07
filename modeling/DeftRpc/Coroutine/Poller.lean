import DeftRpc.Foundation.Word

/-!
# The poller (Poller.h, Poller.cpp)

Beside the table stands the interest set of the kernel. Every `epoll_ctl` comes
with the answer whether it may succeed; it fails anyway where the kernel says
EEXIST or ENOENT, and a failing one changes nothing. Coroutines and tasks are
known by numbers. Growing the table always succeeds.
-/

namespace DeftRpc.Coroutine
open DeftRpc.Foundation

def epollIn : ℕ := 1
def epollOut : ℕ := 4

/-- `std::variant<std::monostate, void *, Task>`. -/
inductive Runnable where
  | monostate
  | coroutine (pointer : ℕ)
  | task (name : ℕ)
  deriving DecidableEq

def Runnable.index : Runnable → ℕ
  | .monostate => 0
  | .coroutine _ => 1
  | .task _ => 2

/-- What RegisterRead and RegisterWrite are given. -/
inductive TaskOrCoroutine where
  | coroutine (pointer : ℕ)
  | task (name : ℕ)

def TaskOrCoroutine.runnable : TaskOrCoroutine → Runnable
  | .coroutine pointer => .coroutine pointer
  | .task name => .task name

structure RunnableContext where
  mFd : ℤ := -1
  mReadCallback : Runnable := .monostate
  mWriteCallback : Runnable := .monostate
  mEvent : ℕ := 0
  deriving DecidableEq

namespace RunnableContext

def isNoneEvent (c : RunnableContext) : Bool := c.mEvent == 0
def isReading (c : RunnableContext) : Bool := c.mEvent &&& epollIn != 0
def isWriting (c : RunnableContext) : Bool := c.mEvent &&& epollOut != 0

end RunnableContext

/-- One of the two callbacks of an entry. -/
inductive Direction where
  | read
  | write
  deriving DecidableEq

def Direction.event : Direction → ℕ
  | .read => epollIn
  | .write => epollOut

namespace RunnableContext

def callback (c : RunnableContext) : Direction → Runnable
  | .read => c.mReadCallback
  | .write => c.mWriteCallback

/-- `IsReading()` and `IsWriting()`. -/
def wants (c : RunnableContext) : Direction → Bool
  | .read => c.isReading
  | .write => c.isWriting

end RunnableContext

inductive EpollOp where
  | add
  | mod
  | del

/-- `throw std::logic_error(what)`. -/
inductive Outcome where
  | returned
  | thrown (what : String)
  deriving DecidableEq

structure Poller where
  mRunnableContext : List RunnableContext := List.replicate 1024 {}
  interest : ℤ → Option ℕ := fun _ => none

namespace Poller

/-- `m_runnable_context_[fd]`. -/
def context (p : Poller) (fd : ℤ) : RunnableContext := p.mRunnableContext.getD fd.toNat {}

def setContext (p : Poller) (fd : ℤ) (c : RunnableContext) : Poller :=
  { p with mRunnableContext := p.mRunnableContext.set fd.toNat c }

def size (p : Poller) : ℕ := p.mRunnableContext.length

/-- The answer is whether the call succeeds. -/
def epollCtl (p : Poller) (fd : ℤ) (op : EpollOp) (event : ℕ) (mayWork : Bool) : Bool × Poller :=
  let known := (p.interest fd).isSome
  let works := match op with
    | .add => mayWork && !known
    | .mod | .del => mayWork && known
  let mask := match op with
    | .add | .mod => some event
    | .del => none
  if works then (true, { p with interest := Function.update p.interest fd mask }) else (false, p)

/- `do { resize(size() << 1); } while (size() <= fd)`. The size at least doubles, so
`fd + 1` turns are enough. -/
def resizeLoop (fd : ℕ) : ℕ → List RunnableContext → List RunnableContext
  | 0, table => table
  | turns + 1, table =>
    let table := table ++ List.replicate table.length {}
    if table.length ≤ fd then resizeLoop fd turns table else table

def resized (p : Poller) (fd : ℤ) : Poller :=
  if int32 p.size ≤ fd then
    { p with mRunnableContext := resizeLoop fd.toNat (fd.toNat + 1) p.mRunnableContext }
  else p

def registerFd (p : Poller) (runnable : RunnableContext) (mayWork : Bool) : Outcome × Poller :=
  let fd := runnable.mFd
  if fd < 0 then (.thrown "fd should not less then zero!", p)
  else
    let p := p.resized fd
    let old := p.context fd
    let ctl := if old.isNoneEvent then EpollOp.add else EpollOp.mod
    let new := if old.isNoneEvent then runnable
      else if runnable.isReading then
        { old with mEvent := old.mEvent ||| runnable.mEvent, mReadCallback := runnable.mReadCallback }
      else if runnable.isWriting then
        { old with mEvent := old.mEvent ||| runnable.mEvent, mWriteCallback := runnable.mWriteCallback }
      else { old with mEvent := old.mEvent ||| runnable.mEvent }
    let r := (p.setContext fd new).epollCtl fd ctl new.mEvent mayWork
    if r.1 then (.returned, r.2) else (.thrown "register m_socket_ failed!", r.2)

def registerRead (p : Poller) (fd : ℤ) (taskOrCoroutine : TaskOrCoroutine) (mayWork : Bool) :
    Outcome × Poller :=
  if fd < 0 then (.thrown "fd should not less then zero!", p)
  else if int32 p.size ≤ fd ∨ epollIn &&& (p.context fd).mEvent = 0 then
    p.registerFd { mFd := fd, mReadCallback := taskOrCoroutine.runnable, mEvent := epollIn } mayWork
  else (.thrown "fd register read twice!", p)

/-- Without the check of RegisterRead; a negative fd is not given to it. -/
def registerWrite (p : Poller) (fd : ℤ) (taskOrCoroutine : TaskOrCoroutine) (mayWork : Bool) :
    Outcome × Poller :=
  if int32 p.size ≤ fd ∨ epollOut &&& (p.context fd).mEvent = 0 then
    p.registerFd { mFd := fd, mWriteCallback := taskOrCoroutine.runnable, mEvent := epollOut } mayWork
  else (.thrown "fd register read twice!", p)

def cancelRegister (p : Poller) (fd : ℤ) (mayWork : Bool) : Outcome × Poller :=
  if fd < 0 then (.thrown "fd should not less then zero!", p)
  else if (p.size : ℤ) > fd ∧ (0 ≠ (p.context fd).mWriteCallback.index ∨
      0 ≠ (p.context fd).mReadCallback.index ∨ 0 ≠ (p.context fd).mEvent ∨
      -1 ≠ (p.context fd).mFd) then
    let r := (p.setContext fd {}).epollCtl fd .del 0 mayWork
    if r.1 then (.returned, r.2) else (.thrown "Cancel register error!", r.2)
  else (.returned, p)

/-- The callbacks that EpollWait collects for the events that `epoll_wait` has returned. -/
def epollWait (p : Poller) (events : List (ℤ × ℕ)) : List (ℤ × Direction) :=
  events.flatMap fun event =>
    (if (p.context event.1).isWriting then [(event.1, .write)] else []) ++
      if (p.context event.1).isReading then [(event.1, .read)] else []

end Poller

end DeftRpc.Coroutine
