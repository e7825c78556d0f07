import Mathlib.Data.List.AList
import DeftRpc.Foundation.Exec
import DeftRpc.Foundation.KeyedSet

/-!
# The timer queue (Timer.h, Timer.cpp), assertions compiled out

Times are nanoseconds, as integers: readings and intervals whose sums do not fit
in 64 bits are out of scope. A `Timer *` is the id of the timer in m_timers_; a
pointer in m_active_timers_ whose timer is gone is a fault as soon as the set
is searched. Every clock reading comes with the call that takes it. What a
task does is a list of calls, the task itself is known by its timer's id.
-/

namespace DeftRpc.Timers
open DeftRpc.Foundation

/-- `TimeStamp::Max()`. -/
def maxTime : ℤ := 9223372036854775807

/-- `std::nano::den`. -/
def nano : ℤ := 1000000000

/-! ### The timer fd -/

structure Timespec where
  tvSec : ℤ
  tvNsec : ℤ

def howMuchFromNow (time now : ℤ) : Timespec := ⟨(time - now).tdiv nano, (time - now).tmod nano⟩

/-- The time at which a timerfd fires, if it is armed, and whether it has fired since it
was last set or read. -/
structure TimerFd where
  deadline : Option ℤ := none
  readable : Bool := false

/-- timerfd_settime; a rejected value leaves the fd as it is. -/
def settime (fd : TimerFd) (now : ℤ) (itValue : Timespec) : TimerFd :=
  if itValue.tvSec < 0 ∨ itValue.tvNsec < 0 ∨ nano ≤ itValue.tvNsec then fd
  else if itValue.tvSec = 0 ∧ itValue.tvNsec = 0 then {}
  else { deadline := some (now + itValue.tvSec * nano + itValue.tvNsec) }

def resetTimerFd (fd : TimerFd) (time now : ℤ) : TimerFd :=
  settime fd now (howMuchFromNow time now)

/-- An fd that is not readable stays as it is, the failure is only logged. -/
def readFromTimerFd (fd : TimerFd) : TimerFd := { fd with readable := false }

/-- The kernel's part: an armed fd fires once. -/
def TimerFd.fire (fd : TimerFd) : TimerFd :=
  match fd.deadline with
  | none => fd
  | some _ => { readable := true }

/-! ### The queue -/

structure Timer where
  mRepeat : Bool
  mInterval : ℤ
  mExpire : ℤ
  mId : ℤ

structure TimerQueue where
  mTimerFd : TimerFd := {}
  mHandlingEvent : Bool := false
  mTimers : AList fun _ : ℤ => Timer := ∅
  mCancelTimer : List ℤ := []
  mActiveTimers : List ℤ := []
  id : ℤ := 1

namespace TimerQueue

/-- The key of m_active_timers_. -/
def expire (q : TimerQueue) (p : ℤ) : ℤ :=
  match q.mTimers.lookup p with
  | some timer => timer.mExpire
  | none => 0

/-- No pointer of m_active_timers_ dangles. -/
def live (q : TimerQueue) : Bool := q.mActiveTimers.all fun p => (q.mTimers.lookup p).isSome

def getEarliestTime (q : TimerQueue) : ℤ :=
  match q.mActiveTimers with
  | [] => maxTime
  | p :: _ => q.expire p

/-- `m_active_timers_.insert(p)`. -/
def insertActive (q : TimerQueue) (p : ℤ) : TimerQueue :=
  { q with mActiveTimers := keyInsert q.expire p q.mActiveTimers }

/-- `m_active_timers_.erase(p)`, by key. -/
def eraseActive (q : TimerQueue) (p : ℤ) : TimerQueue :=
  { q with mActiveTimers := keyErase q.expire (q.expire p) q.mActiveTimers }

/-- `created` is the reading for the expiry, `armed` the one of HowMuchFromNow. -/
def addTimer (q : TimerQueue) (interval : ℤ) (repeated : Bool) (created armed : ℤ) :
    Exec (ℤ × TimerQueue) :=
  if !q.live then .error .badPointer
  else
    let curHeader := q.getEarliestTime
    let timer : Timer := ⟨repeated, interval, created + interval, q.id⟩
    let timers := if (q.mTimers.lookup timer.mId).isSome then q.mTimers
      else q.mTimers.insert timer.mId timer
    let q := { q with mTimers := timers, id := q.id + 1 }
    let q := q.insertActive timer.mId
    let afterHeader := q.getEarliestTime
    let q := if afterHeader < curHeader then
        { q with mTimerFd := resetTimerFd q.mTimerFd afterHeader armed }
      else q
    .ok (timer.mId, q)

/-- Find, erase from the active timers, erase. -/
def removeTimer (q : TimerQueue) (id : ℤ) : TimerQueue :=
  match q.mTimers.lookup id with
  | none => q
  | some _ => { q.eraseActive id with mTimers := q.mTimers.erase id }

def cancelTimer (q : TimerQueue) (id armed : ℤ) : Exec TimerQueue :=
  if q.mHandlingEvent then
    .ok { q with
      mCancelTimer := if id ∈ q.mCancelTimer then q.mCancelTimer else id :: q.mCancelTimer }
  else if !q.live then .error .badPointer
  else
    let curHeader := q.getEarliestTime
    let q := q.removeTimer id
    let afterHeader := q.getEarliestTime
    .ok (if curHeader < afterHeader then
        { q with mTimerFd := resetTimerFd q.mTimerFd afterHeader armed }
      else q)

/-! ### HandleExpireEvent -/

inductive Action where
  | add (interval : ℤ) (repeated : Bool) (created armed : ℤ)
  | cancel (id armed : ℤ)

def act (q : TimerQueue) : Action → Exec TimerQueue
  | .add interval repeated created armed => do
    let r ← q.addTimer interval repeated created armed
    pure r.2
  | .cancel id armed => q.cancelTimer id armed

def acts (q : TimerQueue) : List Action → Exec TimerQueue
  | [] => .ok q
  | a :: as => do
    let q ← q.act a
    q.acts as

/-- One event: the reading for the sentinel, what each task does, the reading with
which each repeated timer is renewed, and the one of HowMuchFromNow. -/
structure Event where
  now : ℤ
  task : ℤ → List Action
  renewed : ℤ → ℤ
  armed : ℤ

/-- The loop that runs the tasks. -/
def runTasks (task : ℤ → List Action) : List ℤ → TimerQueue → Exec TimerQueue
  | [], q => .ok q
  | p :: ps, q =>
    match q.mTimers.lookup p with
    | none => .error .badPointer
    | some _ => do
      let q ← q.acts (task p)
      if !q.live || (q.mTimers.lookup p).isNone then .error .badPointer
      else runTasks task ps (q.eraseActive p)

/-- The loop that renews the repeated timers and erases the others. -/
def renewTimers (renewed : ℤ → ℤ) : List ℤ → TimerQueue → Exec TimerQueue
  | [], q => .ok q
  | p :: ps, q =>
    match q.mTimers.lookup p with
    | none => .error .badPointer
    | some timer =>
      if timer.mRepeat && !decide (timer.mId ∈ q.mCancelTimer) then
        let q := { q with
          mTimers := q.mTimers.insert p { timer with mExpire := renewed p + timer.mInterval } }
        if !q.live then .error .badPointer else renewTimers renewed ps (q.insertActive p)
      else renewTimers renewed ps { q with mTimers := q.mTimers.erase timer.mId }

/-- The loop over m_cancel_timer_. -/
def eraseCancelled : List ℤ → TimerQueue → Exec TimerQueue
  | [], q => .ok q
  | id :: ids, q => if !q.live then .error .badPointer else eraseCancelled ids (q.removeTimer id)

/-- The fd is read, then `m_timers_[0].Reset()`. -/
def beginHandling (q : TimerQueue) (now : ℤ) : TimerQueue :=
  let sentinel : Timer := (q.mTimers.lookup 0).getD ⟨false, 0, now, 0⟩
  { q with
    mTimerFd := readFromTimerFd q.mTimerFd, mHandlingEvent := true,
    mTimers := q.mTimers.insert 0 { sentinel with mExpire := now + sentinel.mInterval } }

/-- The timers before the upper bound of the sentinel. -/
def expired (q : TimerQueue) : List ℤ :=
  q.mActiveTimers.takeWhile fun p => decide (q.expire p ≤ q.expire 0)

variable (order : List ℤ → List ℤ)

/-- HandleExpireEvent up to the point where it sets the fd; `order` is the order in
which m_cancel_timer_ lists its elements. -/
def beforeArming (q : TimerQueue) (e : Event) : Exec (List ℤ × TimerQueue) :=
  let q := q.beginHandling e.now
  if !q.live then .error .badPointer
  else
    let activeTemp := q.expired
    if activeTemp.isEmpty then .ok ([], q)
    else do
      let q ← runTasks e.task activeTemp q
      let q ← renewTimers e.renewed activeTemp q
      let q ← eraseCancelled (order q.mCancelTimer) q
      pure (activeTemp, q)

/-- Sets the fd for the earliest timer that is left. -/
def finishHandling (q : TimerQueue) (armed : ℤ) : TimerQueue :=
  let fd := match q.mActiveTimers with
    | [] => q.mTimerFd
    | p :: _ => resetTimerFd q.mTimerFd (q.expire p) armed
  { q with mTimerFd := fd, mCancelTimer := [], mHandlingEvent := false }

/-- Returns the timers whose tasks ran. -/
def handleExpireEvent (q : TimerQueue) (e : Event) : Exec (List ℤ × TimerQueue) := do
  let r ← q.beforeArming order e
  if r.1.isEmpty then pure ([], { r.2 with mHandlingEvent := false })
  else pure (r.1, r.2.finishHandling e.armed)

/-! ### Runs -/

inductive Call where
  | act (a : Action)
  | handle (e : Event)

/-- A call outside of callbacks; returns the timers whose tasks it ran. -/
def call (q : TimerQueue) : Call → Exec (List ℤ × TimerQueue)
  | .act a => do
    let q ← q.act a
    pure ([], q)
  | .handle e => q.handleExpireEvent order e

end TimerQueue

end DeftRpc.Timers
