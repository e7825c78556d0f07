import DeftRpc.Foundation.Interleave
import DeftRpc.Log.LogFormatter

/-!
# Threads that log (Log.h:16-30, LoggerBase.h:31-52, LogAppender.cpp:30-42, SpanMutex.h:19-27)

DoLog hands its record to one appender after the other; Append holds the SpanMutex of its appender
for a whole Format. The loggers are set up before the first thread logs. A failed exchange, a
spurious one included, leaves everything as it is. A run ends with a pointer that is null or a
time without a value.
-/

namespace DeftRpc.Log
open DeftRpc.Foundation

/-- static_cast<std::uint16_t> -/
def LogLevel.toNat : LogLevel → ℕ
  | .none => 0
  | .debug => 1
  | .info => 2
  | .warning => 3
  | .error => 4
  | .fatal => 5

/-- ConsoleLogAppender, or FileLogAppender with `m_of_stream_.is_open()`. -/
inductive AppenderKind where
  | console
  | file (isOpen : Bool)
  deriving DecidableEq

structure LogAppender where
  kind : AppenderKind
  mFormatter : Option (List FormatterItem)
  mAppenderLevel : LogLevel := .debug
  deriving DecidableEq

def LogAppender.valid (appender : LogAppender) : Bool :=
  match appender.kind with
  | .console => appender.mFormatter.isSome
  | .file isOpen => isOpen && appender.mFormatter.isSome

def LogAppender.recordValid (appender : LogAppender) (record : LogRecord) : Bool :=
  decide (appender.mAppenderLevel.toNat ≤ record.mLevel.toNat) && appender.valid

/-- `none` is a null pointer. -/
structure LoggerBase where
  mLevel : LogLevel := .none
  mAppenders : List (Option LogAppender) := []
  deriving DecidableEq

/-- `AddLogAppender(LogAppender *)`: the resize adds an element of its own. -/
def LoggerBase.addLogAppender (logger : LoggerBase) (appender : Option LogAppender) : LoggerBase :=
  { logger with mAppenders := logger.mAppenders ++ [none] ++ [appender] }

/-- `AddLogAppender(const std::vector<LogAppender *> &)` -/
def LoggerBase.addLogAppenders (logger : LoggerBase) (appender : List (Option LogAppender)) : LoggerBase :=
  { logger with mAppenders := logger.mAppenders ++ appender }

/-- CLSN_LEVEL_CHECK -/
def LoggerBase.levelCheck (logger : LoggerBase) (level : LogLevel) : Bool :=
  decide (logger.mLevel.toNat < level.toNat)

/-- `std::cout`, or the `m_of_stream_` of an appender. -/
inductive Stream where
  | cout
  | ofStream (id : UInt16) (k : ℕ)
  deriving DecidableEq

/-- The stream of the appender with index `k` of the logger `id`. -/
def LogAppender.stream (appender : LogAppender) (id : UInt16) (k : ℕ) : Stream :=
  match appender.kind with
  | .console => .cout
  | .file _ => .ofStream id k

/-- What a thread does next: `Lock` of the appender with index `k`, RecordValid, Format of the items
that are left, `UnLock`. -/
inductive LogPc where
  | idle
  | lock (id : UInt16) (record : LogRecord) (k : ℕ)
  | valid (id : UInt16) (record : LogRecord) (k : ℕ) (appender : LogAppender)
  | format (id : UInt16) (record : LogRecord) (k : ℕ) (appender : LogAppender) (items : List FormatterItem)
  | unLock (id : UInt16) (record : LogRecord) (k : ℕ) (appender : LogAppender)
  deriving DecidableEq

/-- `logged` are the calls of CLSN_DO_LOG of each thread. For an appender, `locked` are the records with
which it has been locked, `written` those of which it has written the whole line, `chars` is all that
it has written. -/
structure Logging (ι : Type) where
  outputs : Stream → List Char := fun _ => []
  mMutex : UInt16 → ℕ → Bool := fun _ _ => false
  threads : ι → LogPc := fun _ => .idle
  logged : ι → List (UInt16 × LogRecord) := fun _ => []
  locked : UInt16 → ℕ → List (ι × LogRecord) := fun _ _ => []
  written : UInt16 → ℕ → List (ι × LogRecord) := fun _ _ => []
  chars : UInt16 → ℕ → List Char := fun _ _ => []
  crash : Option Fault := none

inductive LogAct (ι : Type) where
  | log (i : ι) (id : UInt16) (record : LogRecord)
  | step (i : ι)

variable {ι Tm : Type} [DecidableEq ι]

namespace Logging

def goTo (s : Logging ι) (i : ι) (pc : LogPc) : Logging ι :=
  { s with threads := fun j => if j = i then pc else s.threads j }

def setMutex (s : Logging ι) (id : UInt16) (k : ℕ) (locked : Bool) : Logging ι :=
  { s with mMutex := fun id' k' => if id' = id ∧ k' = k then locked else s.mMutex id' k' }

def lock (s : Logging ι) (i : ι) (id : UInt16) (k : ℕ) (record : LogRecord) : Logging ι :=
  { s.setMutex id k true with locked := fun id' k' =>
      if id' = id ∧ k' = k then s.locked id k ++ [(i, record)] else s.locked id' k' }

/-- The appender with index `k` of the logger `id` writes to its stream. -/
def write (s : Logging ι) (id : UInt16) (k : ℕ) (appender : LogAppender) (text : List Char) : Logging ι :=
  { s with
    outputs := fun other =>
      if other = appender.stream id k then s.outputs (appender.stream id k) ++ text else s.outputs other
    chars := fun id' k' => if id' = id ∧ k' = k then s.chars id k ++ text else s.chars id' k' }

def record (s : Logging ι) (i : ι) (id : UInt16) (k : ℕ) (record : LogRecord) : Logging ι :=
  { s with written := fun id' k' =>
      if id' = id ∧ k' = k then s.written id k ++ [(i, record)] else s.written id' k' }

section Updates
variable (s : Logging ι) (i j : ι) (pc : LogPc) (id id' : UInt16) (k k' : ℕ) (locked : Bool)
  (record : LogRecord)

@[simp, grind =] theorem goTo_threads : (s.goTo i pc).threads j = if j = i then pc else s.threads j := rfl

@[simp, grind =] theorem goTo_mMutex : (s.goTo i pc).mMutex id k = s.mMutex id k := rfl

omit [DecidableEq ι] in
@[simp, grind =] theorem setMutex_threads : (s.setMutex id k locked).threads j = s.threads j := rfl

omit [DecidableEq ι] in
@[simp, grind =] theorem setMutex_mMutex :
    (s.setMutex id k locked).mMutex id' k' = if id' = id ∧ k' = k then locked else s.mMutex id' k' := rfl

omit [DecidableEq ι] in
@[simp, grind =] theorem lock_threads : (s.lock i id k record).threads j = s.threads j := rfl

omit [DecidableEq ι] in
@[simp, grind =] theorem lock_mMutex :
    (s.lock i id k record).mMutex id' k' = if id' = id ∧ k' = k then true else s.mMutex id' k' := rfl

end Updates

/-- CLSN_DO_LOG -/
def doLog (loggers : UInt16 → LoggerBase) (s : Logging ι) (i : ι) (id : UInt16) (record : LogRecord) :
    Logging ι :=
  let s := { s with logged := fun j => if j = i then s.logged i ++ [(id, record)] else s.logged j }
  if (loggers id).levelCheck record.mLevel then s.goTo i (.lock id record 0) else s

/-- The next step of thread `i`, which is at the given place. -/
def access (loggers : UInt16 → LoggerBase) (lib : TimeLib Tm) (s : Logging ι) (i : ι) :
    LogPc → Option (Logging ι)
  | .idle => none
  | .lock id record k =>
    match (loggers id).mAppenders[k]? with
    | none => some (s.goTo i .idle)
    | some none => some { s with crash := some .badPointer }
    | some (some appender) =>
      if s.mMutex id k then some s
      else some ((s.lock i id k record).goTo i (.valid id record k appender))
  | .valid id record k appender =>
    if appender.recordValid record then
      some (s.goTo i (.format id record k appender (appender.mFormatter.getD [])))
    else some (s.goTo i (.unLock id record k appender))
  | .format id record k appender [] =>
    some (((s.write id k appender ['\n']).record i id k record).goTo i (.unLock id record k appender))
  | .format id record k appender (item :: items) =>
    match item.format lib record with
    | .ok text => some ((s.write id k appender text).goTo i (.format id record k appender items))
    | .error fault => some { s with crash := some fault }
  | .unLock id record k _ => some ((s.setMutex id k false).goTo i (.lock id record (k + 1)))

def step (loggers : UInt16 → LoggerBase) (lib : TimeLib Tm) (s : Logging ι) (a : LogAct ι) :
    Option (Logging ι) :=
  if s.crash.isSome then none
  else
    match a with
    | .log i id record => if s.threads i = .idle then some (s.doLog loggers i id record) else none
    | .step i => s.access loggers lib i (s.threads i)

/-! ### What a step can do -/

section Steps
variable {loggers : UInt16 → LoggerBase} {lib : TimeLib Tm} {s s' : Logging ι}

inductive Moves (loggers : UInt16 → LoggerBase) (lib : TimeLib Tm) (s : Logging ι) : Logging ι → Prop
  | log {i : ι} (id : UInt16) (record : LogRecord) :
      s.threads i = .idle → Moves loggers lib s (s.doLog loggers i id record)
  | returns {i : ι} {id : UInt16} {record : LogRecord} {k : ℕ} :
      s.threads i = .lock id record k → (loggers id).mAppenders[k]? = none →
      Moves loggers lib s (s.goTo i .idle)
  | null {i : ι} {id : UInt16} {record : LogRecord} {k : ℕ} :
      s.threads i = .lock id record k → (loggers id).mAppenders[k]? = some none →
      Moves loggers lib s { s with crash := some .badPointer }
  | spins : Moves loggers lib s s
  | locks {i : ι} {id : UInt16} {record : LogRecord} {k : ℕ} {appender : LogAppender} :
      s.threads i = .lock id record k → (loggers id).mAppenders[k]? = some (some appender) →
      s.mMutex id k = false →
      Moves loggers lib s ((s.lock i id k record).goTo i (.valid id record k appender))
  | accepts {i : ι} {id : UInt16} {record : LogRecord} {k : ℕ} {appender : LogAppender} :
      s.threads i = .valid id record k appender → appender.recordValid record = true →
      Moves loggers lib s (s.goTo i (.format id record k appender (appender.mFormatter.getD [])))
  | skips {i : ι} {id : UInt16} {record : LogRecord} {k : ℕ} {appender : LogAppender} :
      s.threads i = .valid id record k appender → appender.recordValid record = false →
      Moves loggers lib s (s.goTo i (.unLock id record k appender))
  | ends {i : ι} {id : UInt16} {record : LogRecord} {k : ℕ} {appender : LogAppender} :
      s.threads i = .format id record k appender [] →
      Moves loggers lib s
        (((s.write id k appender ['\n']).record i id k record).goTo i (.unLock id record k appender))
  | item {i : ι} {id : UInt16} {record : LogRecord} {k : ℕ} {appender : LogAppender}
      {item : FormatterItem} {items : List FormatterItem} {text : List Char} :
      s.threads i = .format id record k appender (item :: items) → item.format lib record = .ok text →
      Moves loggers lib s
        ((s.write id k appender text).goTo i (.format id record k appender items))
  | noTime {i : ι} {id : UInt16} {record : LogRecord} {k : ℕ} {appender : LogAppender}
      {item : FormatterItem} {items : List FormatterItem} :
      s.threads i = .format id record k appender (item :: items) → item.format lib record = .error .outOfRange →
      Moves loggers lib s { s with crash := some .outOfRange }
  | unLocks {i : ι} {id : UInt16} {record : LogRecord} {k : ℕ} {appender : LogAppender} :
      s.threads i = .unLock id record k appender →
      Moves loggers lib s ((s.setMutex id k false).goTo i (.lock id record (k + 1)))

theorem format_fault {item : FormatterItem} {record : LogRecord} {fault : Fault}
    (h : item.format lib record = .error fault) : fault = .outOfRange := by
  cases item with
  | time mTimeFormat =>
    simp only [FormatterItem.format] at h
    split at h
    · cases h
    · exact (Except.error.inj h).symm
  | _ => cases h

theorem step_moves {a : LogAct ι} (h : step loggers lib s a = some s') : Moves loggers lib s s' := by
  unfold step at h
  split at h
  · cases h
  cases a with
  | log i id record =>
    by_cases hidle : s.threads i = .idle
    · simp only [hidle, if_true, Option.some.injEq] at h
      exact h ▸ .log id record hidle
    · simp only [hidle, if_false] at h
      cases h
  | step i =>
    cases hpc : s.threads i with
    | idle =>
      simp only [hpc, access] at h
      cases h
    | lock id record k =>
      simp only [hpc, access] at h
      cases hk : (loggers id).mAppenders[k]? with
      | none =>
        rw [hk] at h
        exact Option.some.inj h ▸ .returns hpc hk
      | some pointer =>
        rw [hk] at h
        cases pointer with
        | none => exact Option.some.inj h ▸ .null hpc hk
        | some appender =>
          cases hlocked : s.mMutex id k with
          | true =>
            simp only [hlocked, if_true, Option.some.injEq] at h
            exact h ▸ .spins
          | false =>
            simp only [hlocked, Bool.false_eq_true, if_false, Option.some.injEq] at h
            exact h ▸ .locks hpc hk hlocked
    | valid id record k appender =>
      simp only [hpc, access] at h
      cases hvalid : appender.recordValid record with
      | true =>
        simp only [hvalid, if_true, Option.some.injEq] at h
        exact h ▸ .accepts hpc hvalid
      | false =>
        simp only [hvalid, Bool.false_eq_true, if_false, Option.some.injEq] at h
        exact h ▸ .skips hpc hvalid
    | format id record k appender items =>
      cases items with
      | nil =>
        simp only [hpc, access, Option.some.injEq] at h
        exact h ▸ .ends hpc
      | cons item items =>
        simp only [hpc, access] at h
        cases htext : item.format lib record with
        | ok text =>
          rw [htext] at h
          exact Option.some.inj h ▸ .item hpc htext
        | error fault =>
          rw [htext] at h
          obtain rfl := format_fault htext
          exact Option.some.inj h ▸ .noTime hpc htext
    | unLock id record k appender =>
      simp only [hpc, access, Option.some.injEq] at h
      exact h ▸ .unLocks hpc

end Steps

end Logging

end DeftRpc.Log
