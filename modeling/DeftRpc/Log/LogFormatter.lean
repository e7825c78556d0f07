import DeftRpc.Foundation.Exec

/-!
# LogFormatter (LogFormatter.cpp, LogFormatter.h, LogCommon.h, LogRecord.h)

A `char` is a `Char`. The time functions of the C library are parameters.
-/

namespace DeftRpc.Log
open DeftRpc.Foundation

/-! ### Records -/

inductive LogLevel where
  | none
  | debug
  | info
  | warning
  | error
  | fatal
  deriving DecidableEq

def logLevelToString : LogLevel → String
  | .none => "None"
  | .debug => "Debug"
  | .info => "INFO"
  | .warning => "Warning"
  | .error => "Error"
  | .fatal => "Fatal"

/-- Of the logger only its name. -/
structure LogRecord where
  mLogger : List Char
  mTime : Int64
  mFile : List Char
  mLine : UInt16
  mLevel : LogLevel
  mPid : UInt64
  mMessage : List Char
  deriving DecidableEq

/-- What `<<` writes for an unsigned integer. -/
def decimal (n : ℕ) : List Char := Nat.toDigits 10 n

theorem not_mem_decimal {c : Char} (hc : c.isDigit = false) (n : ℕ) : c ∉ decimal n := by
  intro hmem
  have hdigit := Nat.isDigit_of_mem_toDigits (by decide) (by decide) hmem
  rw [hc] at hdigit
  cases hdigit

/-! ### Items -/

/-- `strftime max format tm` has no value when the result and its terminator are longer
than `max`; what is in the buffer then is unspecified. -/
structure TimeLib (Tm : Type) where
  localtimeR : Int64 → Tm
  strftime : ℕ → List Char → Tm → Option (List Char)

inductive FormatterItem where
  | temp
  | time (mTimeFormat : List Char)
  | str (mV : List Char)
  | message
  | line
  | fileName
  | threadId
  | logLevelName
  | loggerName
  deriving DecidableEq

/-- What `c_str()` is read as. -/
def cStr (s : List Char) : List Char := s.takeWhile (· ≠ '\x00')

theorem cStr_append {s : List Char} (h : '\x00' ∉ s) (u : List Char) : cStr (s ++ u) = s ++ cStr u := by
  refine List.takeWhile_append_of_pos fun c hc => decide_eq_true ?_
  rintro rfl
  exact h hc

theorem cStr_self {s : List Char} (h : '\x00' ∉ s) : cStr s = s := by
  have happ := cStr_append h []
  rw [List.append_nil] at happ
  exact happ.trans (List.append_nil s)

variable {Tm : Type}

/-- A buffer without a terminator sends `strlen` out of it. -/
def FormatterItem.format (lib : TimeLib Tm) (record : LogRecord) : FormatterItem → Exec (List Char)
  | .temp => .ok []
  | .time mTimeFormat =>
    match lib.strftime 64 (cStr mTimeFormat) (lib.localtimeR record.mTime) with
    | some buf => .ok buf
    | none => .error .outOfRange
  | .str mV => .ok mV
  | .message => .ok record.mMessage
  | .line => .ok (decimal record.mLine.toNat)
  | .fileName => .ok record.mFile
  | .threadId => .ok (decimal record.mPid.toNat)
  | .logLevelName => .ok (logLevelToString record.mLevel).toList
  | .loggerName => .ok record.mLogger

/-! ### The constructor -/

/-- `what()` of a FormatError. -/
def formatError : String := "The format of the argument is incorrect"

inductive Failure where
  | throws (what : String)
  | diverge
  deriving DecidableEq

/-- `std::string::find(c, pos)` -/
def find (s : List Char) (c : Char) (pos : ℕ) : Option ℕ := ((s.drop pos).idxOf? c).map (pos + ·)

/-- The string of the chars from index `first` to before `last`. -/
def range (s : List Char) (first last : ℕ) : List Char := (s.drop first).take (last - first)

/-- `n - 1` on `size_t`. -/
def minusOne (n : ℕ) : ℕ := if n = 0 then 18446744073709551615 else n - 1

/-- The variables of the constructor, with -1 for `timeBegin` as none; the items are
`m_first_` and those after it. -/
structure Construction where
  timeBegin : Option ℕ := none
  prev : ℕ := 0
  items : List FormatterItem := [.temp]

def Construction.addItem (s : Construction) (item : FormatterItem) : Construction :=
  { s with items := s.items ++ [item] }

/-- APPEND_ITEM -/
def appendItem (format : List Char) (index : ℕ) (item : FormatterItem) (s : Construction) : Construction :=
  let s :=
    if s.prev < index then
      match s.timeBegin with
      | some timeBegin =>
        { s.addItem (.time (range format timeBegin index)) with prev := timeBegin, timeBegin := none }
      | none => s.addItem (.str (range format s.prev index))
    else s
  s.addItem item

/-- The branch for a second percent sign. -/
def appendPercent (format : List Char) (index : ℕ) (s : Construction) : Construction :=
  let s := match s.timeBegin with
    | some timeBegin => { s with prev := timeBegin, timeBegin := none }
    | none => s
  s.addItem (.str (range format s.prev (index + 1)))

def beginTime (s : Construction) : Construction :=
  match s.timeBegin with
  | none => { s with timeBegin := some s.prev }
  | some _ => s

/-- The body of the inner loop, for the percent sign at `index`. -/
def specifier (format : List Char) (index : ℕ) (s : Construction) : Except Failure Construction :=
  if minusOne format.length ≤ index then .error (.throws formatError)
  else match format.getD (index + 1) '\x00' with
    | '%' => .ok (appendPercent format index s)
    | 'Y' | 'm' | 'd' | 'H' | 'M' | 'S' => .ok (beginTime s)
    | 'n' => .ok (appendItem format index .line s)
    | 's' => .ok (appendItem format index .message s)
    | 'f' => .ok (appendItem format index .fileName s)
    | 't' => .ok (appendItem format index .threadId s)
    | 'l' => .ok (appendItem format index .logLevelName s)
    | 'o' => .ok (appendItem format index .loggerName s)
    | _ => .error (.throws formatError)

/- Every turn moves `prev` on by two or more. -/
def constructLoop (format : List Char) : ℕ → Construction → Except Failure Construction
  | 0, _ => .error .diverge
  | turns + 1, s =>
    match find format '%' s.prev with
    | none => .ok s
    | some index =>
      if s.prev ≤ minusOne format.length then do
        let s ← specifier format index s
        constructLoop format turns { s with prev := index + 2 }
      else .ok s

/-- What follows the loop. -/
def finish (format : List Char) (s : Construction) : List FormatterItem :=
  match s.timeBegin with
  | some timeBegin => (s.addItem (.time (range format timeBegin format.length))).items
  | none =>
    if s.prev < minusOne format.length then (s.addItem (.str (range format s.prev format.length))).items
    else s.items

/-- The items of `LogFormatter(format)`. -/
def construct (format : List Char) : Except Failure (List FormatterItem) := do
  let s ← constructLoop format (format.length + 1) {}
  pure (finish format s)

/-- What Format writes for the items of a formatter. -/
def formatRecord (lib : TimeLib Tm) (record : LogRecord) : List FormatterItem → Exec (List Char)
  | [] => .ok ['\n']
  | item :: items => do
    let text ← item.format lib record
    let rest ← formatRecord lib record items
    pure (text ++ rest)

end DeftRpc.Log
