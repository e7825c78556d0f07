import DeftRpc.Log.FormatString

/-!
# strftime

What the formatter relies on, and a clock in UTC that keeps to it.
-/

namespace DeftRpc.Log

variable {Tm : Type}

/-! ### Formats of strftime -/

def text (seg : List Piece) : List Char := seg.flatMap Piece.text

def Piece.expand (conv : Conversion → Tm → List Char) (tm : Tm) : Piece → List Char
  | .literal c => [c.1]
  | .time x => conv x tm

def expand (conv : Conversion → Tm → List Char) (tm : Tm) (seg : List Piece) : List Char :=
  seg.flatMap (Piece.expand conv tm)

/-- strftime writes a numeral for a time specifier, copies the other chars of a C string, and
fails when the result and its terminator do not fit. -/
structure TimeLib.Documented (lib : TimeLib Tm) (conv : Conversion → Tm → List Char) : Prop where
  fits : ∀ seg max tm, '\x00' ∉ text seg → (expand conv tm seg).length < max →
    lib.strftime max (text seg) tm = some (expand conv tm seg)
  overflows : ∀ seg max tm, '\x00' ∉ text seg → max ≤ (expand conv tm seg).length →
    lib.strftime max (text seg) tm = none
  numeral : ∀ x tm, conv x tm ≠ [] ∧ '%' ∉ conv x tm

theorem text_append (seg seg' : List Piece) : text (seg ++ seg') = text seg ++ text seg' :=
  List.flatMap_append

theorem text_cons (p : Piece) (seg : List Piece) : text (p :: seg) = p.text ++ text seg :=
  List.flatMap_cons

theorem text_literals (ls : List Literal) : text (ls.map .literal) = chars ls := by
  induction ls with
  | nil => rfl
  | cons c ls ih =>
    rw [List.map_cons, text_cons, ih]
    rfl

section Expand
variable (conv : Conversion → Tm → List Char) (tm : Tm)

theorem expand_append (seg seg' : List Piece) :
    expand conv tm (seg ++ seg') = expand conv tm seg ++ expand conv tm seg' := List.flatMap_append

theorem expand_cons (p : Piece) (seg : List Piece) :
    expand conv tm (p :: seg) = p.expand conv tm ++ expand conv tm seg := List.flatMap_cons

theorem expand_singleton (p : Piece) : expand conv tm [p] = p.expand conv tm := List.flatMap_singleton _ p

theorem expand_literals (ls : List Literal) : expand conv tm (ls.map .literal) = chars ls := by
  induction ls with
  | nil => rfl
  | cons c ls ih =>
    rw [List.map_cons, expand_cons, ih]
    rfl

end Expand

/-! ### A clock in UTC -/

/-- `struct tm` -/
structure BrokenTime where
  tmSec : ℕ := 0
  tmMin : ℕ := 0
  tmHour : ℕ := 0
  tmMday : ℕ := 0
  tmMon : ℕ := 0
  tmYear : Int32 := 0

/-- Year, month from 0 on and day of the date `days` after 1970-01-01. The computation counts the days
from a first of March, by eras of 400 years. -/
def civil (days : ℤ) : ℤ × ℕ × ℕ :=
  let era := (days + 719468) / 146097
  let doe := ((days + 719468) % 146097).toNat
  let yoe := (doe - doe / 1460 + doe / 36524 - doe / 146096) / 365
  let doy := doe - (365 * yoe + yoe / 4 - yoe / 100)
  let mp := (5 * doy + 2) / 153
  let mon := (mp + 2) % 12
  (yoe + era * 400 + if mon < 2 then 1 else 0, mon, doy - (153 * mp + 2) / 5 + 1)

/-- A year that no `int` holds is an error, and the caller's zeros stay. -/
def utcLocaltimeR (time : Int64) : BrokenTime :=
  let secs := (time.toInt % 86400).toNat
  let date := civil (time.toInt / 86400)
  let year := date.1 - 1900
  if -2147483648 ≤ year ∧ year < 2147483648 then
    ⟨secs % 60, secs / 60 % 60, secs / 3600, date.2.2, date.2.1, Int32.ofInt year⟩
  else {}

def twoDigits (n : ℕ) : List Char := [Nat.digitChar (n / 10 % 10), Nat.digitChar (n % 10)]

def signedDecimal (n : ℤ) : List Char := if 0 ≤ n then decimal n.toNat else '-' :: decimal (-n).toNat

def utcConv : Conversion → BrokenTime → List Char
  | .year, tm => signedDecimal (tm.tmYear.toInt + 1900)
  | .month, tm => twoDigits (tm.tmMon + 1)
  | .day, tm => twoDigits tm.tmMday
  | .hour, tm => twoDigits tm.tmHour
  | .minute, tm => twoDigits tm.tmMin
  | .second, tm => twoDigits tm.tmSec

/-- The other conversions of strftime are left out. -/
def utcExpand (tm : BrokenTime) : List Char → List Char
  | '%' :: x :: cs =>
    match specified x with
    | some (.piece (.time c)) => utcConv c tm ++ utcExpand tm cs
    | _ => '%' :: x :: utcExpand tm cs
  | c :: cs => c :: utcExpand tm cs
  | [] => []

def utcLib : TimeLib BrokenTime where
  localtimeR := utcLocaltimeR
  strftime max format tm :=
    if (utcExpand tm format).length < max then some (utcExpand tm format) else none

theorem utcExpand_text (tm : BrokenTime) (seg : List Piece) :
    utcExpand tm (text seg) = expand utcConv tm seg := by
  induction seg with
  | nil => rfl
  | cons p seg ih =>
    rw [text_cons, expand_cons, ← ih]
    cases p with
    | literal c =>
      have hc := c.2
      rw [Piece.text, Piece.expand, List.singleton_append, List.singleton_append, utcExpand]
      intro x cs heq
      exact absurd heq hc
    | time x => cases x <;> rfl

theorem percent_not_mem_twoDigits (n : ℕ) : '%' ∉ twoDigits n := by
  have hdigit : ∀ d < 10, '%' ≠ Nat.digitChar d := by decide
  intro hmem
  rcases List.mem_cons.mp hmem with heq | hmem
  · exact hdigit _ (Nat.mod_lt _ (by decide)) heq
  · exact hdigit _ (Nat.mod_lt _ (by decide)) (List.mem_singleton.mp hmem)

theorem signedDecimal_numeral (n : ℤ) : signedDecimal n ≠ [] ∧ '%' ∉ signedDecimal n := by
  rw [signedDecimal]
  split
  · exact ⟨Nat.toDigits_ne_nil, not_mem_decimal rfl _⟩
  · refine ⟨List.cons_ne_nil _ _, fun hmem => ?_⟩
    rcases List.mem_cons.mp hmem with heq | hmem
    · exact absurd heq (by decide)
    · exact not_mem_decimal rfl _ hmem

theorem utc_documented : utcLib.Documented utcConv := by
  refine ⟨fun seg max tm _ hlt => ?_, fun seg max tm _ hle => ?_, fun x tm => ?_⟩
  · rw [← utcExpand_text] at hlt ⊢
    exact if_pos hlt
  · rw [← utcExpand_text] at hle
    exact if_neg (not_lt.mpr hle)
  · cases x
    case year => exact signedDecimal_numeral _
    all_goals exact ⟨List.cons_ne_nil _ _, percent_not_mem_twoDigits _⟩

/-! ### The room that a format needs -/

def Piece.width : Piece → ℕ
  | .literal _ => 1
  | .time .year => 11
  | .time _ => 2

theorem decimal_length {n k : ℕ} (hk : 0 < k) (h : n < 10 ^ k) : (decimal n).length ≤ k :=
  (Nat.length_toDigits_le_iff (by decide) hk).mpr h

theorem utcConv_year_length (tm : BrokenTime) : (utcConv .year tm).length ≤ 11 := by
  have hlt := tm.tmYear.toInt_lt
  have hle := tm.tmYear.le_toInt
  rw [utcConv, signedDecimal]
  split
  · exact decimal_length (by decide) (by omega)
  · rw [List.length_cons]
    exact Nat.succ_le_succ (decimal_length (by decide) (by omega))

theorem utc_expand_length (tm : BrokenTime) (seg : List Piece) :
    (expand utcConv tm seg).length ≤ (seg.map Piece.width).sum := by
  induction seg with
  | nil => exact le_refl 0
  | cons p seg ih =>
    rw [expand_cons, List.length_append, List.map_cons, List.sum_cons]
    refine Nat.add_le_add ?_ ih
    cases p with
    | literal c => exact le_refl 1
    | time x =>
      cases x
      case year => exact utcConv_year_length tm
      all_goals exact le_refl 2

end DeftRpc.Log
