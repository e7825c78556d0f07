import Mathlib.Tactic

/-!
# Numerals and groups of numerals

Numerals in a base up to sixteen, with the lower-case letters as digits, and groups of
them between separators.
-/

namespace DeftRpc.Foundation

/-! ### Numerals -/

def digitVal (c : Char) : ℕ := if c.isDigit then c.toNat - 48 else c.toNat - 87

def numeralVal (base : ℕ) (s : List Char) : ℕ := s.foldl (fun n c => n * base + digitVal c) 0

theorem digitVal_digitChar : ∀ d < 16, digitVal (Nat.digitChar d) = d := by decide

theorem numeralVal_concat (base : ℕ) (s : List Char) (c : Char) :
    numeralVal base (s ++ [c]) = numeralVal base s * base + digitVal c := by
  rw [numeralVal, List.foldl_append]
  rfl

section Base
variable {base : ℕ} (hb : 1 < base)
include hb

theorem numeralVal_toDigits (h16 : base ≤ 16) (n : ℕ) :
    numeralVal base (Nat.toDigits base n) = n := by
  induction n using Nat.strongRecOn with
  | ind n ih =>
    by_cases hn : n < base
    · rw [Nat.toDigits_of_lt_base hn]
      simp [numeralVal, digitVal_digitChar n (by omega)]
    · have hq : n / base < n := Nat.div_lt_self (by omega) hb
      have hr : n % base < 16 := (Nat.mod_lt n (by omega)).trans_le h16
      rw [Nat.toDigits_of_base_le hb (by omega), numeralVal_concat, ih (n / base) hq,
        digitVal_digitChar _ hr]
      exact Nat.div_add_mod' n base

theorem mem_toDigits {n : ℕ} {c : Char} (h : c ∈ Nat.toDigits base n) :
    ∃ d < base, c = Nat.digitChar d := by
  induction n using Nat.strongRecOn with
  | ind n ih =>
    by_cases hn : n < base
    · rw [Nat.toDigits_of_lt_base hn, List.mem_singleton] at h
      exact ⟨n, hn, h⟩
    · rw [Nat.toDigits_of_base_le hb (by omega), List.mem_append, List.mem_singleton] at h
      cases h with
      | inl hfirst => exact ih (n / base) (Nat.div_lt_self (by omega) hb) hfirst
      | inr hlast => exact ⟨n % base, Nat.mod_lt n (by omega), hlast⟩

end Base

/-! ### Groups -/

section Groups
variable {k m : ℕ} (base : ℕ) (sep : Char)

def printGroups (a : Fin k → Fin m) : List Char :=
  [sep].intercalate ((List.ofFn a).map fun g => Nat.toDigits base g.val)

/-- Only the text that these groups print is read. -/
def readGroups [NeZero m] (text : List Char) : Option (Fin k → Fin m) :=
  let gs := text.splitOn sep
  let a : Fin k → Fin m := fun i => Fin.ofNat m (numeralVal base (gs.getD i.val []))
  if printGroups base sep a = text then some a else none

variable {base sep} {a : Fin k → Fin m}

theorem mem_intercalate {α : Type} {x c : α} {ls : List (List α)} (h : c ∈ [x].intercalate ls) :
    c = x ∨ ∃ l ∈ ls, c ∈ l := by
  induction ls with
  | nil => exact absurd h List.not_mem_nil
  | cons l ls ih =>
    cases ls with
    | nil =>
      rw [List.intercalate_singleton] at h
      exact Or.inr ⟨l, List.mem_singleton_self l, h⟩
    | cons l' ls =>
      rw [List.intercalate_cons_cons, List.mem_append, List.mem_append, List.mem_singleton] at h
      rcases h with (hl | hx) | hrest
      · exact Or.inr ⟨l, List.mem_cons_self, hl⟩
      · exact Or.inl hx
      · obtain hx | ⟨y, hy, hc⟩ := ih hrest
        · exact Or.inl hx
        · exact Or.inr ⟨y, List.mem_cons_of_mem l hy, hc⟩

theorem mem_printGroups {c : Char} (hb : 1 < base) (h : c ∈ printGroups base sep a) :
    c = sep ∨ ∃ d < base, c = Nat.digitChar d := by
  obtain hsep | ⟨l, hl, hc⟩ := mem_intercalate h
  · exact Or.inl hsep
  · obtain ⟨g, -, rfl⟩ := List.mem_map.mp hl
    exact Or.inr (mem_toDigits hb hc)

theorem splitOn_printGroups [NeZero k] (hb : 1 < base) (hsep : ∀ d < base, Nat.digitChar d ≠ sep) :
    (printGroups base sep a).splitOn sep = (List.ofFn a).map fun g => Nat.toDigits base g.val := by
  apply List.splitOn_intercalate
  · intro l hl hmem
    obtain ⟨g, -, rfl⟩ := List.mem_map.mp hl
    obtain ⟨d, hd, heq⟩ := mem_toDigits hb hmem
    exact hsep d hd heq.symm
  · simp [NeZero.ne k]

theorem sep_mem_printGroups (hk : 1 < k) (hb : 1 < base)
    (hsep : ∀ d < base, Nat.digitChar d ≠ sep) : sep ∈ printGroups base sep a := by
  have : NeZero k := ⟨by omega⟩
  by_contra hnot
  have hsplit := congrArg List.length (splitOn_printGroups (a := a) hb hsep)
  rw [List.splitOn_eq_singleton hnot] at hsplit
  simp at hsplit
  omega

theorem readGroups_eq_some_iff [NeZero k] [NeZero m] (hb : 1 < base) (h16 : base ≤ 16)
    (hsep : ∀ d < base, Nat.digitChar d ≠ sep) {text : List Char} :
    readGroups base sep text = some a ↔ printGroups base sep a = text := by
  constructor
  · intro h
    simp only [readGroups] at h
    split at h
    case isTrue heq =>
      cases h
      exact heq
    case isFalse hne => cases h
  · rintro rfl
    have hgroup : (fun i : Fin k => Fin.ofNat m (numeralVal base
        (((printGroups base sep a).splitOn sep).getD i.val []))) = a := by
      funext i
      rw [splitOn_printGroups hb hsep]
      simp [numeralVal_toDigits hb h16]
    rw [readGroups, hgroup]
    exact if_pos rfl

end Groups

end DeftRpc.Foundation
