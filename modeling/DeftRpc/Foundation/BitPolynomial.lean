import Mathlib.Tactic
import Mathlib.Algebra.Polynomial.Monic
import Mathlib.Data.ZMod.Basic

/-!
# Bit strings as polynomials over GF(2)

A string of bits, most significant first, is the polynomial whose coefficients
it lists; concatenation is a shifted sum, exclusive or is addition. A word is
read through the string of its bits.
-/

namespace DeftRpc.Foundation
open Polynomial

noncomputable def bitPoly : List Bool → (ZMod 2)[X]
  | [] => 0
  | b :: bs => (if b then X ^ bs.length else 0) + bitPoly bs

theorem bitPoly_append (xs ys : List Bool) :
    bitPoly (xs ++ ys) = bitPoly xs * X ^ ys.length + bitPoly ys := by
  induction xs with
  | nil => simp [bitPoly]
  | cons x xs ih =>
    rw [List.cons_append, bitPoly, bitPoly, ih, List.length_append, add_mul, add_assoc]
    cases x with
    | false => simp
    | true => simp [pow_add]

theorem bitPoly_degree_lt (bs : List Bool) : (bitPoly bs).degree < bs.length := by
  induction bs with
  | nil => simp [bitPoly]
  | cons b bs ih =>
    have hl : ((bs.length : ℕ) : WithBot ℕ) < ((b :: bs).length : ℕ) := by
      rw [List.length_cons]
      exact_mod_cast Nat.lt_succ_self bs.length
    have hb : ((if b then X ^ bs.length else 0 : (ZMod 2)[X])).degree ≤ bs.length := by
      cases b with
      | false => simp
      | true => simp
    rw [bitPoly]
    exact lt_of_le_of_lt (degree_add_le _ _) (max_lt (lt_of_le_of_lt hb hl) (ih.trans hl))

theorem bitPoly_eq_zero_of_forall {bs : List Bool} (h : ∀ i : ℕ, bs[i]? ≠ some true) :
    bitPoly bs = 0 := by
  induction bs with
  | nil => rfl
  | cons b bs ih =>
    have hb : b = false := by simpa using h 0
    have hbs : bitPoly bs = 0 := by
      apply ih
      intro i
      simpa using h (i + 1)
    rw [bitPoly, hb, hbs]
    simp

theorem bitPoly_true_cons_ne_zero (bs : List Bool) : bitPoly (true :: bs) ≠ 0 := by
  have h : (bitPoly (true :: bs)).Monic := by
    simpa [bitPoly] using monic_X_pow_add (bitPoly_degree_lt bs)
  exact h.ne_zero

theorem eq_replicate_of_bitPoly_eq_zero {bs : List Bool} (h : bitPoly bs = 0) :
    bs = List.replicate bs.length false := by
  induction bs with
  | nil => rfl
  | cons b bs ih =>
    cases b with
    | true => exact absurd h (bitPoly_true_cons_ne_zero bs)
    | false =>
      have hbs : bitPoly bs = 0 := by simpa [bitPoly] using h
      rw [List.length_cons, List.replicate_succ, ← ih hbs]

theorem bitPoly_zipWith_xor (xs ys : List Bool) (h : xs.length = ys.length) :
    bitPoly (List.zipWith xor xs ys) = bitPoly xs + bitPoly ys := by
  induction xs generalizing ys with
  | nil =>
    cases ys with
    | nil => simp [bitPoly]
    | cons y ys => simp at h
  | cons x xs ih =>
    cases ys with
    | nil => simp at h
    | cons y ys =>
      have hl : xs.length = ys.length := by simpa using h
      have hz : (List.zipWith xor xs ys).length = xs.length := by simp [hl]
      rw [List.zipWith_cons_cons, bitPoly, bitPoly, bitPoly, ih ys hl, hz, ← hl]
      have h2 : (X ^ xs.length + X ^ xs.length : (ZMod 2)[X]) = 0 := CharTwo.add_self_eq_zero _
      cases x with
      | false =>
        cases y with
        | false => simp
        | true => simp; ring
      | true =>
        cases y with
        | false => simp; ring
        | true =>
          simp only [Bool.xor_self, Bool.false_eq_true, if_false, if_true]
          linear_combination -h2

theorem eq_of_zipWith_xor_eq {xs ys : List Bool} (hl : xs.length = ys.length)
    (h : List.zipWith xor xs ys = List.replicate xs.length false) : xs = ys := by
  induction xs generalizing ys with
  | nil =>
    cases ys with
    | nil => rfl
    | cons y ys => simp at hl
  | cons x xs ih =>
    cases ys with
    | nil => simp at hl
    | cons y ys =>
      rw [List.zipWith_cons_cons, List.length_cons, List.replicate_succ, List.cons.injEq] at h
      have hx : x = y := by simpa using h.1
      rw [hx, ih (by simpa using hl) h.2]

theorem bitPoly_inj {xs ys : List Bool} (hl : xs.length = ys.length)
    (h : bitPoly xs = bitPoly ys) : xs = ys := by
  have hz : bitPoly (List.zipWith xor xs ys) = 0 := by
    rw [bitPoly_zipWith_xor xs ys hl, h, CharTwo.add_self_eq_zero]
  have hr := eq_replicate_of_bitPoly_eq_zero hz
  have hn : (List.zipWith xor xs ys).length = xs.length := by simp [hl]
  rw [hn] at hr
  exact eq_of_zipWith_xor_eq hl hr

/-! ### The bits of a word -/

def msbBits {w : ℕ} (v : BitVec w) : List Bool := (List.range w).map v.getMsbD

@[simp] theorem msbBits_length {w : ℕ} (v : BitVec w) : (msbBits v).length = w := by
  simp [msbBits]

@[simp] theorem msbBits_getElem {w : ℕ} (v : BitVec w) (i : ℕ) (h : i < (msbBits v).length) :
    (msbBits v)[i] = v.getMsbD i := by
  simp [msbBits]

theorem msbBits_getElem? {w : ℕ} (v : BitVec w) (i : ℕ) :
    (msbBits v)[i]? = if i < w then some (v.getMsbD i) else none := by
  by_cases h : i < w <;> simp [msbBits, h]

theorem msbBits_inj {w : ℕ} {a b : BitVec w} (h : msbBits a = msbBits b) : a = b := by
  apply BitVec.eq_of_getMsbD_eq
  intro i hi
  have hg : (msbBits a)[i]? = (msbBits b)[i]? := by rw [h]
  simpa [msbBits_getElem?, hi] using hg

theorem msbBits_xor {w : ℕ} (a b : BitVec w) :
    msbBits (a ^^^ b) = List.zipWith xor (msbBits a) (msbBits b) := by
  apply List.ext_getElem?
  intro i
  rw [List.getElem?_zipWith, msbBits_getElem?, msbBits_getElem?, msbBits_getElem?]
  by_cases h : i < w <;> simp [h]

theorem msbBits_append {w v : ℕ} (a : BitVec w) (b : BitVec v) :
    msbBits (a ++ b) = msbBits a ++ msbBits b := by
  apply List.ext_getElem?
  intro i
  rw [List.getElem?_append, msbBits_getElem?, msbBits_getElem?, msbBits_getElem?,
    BitVec.getMsbD_append, msbBits_length]
  by_cases h : i < w
  · have h' : i < w + v := by omega
    have hn : ¬ w ≤ i := by omega
    simp [h, h', hn]
  · have hw : w ≤ i := by omega
    by_cases h' : i < w + v
    · have hv : i - w < v := by omega
      simp [h, h', hv, hw]
    · have hv : ¬ i - w < v := by omega
      simp [h, h', hv]

noncomputable def wordPoly {w : ℕ} (v : BitVec w) : (ZMod 2)[X] := bitPoly (msbBits v)

theorem wordPoly_degree_lt {w : ℕ} (v : BitVec w) : (wordPoly v).degree < w := by
  simpa [wordPoly] using bitPoly_degree_lt (msbBits v)

theorem wordPoly_inj {w : ℕ} {a b : BitVec w} (h : wordPoly a = wordPoly b) : a = b :=
  msbBits_inj (bitPoly_inj (by simp) h)

theorem wordPoly_zero (w : ℕ) : wordPoly (0#w) = 0 := by
  apply bitPoly_eq_zero_of_forall
  intro i
  simp [msbBits_getElem?]

theorem wordPoly_xor {w : ℕ} (a b : BitVec w) :
    wordPoly (a ^^^ b) = wordPoly a + wordPoly b := by
  rw [wordPoly, msbBits_xor]
  exact bitPoly_zipWith_xor _ _ (by simp)

theorem wordPoly_append {w v : ℕ} (a : BitVec w) (b : BitVec v) :
    wordPoly (a ++ b) = wordPoly a * X ^ v + wordPoly b := by
  rw [wordPoly, msbBits_append, bitPoly_append, msbBits_length]
  rfl

theorem msbBits_succ {w : ℕ} (v : BitVec (w + 1)) :
    msbBits v = v.msb :: (List.range w).map (fun i => v.getMsbD (i + 1)) := by
  rw [msbBits, List.range_succ_eq_map, List.map_cons, List.map_map]
  rfl

theorem msbBits_shiftLeft_one {w : ℕ} (v : BitVec (w + 1)) :
    msbBits (v <<< 1) = (List.range w).map (fun i => v.getMsbD (i + 1)) ++ [false] := by
  rw [msbBits, List.range_succ, List.map_append]
  congr 1
  · apply List.map_congr_left
    intro i hi
    have hw : i < w := List.mem_range.mp hi
    simp [BitVec.getMsbD_shiftLeft, Nat.add_comm i 1]
  · simp [BitVec.getMsbD_shiftLeft]

/-- Shifting a word left by one is multiplication by `X`, the top bit lost. -/
theorem X_mul_wordPoly {w : ℕ} (v : BitVec w) :
    X * wordPoly v = wordPoly (v <<< 1) + (if v.msb then X ^ w else 0) := by
  cases w with
  | zero => simp [wordPoly, msbBits, bitPoly, BitVec.msb]
  | succ w =>
    rw [wordPoly, wordPoly, msbBits_shiftLeft_one, msbBits_succ, bitPoly_append, bitPoly]
    cases v.msb with
    | false => simp [bitPoly]; ring
    | true => simp [bitPoly]; ring

end DeftRpc.Foundation
