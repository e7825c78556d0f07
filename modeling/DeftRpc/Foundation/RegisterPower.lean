import DeftRpc.Foundation.ShiftRegister

/-!
# Powers of the register

Contents are multiplied bit by bit, and a power of `X` is computed by squaring along
the bits of its exponent. With it the order of `X` can be evaluated.
-/

namespace DeftRpc.Foundation
open Polynomial

/-! ### Polynomials with two terms -/

theorem bitPoly_coeff (bs : List Bool) (k : ℕ) :
    (bitPoly bs).coeff k = if k < bs.length ∧ bs[bs.length - 1 - k]? = some true then 1 else 0 := by
  induction bs with
  | nil => simp [bitPoly]
  | cons b bs ih =>
    have hfirst : (if b then X ^ bs.length else 0 : (ZMod 2)[X]).coeff k
        = if b = true ∧ k = bs.length then 1 else 0 := by
      cases b with
      | false => simp
      | true => simp [coeff_X_pow]
    rw [bitPoly, coeff_add, hfirst, ih, List.length_cons, Nat.add_sub_cancel]
    rcases Nat.lt_trichotomy k bs.length with hlt | rfl | hgt
    · have hsub : bs.length - k = bs.length - 1 - k + 1 := by omega
      rw [hsub, List.getElem?_cons_succ]
      simp [hlt, hlt.ne, Nat.lt_succ_of_lt hlt]
    · simp
    · simp [hgt.ne', Nat.not_lt.mpr hgt.le, Nat.not_lt.mpr (Nat.succ_le_of_lt hgt)]

/-- A string with two ones. -/
theorem bitPoly_pair {bs : List Bool} {i j : ℕ} (hij : i < j) (hj : j < bs.length)
    (h : ∀ k : ℕ, bs[k]? = some true ↔ k = i ∨ k = j) :
    bitPoly bs = (X ^ (j - i) + 1) * X ^ (bs.length - 1 - j) := by
  have hsum : j - i + (bs.length - 1 - j) = bs.length - 1 - i := by omega
  rw [add_mul, one_mul, ← pow_add, hsum]
  ext k
  rw [bitPoly_coeff, coeff_add, coeff_X_pow, coeff_X_pow]
  simp only [h]
  by_cases hi : k = bs.length - 1 - i
  · rw [if_pos hi, if_pos (by omega), if_neg (by omega), add_zero]
  · rw [if_neg hi, zero_add]
    by_cases hk : k = bs.length - 1 - j
    · rw [if_pos hk, if_pos (by omega)]
    · rw [if_neg hk, if_neg (by omega)]

theorem wordPoly_one (w : ℕ) : wordPoly (1#(w + 1)) = 1 := by
  have hsplit : 1#(w + 1) = 0#w ++ 1#1 := by
    apply BitVec.eq_of_toNat_eq
    simp
  have hlast : wordPoly 1#1 = 1 := by
    simp [wordPoly, msbBits, bitPoly]
  rw [hsplit, wordPoly_append, wordPoly_zero, zero_mul, zero_add, hlast]

/-! ### Products and powers -/

section Power
variable {w : ℕ} (g : BitVec w)

def mulLoop (a : BitVec w) : List Bool → BitVec w → BitVec w
  | [], acc => acc
  | b :: bs, acc => mulLoop a bs (shiftStep g acc ^^^ if b then a else 0#w)

def mulWord (a b : BitVec w) : BitVec w := mulLoop g a (msbBits b) 0#w

theorem residue_mulLoop (a : BitVec w) (bs : List Bool) (acc : BitVec w) :
    residue g (wordPoly (mulLoop g a bs acc)) = residue g (wordPoly a) * residue g (bitPoly bs) +
      residue g X ^ bs.length * residue g (wordPoly acc) := by
  induction bs generalizing acc with
  | nil => simp [mulLoop, bitPoly]
  | cons b bs ih =>
    rw [mulLoop, ih, wordPoly_xor, map_add, residue_shiftStep, bitPoly, map_add, List.length_cons]
    cases b with
    | false =>
      simp [wordPoly_zero]
      ring
    | true =>
      simp
      ring

theorem residue_mulWord (a b : BitVec w) :
    residue g (wordPoly (mulWord g a b)) = residue g (wordPoly a) * residue g (wordPoly b) := by
  rw [mulWord, residue_mulLoop, wordPoly_zero, map_zero, mul_zero, add_zero]
  rfl

/-- Squares along the bits of the exponent, most significant first. -/
def powX : List Bool → BitVec w → BitVec w
  | [], acc => acc
  | b :: bs, acc =>
    let square := mulWord g acc acc
    powX bs (if b then shiftStep g square else square)

def bitsValue : List Bool → ℕ → ℕ
  | [], n => n
  | b :: bs, n => bitsValue bs (2 * n + b.toNat)

theorem residue_powX (bs : List Bool) {n : ℕ} {acc : BitVec w}
    (hacc : residue g (wordPoly acc) = residue g X ^ n) :
    residue g (wordPoly (powX g bs acc)) = residue g X ^ bitsValue bs n := by
  induction bs generalizing n acc with
  | nil => exact hacc
  | cons b bs ih =>
    have hsquare : residue g (wordPoly (mulWord g acc acc)) = residue g X ^ (2 * n) := by
      rw [residue_mulWord, hacc, ← pow_add, two_mul]
    rw [powX, bitsValue]
    apply ih
    cases b with
    | false => exact hsquare
    | true =>
      rw [if_pos rfl, residue_shiftStep, hsquare, ← pow_succ']
      rfl

end Power

/-! ### The order of X -/

section Order
variable {w : ℕ} (g : BitVec (w + 1))

theorem residue_one : residue g (wordPoly (1#(w + 1))) = residue g X ^ 0 := by
  rw [wordPoly_one, map_one, pow_zero]

theorem pow_eq_one_iff_powX (bs : List Bool) :
    residue g X ^ bitsValue bs 0 = 1 ↔ powX g bs 1#(w + 1) = 1#(w + 1) := by
  rw [← residue_powX g bs (residue_one g)]
  constructor
  · intro h
    apply wordPoly_residue_inj g
    rw [h, residue_one, pow_zero]
  · intro h
    rw [h, residue_one, pow_zero]

/-- Two flipped bits go unseen exactly at the multiples of the order. -/
theorem pair_residue_eq_zero_iff (h : g.getLsbD 0 = true) {e : List Bool} {i j : ℕ} (hij : i < j)
    (hj : j < e.length) (he : ∀ k : ℕ, e[k]? = some true ↔ k = i ∨ k = j) :
    residue g (bitPoly e) = 0 ↔ orderOf (residue g X) ∣ j - i := by
  have htwo : (1 : AdjoinRoot (modulus g)) + 1 = 0 := by
    rw [← map_one (residue g), ← map_add, CharTwo.add_self_eq_zero, map_zero]
  rw [bitPoly_pair hij hj he, map_mul, mul_comm, map_pow, residue_X_pow_mul_eq_zero_iff h, map_add,
    map_pow, map_one, orderOf_dvd_iff_pow_eq_one]
  constructor
  · intro hz
    linear_combination hz - htwo
  · intro hz
    rw [hz, htwo]

end Order

end DeftRpc.Foundation
