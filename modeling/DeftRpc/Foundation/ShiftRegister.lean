import Mathlib.RingTheory.AdjoinRoot
import DeftRpc.Foundation.BitPolynomial

/-!
# The cyclic redundancy register

A register of `w` bits with feedback word `g` steps by one shift, the feedback
added when a one leaves at the top. One step multiplies by `X` modulo
`X^w + g`, so the contents after a message are a remainder of the message
polynomial.
-/

namespace DeftRpc.Foundation
open Polynomial

section Register

variable {w : ℕ} (g : BitVec w)

noncomputable def modulus : (ZMod 2)[X] := X ^ w + wordPoly g

theorem modulus_monic : (modulus g).Monic := monic_X_pow_add (wordPoly_degree_lt g)

theorem modulus_degree : (modulus g).degree = w := by
  rw [modulus, degree_add_eq_left_of_degree_lt, degree_X_pow]
  rw [degree_X_pow]
  exact wordPoly_degree_lt g

/-- The residue class of a polynomial. -/
noncomputable def residue : (ZMod 2)[X] →+* AdjoinRoot (modulus g) := AdjoinRoot.mk (modulus g)

theorem residue_X_pow : residue g (X ^ w) = residue g (wordPoly g) := by
  have h : residue g (X ^ w + wordPoly g) = 0 := AdjoinRoot.mk_self
  rw [map_add] at h
  have h2 : residue g (wordPoly g) + residue g (wordPoly g) = 0 := by
    rw [← map_add, CharTwo.add_self_eq_zero, map_zero]
  linear_combination h - h2

theorem residue_eq_iff {p q : (ZMod 2)[X]} : residue g p = residue g q ↔ modulus g ∣ p + q := by
  rw [← CharTwo.sub_eq_add]
  exact AdjoinRoot.mk_eq_mk

theorem residue_eq_zero_iff {p : (ZMod 2)[X]} : residue g p = 0 ↔ modulus g ∣ p :=
  AdjoinRoot.mk_eq_zero

/-- A polynomial below the degree of the modulus is its own remainder. -/
theorem modByMonic_eq_of_residue {p q : (ZMod 2)[X]} (hp : p.degree < w)
    (h : residue g p = residue g q) : p = q %ₘ modulus g := by
  have hdvd : modulus g ∣ p - q := AdjoinRoot.mk_eq_mk.mp h
  have hself : p %ₘ modulus g = p := by
    rw [modByMonic_eq_self_iff (modulus_monic g), modulus_degree]
    exact hp
  rw [← hself]
  have hz := (modByMonic_eq_zero_iff_dvd (modulus_monic g)).mpr hdvd
  rw [sub_modByMonic] at hz
  exact sub_eq_zero.mp hz

theorem eq_of_residue_eq {p q : (ZMod 2)[X]} (hp : p.degree < w) (hq : q.degree < w)
    (h : residue g p = residue g q) : p = q := by
  have hself : q %ₘ modulus g = q := by
    rw [modByMonic_eq_self_iff (modulus_monic g), modulus_degree]
    exact hq
  rw [modByMonic_eq_of_residue g hp h, hself]

theorem wordPoly_residue_inj {a b : BitVec w}
    (h : residue g (wordPoly a) = residue g (wordPoly b)) : a = b :=
  wordPoly_inj (eq_of_residue_eq g (wordPoly_degree_lt a) (wordPoly_degree_lt b) h)

/-! ### Steps of the register -/

def shiftStep (v : BitVec w) : BitVec w := (v <<< 1) ^^^ (if v.msb then g else 0#w)

def shiftSteps : ℕ → BitVec w → BitVec w
  | 0, v => v
  | n + 1, v => shiftStep g (shiftSteps n v)

theorem residue_shiftStep (v : BitVec w) :
    residue g (wordPoly (shiftStep g v)) = residue g X * residue g (wordPoly v) := by
  rw [← map_mul, X_mul_wordPoly, map_add, shiftStep, wordPoly_xor, map_add]
  cases v.msb with
  | false => simp [wordPoly_zero]
  | true => simp only [if_true, residue_X_pow]

theorem residue_shiftSteps (n : ℕ) (v : BitVec w) :
    residue g (wordPoly (shiftSteps g n v)) = residue g X ^ n * residue g (wordPoly v) := by
  induction n with
  | zero => simp [shiftSteps]
  | succ n ih =>
    rw [shiftSteps, residue_shiftStep, ih]
    ring

/-! ### Feedback words with constant term one -/

theorem wordPoly_coeff_zero {v : BitVec (w + 1)} (h : v.getLsbD 0 = true) :
    (wordPoly v).coeff 0 = 1 := by
  have hs : msbBits v = (List.range w).map v.getMsbD ++ [true] := by
    rw [msbBits, List.range_succ, List.map_append, List.map_singleton]
    have ht : v.getMsbD w = true := by simpa [BitVec.getMsbD] using h
    rw [ht]
  rw [wordPoly, hs, bitPoly_append]
  simp [bitPoly]

end Register

section Detection

variable {w : ℕ} {g : BitVec (w + 1)}

theorem isUnit_residue_X (h : g.getLsbD 0 = true) : IsUnit (residue g X) := by
  have hc : (modulus g).coeff 0 = 1 := by
    rw [modulus, coeff_add, wordPoly_coeff_zero h]
    simp
  have hsplit := divX_mul_X_add (modulus g)
  rw [hc] at hsplit
  have hz : residue g (divX (modulus g) * X + C 1) = 0 := by
    rw [hsplit]
    exact AdjoinRoot.mk_self
  rw [map_add, map_mul, C_1, map_one] at hz
  apply IsUnit.of_mul_eq_one (-residue g (divX (modulus g)))
  linear_combination -hz

theorem residue_X_pow_mul_eq_zero_iff (h : g.getLsbD 0 = true) (n : ℕ)
    (a : AdjoinRoot (modulus g)) : residue g X ^ n * a = 0 ↔ a = 0 :=
  ((isUnit_residue_X h).pow n).mul_right_eq_zero

theorem residue_shifted_ne_zero (h : g.getLsbD 0 = true) {mid : List Bool}
    (hmid : mid.length ≤ w + 1) (hne : bitPoly mid ≠ 0) (n : ℕ) :
    residue g (bitPoly mid * X ^ n) ≠ 0 := by
  rw [map_mul, map_pow, mul_comm]
  intro hz
  rw [residue_X_pow_mul_eq_zero_iff h, residue_eq_zero_iff] at hz
  have hd := degree_le_of_dvd hz hne
  rw [modulus_degree] at hd
  have hlt : (bitPoly mid).degree < ((w + 1 : ℕ) : WithBot ℕ) :=
    lt_of_lt_of_le (bitPoly_degree_lt mid) (by exact_mod_cast hmid)
  exact absurd (lt_of_le_of_lt hd hlt) (lt_irrefl _)

/-- **Burst errors.** A difference whose ones lie within the width of the register
leaves a residue. -/
theorem burst_residue_ne_zero (h : g.getLsbD 0 = true) {e : List Bool} (hne : bitPoly e ≠ 0)
    {k : ℕ} (hk : ∀ i : ℕ, e[i]? = some true → k ≤ i ∧ i < k + (w + 1)) :
    residue g (bitPoly e) ≠ 0 := by
  have hfront : bitPoly (e.take k) = 0 := by
    apply bitPoly_eq_zero_of_forall
    intro i hi
    rw [List.getElem?_take] at hi
    split at hi
    · have hki := (hk i hi).1
      omega
    · exact absurd hi (by simp)
  have hback : bitPoly ((e.drop k).drop (w + 1)) = 0 := by
    apply bitPoly_eq_zero_of_forall
    intro i hi
    rw [List.getElem?_drop, List.getElem?_drop] at hi
    have hki := (hk _ hi).2
    omega
  have hsplit : bitPoly e = bitPoly ((e.drop k).take (w + 1)) *
      X ^ ((e.drop k).drop (w + 1)).length := by
    calc bitPoly e = bitPoly (e.take k ++ ((e.drop k).take (w + 1) ++ (e.drop k).drop (w + 1))) := by
          rw [List.take_append_drop, List.take_append_drop]
      _ = bitPoly ((e.drop k).take (w + 1)) * X ^ ((e.drop k).drop (w + 1)).length := by
          rw [bitPoly_append, bitPoly_append, hfront, hback, zero_mul, zero_add, add_zero]
  rw [hsplit] at hne ⊢
  exact residue_shifted_ne_zero h (List.length_take_le _ _) (left_ne_zero_of_mul hne) _

end Detection

end DeftRpc.Foundation
