import Mathlib.Algebra.Order.Floor.Div
import Mathlib.Tactic

/-!
# Rounding to multiples

The largest multiple below and the smallest multiple above, and the bit masks that
compute them when the unit is a power of two.
-/

namespace DeftRpc.Foundation

def alignDown (a n : ℕ) : ℕ := n / a * a

def alignUp (a n : ℕ) : ℕ := n ⌈/⌉ a * a

theorem dvd_alignDown (a n : ℕ) : a ∣ alignDown a n := Dvd.intro_left (n / a) rfl

theorem dvd_alignUp (a n : ℕ) : a ∣ alignUp a n := Dvd.intro_left (n ⌈/⌉ a) rfl

theorem alignDown_le (a n : ℕ) : alignDown a n ≤ n := Nat.div_mul_le_self n a

theorem alignUp_le_iff {a m n : ℕ} (ha : 0 < a) : alignUp a m ≤ n ↔ m ≤ alignDown a n := by
  rw [alignUp, alignDown, ← Nat.le_div_iff_mul_le ha, ceilDiv_le_iff_le_mul ha, Nat.mul_comm]

theorem alignUp_lt {a : ℕ} (ha : 0 < a) (n : ℕ) : alignUp a n < n + a := by
  have hle := Nat.div_mul_le_self (n + a - 1) a
  rw [alignUp, Nat.ceilDiv_eq_add_pred_div]
  omega

theorem alignUp_add_le {a d n : ℕ} (ha : 0 < a) (hd : d ∣ a) (hn : d ∣ n) :
    alignUp a n + d ≤ n + a := by
  have hlt := alignUp_lt ha n
  have hroom : d ∣ n + a - alignUp a n :=
    Nat.dvd_sub (Nat.dvd_add hn hd) (hd.trans (dvd_alignUp a n))
  have hle := Nat.le_of_dvd (by omega) hroom
  omega

theorem alignDown_of_dvd {a n : ℕ} (h : a ∣ n) : alignDown a n = n := Nat.div_mul_cancel h

theorem le_alignUp {a : ℕ} (ha : 0 < a) (n : ℕ) : n ≤ alignUp a n := by
  have hle := (alignUp_le_iff ha).mp (le_refl (alignUp a n))
  rwa [alignDown_of_dvd (dvd_alignUp a n)] at hle

theorem alignUp_of_dvd {a n : ℕ} (ha : 0 < a) (h : a ∣ n) : alignUp a n = n := by
  apply le_antisymm _ (le_alignUp ha n)
  rw [alignUp_le_iff ha, alignDown_of_dvd h]

theorem alignUp_of_not_dvd {a n : ℕ} (ha : 0 < a) (h : ¬ a ∣ n) :
    alignUp a n = alignDown a n + a := by
  have hdown := alignDown_le a n
  have hup := le_alignUp ha n
  have hne : n ≠ alignUp a n := fun he => h (he ▸ dvd_alignUp a n)
  have hgap := Nat.le_of_dvd (by omega) (Nat.dvd_sub (dvd_alignUp a n) (dvd_alignDown a n))
  apply le_antisymm
  · rw [alignUp_le_iff ha, alignDown_of_dvd (Nat.dvd_add (dvd_alignDown a n) (dvd_refl a))]
    exact Nat.le_of_lt (Nat.lt_div_mul_add ha)
  · omega

/-! ### Masks -/

theorem and_shiftLeft (n m k : ℕ) : n &&& m <<< k = ((n >>> k) &&& m) <<< k := by
  apply Nat.eq_of_testBit_eq
  intro i
  by_cases hi : k ≤ i
  · simp [hi]
  · simp [hi]

theorem and_two_pow_sub_two_pow {k w n : ℕ} (h : k ≤ w) (hn : n < 2 ^ w) :
    n &&& (2 ^ w - 2 ^ k) = alignDown (2 ^ k) n := by
  have hmask : 2 ^ w - 2 ^ k = (2 ^ (w - k) - 1) <<< k := by
    rw [Nat.shiftLeft_eq, Nat.sub_mul, ← Nat.pow_add, Nat.sub_add_cancel h, Nat.one_mul]
  have hlt : n / 2 ^ k < 2 ^ (w - k) := by
    apply Nat.div_lt_of_lt_mul
    rw [← Nat.pow_add, Nat.add_sub_cancel' h]
    exact hn
  calc
    _ = ((n >>> k) &&& (2 ^ (w - k) - 1)) <<< k := by rw [hmask, and_shiftLeft]
    _ = (n / 2 ^ k % 2 ^ (w - k)) <<< k := by
      rw [Nat.and_two_pow_sub_one_eq_mod, Nat.shiftRight_eq_div_pow]
    _ = alignDown (2 ^ k) n := by rw [Nat.mod_eq_of_lt hlt, Nat.shiftLeft_eq, alignDown]

end DeftRpc.Foundation
