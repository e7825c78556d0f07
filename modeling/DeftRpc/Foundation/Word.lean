import Mathlib.Tactic

/-!
# Fixed-width integers

`std::uint32_t` values are naturals kept below `2^32`, `int` values are
integers; every operation that can wrap says so.
-/

namespace DeftRpc.Foundation

def u32 (n : ℕ) : ℕ := n % 4294967296

/-- `a - b` on `std::uint32_t`. -/
def u32Sub (a b : ℕ) : ℕ := (a + 4294967296 - b) % 4294967296

/-- A wide signed result stored into an `int`. -/
def int32 (n : ℤ) : ℤ := Int.bmod n 4294967296

theorem u32_of_lt {n : ℕ} (h : n < 4294967296) : u32 n = n := Nat.mod_eq_of_lt h

theorem u32Sub_of_le {a b : ℕ} (h : b ≤ a) (ha : a < 4294967296) : u32Sub a b = a - b := by
  unfold u32Sub
  omega

theorem int32_of_lt {n : ℕ} (h : n < 2147483648) : int32 n = n := by
  simp only [int32, Int.bmod]
  split <;> omega

theorem int32_neg_of_le {n : ℕ} (h : 2147483648 ≤ n) (hn : n < 4294967296) : int32 n < 0 := by
  simp only [int32, Int.bmod]
  split <;> omega

theorem int32_emod (n : ℤ) : int32 n % 4294967296 = n % 4294967296 := Int.bmod_emod

@[simp] theorem int32_neg_one : int32 (-1) = -1 := by decide

end DeftRpc.Foundation
