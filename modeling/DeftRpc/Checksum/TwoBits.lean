import DeftRpc.Foundation.RegisterPower
import DeftRpc.Checksum.Detection

/-!
# Two flipped bits

The polynomial of Crc32.cpp is primitive: its `X` has order `2^32 - 1`, the product of
the five Fermat primes. So two flipped bits stay unseen at these distances only.
-/

namespace DeftRpc.Checksum
open Polynomial DeftRpc.Foundation

theorem prime_dvd_order {p : ℕ} (hp : p.Prime) (hdvd : p ∣ 2 ^ 32 - 1) :
    p = 3 ∨ p = 5 ∨ p = 17 ∨ p = 257 ∨ p = 65537 := by
  have hfactors : 2 ^ 32 - 1 = 3 * (5 * (17 * (257 * 65537))) := by norm_num
  rw [hfactors, hp.dvd_mul, hp.dvd_mul, hp.dvd_mul, hp.dvd_mul,
    Nat.prime_dvd_prime_iff_eq hp (by norm_num), Nat.prime_dvd_prime_iff_eq hp (by norm_num),
    Nat.prime_dvd_prime_iff_eq hp (by norm_num), Nat.prime_dvd_prime_iff_eq hp (by norm_num),
    Nat.prime_dvd_prime_iff_eq hp (by norm_num)] at hdvd
  exact hdvd

theorem pow_ne_one (exponent : BitVec 32) (n : ℕ) (hvalue : bitsValue (msbBits exponent) 0 = n)
    (hpow : powX polynomial (msbBits exponent) 1#32 ≠ 1#32) : residue polynomial X ^ n ≠ 1 := by
  rw [← hvalue, ne_eq, pow_eq_one_iff_powX]
  exact hpow

theorem orderOf_residue_X : orderOf (residue polynomial X) = 2 ^ 32 - 1 := by
  apply orderOf_eq_of_pow_and_pow_div_prime (by norm_num)
  · have hvalue : bitsValue (msbBits 0xffffffff#32) 0 = 2 ^ 32 - 1 := by decide +kernel
    rw [← hvalue, pow_eq_one_iff_powX]
    decide +kernel
  · intro p hp hdvd
    rcases prime_dvd_order hp hdvd with rfl | rfl | rfl | rfl | rfl
    · exact pow_ne_one 0x55555555#32 _ (by decide +kernel) (by decide +kernel)
    · exact pow_ne_one 0x33333333#32 _ (by decide +kernel) (by decide +kernel)
    · exact pow_ne_one 0x0f0f0f0f#32 _ (by decide +kernel) (by decide +kernel)
    · exact pow_ne_one 0x00ff00ff#32 _ (by decide +kernel) (by decide +kernel)
    · exact pow_ne_one 0x0000ffff#32 _ (by decide +kernel) (by decide +kernel)

/-- The sums of two strings of one length differ as the string of their differences says. -/
theorem generateCrc32_eq_iff {d e : List (BitVec 8)} (hl : d.length = e.length)
    (hlen : d.length < 2 ^ 31) : generateCrc32 d = generateCrc32 e ↔
      residue polynomial (bitPoly (List.zipWith xor (messageBits d) (messageBits e))) = 0 := by
  obtain ⟨a, hd, hra⟩ := generateCrc32_residue d hlen
  obtain ⟨b, he, hrb⟩ := generateCrc32_residue e (by omega)
  have hsum : residue polynomial (wordPoly a) + residue polynomial (wordPoly b) =
      residue polynomial X ^ 32 * residue polynomial (messagePoly d + messagePoly e) := by
    rw [hra, hrb]
    simp only [map_add, map_mul, map_pow]
    ring
  rw [hd, he, Option.some.injEq, ← messagePoly_add d e hl,
    ← residue_X_pow_mul_eq_zero_iff polynomial_low 32, ← hsum]
  constructor
  · intro hab
    rw [hab, ← map_add, CharTwo.add_self_eq_zero, map_zero]
  · intro hz
    apply wordPoly_residue_inj polynomial
    rw [← map_add, residue_eq_zero_iff] at hz
    exact (residue_eq_iff polynomial).mpr hz

theorem xor_eq_some_true_iff {xs ys : List Bool} (hl : xs.length = ys.length) (k : ℕ) :
    (List.zipWith xor xs ys)[k]? = some true ↔ xs[k]? ≠ ys[k]? := by
  rw [List.getElem?_zipWith]
  by_cases hk : k < xs.length
  · rw [List.getElem?_eq_getElem hk, List.getElem?_eq_getElem (hl ▸ hk)]
    simp
  · rw [List.getElem?_eq_none (by omega), List.getElem?_eq_none (by omega)]
    simp

/-- The positions at which the bits of two strings differ. -/
def DifferAt (d e : List (BitVec 8)) (i j : ℕ) : Prop :=
  ∀ k : ℕ, (messageBits d)[k]? ≠ (messageBits e)[k]? ↔ k = i ∨ k = j

theorem DifferAt.eq_some_true_iff {d e : List (BitVec 8)} {i j : ℕ} (h : DifferAt d e i j)
    (hl : d.length = e.length) (k : ℕ) :
    (List.zipWith xor (messageBits d) (messageBits e))[k]? = some true ↔ k = i ∨ k = j := by
  have hbits : (messageBits d).length = (messageBits e).length := by
    rw [messageBits_length, messageBits_length, hl]
  rw [xor_eq_some_true_iff hbits, h]

theorem DifferAt.lt_length {d e : List (BitVec 8)} {i j : ℕ} (h : DifferAt d e i j)
    (hl : d.length = e.length) : j < (List.zipWith xor (messageBits d) (messageBits e)).length := by
  have hsome := (h.eq_some_true_iff hl j).mpr (Or.inr rfl)
  exact (List.getElem?_eq_some_iff.mp hsome).1

theorem DifferAt.generateCrc32_eq_iff {d e : List (BitVec 8)} {i j : ℕ} (h : DifferAt d e i j)
    (hl : d.length = e.length) (hlen : d.length < 2 ^ 31) (hij : i < j) :
    generateCrc32 d = generateCrc32 e ↔ 2 ^ 32 - 1 ∣ j - i := by
  rw [Checksum.generateCrc32_eq_iff hl hlen, pair_residue_eq_zero_iff polynomial polynomial_low hij
    (h.lt_length hl) (h.eq_some_true_iff hl), orderOf_residue_X]

theorem DifferAt.checkCec32_eq {d e : List (BitVec 8)} {i j : ℕ} (h : DifferAt d e i j)
    (hl : d.length = e.length) (hlen : d.length < 2 ^ 31) (hij : i < j) (hacc : checkCec32 d = some true) :
    checkCec32 e = some (decide (2 ^ 32 - 1 ∣ j - i)) := by
  have heq := h.generateCrc32_eq_iff hl hlen hij
  obtain ⟨a, hd, -⟩ := generateCrc32_residue d hlen
  obtain ⟨b, he, -⟩ := generateCrc32_residue e (by omega)
  rw [hd, he, Option.some.injEq] at heq
  rw [checkCec32_of_generate hd, Option.some.injEq, decide_eq_true_iff] at hacc
  rw [checkCec32_of_generate he, Option.some.injEq, decide_eq_decide, ← heq, hacc]
  exact eq_comm

/-- In fewer than 2^29 bytes no two bits are so far apart. -/
theorem DifferAt.detected {d e : List (BitVec 8)} {i j : ℕ} (h : DifferAt d e i j)
    (hl : d.length = e.length) (hlen : d.length < 2 ^ 29) (hij : i < j) :
    generateCrc32 d ≠ generateCrc32 e ∧ (checkCec32 d = some true → checkCec32 e = some false) := by
  have hshort : d.length < 2 ^ 31 := by omega
  have hj := h.lt_length hl
  rw [List.length_zipWith, messageBits_length, messageBits_length, ← hl, Nat.min_self] at hj
  have hfar : ¬ 2 ^ 32 - 1 ∣ j - i := by
    intro hdvd
    have hle := Nat.le_of_dvd (by omega) hdvd
    omega
  refine ⟨fun he => hfar ((h.generateCrc32_eq_iff hl hshort hij).mp he), ?_⟩
  intro hacc
  rw [h.checkCec32_eq hl hshort hij hacc, decide_eq_false hfar]

/-- **Two flipped bits.** -/
theorem generateCrc32_twoBits (d e : List (BitVec 8)) (hl : d.length = e.length)
    (hlen : d.length < 2 ^ 31) (i j : ℕ) (hij : i < j)
    (hdiff : ∀ k : ℕ, (messageBits d)[k]? ≠ (messageBits e)[k]? ↔ k = i ∨ k = j) :
    (generateCrc32 d = generateCrc32 e ↔ 2 ^ 32 - 1 ∣ j - i) ∧
      (checkCec32 d = some true → checkCec32 e = some (decide (2 ^ 32 - 1 ∣ j - i))) := by
  have h : DifferAt d e i j := hdiff
  exact ⟨h.generateCrc32_eq_iff hl hlen hij, h.checkCec32_eq hl hlen hij⟩

theorem generateCrc32_twoBits_lqf :
    (generateCrc32 [0x6c#8, 0x71#8, 0xe6#8] = generateCrc32 [0x6d#8, 0x71#8, 0x66#8] ↔
      2 ^ 32 - 1 ∣ 16 - 7) ∧ (checkCec32 [0x6c#8, 0x71#8, 0xe6#8] = some true →
      checkCec32 [0x6d#8, 0x71#8, 0x66#8] = some (decide (2 ^ 32 - 1 ∣ 16 - 7))) := by
  apply generateCrc32_twoBits [0x6c#8, 0x71#8, 0xe6#8] [0x6d#8, 0x71#8, 0x66#8] rfl (by decide) 7 16
    (by decide)
  intro k
  by_cases hk : k < 24
  · have hall : ∀ k < 24, (messageBits [0x6c#8, 0x71#8, 0xe6#8])[k]? ≠
        (messageBits [0x6d#8, 0x71#8, 0x66#8])[k]? ↔ k = 7 ∨ k = 16 := by decide
    exact hall k hk
  · rw [List.getElem?_eq_none (by simpa using hk), List.getElem?_eq_none (by simpa using hk)]
    have hlarge : ¬ (k = 7 ∨ k = 16) := by omega
    simp [hlarge]

end DeftRpc.Checksum
