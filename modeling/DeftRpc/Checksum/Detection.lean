import DeftRpc.Checksum.Crc32

/-!
# What the checksum detects

`CheckCec32` accepts a string whose register ends at zero. The producer appends
the register's bytes from the most significant one down.
-/

namespace DeftRpc.Checksum
open Polynomial DeftRpc.Foundation

/-- `reinterpret_cast<char *>(&crc) + i` for `i = 3, 2, 1, 0`. -/
def crcBytes (crc : BitVec 32) : List (BitVec 8) :=
  [crc.extractLsb' 24 8, crc.extractLsb' 16 8, crc.extractLsb' 8 8, crc.extractLsb' 0 8]

theorem split_bytes (crc : BitVec 32) :
    crc = crc.extractLsb' 24 8 ++ crc.extractLsb' 16 8 ++ crc.extractLsb' 8 8 ++
      crc.extractLsb' 0 8 := by
  apply BitVec.eq_of_getLsbD_eq
  intro i hi
  simp
  grind

theorem messageBits_crcBytes (crc : BitVec 32) : messageBits (crcBytes crc) = msbBits crc := by
  have hs := congrArg msbBits (split_bytes crc)
  rw [msbBits_append, msbBits_append, msbBits_append] at hs
  rw [hs]
  simp [messageBits, crcBytes]

theorem messagePoly_crcBytes (crc : BitVec 32) : messagePoly (crcBytes crc) = wordPoly crc := by
  rw [messagePoly, messageBits_crcBytes]
  rfl

theorem checkCec32_of_generate {data : List (BitVec 8)} {crc : BitVec 32}
    (h : generateCrc32 data = some crc) : checkCec32 data = some (decide (crc = 0#32)) := by
  rw [checkCec32, h]
  rfl

theorem residue_eq_zero_iff_crc {crc : BitVec 32} :
    residue polynomial (wordPoly crc) = 0 ↔ crc = 0#32 := by
  constructor
  · intro h
    apply wordPoly_residue_inj polynomial
    rw [h, wordPoly_zero, map_zero]
  · intro h
    rw [h, wordPoly_zero, map_zero]

theorem checkCec32_iff {data : List (BitVec 8)} {crc : BitVec 32} (h : data.length < 2147483648)
    (hrun : generateCrc32 data = some crc) :
    crc = 0#32 ↔ residue polynomial (messagePoly data) = 0 := by
  obtain ⟨crc', hrun', hres⟩ := generateCrc32_residue data h
  have hc : crc' = crc := by
    rw [hrun] at hrun'
    exact (Option.some.inj hrun').symm
  rw [hc] at hres
  rw [← residue_eq_zero_iff_crc, hres, mul_comm, map_mul, map_pow,
    residue_X_pow_mul_eq_zero_iff polynomial_low]

/-- Four more bytes end at zero exactly when they are the register's own. -/
theorem residue_suffix_iff {d s : List (BitVec 8)} {crc : BitVec 32} (hs : s.length = 4)
    (hres : residue polynomial (wordPoly crc) = residue polynomial (messagePoly d * X ^ 32)) :
    residue polynomial (messagePoly (d ++ s)) = 0 ↔ s = crcBytes crc := by
  have happ : messagePoly (d ++ s) = messagePoly d * X ^ 32 + messagePoly s := by
    rw [messagePoly_append, hs]
  have hdeg : (messagePoly s).degree < (32 : ℕ) := by
    have hd := bitPoly_degree_lt (messageBits s)
    rw [messageBits_length, hs] at hd
    exact hd
  rw [happ, map_add, ← hres]
  constructor
  · intro h
    have heq : residue polynomial (messagePoly s) = residue polynomial (wordPoly crc) := by
      rw [residue_eq_iff, ← residue_eq_zero_iff, map_add, add_comm]
      exact h
    have hp := eq_of_residue_eq polynomial hdeg (wordPoly_degree_lt crc) heq
    apply messageBits_inj
    apply bitPoly_inj
    · rw [messageBits_length, messageBits_length, hs]
      rfl
    · rw [← messagePoly_crcBytes] at hp
      exact hp
  · intro h
    rw [h, messagePoly_crcBytes, ← map_add, CharTwo.add_self_eq_zero, map_zero]

/-- **The appended checksum.** -/
theorem checkCec32_append (d : List (BitVec 8)) (h : d.length < 2 ^ 31 - 4) :
    ∃ crc, generateCrc32 d = some crc ∧ checkCec32 (d ++ crcBytes crc) = some true ∧
      ∀ s : List (BitVec 8), s.length = 4 → s ≠ crcBytes crc →
        checkCec32 (d ++ s) = some false := by
  obtain ⟨crc, hrun, hres⟩ := generateCrc32_residue d (by omega)
  have hcheck : ∀ s : List (BitVec 8), s.length = 4 →
      checkCec32 (d ++ s) = some (decide (s = crcBytes crc)) := by
    intro s hs
    have hl : (d ++ s).length < 2147483648 := by
      rw [List.length_append]
      omega
    obtain ⟨crc', hrun', -⟩ := generateCrc32_residue (d ++ s) hl
    rw [checkCec32_of_generate hrun', Option.some.injEq, decide_eq_decide,
      checkCec32_iff hl hrun', residue_suffix_iff hs hres]
  refine ⟨crc, hrun, ?_, ?_⟩
  · rw [hcheck (crcBytes crc) rfl, decide_eq_true rfl]
  · intro s hs hne
    rw [hcheck s hs, decide_eq_false hne]

theorem checkCec32_append_lqf :
    ∃ crc, generateCrc32 [0x6c#8, 0x71#8, 0xe6#8] = some crc ∧
      checkCec32 ([0x6c#8, 0x71#8, 0xe6#8] ++ crcBytes crc) = some true ∧
      ∀ s : List (BitVec 8), s.length = 4 → s ≠ crcBytes crc →
        checkCec32 ([0x6c#8, 0x71#8, 0xe6#8] ++ s) = some false :=
  checkCec32_append [0x6c#8, 0x71#8, 0xe6#8] (by decide)

/-! ### Bursts -/

theorem messagePoly_add (d e : List (BitVec 8)) (hl : d.length = e.length) :
    messagePoly d + messagePoly e =
      bitPoly (List.zipWith xor (messageBits d) (messageBits e)) :=
  (bitPoly_zipWith_xor _ _ (by rw [messageBits_length, messageBits_length, hl])).symm

theorem messagePoly_add_ne_zero {d e : List (BitVec 8)} (hl : d.length = e.length) (hne : d ≠ e) :
    messagePoly d + messagePoly e ≠ 0 := by
  intro h
  have heq : messagePoly d = messagePoly e := by
    rw [← CharTwo.sub_eq_add] at h
    exact sub_eq_zero.mp h
  apply hne
  apply messageBits_inj
  exact bitPoly_inj (by rw [messageBits_length, messageBits_length, hl]) heq

theorem differ_of_xor {xs ys : List Bool} {i : ℕ}
    (h : (List.zipWith xor xs ys)[i]? = some true) : xs[i]? ≠ ys[i]? := by
  intro heq
  rw [List.getElem?_zipWith, ← heq] at h
  cases hx : xs[i]? with
  | none => simp [hx] at h
  | some x => simp [hx] at h

/-- **Bursts of 32 bits are detected.** -/
theorem generateCrc32_burst (d e : List (BitVec 8)) (hl : d.length = e.length)
    (hlen : d.length < 2 ^ 31) (hne : d ≠ e) (k : ℕ)
    (hk : ∀ i, (messageBits d)[i]? ≠ (messageBits e)[i]? → k ≤ i ∧ i < k + 32) :
    generateCrc32 d ≠ generateCrc32 e ∧
      (checkCec32 d = some true → checkCec32 e = some false) := by
  obtain ⟨a, hd, hra⟩ := generateCrc32_residue d hlen
  obtain ⟨b, he, hrb⟩ := generateCrc32_residue e (by omega)
  have hab : a ≠ b := by
    intro hab
    have hz : residue polynomial X ^ 32 * residue polynomial (messagePoly d + messagePoly e) = 0 := by
      have hsum : residue polynomial (messagePoly d * X ^ 32) +
          residue polynomial (messagePoly e * X ^ 32) = 0 := by
        rw [← hra, ← hrb, hab, ← map_add, CharTwo.add_self_eq_zero, map_zero]
      simp only [map_add, map_mul, map_pow] at hsum ⊢
      linear_combination hsum
    rw [residue_X_pow_mul_eq_zero_iff polynomial_low, messagePoly_add d e hl] at hz
    have hnz := messagePoly_add_ne_zero hl hne
    rw [messagePoly_add d e hl] at hnz
    exact burst_residue_ne_zero polynomial_low hnz (fun i hi => hk i (differ_of_xor hi)) hz
  constructor
  · rw [hd, he]
    simpa using hab
  · intro hacc
    rw [checkCec32_of_generate hd, Option.some.injEq, decide_eq_true_iff] at hacc
    rw [checkCec32_of_generate he, decide_eq_false]
    intro hb
    exact hab (hacc.trans hb.symm)

theorem generateCrc32_burst_lqf :
    generateCrc32 [0x6c#8, 0x71#8, 0xe6#8] ≠ generateCrc32 [0x6d#8, 0x71#8, 0x66#8] ∧
      (checkCec32 [0x6c#8, 0x71#8, 0xe6#8] = some true →
        checkCec32 [0x6d#8, 0x71#8, 0x66#8] = some false) := by
  apply generateCrc32_burst [0x6c#8, 0x71#8, 0xe6#8] [0x6d#8, 0x71#8, 0x66#8] rfl (by decide)
    (by decide) 0
  intro i hi
  by_contra hout
  have hi24 : 24 ≤ i := by omega
  apply hi
  rw [List.getElem?_eq_none (by simpa using hi24), List.getElem?_eq_none (by simpa using hi24)]

end DeftRpc.Checksum
