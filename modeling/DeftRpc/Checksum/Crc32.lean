import DeftRpc.Foundation.ShiftRegister

/-!
# CRC-32 over a byte table (`common/Crc32.cpp`, `common/Crc32.h`)

A `char` is eight bits; the register and the table entries are `std::uint32_t`.
An out-of-range read or an overflow of the loop's `int` counter has no value.
-/

namespace DeftRpc.Checksum
open Polynomial DeftRpc.Foundation

def sCrc32Table : List (BitVec 32) :=
  [0x00000000, 0x04c11db7, 0x09823b6e, 0x0d4326d9, 0x130476dc, 0x17c56b6b, 0x1a864db2, 0x1e475005,
   0x2608edb8, 0x22c9f00f, 0x2f8ad6d6, 0x2b4bcb61, 0x350c9b64, 0x31cd86d3, 0x3c8ea00a, 0x384fbdbd,
   0x4c11db70, 0x48d0c6c7, 0x4593e01e, 0x4152fda9, 0x5f15adac, 0x5bd4b01b, 0x569796c2, 0x52568b75,
   0x6a1936c8, 0x6ed82b7f, 0x639b0da6, 0x675a1011, 0x791d4014, 0x7ddc5da3, 0x709f7b7a, 0x745e66cd,
   0x9823b6e0, 0x9ce2ab57, 0x91a18d8e, 0x95609039, 0x8b27c03c, 0x8fe6dd8b, 0x82a5fb52, 0x8664e6e5,
   0xbe2b5b58, 0xbaea46ef, 0xb7a96036, 0xb3687d81, 0xad2f2d84, 0xa9ee3033, 0xa4ad16ea, 0xa06c0b5d,
   0xd4326d90, 0xd0f37027, 0xddb056fe, 0xd9714b49, 0xc7361b4c, 0xc3f706fb, 0xceb42022, 0xca753d95,
   0xf23a8028, 0xf6fb9d9f, 0xfbb8bb46, 0xff79a6f1, 0xe13ef6f4, 0xe5ffeb43, 0xe8bccd9a, 0xec7dd02d,
   0x34867077, 0x30476dc0, 0x3d044b19, 0x39c556ae, 0x278206ab, 0x23431b1c, 0x2e003dc5, 0x2ac12072,
   0x128e9dcf, 0x164f8078, 0x1b0ca6a1, 0x1fcdbb16, 0x018aeb13, 0x054bf6a4, 0x0808d07d, 0x0cc9cdca,
   0x7897ab07, 0x7c56b6b0, 0x71159069, 0x75d48dde, 0x6b93dddb, 0x6f52c06c, 0x6211e6b5, 0x66d0fb02,
   0x5e9f46bf, 0x5a5e5b08, 0x571d7dd1, 0x53dc6066, 0x4d9b3063, 0x495a2dd4, 0x44190b0d, 0x40d816ba,
   0xaca5c697, 0xa864db20, 0xa527fdf9, 0xa1e6e04e, 0xbfa1b04b, 0xbb60adfc, 0xb6238b25, 0xb2e29692,
   0x8aad2b2f, 0x8e6c3698, 0x832f1041, 0x87ee0df6, 0x99a95df3, 0x9d684044, 0x902b669d, 0x94ea7b2a,
   0xe0b41de7, 0xe4750050, 0xe9362689, 0xedf73b3e, 0xf3b06b3b, 0xf771768c, 0xfa325055, 0xfef34de2,
   0xc6bcf05f, 0xc27dede8, 0xcf3ecb31, 0xcbffd686, 0xd5b88683, 0xd1799b34, 0xdc3abded, 0xd8fba05a,
   0x690ce0ee, 0x6dcdfd59, 0x608edb80, 0x644fc637, 0x7a089632, 0x7ec98b85, 0x738aad5c, 0x774bb0eb,
   0x4f040d56, 0x4bc510e1, 0x46863638, 0x42472b8f, 0x5c007b8a, 0x58c1663d, 0x558240e4, 0x51435d53,
   0x251d3b9e, 0x21dc2629, 0x2c9f00f0, 0x285e1d47, 0x36194d42, 0x32d850f5, 0x3f9b762c, 0x3b5a6b9b,
   0x0315d626, 0x07d4cb91, 0x0a97ed48, 0x0e56f0ff, 0x1011a0fa, 0x14d0bd4d, 0x19939b94, 0x1d528623,
   0xf12f560e, 0xf5ee4bb9, 0xf8ad6d60, 0xfc6c70d7, 0xe22b20d2, 0xe6ea3d65, 0xeba91bbc, 0xef68060b,
   0xd727bbb6, 0xd3e6a601, 0xdea580d8, 0xda649d6f, 0xc423cd6a, 0xc0e2d0dd, 0xcda1f604, 0xc960ebb3,
   0xbd3e8d7e, 0xb9ff90c9, 0xb4bcb610, 0xb07daba7, 0xae3afba2, 0xaafbe615, 0xa7b8c0cc, 0xa379dd7b,
   0x9b3660c6, 0x9ff77d71, 0x92b45ba8, 0x9675461f, 0x8832161a, 0x8cf30bad, 0x81b02d74, 0x857130c3,
   0x5d8a9099, 0x594b8d2e, 0x5408abf7, 0x50c9b640, 0x4e8ee645, 0x4a4ffbf2, 0x470cdd2b, 0x43cdc09c,
   0x7b827d21, 0x7f436096, 0x7200464f, 0x76c15bf8, 0x68860bfd, 0x6c47164a, 0x61043093, 0x65c52d24,
   0x119b4be9, 0x155a565e, 0x18197087, 0x1cd86d30, 0x029f3d35, 0x065e2082, 0x0b1d065b, 0x0fdc1bec,
   0x3793a651, 0x3352bbe6, 0x3e119d3f, 0x3ad08088, 0x2497d08d, 0x2056cd3a, 0x2d15ebe3, 0x29d4f654,
   0xc5a92679, 0xc1683bce, 0xcc2b1d17, 0xc8ea00a0, 0xd6ad50a5, 0xd26c4d12, 0xdf2f6bcb, 0xdbee767c,
   0xe3a1cbc1, 0xe760d676, 0xea23f0af, 0xeee2ed18, 0xf0a5bd1d, 0xf464a0aa, 0xf9278673, 0xfde69bc4,
   0x89b8fd09, 0x8d79e0be, 0x803ac667, 0x84fbdbd0, 0x9abc8bd5, 0x9e7d9662, 0x933eb0bb, 0x97ffad0c,
   0xafb010b1, 0xab710d06, 0xa6322bdf, 0xa2f33668, 0xbcb4666d, 0xb8757bda, 0xb5365d03, 0xb1f740b4]

/-- `data[i] & 0xff`, the `char` promoted to `int` with its sign. -/
def maskedChar (ch : BitVec 8) : BitVec 32 := ch.signExtend 32 &&& 0xff#32

def crcUpdate (crc : BitVec 32) (ch : BitVec 8) : Option (BitVec 32) := do
  let c := maskedChar ch
  let entry ← sCrc32Table[((crc >>> 24) ^^^ c).toNat]?
  return entry ^^^ (crc <<< 8)

/-- The loop from index `i` on, over the bytes that remain. -/
def crcLoop : List (BitVec 8) → ℕ → BitVec 32 → Option (BitVec 32)
  | [], _, crc => some crc
  | ch :: rest, i, crc => do
    let crc' ← crcUpdate crc ch
    -- `++i` on an `int`
    if i + 1 < 2147483648 then crcLoop rest (i + 1) crc' else none

def generateCrc32 (data : List (BitVec 8)) : Option (BitVec 32) := crcLoop data 0 0#32

def checkCec32 (data : List (BitVec 8)) : Option Bool :=
  (generateCrc32 data).map (fun crc => crc == 0#32)

/-! ### The table -/

def polynomial : BitVec 32 := 0x04c11db7#32

theorem polynomial_low : polynomial.getLsbD 0 = true := by decide

/-- Every entry is its index run through eight steps of the register. -/
theorem table_entry (b : BitVec 8) :
    sCrc32Table[b.toNat]? = some (shiftSteps polynomial 8 (b ++ 0#24)) := by
  have hall : ∀ i : Fin 256, sCrc32Table[i.val]? =
      some (shiftSteps polynomial 8 (BitVec.ofNat 8 i.val ++ 0#24)) := by decide +kernel
  have hb := hall ⟨b.toNat, b.isLt⟩
  rwa [BitVec.ofNat_toNat, BitVec.setWidth_eq] at hb

/-! ### One turn of the loop -/

theorem maskedChar_eq (ch : BitVec 8) : maskedChar ch = ch.setWidth 32 := by
  revert ch
  decide +kernel

theorem split_top (crc : BitVec 32) : crc = crc.extractLsb' 24 8 ++ crc.extractLsb' 0 24 := by
  apply BitVec.eq_of_getLsbD_eq
  intro i hi
  simp
  grind

theorem index_eq (top ch : BitVec 8) (low : BitVec 24) :
    ((top ++ low : BitVec 32) >>> 24) ^^^ maskedChar ch = (top ^^^ ch).setWidth 32 := by
  rw [maskedChar_eq]
  apply BitVec.eq_of_getLsbD_eq
  intro i hi
  grind

theorem shift_byte (top : BitVec 8) (low : BitVec 24) :
    (top ++ low : BitVec 32) <<< 8 = (low ++ 0#8 : BitVec 32) := by
  apply BitVec.eq_of_getLsbD_eq
  intro i hi
  grind

theorem crcUpdate_eq (top ch : BitVec 8) (low : BitVec 24) :
    crcUpdate (top ++ low) ch =
      some (shiftSteps polynomial 8 ((top ^^^ ch) ++ 0#24) ^^^ (low ++ 0#8)) := by
  have hi : (((top ++ low : BitVec 32) >>> 24) ^^^ maskedChar ch).toNat = (top ^^^ ch).toNat := by
    rw [index_eq, BitVec.toNat_setWidth]
    have hlt := (top ^^^ ch).isLt
    omega
  rw [crcUpdate]
  simp only [hi, shift_byte, table_entry]
  rfl

/-- One byte multiplies the register's residue by `X^8` and adds the byte at
`X^32`. -/
theorem crcUpdate_residue (crc : BitVec 32) (ch : BitVec 8) :
    ∃ crc', crcUpdate crc ch = some crc' ∧ residue polynomial (wordPoly crc') =
      residue polynomial (wordPoly crc * X ^ 8 + wordPoly ch * X ^ 32) := by
  have hs := split_top crc
  have hu := crcUpdate_eq (crc.extractLsb' 24 8) ch (crc.extractLsb' 0 24)
  have hp := wordPoly_append (crc.extractLsb' 24 8) (crc.extractLsb' 0 24)
  rw [← hs] at hu hp
  refine ⟨_, hu, ?_⟩
  rw [hp, wordPoly_xor, map_add, residue_shiftSteps, wordPoly_append, wordPoly_append,
    wordPoly_zero, wordPoly_zero, wordPoly_xor]
  simp only [map_add, map_mul, map_pow, add_zero]
  ring

/-! ### The message polynomial -/

/-- The bits of a byte string, most significant first in every byte. -/
def messageBits (data : List (BitVec 8)) : List Bool := data.flatMap msbBits

noncomputable def messagePoly (data : List (BitVec 8)) : (ZMod 2)[X] := bitPoly (messageBits data)

@[simp] theorem messageBits_cons (ch : BitVec 8) (data : List (BitVec 8)) :
    messageBits (ch :: data) = msbBits ch ++ messageBits data := by
  simp [messageBits]

@[simp] theorem messageBits_append (d e : List (BitVec 8)) :
    messageBits (d ++ e) = messageBits d ++ messageBits e := by
  simp [messageBits]

@[simp] theorem messageBits_length (data : List (BitVec 8)) :
    (messageBits data).length = 8 * data.length := by
  induction data with
  | nil => rfl
  | cons ch data ih =>
    rw [messageBits_cons, List.length_append, msbBits_length, ih, List.length_cons]
    omega

theorem messageBits_inj {d e : List (BitVec 8)} (h : messageBits d = messageBits e) : d = e := by
  induction d generalizing e with
  | nil =>
    cases e with
    | nil => rfl
    | cons c e =>
      have hl := congrArg List.length h
      rw [messageBits_length, messageBits_length, List.length_cons, List.length_nil] at hl
      omega
  | cons ch d ih =>
    cases e with
    | nil =>
      have hl := congrArg List.length h
      rw [messageBits_length, messageBits_length, List.length_cons, List.length_nil] at hl
      omega
    | cons c e =>
      rw [messageBits_cons, messageBits_cons] at h
      have hh := List.append_inj h (by simp)
      rw [msbBits_inj hh.1, ih hh.2]

theorem messagePoly_cons (ch : BitVec 8) (data : List (BitVec 8)) :
    messagePoly (ch :: data) = wordPoly ch * X ^ (8 * data.length) + messagePoly data := by
  rw [messagePoly, messageBits_cons, bitPoly_append, messageBits_length]
  rfl

theorem messagePoly_append (d e : List (BitVec 8)) :
    messagePoly (d ++ e) = messagePoly d * X ^ (8 * e.length) + messagePoly e := by
  rw [messagePoly, messageBits_append, bitPoly_append, messageBits_length]
  rfl

/-! ### The whole loop -/

/-- From a register `crc` at index `i` the loop leaves the residue of the bytes
that remain behind it. -/
theorem crcLoop_residue (data : List (BitVec 8)) (i : ℕ) (crc : BitVec 32)
    (h : i + data.length < 2147483648) :
    ∃ crc', crcLoop data i crc = some crc' ∧ residue polynomial (wordPoly crc') =
      residue polynomial (wordPoly crc * X ^ (8 * data.length) + messagePoly data * X ^ 32) := by
  induction data generalizing i crc with
  | nil => exact ⟨crc, rfl, by simp [messagePoly, messageBits, bitPoly]⟩
  | cons ch data ih =>
    rw [List.length_cons] at h
    obtain ⟨crc₁, hstep, hres₁⟩ := crcUpdate_residue crc ch
    obtain ⟨crc₂, hloop, hres₂⟩ := ih (i + 1) crc₁ (by omega)
    have hlt : i + 1 < 2147483648 := by omega
    refine ⟨crc₂, ?_, ?_⟩
    · rw [crcLoop, hstep]
      simpa [hlt] using hloop
    · have hlen : 8 * (ch :: data).length = 8 * data.length + 8 := by
        rw [List.length_cons]
        omega
      rw [hres₂, map_add, map_mul, hres₁, messagePoly_cons, hlen, pow_add]
      simp only [map_add, map_mul, map_pow]
      ring

theorem generateCrc32_residue (data : List (BitVec 8)) (h : data.length < 2147483648) :
    ∃ crc, generateCrc32 data = some crc ∧
      residue polynomial (wordPoly crc) = residue polynomial (messagePoly data * X ^ 32) := by
  obtain ⟨crc, hrun, hres⟩ := crcLoop_residue data 0 0#32 (by omega)
  rw [wordPoly_zero, zero_mul, zero_add] at hres
  exact ⟨crc, hrun, hres⟩

/-- **The table computes the long division.** -/
theorem generateCrc32_eq_remainder (data : List (BitVec 8)) (h : data.length < 2 ^ 31) :
    ∃ crc, generateCrc32 data = some crc ∧
      wordPoly crc = (messagePoly data * X ^ 32) %ₘ modulus polynomial := by
  obtain ⟨crc, hrun, hres⟩ := generateCrc32_residue data h
  exact ⟨crc, hrun, modByMonic_eq_of_residue polynomial (wordPoly_degree_lt crc) hres⟩

theorem generateCrc32_eq_remainder_lqf :
    ∃ crc, generateCrc32 [0x6c#8, 0x71#8, 0xe6#8] = some crc ∧
      wordPoly crc = (messagePoly [0x6c#8, 0x71#8, 0xe6#8] * X ^ 32) %ₘ modulus polynomial :=
  generateCrc32_eq_remainder [0x6c#8, 0x71#8, 0xe6#8] (by decide)

end DeftRpc.Checksum
