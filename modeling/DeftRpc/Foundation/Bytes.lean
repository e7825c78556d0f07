import Mathlib.Tactic

/-!
# Bytes and the memory image of an unsigned integer

`leBytes w n` are the `w` bytes at which a little-endian machine keeps `n`,
`leVal` reads them back.
-/

namespace DeftRpc.Foundation

abbrev Byte := Fin 256

instance byteNeZero : NeZero 256 := ⟨by decide⟩

def leBytes : ℕ → ℕ → List Byte
  | 0, _ => []
  | w + 1, n => Fin.ofNat 256 n :: leBytes w (n / 256)

def leVal : List Byte → ℕ
  | [] => 0
  | b :: bs => b.val + 256 * leVal bs

@[simp] theorem leBytes_length (w n : ℕ) : (leBytes w n).length = w := by
  induction w generalizing n with
  | zero => rfl
  | succ w ih => rw [leBytes, List.length_cons, ih]

theorem leVal_lt (bs : List Byte) : leVal bs < 256 ^ bs.length := by
  induction bs with
  | nil => exact Nat.one_pos
  | cons b bs ih =>
    have hb := b.isLt
    rw [leVal, List.length_cons, Nat.pow_succ]
    omega

theorem leVal_leBytes {w n : ℕ} (h : n < 256 ^ w) : leVal (leBytes w n) = n := by
  induction w generalizing n with
  | zero =>
    have hn : n = 0 := by
      rw [Nat.pow_zero] at h
      omega
    rw [hn]
    rfl
  | succ w ih =>
    have hd : n / 256 < 256 ^ w := by
      rw [Nat.pow_succ] at h
      omega
    rw [leBytes, leVal, ih hd, Fin.val_ofNat]
    omega

theorem leBytes_leVal (bs : List Byte) : leBytes bs.length (leVal bs) = bs := by
  induction bs with
  | nil => rfl
  | cons b bs ih =>
    have hb := b.isLt
    have hq : (b.val + 256 * leVal bs) / 256 = leVal bs := by omega
    have hr : Fin.ofNat 256 (b.val + 256 * leVal bs) = b := by
      apply Fin.ext
      rw [Fin.val_ofNat]
      omega
    rw [List.length_cons, leVal, leBytes, hq, hr, ih]

/-! ### Network byte order -/

theorem reversed_twice {w n : ℕ} (h : n < 256 ^ w) :
    leVal (leBytes w (leVal (leBytes w n).reverse)).reverse = n := by
  have hl : (leBytes w n).reverse.length = w := by rw [List.length_reverse, leBytes_length]
  have hb := leBytes_leVal (leBytes w n).reverse
  rw [hl] at hb
  rw [hb, List.reverse_reverse]
  exact leVal_leBytes h

/-- Of a `std::uint32_t`. -/
def htonl (n : ℕ) : ℕ := leVal (leBytes 4 n).reverse

def ntohl (n : ℕ) : ℕ := leVal (leBytes 4 n).reverse

theorem ntohl_htonl {n : ℕ} (h : n < 4294967296) : ntohl (htonl n) = n := reversed_twice h

def htons (n : UInt16) : UInt16 := UInt16.ofNat (leVal (leBytes 2 n.toNat).reverse)

def ntohs (n : UInt16) : UInt16 := UInt16.ofNat (leVal (leBytes 2 n.toNat).reverse)

theorem reversed_lt (n : UInt16) : leVal (leBytes 2 n.toNat).reverse < 65536 := by
  have hlt := leVal_lt (leBytes 2 n.toNat).reverse
  rw [List.length_reverse, leBytes_length] at hlt
  exact hlt

theorem htons_ntohs (n : UInt16) : htons (ntohs n) = n := by
  apply UInt16.toNat_inj.mp
  rw [htons, ntohs, UInt16.toNat_ofNat_of_lt' (reversed_lt n), reversed_twice n.toNat_lt]
  exact UInt16.toNat_ofNat_of_lt' n.toNat_lt

end DeftRpc.Foundation
