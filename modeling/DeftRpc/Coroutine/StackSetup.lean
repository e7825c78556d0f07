import DeftRpc.Coroutine.StackRuns
import DeftRpc.Foundation.Alignment

/-!
# Setting up a shared stack (CoroutineContext.h, CoroutineContext.cpp)

The constructor of SharedStack and the addresses that MakeMem and MakeCtx compute, on 64
bits. The constructor keeps the rest of a size that is not whole pages, where MakeMem
keeps the pages of one that it rounds.
-/

namespace DeftRpc.Coroutine
open DeftRpc.Foundation

structure SharedStack where
  mStack : UInt64
  mStackSize : UInt64
  deriving DecidableEq

def SharedStack.atLeastPage (pageSize size : UInt64) : UInt64 :=
  if size < pageSize then pageSize else size

/-- The length that the constructor gives to mmap. -/
def SharedStack.mapSize (pageSize size : UInt64) : UInt64 :=
  let size := SharedStack.atLeastPage pageSize size
  if size &&& (pageSize - 1) ≠ 0 then (size &&& (pageSize - 1)) + pageSize
  else size + pageSize

def SharedStack.construct (pageSize : UInt64) (mmap : UInt64 → UInt64) (size : UInt64) :
    Except String SharedStack :=
  let size := SharedStack.mapSize pageSize size
  let mStack := mmap size
  if mStack = -1 then .error "mmap failed" else .ok ⟨mStack, size⟩

/-- MakeMem of a context with a shared stack. -/
def CoroutineContext.makeMem (stack : SharedStack) (ctx : CoroutineContext) : CoroutineContext :=
  { ctx with mMem := { ctx.mMem with
    mStackBuffer := stack.mStack.toNat, mStackSize := stack.mStackSize.toNat,
    mStackBp := (stack.mStack + stack.mStackSize).toNat, mShareStack := true } }

/-- MakeCtx after the owner of the stack is saved; it writes the return address. -/
def CoroutineContext.makeCtx (memory : ℕ → Byte) (ctx : CoroutineContext) :
    CoroutineContext × (ℕ → Byte) :=
  let sp := (UInt64.ofNat ctx.mMem.mStackBp - 8) &&& -16
  ({ ctx with mCtx := ⟨sp.toNat, ctx.mFunc⟩ }, store memory sp.toNat (leBytes 8 ctx.mFunc))

/-- A mapping is not empty, begins with a page but not at the null pointer, and ends in the
address space. -/
structure MmapDocumented (pageSize : UInt64) (mmap : UInt64 → UInt64) : Prop where
  length : ∀ len, mmap len ≠ -1 → len ≠ 0
  mapped : ∀ len, mmap len ≠ -1 → mmap len ≠ 0
  page : ∀ len, mmap len ≠ -1 → pageSize.toNat ∣ (mmap len).toNat
  space : ∀ len, mmap len ≠ -1 → (mmap len).toNat + len.toNat < 18446744073709551616

/-! ### The length of the mapping -/

namespace SharedStack
variable {pageSize size : UInt64}

/-- Less than a page, or whole pages. -/
def WholePages (pageSize size : UInt64) : Prop := size < pageSize ∨ pageSize.toNat ∣ size.toNat

theorem and_page_toNat (hpage : ∃ k, pageSize.toNat = 2 ^ k) (n : UInt64) :
    (n &&& (pageSize - 1)).toNat = n.toNat % pageSize.toNat := by
  obtain ⟨k, hk⟩ := hpage
  have hpos : 1 ≤ pageSize.toNat := by
    rw [hk]
    exact Nat.one_le_two_pow
  rw [UInt64.toNat_and, UInt64.toNat_sub_of_le _ _ hpos, hk]
  exact Nat.and_two_pow_sub_one_eq_mod n.toNat k

theorem page_le (hpage : ∃ k, pageSize.toNat = 2 ^ k) : pageSize.toNat ≤ 2 ^ 63 := by
  obtain ⟨k, hk⟩ := hpage
  have hlt := pageSize.toNat_lt
  rw [hk] at hlt ⊢
  have hk64 : k < 64 := (Nat.pow_lt_pow_iff_right (by omega)).mp hlt
  exact Nat.pow_le_pow_right (by omega) (by omega)

theorem le_atLeastPage (pageSize size : UInt64) :
    size.toNat ≤ (atLeastPage pageSize size).toNat ∧
      pageSize.toNat ≤ (atLeastPage pageSize size).toNat := by
  rw [atLeastPage]
  split
  case isTrue h => exact ⟨Nat.le_of_lt h, le_refl _⟩
  case isFalse h => exact ⟨le_refl _, Nat.le_of_not_lt h⟩

theorem dvd_atLeastPage_iff :
    pageSize.toNat ∣ (atLeastPage pageSize size).toNat ↔ WholePages pageSize size := by
  rw [atLeastPage, WholePages]
  split
  case isTrue h => simp [h]
  case isFalse h => simp [h]

theorem mapSize_whole (hpage : ∃ k, pageSize.toNat = 2 ^ k) (h : WholePages pageSize size) :
    mapSize pageSize size = atLeastPage pageSize size + pageSize := by
  have hzero : atLeastPage pageSize size &&& (pageSize - 1) = 0 := by
    apply UInt64.toNat_inj.mp
    rw [and_page_toNat hpage]
    exact Nat.mod_eq_zero_of_dvd (dvd_atLeastPage_iff.mpr h)
  simp [mapSize, hzero]

/-- The sum wraps around only to zero. -/
theorem mapSize_whole_toNat (hpage : ∃ k, pageSize.toNat = 2 ^ k) (h : WholePages pageSize size)
    (hne : mapSize pageSize size ≠ 0) : (mapSize pageSize size).toNat
      = (atLeastPage pageSize size).toNat + pageSize.toNat := by
  have hne' : (mapSize pageSize size).toNat ≠ 0 := fun h0 => hne (UInt64.toNat_inj.mp h0)
  rw [mapSize_whole hpage h, UInt64.toNat_add] at hne' ⊢
  have hlt := (atLeastPage pageSize size).toNat_lt
  have hp := page_le hpage
  have hpow : pageSize.toNat ∣ 2 ^ 64 := by
    obtain ⟨k, hk⟩ := hpage
    rw [hk] at hp ⊢
    exact Nat.pow_dvd_pow 2 (((Nat.pow_le_pow_iff_right (by omega)).mp hp).trans (by omega))
  have hle := Nat.le_of_dvd (by omega) (Nat.dvd_sub hpow (dvd_atLeastPage_iff.mpr h))
  omega

theorem mapSize_rest (hpage : ∃ k, pageSize.toNat = 2 ^ k) (h : ¬ WholePages pageSize size) :
    (mapSize pageSize size).toNat = size.toNat % pageSize.toNat + pageSize.toNat := by
  have hrest : ¬ pageSize.toNat ∣ (atLeastPage pageSize size).toNat := by
    rw [dvd_atLeastPage_iff]
    exact h
  have hmod := and_page_toNat hpage (atLeastPage pageSize size)
  have hne : atLeastPage pageSize size &&& (pageSize - 1) ≠ 0 := by
    intro h0
    rw [h0] at hmod
    exact hrest (Nat.dvd_of_mod_eq_zero hmod.symm)
  have hsize : atLeastPage pageSize size = size := if_neg fun hlt => h (Or.inl hlt)
  have hpos : 0 < pageSize.toNat := by
    obtain ⟨k, hk⟩ := hpage
    rw [hk]
    exact Nat.two_pow_pos k
  have hlt := Nat.mod_lt size.toNat hpos
  have hle := page_le hpage
  rw [hsize] at hmod hne
  simp only [mapSize, hsize, if_pos hne, UInt64.toNat_add, hmod]
  exact Nat.mod_eq_of_lt (by omega)

theorem mapSize_rest_not_dvd (hpage : ∃ k, pageSize.toNat = 2 ^ k)
    (h : ¬ WholePages pageSize size) : ¬ pageSize.toNat ∣ (mapSize pageSize size).toNat := by
  rw [mapSize_rest hpage h, Nat.dvd_add_self_right, Nat.dvd_mod_iff (dvd_refl _)]
  exact fun hdvd => h (Or.inr hdvd)

theorem construct_ok {mmap : UInt64 → UInt64} {stack : SharedStack}
    (h : construct pageSize mmap size = .ok stack) :
    mmap (mapSize pageSize size) ≠ -1 ∧
      stack = ⟨mmap (mapSize pageSize size), mapSize pageSize size⟩ := by
  simp only [construct] at h
  split at h
  case isTrue hfail => cases h
  case isFalse hok =>
    cases h
    exact ⟨hok, rfl⟩

end SharedStack

/-! ### The stack pointer -/

/-- The stack pointer that a coroutine starts with and the slot of its return address. -/
structure SetUp (stack : SharedStack) (ctx : CoroutineContext) : Prop where
  aligned : 16 ∣ ctx.mCtx.kRSP
  low : stack.mStack.toNat ≤ ctx.mCtx.kRSP
  high : ctx.mCtx.kRSP < stack.mStack.toNat + stack.mStackSize.toNat
  slot : ctx.mCtx.kRSP + 8 ≤ stack.mStack.toNat + stack.mStackSize.toNat

def RoomForSlot (addr len : UInt64) : Prop := alignUp 16 addr.toNat + 8 ≤ addr.toNat + len.toNat

theorem makeCtx_kRSP (stack : SharedStack) (ctx : CoroutineContext) (memory : ℕ → Byte) :
    ((ctx.makeMem stack).makeCtx memory).1.mCtx.kRSP
      = alignDown 16 (stack.mStack + stack.mStackSize - 8).toNat := by
  have hmask : (-16 : UInt64).toNat = 2 ^ 64 - 2 ^ 4 := rfl
  rw [CoroutineContext.makeCtx, CoroutineContext.makeMem]
  dsimp only
  rw [UInt64.ofNat_toNat, UInt64.toNat_and, hmask]
  exact and_two_pow_sub_two_pow (by omega) (UInt64.toNat_lt _)

theorem setUp_iff {stack : SharedStack} (ctx : CoroutineContext) (memory : ℕ → Byte)
    (hspace : stack.mStack.toNat + stack.mStackSize.toNat < 18446744073709551616) :
    SetUp stack ((ctx.makeMem stack).makeCtx memory).1
      ↔ RoomForSlot stack.mStack stack.mStackSize := by
  have h8 : (8 : UInt64).toNat = 8 := rfl
  have hsp := makeCtx_kRSP stack ctx memory
  rw [UInt64.toNat_sub, UInt64.toNat_add, Nat.mod_eq_of_lt hspace, h8] at hsp
  constructor
  · intro h
    have hlow := h.low
    have hslot := h.slot
    rw [hsp, ← alignUp_le_iff (by omega)] at hlow
    rw [hsp] at hslot
    -- with less than eight bytes below the top the pointer wraps around
    have htop : 8 ≤ stack.mStack.toNat + stack.mStackSize.toNat := by
      omega
    rw [RoomForSlot]
    omega
  · intro h
    rw [RoomForSlot] at h
    have hwrap : (2 ^ 64 - 8 + (stack.mStack.toNat + stack.mStackSize.toNat)) % 2 ^ 64
        = stack.mStack.toNat + stack.mStackSize.toNat - 8 := by omega
    rw [hwrap] at hsp
    have hle := alignDown_le 16 (stack.mStack.toNat + stack.mStackSize.toNat - 8)
    have hlow : stack.mStack.toNat
        ≤ alignDown 16 (stack.mStack.toNat + stack.mStackSize.toNat - 8) := by
      rw [← alignUp_le_iff (by omega)]
      omega
    rw [← hsp] at hle hlow
    exact ⟨hsp ▸ dvd_alignDown 16 _, hlow, by omega, by omega⟩

/-- Two pages have room, unless they are shorter than the slot. -/
theorem roomForSlot_of_page {pageSize addr len : UInt64} (hpage : ∃ k, pageSize.toNat = 2 ^ k)
    (h8 : 8 ≤ pageSize) (haddr : pageSize.toNat ∣ addr.toNat)
    (hlen : pageSize.toNat + pageSize.toNat ≤ len.toNat) : RoomForSlot addr len := by
  have h8' : 8 ≤ pageSize.toNat := h8
  obtain ⟨k, hk⟩ := hpage
  have hdvd : 8 ∣ addr.toNat := by
    have hk3 : 3 ≤ k := by
      by_contra hlt
      have hle : 2 ^ k ≤ 2 ^ 2 := Nat.pow_le_pow_right (by omega) (by omega)
      omega
    have h8k : 2 ^ 3 ∣ pageSize.toNat := hk ▸ Nat.pow_dvd_pow 2 hk3
    exact h8k.trans haddr
  have hup := alignUp_add_le (by omega) (by omega : 8 ∣ 16) hdvd
  rw [RoomForSlot]
  omega

/-! ### The rounding of MakeMem -/

/-- What MakeMem makes of the size of a stack that is not shared. -/
def ownStackSize (size : UInt64) : UInt64 :=
  if size &&& 0xFFF ≠ 0 then (size &&& ~~~0xFFF) + 0x1000 else size

theorem ownStackSize_toNat {size : UInt64} (h : size.toNat < 18446744073709547520) :
    (ownStackSize size).toNat = alignUp 4096 size.toNat := by
  have hlow : (size &&& 0xFFF).toNat = size.toNat % 4096 := by
    rw [UInt64.toNat_and]
    exact Nat.and_two_pow_sub_one_eq_mod size.toNat 12
  have hhigh : (size &&& ~~~0xFFF).toNat = alignDown 4096 size.toNat := by
    have hmask : (~~~0xFFF : UInt64).toNat = 2 ^ 64 - 2 ^ 12 := rfl
    rw [UInt64.toNat_and, hmask]
    exact and_two_pow_sub_two_pow (by omega) size.toNat_lt
  rw [ownStackSize]
  split
  case isTrue hrest =>
    have hdvd : ¬ 4096 ∣ size.toNat := by
      intro hdvd
      rw [Nat.mod_eq_zero_of_dvd hdvd] at hlow
      exact hrest (UInt64.toNat_inj.mp hlow)
    have hle := alignDown_le 4096 size.toNat
    have hpage : (0x1000 : UInt64).toNat = 4096 := rfl
    rw [alignUp_of_not_dvd (by omega) hdvd, UInt64.toNat_add, hhigh, hpage]
    exact Nat.mod_eq_of_lt (by omega)
  case isFalse hwhole =>
    rw [not_not.mp hwhole] at hlow
    exact (alignUp_of_dvd (by omega) (Nat.dvd_of_mod_eq_zero hlow.symm)).symm

/-! ### Coroutines on the stack -/

section Worlds
variable {ι : Type} [DecidableEq ι]

def SharedStack.Is (stack : SharedStack) (region : StackRegion) : Prop :=
  region.mStack = stack.mStack.toNat ∧ region.mStackSize = stack.mStackSize.toNat

theorem SharedStack.Is.top {stack : SharedStack} {region : StackRegion} (h : stack.Is region) :
    (stack.mStack + stack.mStackSize).toNat = region.mStack + region.mStackSize := by
  rw [h.1, h.2, UInt64.toNat_add]
  apply Nat.mod_eq_of_lt
  rw [← h.1, ← h.2]
  exact region.space

theorem construct_region {pageSize size : UInt64} {mmap : UInt64 → UInt64} {stack : SharedStack}
    (hpage : ∃ k, pageSize.toNat = 2 ^ k) (h4096 : 4096 ≤ pageSize.toNat)
    (hmmap : MmapDocumented pageSize mmap)
    (hmade : SharedStack.construct pageSize mmap size = .ok stack) :
    ∃ region, stack.Is region := by
  obtain ⟨hok, rfl⟩ := SharedStack.construct_ok hmade
  have hpos : (mmap (SharedStack.mapSize pageSize size)).toNat ≠ 0 :=
    fun h0 => hmmap.mapped _ hok (UInt64.toNat_inj.mp h0)
  have hsize : 4096 ≤ (SharedStack.mapSize pageSize size).toNat := by
    by_cases hwhole : SharedStack.WholePages pageSize size
    · rw [SharedStack.mapSize_whole_toNat hpage hwhole (hmmap.length _ hok)]
      omega
    · rw [SharedStack.mapSize_rest hpage hwhole]
      omega
  exact ⟨⟨_, _, Nat.pos_of_ne_zero hpos, hsize, hmmap.space _ hok⟩, rfl, rfl⟩

theorem makeMem_ctxs {w : World ι} {stack : SharedStack} (h : stack.Is w.region) (c : ι) :
    (w.makeMem c).ctxs c = (w.ctxs c).makeMem stack := by
  rw [World.makeMem, World.setCtx, CoroutineContext.makeMem, h.top, ← h.1, ← h.2]
  exact Function.update_self c _ w.ctxs

theorem saveOwnerStack_ctxs {w w' : World ι} {c : ι} (h : w.saveOwnerStack c = .ok w') :
    w'.ctxs c = w.ctxs c := by
  rw [World.saveOwnerStack] at h
  cases howner : w.mOwner with
  | none =>
    rw [howner] at h
    cases h
    rfl
  | some owner =>
    rw [howner] at h
    dsimp only at h
    split at h
    case isTrue hsame =>
      cases h
      rfl
    case isFalse hother =>
      rw [World.saveSharedStack] at h
      dsimp only at h
      split at h
      case isTrue habove => cases h
      case isFalse hbelow =>
        obtain ⟨mem, hmem, h⟩ := Exec.bind_eq_ok h
        split at h
        case h_1 hnone => cases h
        case h_2 saved hsaved =>
          obtain ⟨data, hdata, h⟩ := Exec.bind_eq_ok h
          cases h
          exact Function.update_of_ne (Ne.symm hother) _ w.ctxs

/-- A coroutine that MakeMem and MakeCtx set up in a run has the same context. -/
theorem makeMem_makeCtx_ctxs {w w' : World ι} {stack : SharedStack} {c : ι}
    (h : stack.Is w.region) (hmade : (w.makeMem c).makeCtx c = .ok w') :
    ∃ memory, w'.ctxs c = (((w.ctxs c).makeMem stack).makeCtx memory).1 ∧
      w'.memory = (((w.ctxs c).makeMem stack).makeCtx memory).2 := by
  obtain ⟨w1, hsave, hmade⟩ := Exec.bind_eq_ok hmade
  have hctx : w1.ctxs c = (w.ctxs c).makeMem stack :=
    (saveOwnerStack_ctxs hsave).trans (makeMem_ctxs h c)
  have hsp : ((w1.ctxs c).mMem.mStackBp - 8) / 16 * 16
      = (((w.ctxs c).makeMem stack).makeCtx w1.memory).1.mCtx.kRSP := by
    have hpage := w.region.page
    have h8 : (8 : UInt64) ≤ stack.mStack + stack.mStackSize := by
      rw [UInt64.le_iff_toNat_le, h.top]
      exact (by omega : 8 ≤ 4096).trans (hpage.trans (Nat.le_add_left _ _))
    rw [makeCtx_kRSP, UInt64.toNat_sub_of_le _ _ h8, hctx]
    rfl
  refine ⟨w1.memory, ?_⟩
  dsimp only at hmade
  rw [hsp, hctx] at hmade
  split at hmade
  case isTrue hin =>
    cases hmade
    constructor
    · exact Function.update_self c _ w1.ctxs
    · rfl
  case isFalse hout => cases hmade

end Worlds

/-! ### Every requested size -/

theorem construct_setUp_iff {pageSize size : UInt64} {mmap : UInt64 → UInt64} {stack : SharedStack}
    (hpage : ∃ k, pageSize.toNat = 2 ^ k) (hmmap : MmapDocumented pageSize mmap)
    (hmade : SharedStack.construct pageSize mmap size = .ok stack) :
    (pageSize.toNat ∣ stack.mStackSize.toNat ∧ size ≤ stack.mStackSize ∧
        ∀ (ctx : CoroutineContext) (memory : ℕ → Byte),
          SetUp stack ((ctx.makeMem stack).makeCtx memory).1)
      ↔ SharedStack.WholePages pageSize size ∧
        (8 ≤ pageSize ∨ RoomForSlot (mmap (SharedStack.atLeastPage pageSize size + pageSize))
          (SharedStack.atLeastPage pageSize size + pageSize)) := by
  obtain ⟨hok, rfl⟩ := SharedStack.construct_ok hmade
  have hspace := hmmap.space _ hok
  constructor
  · intro h
    obtain ⟨hdvd, -, hset⟩ := h
    have hwhole : SharedStack.WholePages pageSize size := by
      by_contra hrest
      exact SharedStack.mapSize_rest_not_dvd hpage hrest hdvd
    have hroom := (setUp_iff { mFunc := 0 } (fun _ => 0) hspace).mp (hset _ _)
    rw [SharedStack.mapSize_whole hpage hwhole] at hroom
    exact ⟨hwhole, Or.inr hroom⟩
  · intro h
    obtain ⟨hwhole, hroom⟩ := h
    have hsize := SharedStack.mapSize_whole_toNat hpage hwhole (hmmap.length _ hok)
    obtain ⟨hrequest, hone⟩ := SharedStack.le_atLeastPage pageSize size
    refine ⟨?_, ?_, ?_⟩
    · rw [hsize]
      exact Nat.dvd_add (SharedStack.dvd_atLeastPage_iff.mpr hwhole) (dvd_refl _)
    · rw [UInt64.le_iff_toNat_le, hsize]
      omega
    · intro ctx memory
      rw [setUp_iff ctx memory hspace]
      rcases hroom with h8 | hroom
      · have hlen : pageSize.toNat + pageSize.toNat ≤ (SharedStack.mapSize pageSize size).toNat := by
          omega
        exact roomForSlot_of_page hpage h8 (hmmap.page _ hok) hlen
      · rw [SharedStack.mapSize_whole hpage hwhole]
        exact hroom

/-- A mmap that has the terabyte from one address on to give. -/
def oneRegion (len : UInt64) : UInt64 :=
  if len = 0 ∨ 1099511627776 < len then -1 else 139637976727552

theorem oneRegion_ok {len : UInt64} (h : oneRegion len ≠ -1) :
    len ≠ 0 ∧ len.toNat ≤ 1099511627776 ∧ oneRegion len = 139637976727552 := by
  by_cases hlen : len = 0 ∨ 1099511627776 < len
  · exact absurd (if_pos hlen) h
  · obtain ⟨hne, hle⟩ := not_or.mp hlen
    exact ⟨hne, Nat.le_of_not_lt hle, if_neg hlen⟩

theorem oneRegion_documented : MmapDocumented 4096 oneRegion where
  length _ h := (oneRegion_ok h).1
  mapped len h := by
    obtain ⟨-, -, haddr⟩ := oneRegion_ok h
    rw [haddr]
    decide
  page len h := by
    obtain ⟨-, -, haddr⟩ := oneRegion_ok h
    rw [haddr]
    decide
  space len h := by
    obtain ⟨-, hle, haddr⟩ := oneRegion_ok h
    have h0 : (139637976727552 : UInt64).toNat = 139637976727552 := rfl
    rw [haddr, h0]
    omega

theorem construct_setUp_iff_two_pages :
    (4096 ∣ (12288 : UInt64).toNat ∧ (8192 : UInt64) ≤ 12288 ∧
        ∀ (ctx : CoroutineContext) (memory : ℕ → Byte),
          SetUp ⟨139637976727552, 12288⟩ ((ctx.makeMem ⟨139637976727552, 12288⟩).makeCtx memory).1)
      ↔ SharedStack.WholePages 4096 8192 ∧
        (8 ≤ (4096 : UInt64) ∨ RoomForSlot (oneRegion (SharedStack.atLeastPage 4096 8192 + 4096))
          (SharedStack.atLeastPage 4096 8192 + 4096)) := by
  have hmade : SharedStack.construct 4096 oneRegion 8192 = .ok ⟨139637976727552, 12288⟩ := by
    decide
  exact construct_setUp_iff ⟨12, rfl⟩ oneRegion_documented hmade

/-- Of 10000 bytes the rest over two pages is kept. -/
theorem construct_smaller_than_requested :
    ∃ stack, SharedStack.construct 4096 oneRegion 10000 = .ok stack ∧
      ¬ (4096 ∣ stack.mStackSize.toNat ∧ 10000 ≤ stack.mStackSize ∧
        ∀ (ctx : CoroutineContext) (memory : ℕ → Byte),
          SetUp stack ((ctx.makeMem stack).makeCtx memory).1) :=
  ⟨⟨139637976727552, 5904⟩, by decide, fun h => absurd h.1 (by decide)⟩

end DeftRpc.Coroutine
