import DeftRpc.Buffer.RingBuffer

/-!
# The ring invariant and what one operation does with the content

A buffer is empty with all counters zero, or its bytes lie in one range, or
they wrap. A full buffer is of the second or the third kind. `content` reads
the unread bytes in queue order in all three cases.
-/

namespace DeftRpc.Buffer.RingBuffer
open DeftRpc.Foundation

/-- The largest total for which no `uint32_t` or `int` computed on the way wraps. -/
def maxTotal : ℕ := 2147483648

/-- The counters describe a range of the storage. -/
structure Layout (b : RingBuffer) : Prop where
  capLt : b.mBuffer.length < 4294967296
  beginLt : b.mBegin < b.mBuffer.length
  layout : (b.mSize = 0 ∧ b.mBegin = 0 ∧ b.mEnd = 0) ∨
    (b.mBegin < b.mEnd ∧ b.mEnd = b.mBegin + b.mSize ∧ b.mEnd ≤ b.mBuffer.length) ∨
    (0 < b.mSize ∧ b.mEnd ≤ b.mBegin ∧ b.mEnd + b.mBuffer.length = b.mBegin + b.mSize)

structure Inv (b : RingBuffer) : Prop extends Layout b where
  capLe : b.mBuffer.length ≤ maxTotal
  capGe : defaultBufferLen ≤ b.mBuffer.length
  capMul : b.mBuffer.length % singleExpansion = 0

/-- The unread bytes, oldest first. -/
def content (b : RingBuffer) : List Byte := ringView b.mBuffer b.mBegin b.mSize

theorem Layout.sizeLe {b : RingBuffer} (h : Layout b) : b.mSize ≤ b.mBuffer.length := by
  have hb := h.beginLt
  rcases h.layout with hl | hl | hl <;> omega

theorem Layout.capacity_eq {b : RingBuffer} (h : Layout b) : b.capacity = b.mBuffer.length :=
  u32_of_lt h.capLt

theorem Layout.content_length {b : RingBuffer} (h : Layout b) : b.content.length = b.mSize :=
  ringView_length h.sizeLe

theorem Layout.content_eq_nil {b : RingBuffer} (h : Layout b) :
    b.content = [] ↔ b.mSize = 0 := by
  rw [← List.length_eq_zero_iff, h.content_length]

theorem fresh_inv : Inv fresh where
  capLt := by simp only [fresh, List.length_replicate, defaultBufferLen]; omega
  capLe := by simp only [fresh, List.length_replicate, defaultBufferLen, maxTotal]; omega
  capGe := by simp only [fresh, List.length_replicate, le_refl]
  capMul := by simp only [fresh, List.length_replicate, defaultBufferLen, singleExpansion]
  beginLt := by simp only [fresh, List.length_replicate, defaultBufferLen]; omega
  layout := Or.inl ⟨rfl, rfl, rfl⟩

@[simp] theorem fresh_content : fresh.content = [] := rfl

/-! ### Lengths -/

theorem Layout.empty_iff {b : RingBuffer} (h : Layout b) : b.empty = true ↔ b.mSize = 0 := by
  simp only [empty, Bool.and_eq_true, beq_iff_eq]
  rcases h.layout with hl | hl | hl <;> omega

theorem isFull_iff (b : RingBuffer) :
    b.isFull = true ↔ b.mBegin = b.mEnd ∧ b.mSize = b.mBuffer.length := by
  simp only [isFull, Bool.and_eq_true, beq_iff_eq]

theorem Layout.tailContentLen_empty {b : RingBuffer} (hl : Layout b) (h : b.mSize = 0) :
    b.getTailContentLen = 0 := by
  simp only [getTailContentLen, hl.empty_iff.mpr h, Bool.or_true, if_true]

theorem Layout.tailContentLen_wrapped {b : RingBuffer} (hl : Layout b) (hs : 0 < b.mSize)
    (h : b.mEnd ≤ b.mBegin) : b.getTailContentLen = b.mBuffer.length - b.mBegin := by
  have he : b.empty = false := by
    rw [Bool.eq_false_iff, Ne, hl.empty_iff]
    omega
  have hb : ¬ b.mBegin < b.mEnd := by omega
  simp only [getTailContentLen, hb, decide_false, he, Bool.or_self, Bool.false_eq_true, if_false,
    hl.capacity_eq]
  exact u32Sub_of_le (le_of_lt hl.beginLt) hl.capLt

theorem Layout.writableCapacity_eq {b : RingBuffer} (hl : Layout b) :
    b.getWritableCapacity = b.mBuffer.length - b.mSize := by
  rw [getWritableCapacity, hl.capacity_eq]
  exact u32Sub_of_le hl.sizeLe hl.capLt

theorem tailContentLen_straight {b : RingBuffer} (h : b.mBegin < b.mEnd) :
    b.getTailContentLen = 0 := by
  simp only [getTailContentLen, h, decide_true, Bool.true_or, if_true]

/-- In front of the end of the storage there is room only when the content lies
in one range that stops short of it. -/
theorem Inv.tailSpaceLen_eq {b : RingBuffer} (hi : Inv b) :
    b.getTailSpaceLen = if b.mEnd ≤ b.mBegin ∧ 0 < b.mSize then 0
      else b.mBuffer.length - b.mEnd := by
  have hc := hi.capLe
  have hb := hi.beginLt
  unfold maxTotal at hc
  have hsub : b.mEnd ≤ b.mBuffer.length → u32Sub b.capacity b.mEnd = b.mBuffer.length - b.mEnd := by
    intro he
    rw [hi.capacity_eq]
    exact u32Sub_of_le he (by omega)
  have hlayout := hi.layout
  have hcond : (decide (b.mBegin > b.mEnd) || b.isFull) = true ↔ b.mEnd ≤ b.mBegin ∧ 0 < b.mSize := by
    rw [Bool.or_eq_true, decide_eq_true_eq, isFull_iff]
    omega
  unfold getTailSpaceLen
  by_cases hm : b.mEnd ≤ b.mBegin ∧ 0 < b.mSize
  · rw [if_pos (hcond.mpr hm), if_pos hm]
  · rw [if_neg (mt hcond.mp hm), if_neg hm]
    exact hsub (by omega)

/-! ### Counters after a read or a write -/

/-- The sum of an index and a length stays a `uint32_t`. -/
theorem Layout.updateAfterRead {b : RingBuffer} (hl : Layout b) {len : ℕ} (h : len ≤ b.mSize)
    (hw : b.mSize = len ∨ b.mBegin + len < 4294967296) :
    Layout (b.updateAfterRead len) ∧ (b.updateAfterRead len).content = b.content.drop len := by
  have hc := hl.capLt
  have hb := hl.beginLt
  have hsz := hl.sizeLe
  unfold RingBuffer.updateAfterRead
  by_cases he : b.mSize = len
  · simp only [he, if_true]
    constructor
    · exact ⟨hc, by dsimp only; omega, Or.inl ⟨rfl, rfl, rfl⟩⟩
    · have hlen : b.content.length ≤ len := by
        rw [hl.content_length]
        omega
      rw [List.drop_of_length_le hlen]
      rfl
  · have hsub : u32Sub b.mSize len = b.mSize - len := u32Sub_of_le h (by omega)
    have hadd : u32 (b.mBegin + len) = b.mBegin + len := u32_of_lt (by omega)
    have hmod : (b.mBegin + len) % b.mBuffer.length = ringIndex b.mBuffer.length b.mBegin len := by
      unfold ringIndex
      split
      · exact Nat.mod_eq_of_lt (by omega)
      · rw [Nat.mod_eq_sub_mod (by omega), Nat.mod_eq_of_lt (by omega)]
    simp only [he, if_false, hsub, hadd, hl.capacity_eq, hmod]
    constructor
    · refine ⟨hc, ?_, ?_⟩
      · dsimp only
        unfold ringIndex
        split <;> omega
      · dsimp only
        unfold ringIndex
        rcases hl.layout with hl | hl | hl
        · omega
        · rw [if_pos (by omega)]
          exact Or.inr (Or.inl (by omega))
        · split
          · exact Or.inr (Or.inr (by omega))
          · exact Or.inr (Or.inl (by omega))
    · exact (ringView_drop (le_of_lt hb) h hsz).symm

theorem updateAfterRead_buffer (b : RingBuffer) (len : ℕ) :
    (b.updateAfterRead len).mBuffer = b.mBuffer := by
  unfold updateAfterRead
  split <;> rfl

theorem Inv.of_layout {b b' : RingBuffer} (h : Inv b) (hl : Layout b') (hbuf : b'.mBuffer = b.mBuffer) :
    Inv b' := by
  refine ⟨hl, ?_, ?_, ?_⟩
  · rw [hbuf]
    exact h.capLe
  · rw [hbuf]
    exact h.capGe
  · rw [hbuf]
    exact h.capMul

theorem updateAfterRead_spec {b : RingBuffer} (hi : Inv b) {len : ℕ} (h : len ≤ b.mSize) :
    Inv (b.updateAfterRead len) ∧ (b.updateAfterRead len).content = b.content.drop len := by
  have hc := hi.capLe
  have hb := hi.beginLt
  have hsz := hi.sizeLe
  unfold maxTotal at hc
  obtain ⟨hl, hcont⟩ := hi.toLayout.updateAfterRead h (Or.inr (by omega))
  exact ⟨hi.of_layout hl (updateAfterRead_buffer b len), hcont⟩

theorem clear_spec {b : RingBuffer} (hi : Inv b) : Inv b.clear ∧ b.clear.content = [] := by
  have hb := hi.beginLt
  exact ⟨⟨⟨hi.capLt, by dsimp only [clear]; omega, Or.inl ⟨rfl, rfl, rfl⟩⟩, hi.capLe, hi.capGe, hi.capMul⟩,
    rfl⟩

/-- The counters after `len` bytes have been stored behind the content: in the
last range when the content wraps or is empty, else at `mEnd` and then around. -/
theorem Layout.updateAfterWrite {b : RingBuffer} (hl : Layout b) {len : ℕ}
    (h : b.mSize + len ≤ b.mBuffer.length)
    (hw : b.mEnd ≤ b.mBegin ∨ b.mEnd + len < 4294967296) :
    Layout (b.updateAfterWrite len) ∧ (b.updateAfterWrite len).mSize = b.mSize + len ∧
      (b.updateAfterWrite len).mBegin = b.mBegin ∧
      (b.updateAfterWrite len).mBuffer = b.mBuffer := by
  have hc := hl.capLt
  have hb := hl.beginLt
  by_cases h0 : len = 0
  · have he : b.updateAfterWrite len = b := by simp only [RingBuffer.updateAfterWrite, h0, if_true]
    rw [he]
    exact ⟨hl, by omega, rfl, rfl⟩
  · have hadd : u32 (b.mSize + len) = b.mSize + len := u32_of_lt (by omega)
    have hend : u32 (b.mEnd + len) = b.mEnd + len := by
      apply u32_of_lt
      rcases hl.layout with hl | hl | hl <;> omega
    by_cases hbe : b.mBegin ≥ b.mEnd
    · simp only [RingBuffer.updateAfterWrite, h0, if_false, hbe, if_true, hadd, hend]
      refine ⟨⟨hc, hb, ?_⟩, trivial, trivial, trivial⟩
      dsimp only
      rcases hl.layout with hl | hl | hl
      · exact Or.inr (Or.inl (by omega))
      · omega
      · exact Or.inr (Or.inr (by omega))
    · simp only [RingBuffer.updateAfterWrite, h0, if_false, hbe, hadd, hend, hl.capacity_eq]
      refine ⟨⟨hc, hb, ?_⟩, trivial, trivial, trivial⟩
      dsimp only
      rcases hl.layout with hl | hl | hl
      · omega
      · by_cases hroom : b.mEnd + len < b.mBuffer.length
        · rw [Nat.mod_eq_of_lt hroom]
          exact Or.inr (Or.inl (by omega))
        · have hm : (b.mEnd + len) % b.mBuffer.length = b.mEnd + len - b.mBuffer.length := by
            rw [Nat.mod_eq_sub_mod (by omega), Nat.mod_eq_of_lt (by omega)]
          rw [hm]
          exact Or.inr (Or.inr (by omega))
      · omega

theorem updateAfterWrite_inv {b : RingBuffer} (hi : Inv b) {len : ℕ}
    (h : b.mSize + len ≤ b.mBuffer.length) :
    Inv (b.updateAfterWrite len) ∧ (b.updateAfterWrite len).mSize = b.mSize + len ∧
      (b.updateAfterWrite len).mBegin = b.mBegin ∧
      (b.updateAfterWrite len).mBuffer = b.mBuffer := by
  have hc := hi.capLe
  have hb := hi.beginLt
  unfold maxTotal at hc
  have hw : b.mEnd ≤ b.mBegin ∨ b.mEnd + len < 4294967296 := by
    rcases hi.layout with hl | hl | hl <;> omega
  obtain ⟨hl, hsize, hbegin, hbuf⟩ := hi.toLayout.updateAfterWrite h hw
  exact ⟨hi.of_layout hl hbuf, hsize, hbegin, hbuf⟩

/-! ### Growth -/

theorem expandLoop_double {oldCapacity needle : ℕ} (ho : oldCapacity ≤ multiplyExpansionLimit)
    (hn : needle ≤ maxTotal) :
    ∀ (turns j : ℕ), j ≤ 20 → 20 < j + turns → 2048 * 2 ^ j < needle →
      ∃ r, expandLoop oldCapacity needle turns (2048 * 2 ^ j) = .ok r ∧ needle ≤ r ∧
        r ≤ maxTotal ∧ r % singleExpansion = 0 := by
  unfold maxTotal at *
  intro turns
  induction turns with
  | zero => intro j hj hf; omega
  | succ turns ih =>
    intro j hj hf hlt
    have hj20 : j < 20 := by
      by_contra hge
      have he : j = 20 := by omega
      subst he
      norm_num at hlt
      omega
    have hpow : 2048 * 2 ^ j * 2 = 2048 * 2 ^ (j + 1) := by
      rw [pow_succ]
      ring
    have hle : 2048 * 2 ^ (j + 1) ≤ 2147483648 := by
      have hp : 2 ^ (j + 1) ≤ 2 ^ 20 := Nat.pow_le_pow_right (by norm_num) (by omega)
      norm_num at hp
      omega
    have hu : u32 (2048 * 2 ^ j * 2) = 2048 * 2 ^ (j + 1) := by
      rw [hpow]
      exact u32_of_lt (by omega)
    simp only [expandLoop, ho, if_true, hu]
    split
    · next hc => exact ih (j + 1) (by omega) (by omega) hc
    · refine ⟨_, rfl, by omega, hle, ?_⟩
      unfold singleExpansion
      omega

theorem expandLoop_linear {oldCapacity needle limit : ℕ}
    (ho : multiplyExpansionLimit < oldCapacity) (hlim : limit % singleExpansion = 0)
    (hlt : limit < 4294967296) (hn : needle ≤ limit) :
    ∀ (turns c : ℕ), c % singleExpansion = 0 → c < needle → needle ≤ c + 1024 * turns →
      ∃ r, expandLoop oldCapacity needle turns c = .ok r ∧ needle ≤ r ∧
        r ≤ limit ∧ r % singleExpansion = 0 := by
  unfold singleExpansion at *
  intro turns
  induction turns with
  | zero => intro c _ hc hf; omega
  | succ turns ih =>
    intro c hm hc hf
    have hle : c + 1024 ≤ limit := by omega
    have hu : u32 (c + singleExpansion) = c + 1024 := u32_of_lt (by unfold singleExpansion; omega)
    have hno : ¬ oldCapacity ≤ multiplyExpansionLimit := by omega
    simp only [expandLoop, hno, if_false, hu]
    split
    · next hlt => exact ih (c + 1024) (by omega) hlt (by omega)
    · next hge => exact ⟨c + 1024, rfl, not_lt.mp hge, hle, by omega⟩

theorem Inv.expandLoop_ok {b : RingBuffer} (hi : Inv b) {needle : ℕ}
    (hlt : b.mBuffer.length < needle) (hn : needle ≤ maxTotal) :
    ∃ r, expandLoop b.mBuffer.length needle 4294967296 b.capacity = .ok r ∧ needle ≤ r ∧
      r ≤ maxTotal ∧ r % singleExpansion = 0 := by
  rw [hi.capacity_eq]
  have hge := hi.capGe
  by_cases ho : b.mBuffer.length ≤ multiplyExpansionLimit
  · have he : b.mBuffer.length = 2048 * 2 ^ 0 := by
      unfold multiplyExpansionLimit at ho
      unfold defaultBufferLen at hge
      omega
    have hd := expandLoop_double ho hn 4294967296 0 (by omega) (by omega)
      (by rw [← he]; exact hlt)
    rw [← he] at hd
    exact hd
  · refine expandLoop_linear (by omega) (by decide) (by decide) hn 4294967296 _ hi.capMul hlt ?_
    unfold maxTotal at hn
    omega

/-- Moving to a larger storage keeps the content and lays it out from index 0. -/
theorem relocate_spec {b : RingBuffer} (hi : Layout b) {temp : List Byte}
    (h : b.mBuffer.length ≤ temp.length) :
    ∃ buffer, b.relocate temp = .ok buffer ∧ buffer.length = temp.length ∧
      ringView buffer 0 b.mSize = b.content := by
  have hb := hi.beginLt
  have hsz := hi.sizeLe
  unfold relocate
  by_cases hbe : b.mBegin < b.mEnd
  · have hl : b.mEnd = b.mBegin + b.mSize ∧ b.mEnd ≤ b.mBuffer.length := by
      rcases hi.layout with hl | hl | hl <;> omega
    have hk : b.mEnd - b.mBegin = b.mSize := by omega
    have hc : (b.mBuffer.drop b.mBegin).take b.mSize = b.content :=
      (ringView_straight (by omega)).symm
    have hcl : b.content.length = b.mSize := hi.content_length
    simp only [hbe, if_true, hk]
    rw [readAt_ok (by omega), hc]
    simp only [Exec.ok_bind]
    rw [writeAt_ok (by omega)]
    refine ⟨_, rfl, paste_length _ _ _ (by omega), ?_⟩
    have hp := ringView_paste temp 0 0 0 b.content (by omega) (by omega) (by omega) (Or.inl rfl)
    simpa only [hcl, Nat.zero_add, ringView_zero, List.nil_append] using hp
  · have htail : (b.mBuffer.drop b.mBegin).take (b.mBuffer.length - b.mBegin)
        = b.mBuffer.drop b.mBegin :=
      List.take_of_length_le (by rw [List.length_drop])
    have hdl : (b.mBuffer.drop b.mBegin).length = b.mBuffer.length - b.mBegin := List.length_drop
    have hpl := paste_length temp 0 (b.mBuffer.drop b.mBegin) (by omega)
    have hend : b.mEnd ≤ b.mBuffer.length := by omega
    have hhl : (b.mBuffer.take b.mEnd).length = b.mEnd := by
      rw [List.length_take]
      omega
    simp only [hbe, if_false]
    rw [readAt_ok (by omega), htail]
    simp only [Exec.ok_bind]
    rw [writeAt_ok (by omega)]
    simp only [Exec.ok_bind]
    rw [readAt_ok (by omega)]
    simp only [Exec.ok_bind, List.drop_zero]
    by_cases h0 : b.mSize = 0
    · have he : b.mEnd = 0 := by
        rcases hi.layout with hl | hl | hl <;> omega
      rw [hi.tailContentLen_empty h0, he, List.take_zero, writeAt_ok (by simp)]
      refine ⟨_, rfl, by rw [paste_nil, hpl], ?_⟩
      rw [h0, ringView_zero, eq_comm, hi.content_eq_nil]
      exact h0
    · have hl : b.mEnd ≤ b.mBegin ∧ b.mEnd + b.mBuffer.length = b.mBegin + b.mSize := by
        rcases hi.layout with hl | hl | hl <;> omega
      rw [hi.tailContentLen_wrapped (by omega) hl.1, writeAt_ok (by omega)]
      refine ⟨_, rfl, by rw [paste_length _ _ _ (by omega), hpl], ?_⟩
      have h1 := ringView_paste temp 0 0 0 (b.mBuffer.drop b.mBegin) (by omega) (by omega)
        (by omega) (Or.inl rfl)
      have h2 := ringView_paste (paste temp 0 (b.mBuffer.drop b.mBegin)) 0
        (b.mBuffer.length - b.mBegin) (b.mBuffer.length - b.mBegin) (b.mBuffer.take b.mEnd)
        (by omega) (by omega) (by omega) (Or.inl (by omega))
      have hsum : b.mBuffer.length - b.mBegin + (b.mBuffer.take b.mEnd).length = b.mSize := by omega
      have hk : b.mBegin + b.mSize - b.mBuffer.length = b.mEnd := by omega
      rw [hsum] at h2
      rw [hdl, Nat.zero_add, ringView_zero, List.nil_append] at h1
      rw [h2, h1, content, ringView_wrapped (by omega) (by omega), hk]

theorem enableWritableSpace_stays {b : RingBuffer} {required : ℕ}
    (hn : b.mSize + required < 4294967296) (h : b.mSize + required ≤ b.mBuffer.length) :
    b.enableWritableSpace required = .ok b := by
  have hu : u32 (required + b.mSize) = b.mSize + required := by
    rw [Nat.add_comm]
    exact u32_of_lt hn
  rw [enableWritableSpace, hu, if_pos h]

theorem Layout.enableWritableSpace_grows {b : RingBuffer} (hl : Layout b) {required r : ℕ}
    (hn : b.mSize + required < 4294967296) (h : b.mBuffer.length < b.mSize + required)
    (hloop : expandLoop b.mBuffer.length (b.mSize + required) 4294967296 b.capacity = .ok r)
    (hge : b.mSize + required ≤ r) (hr : r < 4294967296) :
    ∃ b', b.enableWritableSpace required = .ok b' ∧ Layout b' ∧ b'.content = b.content ∧
      b'.mSize = b.mSize ∧ b'.mBuffer.length = r := by
  have hu : u32 (required + b.mSize) = b.mSize + required := by
    rw [Nat.add_comm]
    exact u32_of_lt hn
  have hc : ¬ b.mBuffer.length ≥ b.mSize + required := by omega
  have hb := hl.beginLt
  have hroom : b.mBuffer.length ≤ (List.replicate r (0 : Byte)).length := by
    rw [List.length_replicate]
    omega
  obtain ⟨buffer, hrel, hlen, hview⟩ := relocate_spec hl hroom
  rw [List.length_replicate] at hlen
  rw [enableWritableSpace, hu, if_neg hc]
  simp only [u32_of_lt hn, hloop, Exec.ok_bind, hrel, Exec.pure_eq_ok]
  refine ⟨_, rfl, ⟨by dsimp only; omega, by dsimp only; omega, ?_⟩, hview, rfl, hlen⟩
  dsimp only
  by_cases h0 : b.mSize = 0
  · exact Or.inl ⟨h0, rfl, h0⟩
  · exact Or.inr (Or.inl (by omega))

theorem enableWritableSpace_spec {b : RingBuffer} (hi : Inv b) {required : ℕ}
    (h : b.mSize + required ≤ maxTotal) :
    ∃ b', b.enableWritableSpace required = .ok b' ∧ Inv b' ∧ b'.content = b.content ∧
      b'.mSize = b.mSize ∧ b.mSize + required ≤ b'.mBuffer.length := by
  have hn : b.mSize + required < 4294967296 := by
    unfold maxTotal at h
    omega
  by_cases hc : b.mSize + required ≤ b.mBuffer.length
  · exact ⟨b, enableWritableSpace_stays hn hc, hi, rfl, rfl, hc⟩
  · obtain ⟨r, hr, hge, hle, hmul⟩ := hi.expandLoop_ok (by omega) h
    have hr32 : r < 4294967296 := by
      unfold maxTotal at hle
      omega
    obtain ⟨b', hgrow, hl, hcont, hsize, hlen⟩ :=
      hi.toLayout.enableWritableSpace_grows hn (by omega) hr hge hr32
    have hcap := hi.capGe
    rw [← hlen] at hge hle hmul
    exact ⟨b', hgrow, ⟨hl, hle, by omega, hmul⟩, hcont, hsize, hge⟩

end DeftRpc.Buffer.RingBuffer
