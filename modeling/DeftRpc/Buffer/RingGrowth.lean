import DeftRpc.Buffer.FetchSafety

/-!
# How far the storage can grow

The loop of EnableWritableSpace doubles the initial capacity or adds
`SINGLE_EXPANSION` to a greater one, on a `uint32_t` that wraps. A target above
the last value in front of the wrap is never reached.
-/

namespace DeftRpc.Buffer.RingBuffer
open DeftRpc.Foundation

/-- The greatest target that the loop reaches. -/
def growthLimit (capacity : ℕ) : ℕ :=
  if capacity ≤ multiplyExpansionLimit then 2147483648 else 4294966272

def GrowthFits (b : RingBuffer) (length : ℕ) : Prop :=
  b.mSize + length ≤ growthLimit b.mBuffer.length

instance (b : RingBuffer) (length : ℕ) : Decidable (b.GrowthFits length) := Nat.decLe _ _

/-- A storage that only EnableWritableSpace has replaced. -/
structure Wide (b : RingBuffer) : Prop extends Layout b where
  capGe : defaultBufferLen ≤ b.mBuffer.length
  capMul : b.mBuffer.length % singleExpansion = 0

theorem fresh_wide : Wide fresh :=
  { fresh_inv.toLayout with capGe := fresh_inv.capGe, capMul := fresh_inv.capMul }

/-! ### The loop -/

/-- Doubled past `2^31` the counter is zero and stays so. -/
theorem expandLoop_double_diverges {oldCapacity needle : ℕ}
    (ho : oldCapacity ≤ multiplyExpansionLimit) (hn : 2147483648 < needle) (turns c : ℕ)
    (hc : c = 0 ∨ ∃ j, j ≤ 20 ∧ c = 2048 * 2 ^ j) :
    expandLoop oldCapacity needle turns c = .error .diverge := by
  induction turns generalizing c with
  | zero => rfl
  | succ turns ih =>
    have hnext : u32 (c * 2) = 0 ∨ ∃ j, j ≤ 20 ∧ u32 (c * 2) = 2048 * 2 ^ j := by
      rcases hc with h0 | ⟨j, hj, hcj⟩
      · left
        rw [h0]
        rfl
      · by_cases h20 : j = 20
        · left
          rw [hcj, h20]
          decide
        · right
          have hp : 2 ^ (j + 1) ≤ 2 ^ 20 := Nat.pow_le_pow_right (by decide) (by omega)
          have he : c * 2 = 2048 * 2 ^ (j + 1) := by
            rw [hcj, pow_succ]
            ring
          refine ⟨j + 1, by omega, ?_⟩
          rw [he]
          exact u32_of_lt (by norm_num at hp; omega)
    have hlt : u32 (c * 2) < needle := by
      rcases hnext with h0 | ⟨j, hj, hcj⟩
      · omega
      · have hp : 2 ^ j ≤ 2 ^ 20 := Nat.pow_le_pow_right (by decide) hj
        norm_num at hp
        omega
    simp only [expandLoop, ho, if_true, hlt]
    exact ih _ hnext

/-- Every value is a multiple of 1024, so none lies in the last 1024 values of the
type. -/
theorem expandLoop_linear_diverges {oldCapacity needle : ℕ}
    (ho : ¬ oldCapacity ≤ multiplyExpansionLimit) (hn : 4294966272 < needle) (turns c : ℕ)
    (hc : c % singleExpansion = 0) :
    expandLoop oldCapacity needle turns c = .error .diverge := by
  unfold singleExpansion at hc
  induction turns generalizing c with
  | zero => rfl
  | succ turns ih =>
    have hnext : u32 (c + singleExpansion) % 1024 = 0 := by
      unfold u32 singleExpansion
      omega
    have hlt : u32 (c + singleExpansion) < needle := by
      unfold u32 singleExpansion at *
      omega
    simp only [expandLoop, ho, if_false, hlt, if_true]
    exact ih _ hnext

theorem Wide.capLe {b : RingBuffer} (h : Wide b) : b.mBuffer.length ≤ growthLimit b.mBuffer.length := by
  have hm := h.capMul
  have hl := h.capLt
  unfold growthLimit multiplyExpansionLimit
  unfold singleExpansion at hm
  split <;> omega

theorem Wide.cap_eq {b : RingBuffer} (h : Wide b) (ho : b.mBuffer.length ≤ multiplyExpansionLimit) :
    b.mBuffer.length = 2048 * 2 ^ 0 := by
  have hge := h.capGe
  unfold multiplyExpansionLimit at ho
  unfold defaultBufferLen at hge
  omega

theorem Wide.expandLoop_ok {b : RingBuffer} (h : Wide b) {length : ℕ} (hfit : b.GrowthFits length)
    (hlt : b.mBuffer.length < b.mSize + length) :
    ∃ r, expandLoop b.mBuffer.length (b.mSize + length) 4294967296 b.capacity = .ok r ∧
      b.mSize + length ≤ r ∧ r < 4294967296 ∧ r % singleExpansion = 0 := by
  rw [h.capacity_eq]
  unfold GrowthFits growthLimit at hfit
  by_cases ho : b.mBuffer.length ≤ multiplyExpansionLimit
  · rw [if_pos ho] at hfit
    have hd := expandLoop_double ho hfit 4294967296 0 (by omega) (by omega)
      (by rw [← h.cap_eq ho]; exact hlt)
    rw [← h.cap_eq ho] at hd
    obtain ⟨r, hr, hge, hle, hmul⟩ := hd
    unfold maxTotal at hle
    exact ⟨r, hr, hge, by omega, hmul⟩
  · rw [if_neg ho] at hfit
    obtain ⟨r, hr, hge, hle, hmul⟩ := expandLoop_linear (Nat.lt_of_not_le ho) (by decide)
      (by decide) hfit 4294967296 _ h.capMul hlt (by omega)
    exact ⟨r, hr, hge, by omega, hmul⟩

theorem Wide.expandLoop_diverges {b : RingBuffer} (h : Wide b) {length : ℕ}
    (hfit : ¬ b.GrowthFits length) :
    expandLoop b.mBuffer.length (b.mSize + length) 4294967296 b.capacity = .error .diverge := by
  rw [h.capacity_eq]
  unfold GrowthFits growthLimit at hfit
  by_cases ho : b.mBuffer.length ≤ multiplyExpansionLimit
  · rw [if_pos ho] at hfit
    exact expandLoop_double_diverges ho (by omega) _ _ (Or.inr ⟨0, by omega, h.cap_eq ho⟩)
  · rw [if_neg ho] at hfit
    exact expandLoop_linear_diverges ho (by omega) _ _ h.capMul

/-! ### One call -/

/-- EnableWritableSpace ends with room for `length` more bytes and the same queue. -/
def Provides (b : RingBuffer) (length : ℕ) : Prop :=
  ∃ b', b.enableWritableSpace length = .ok b' ∧ b.mSize + length ≤ b'.capacity ∧
    b'.content = b.content

theorem Wide.enableWritableSpace_ok {b : RingBuffer} (h : Wide b) {length : ℕ}
    (hn : b.mSize + length < 4294967296) (hfit : b.GrowthFits length) :
    ∃ b', b.enableWritableSpace length = .ok b' ∧ Wide b' ∧ b'.content = b.content ∧
      b'.mSize = b.mSize ∧ b.mSize + length ≤ b'.mBuffer.length := by
  by_cases hc : b.mSize + length ≤ b.mBuffer.length
  · exact ⟨b, enableWritableSpace_stays hn hc, h, rfl, rfl, hc⟩
  · obtain ⟨r, hr, hge, hlt, hmul⟩ := h.expandLoop_ok hfit (by omega)
    obtain ⟨b', hgrow, hl, hcont, hsize, hlen⟩ :=
      h.enableWritableSpace_grows hn (by omega) hr hge hlt
    have hcap := h.capGe
    rw [← hlen] at hge hmul
    exact ⟨b', hgrow, { hl with capGe := by omega, capMul := hmul }, hcont, hsize, hge⟩

theorem Wide.enableWritableSpace_diverges {b : RingBuffer} (h : Wide b) {length : ℕ}
    (hn : b.mSize + length < 4294967296) (hfit : ¬ b.GrowthFits length) :
    b.enableWritableSpace length = .error .diverge := by
  have hcap := h.capLe
  have hu : u32 (length + b.mSize) = b.mSize + length := by
    rw [Nat.add_comm]
    exact u32_of_lt hn
  have hc : ¬ b.mBuffer.length ≥ b.mSize + length := by
    unfold GrowthFits at hfit
    omega
  rw [enableWritableSpace, hu, if_neg hc]
  simp only [u32_of_lt hn, h.expandLoop_diverges hfit, Exec.error_bind]

theorem Wide.provides_iff {b : RingBuffer} (h : Wide b) {length : ℕ}
    (hn : b.mSize + length < 4294967296) : b.Provides length ↔ b.GrowthFits length := by
  constructor
  · intro hp
    by_contra hfit
    obtain ⟨b', hgrow, -⟩ := hp
    rw [h.enableWritableSpace_diverges hn hfit] at hgrow
    cases hgrow
  · intro hfit
    obtain ⟨b', hgrow, hw, hcont, -, hroom⟩ := h.enableWritableSpace_ok hn hfit
    refine ⟨b', hgrow, ?_, hcont⟩
    rw [hw.capacity_eq]
    exact hroom

/-! ### What the calls keep -/

theorem Wide.storage {b : RingBuffer} (h : Wide b) {buffer : List Byte}
    (hl : buffer.length = b.mBuffer.length) : Wide { b with mBuffer := buffer } := by
  refine { capLt := ?_, beginLt := ?_, layout := ?_, capGe := ?_, capMul := ?_ }
  · exact lt_of_eq_of_lt hl h.capLt
  · dsimp only
    rw [hl]
    exact h.beginLt
  · dsimp only
    rw [hl]
    exact h.layout
  · exact le_of_le_of_eq h.capGe hl.symm
  · dsimp only
    rw [hl]
    exact h.capMul

theorem Wide.of_layout {b b' : RingBuffer} (h : Wide b) (hl : Layout b')
    (hbuf : b'.mBuffer = b.mBuffer) : Wide b' := by
  refine { hl with capGe := ?_, capMul := ?_ }
  · rw [hbuf]
    exact h.capGe
  · rw [hbuf]
    exact h.capMul

theorem Wide.afterRead {b : RingBuffer} (h : Wide b) {len : ℕ} (hlen : len ≤ b.mSize)
    (hw : b.mSize = len ∨ b.mBegin + len < 4294967296) : Wide (b.updateAfterRead len) :=
  h.of_layout (h.updateAfterRead hlen hw).1 (updateAfterRead_buffer b len)

theorem Wide.afterWrite {b : RingBuffer} (h : Wide b) {len : ℕ}
    (hroom : b.mSize + len ≤ b.mBuffer.length)
    (hw : b.mEnd ≤ b.mBegin ∨ b.mEnd + len < 4294967296) : Wide (b.updateAfterWrite len) := by
  obtain ⟨hl, -, -, hbuf⟩ := h.updateAfterWrite hroom hw
  exact h.of_layout hl hbuf

theorem enableWritableSpace_grown {b b' : RingBuffer} {required : ℕ}
    (hc : b.mBuffer.length < u32 (required + b.mSize)) (h : b.enableWritableSpace required = .ok b') :
    b'.mBegin = 0 ∧ b'.mEnd = b.mSize := by
  have hno : ¬ b.mBuffer.length ≥ u32 (required + b.mSize) := by omega
  rw [enableWritableSpace, if_neg hno] at h
  obtain ⟨newCapacity, -, h⟩ := Exec.bind_eq_ok h
  obtain ⟨buffer, -, h⟩ := Exec.bind_eq_ok h
  cases h
  exact ⟨rfl, rfl⟩

/-- A write whose index sum is a `uint32_t`. -/
def WriteFits (b : RingBuffer) (len : ℕ) : Prop :=
  b.mSize + len < 4294967296 ∧
    (b.mBuffer.length < b.mSize + len ∨ b.mEnd ≤ b.mBegin ∨ b.mEnd + len < 4294967296)

instance (b : RingBuffer) (len : ℕ) : Decidable (b.WriteFits len) := instDecidableAnd

theorem Wide.grown {b b' : RingBuffer} (h : Wide b) {len : ℕ} (hw : b.WriteFits len)
    (hgrow : b.enableWritableSpace len = .ok b') :
    Wide b' ∧ b'.mSize + len ≤ b'.mBuffer.length ∧
      (b'.mEnd ≤ b'.mBegin ∨ b'.mEnd + len < 4294967296) := by
  obtain ⟨hn, hidx⟩ := hw
  have hfit : b.GrowthFits len := by
    by_contra hfit
    rw [h.enableWritableSpace_diverges hn hfit] at hgrow
    cases hgrow
  obtain ⟨b1, hgrow1, hwide, -, hsize, hroom⟩ := h.enableWritableSpace_ok hn hfit
  rw [hgrow] at hgrow1
  cases hgrow1
  refine ⟨hwide, by omega, ?_⟩
  by_cases hc : b.mSize + len ≤ b.mBuffer.length
  · rw [enableWritableSpace_stays hn hc] at hgrow
    cases hgrow
    omega
  · have hu : u32 (len + b.mSize) = b.mSize + len := by
      rw [Nat.add_comm]
      exact u32_of_lt hn
    have hends := enableWritableSpace_grown (by omega) hgrow
    omega

theorem Wide.afterCall {b b' : RingBuffer} (h : Wide b) {data : List Byte} {len n : ℕ}
    (hw : b.WriteFits len) (hcall : b.write data len = .ok (n, b')) : Wide b' := by
  obtain ⟨grown, hgrow, hrest⟩ := Exec.bind_eq_ok hcall
  obtain ⟨hwide, hroom, hidx⟩ := h.grown hw hgrow
  have hstored : ∀ buffer, buffer.length = grown.mBuffer.length →
      Wide ({ grown with mBuffer := buffer }.updateAfterWrite len) := by
    intro buffer hl
    apply (hwide.storage hl).afterWrite
    · dsimp only
      rw [hl]
      exact hroom
    · exact hidx
  split at hrest
  · obtain ⟨bytes, -, hrest⟩ := Exec.bind_eq_ok hrest
    obtain ⟨buffer, hwrite, hrest⟩ := Exec.bind_eq_ok hrest
    cases hrest
    exact hstored buffer (writeAt_length hwrite)
  · generalize (if grown.getTailSpaceLen > len then len else grown.getTailSpaceLen) = tailCapacity at hrest
    obtain ⟨front, -, hrest⟩ := Exec.bind_eq_ok hrest
    obtain ⟨buffer, hwrite, hrest⟩ := Exec.bind_eq_ok hrest
    dsimp only at hrest
    split at hrest
    · obtain ⟨back, -, hrest⟩ := Exec.bind_eq_ok hrest
      obtain ⟨whole, hwrite2, hrest⟩ := Exec.bind_eq_ok hrest
      cases hrest
      exact hstored whole ((writeAt_length hwrite2).trans (writeAt_length hwrite))
    · cases hrest
      exact hstored buffer (writeAt_length hwrite)

theorem scatter_length {iov : List IoVec} {data : List Byte} {mem mem' : List Byte × List Byte}
    (h : scatter iov data mem = .ok mem') : mem'.1.length = mem.1.length := by
  induction iov generalizing data mem with
  | nil =>
    cases h
    rfl
  | cons v iov ih =>
    obtain ⟨region, off, len⟩ := v
    cases region with
    | storage =>
      obtain ⟨storage, hwrite, h⟩ := Exec.bind_eq_ok h
      exact (ih h).trans (writeAt_length hwrite)
    | expansion =>
      obtain ⟨expansion, -, h⟩ := Exec.bind_eq_ok h
      have hl := ih h
      exact hl

theorem Wide.appendFetched {b b' : RingBuffer} (h : Wide b) {n : ℕ} {expansion : List Byte}
    (hn : b.mSize + n < 4294967296)
    (hw : b.mEnd ≤ b.mBegin ∨ b.mEnd + min n (b.mBuffer.length - b.mSize) < 4294967296)
    (happend : b.appendFetched (b.mBuffer.length - b.mSize) n expansion = .ok b') : Wide b' := by
  have hsz := h.sizeLe
  unfold RingBuffer.appendFetched at happend
  by_cases hmore : n > b.mBuffer.length - b.mSize
  · rw [if_pos hmore] at happend
    rw [Nat.min_eq_right (by omega)] at hw
    obtain ⟨⟨count, grown⟩, hwrite, happend⟩ := Exec.bind_eq_ok happend
    cases happend
    have hsub : u32Sub n (b.mBuffer.length - b.mSize) = n - (b.mBuffer.length - b.mSize) :=
      u32Sub_of_le (by omega) (by omega)
    rw [hsub] at hwrite
    have hroom : b.mSize + (b.mBuffer.length - b.mSize) ≤ b.mBuffer.length := by omega
    obtain ⟨-, hsize, -, hbuf⟩ := h.updateAfterWrite hroom hw
    apply (h.afterWrite hroom hw).afterCall ⟨?_, Or.inl ?_⟩ hwrite
    · rw [hsize]
      omega
    · rw [hsize, hbuf]
      omega
  · rw [if_neg hmore] at happend
    rw [Nat.min_eq_left (by omega)] at hw
    cases happend
    exact h.afterWrite (by omega) hw

theorem Wide.afterFetch {b b' : RingBuffer} (h : Wide b) {data : List Byte} {n : ℤ}
    (hn : b.mSize + (b.delivered data).length < 4294967296)
    (hw : b.mEnd ≤ b.mBegin ∨
      b.mEnd + min (b.delivered data).length (b.mBuffer.length - b.mSize) < 4294967296)
    (hfetch : b.fetchDataFromFd (some data) = .ok (n, b')) : Wide b' := by
  obtain ⟨mem, hscatter, hfetch⟩ := Exec.bind_eq_ok hfetch
  have hl := scatter_length hscatter
  have hstored := h.storage hl
  dsimp only at hfetch hl
  by_cases hbig : 2147483648 ≤ (b.delivered data).length
  · rw [if_pos (int32_neg_of_le hbig (by omega))] at hfetch
    cases hfetch
    exact hstored
  · rw [int32_of_lt (by omega), if_neg (by omega), Int.toNat_natCast, h.writableCapacity_eq,
      ← hl] at hfetch
    rw [← hl] at hw
    obtain ⟨appended, happend, hfetch⟩ := Exec.bind_eq_ok hfetch
    cases hfetch
    exact hstored.appendFetched hn hw happend

theorem Wide.afterFlush {b b' : RingBuffer} (h : Wide b) {k : ℕ} {r : List (List Byte) × ℤ}
    (hw : b.mSize ≤ k ∨ b.mBegin + k < 4294967296)
    (hflush : b.flushDataToFd (some k) = .ok (r, b')) : Wide b' := by
  obtain ⟨iov, hiov, hflat⟩ := flushIov_spec h.toLayout
  have hlen := h.content_length
  have hsz := h.sizeLe
  have hcap := h.capLt
  have hres : kernelWritev (some k) iov = (min k b.mSize : ℕ) := by
    rw [kernelWritev, hflat, hlen]
  unfold flushDataToFd at hflush
  rw [hiov, Exec.ok_bind, hres] at hflush
  dsimp only at hflush
  split at hflush
  · cases hflush
    exact h
  · next hpos =>
    have hsmall : min k b.mSize < 2147483648 := by
      by_contra hbig
      exact hpos (int32_neg_of_le (Nat.le_of_not_lt hbig) (by omega))
    rw [int32_of_lt hsmall, Int.toNat_natCast] at hflush
    cases hflush
    exact h.afterRead (Nat.min_le_right _ _) (by omega)

theorem Wide.afterReading {b b' : RingBuffer} (h : Wide b) {len : ℕ} {data : List Byte}
    (hw : b.mSize ≤ len ∨ b.mBegin + len < 4294967296) (hread : b.read len = .ok (data, b')) :
    Wide b' := by
  rw [read, clamp_eq_min] at hread
  split at hread
  · cases hread
    exact h
  · obtain ⟨bytes, -, hread⟩ := Exec.bind_eq_ok hread
    cases hread
    exact h.afterRead (Nat.min_le_right _ _) (by omega)

/-! ### Runs -/

/-- The sums that a call computes on `m_size_`, `m_begin_` and `m_end_` are
`uint32_t` values. -/
def IndexFits (b : RingBuffer) : IoOp → Prop
  | .call (.write data) => b.WriteFits data.length
  | .call (.read len) => b.mSize ≤ len ∨ b.mBegin + len < 4294967296
  | .call (.flush (some k)) => b.mSize ≤ k ∨ b.mBegin + k < 4294967296
  | .fetch (some data) => b.mSize + (b.delivered data).length < 4294967296 ∧
      (b.mEnd ≤ b.mBegin ∨
        b.mEnd + min (b.delivered data).length (b.mBuffer.length - b.mSize) < 4294967296)
  | _ => True

instance (b : RingBuffer) : ∀ op, Decidable (IndexFits b op)
  | .call (.write _) => instDecidableAnd
  | .call (.read _) | .call (.flush (some _)) => instDecidableOr
  | .fetch (some _) => instDecidableAnd
  | .call (.peek _) | .call (.cPeek _) | .call .clear | .call .size | .call .empty
  | .call (.flush none) | .fetch none => .isTrue trivial

theorem wide_step (b : RingBuffer) (op : IoOp) (o : IoOut) (b' : RingBuffer) (h : Wide b)
    (hok : IndexFits b op) (hstep : ioStep b op = .ok (o, b')) : Wide b' := by
  cases op with
  | fetch answer =>
    obtain ⟨r, hfetch, hstep⟩ := Exec.bind_eq_ok hstep
    cases hstep
    cases answer with
    | none =>
      cases hfetch
      exact h
    | some data => exact h.afterFetch hok.1 hok.2 hfetch
  | call op =>
    obtain ⟨r, hcall, hstep⟩ := Exec.bind_eq_ok hstep
    cases hstep
    cases op with
    | write data =>
      obtain ⟨w, hwrite, hcall⟩ := Exec.bind_eq_ok hcall
      cases hcall
      exact h.afterCall hok hwrite
    | read len =>
      obtain ⟨d, hread, hcall⟩ := Exec.bind_eq_ok hcall
      cases hcall
      exact h.afterReading hok hread
    | peek len =>
      obtain ⟨d, -, hcall⟩ := Exec.bind_eq_ok hcall
      cases hcall
      exact h
    | cPeek len =>
      obtain ⟨d, -, hcall⟩ := Exec.bind_eq_ok hcall
      cases hcall
      exact h
    | clear =>
      cases hcall
      have hb := h.beginLt
      exact h.of_layout ⟨h.capLt, by dsimp only [clear]; omega, Or.inl ⟨rfl, rfl, rfl⟩⟩ rfl
    | size =>
      cases hcall
      exact h
    | empty =>
      cases hcall
      exact h
    | flush answer =>
      obtain ⟨f, hflush, hcall⟩ := Exec.bind_eq_ok hcall
      cases hcall
      cases answer with
      | none =>
        obtain ⟨iov, -, hflush⟩ := Exec.bind_eq_ok hflush
        cases hflush
        exact h
      | some k => exact h.afterFlush hok hflush

/-- In every run whose index sums stay `uint32_t` values, the state reached can
provide room for `length` more bytes exactly when the loop reaches that target. -/
theorem provides_iff_growthFits (ops : List IoOp) (h : StepsOk ioStep IndexFits fresh ops)
    {outs : List IoOut} {b : RingBuffer} (hrun : runOps ioStep fresh ops = .ok (outs, b))
    {length : ℕ} (hn : b.mSize + length < 4294967296) : b.Provides length ↔ b.GrowthFits length :=
  (run_keeps wide_step fresh_wide h hrun).provides_iff hn

theorem provides_iff_growthFits_write :
    ∃ outs b, runOps ioStep fresh [.call (.write [7, 8, 9]), .call (.read 1)] = .ok (outs, b) ∧
      (b.Provides 5000 ↔ b.GrowthFits 5000) := by
  have hrun : runOps ioStep fresh [.call (.write [7, 8, 9]), .call (.read 1)]
      = .ok ([.ret (.count 3), .ret (.bytes [7])],
        ⟨1, 3, 2, [7, 8, 9] ++ List.replicate 2045 0⟩) := by
    decide +kernel
  have hfits : StepsOk ioStep IndexFits fresh [.call (.write [7, 8, 9]), .call (.read 1)] := by
    decide +kernel
  exact ⟨_, _, hrun, provides_iff_growthFits _ hfits hrun (by decide)⟩

/-- On a fresh buffer a target of `2^31 + 1` bytes is never reached. -/
theorem enableWritableSpace_fresh_diverges :
    fresh.mSize + 2147483649 < 4294967296 ∧
      fresh.enableWritableSpace 2147483649 = .error .diverge ∧ ¬ fresh.Provides 2147483649 := by
  have hn : fresh.mSize + 2147483649 < 4294967296 := by decide
  have hfit : ¬ fresh.GrowthFits 2147483649 := by decide +kernel
  have hdiv := fresh_wide.enableWritableSpace_diverges hn hfit
  refine ⟨hn, hdiv, ?_⟩
  intro hp
  obtain ⟨b', hgrow, -⟩ := hp
  rw [hdiv] at hgrow
  cases hgrow

end DeftRpc.Buffer.RingBuffer
