import DeftRpc.Buffer.RingQueue

/-!
# FetchDataFromFd (RingBuffer.cpp:152-187)

readv fills the given segments in order: the free parts of the storage, then
a local array of `MAX_PACKAGE_LEN` bytes, whose bytes are appended through the
growth path.
-/

namespace DeftRpc.Buffer.RingBuffer
open DeftRpc.Foundation

inductive Region where
  | storage
  | expansion
  deriving DecidableEq

structure IoVec where
  region : Region
  off : ℕ
  len : ℕ
  deriving DecidableEq

def IoVec.Covers (v : IoVec) (r : Region) (i : ℕ) : Prop := v.region = r ∧ v.off ≤ i ∧ i < v.off + v.len

/-- The segments handed to readv. -/
def fetchIov (b : RingBuffer) : List IoVec :=
  let writable := b.getWritableCapacity
  let iov := if b.getTailSpaceLen > 0 then
      [⟨.storage, b.mEnd, b.getTailSpaceLen⟩, ⟨.storage, 0, b.mBegin⟩,
        ⟨.expansion, 0, maxPackageLen⟩]
    else [⟨.storage, b.mEnd, writable⟩, ⟨.expansion, 0, maxPackageLen⟩]
  if writable ≥ maxPackageLen then iov.dropLast else iov

def iovTotal (iov : List IoVec) : ℕ := (iov.map IoVec.len).sum

/-- readv stores `data` into the segments in order. -/
def scatter : List IoVec → List Byte → List Byte × List Byte → Exec (List Byte × List Byte)
  | [], _, mem => .ok mem
  | ⟨.storage, off, len⟩ :: iov, data, mem => do
    let storage ← writeAt mem.1 off (data.take len)
    scatter iov (data.drop len) (storage, mem.2)
  | ⟨.expansion, off, len⟩ :: iov, data, mem => do
    let expansion ← writeAt mem.2 off (data.take len)
    scatter iov (data.drop len) (mem.1, expansion)

/-- What readv delivers when `data` is waiting: as much as the segments hold. -/
def delivered (b : RingBuffer) (data : List Byte) : List Byte := data.take (iovTotal b.fetchIov)

/-- The counters moved past what readv stored, the overflow array appended. -/
def appendFetched (b : RingBuffer) (writable resSize : ℕ) (expansion : List Byte) :
    Exec RingBuffer :=
  if resSize > writable then do
    let r ← (b.updateAfterWrite writable).write expansion (u32Sub resSize writable)
    pure r.2
  else pure (b.updateAfterWrite resSize)

/-- `none`: readv fails. -/
def fetchDataFromFd (b : RingBuffer) (answer : Option (List Byte)) : Exec (ℤ × RingBuffer) :=
  match answer with
  | none => .ok (-1, b)
  | some data => do
    let mem ← scatter b.fetchIov (b.delivered data) (b.mBuffer, List.replicate maxPackageLen 0)
    let resSize := int32 (b.delivered data).length
    if resSize < 0 then pure (-1, { b with mBuffer := mem.1 })
    else do
      let b' ← appendFetched { b with mBuffer := mem.1 } b.getWritableCapacity resSize.toNat mem.2
      pure (resSize, b')

/-- The content stops at the end of the storage and free bytes lie before it. -/
def AtEnd (b : RingBuffer) : Prop := 0 < b.mBegin ∧ b.mEnd = b.mBuffer.length

instance (b : RingBuffer) : Decidable b.AtEnd := instDecidableAnd

/-! ### The segments -/

def overflowIov (b : RingBuffer) : List IoVec :=
  if b.mBuffer.length - b.mSize ≥ maxPackageLen then [] else [⟨.expansion, 0, maxPackageLen⟩]

/-- Two free ranges in front of and behind one range of content (or an empty buffer). -/
theorem fetchIov_straight {b : RingBuffer} (hi : Inv b) (hs : b.mEnd = b.mBegin + b.mSize)
    (he : b.mEnd < b.mBuffer.length) :
    b.fetchIov = [⟨.storage, b.mEnd, b.mBuffer.length - b.mEnd⟩, ⟨.storage, 0, b.mBegin⟩]
      ++ b.overflowIov := by
  have hspace : b.getTailSpaceLen = b.mBuffer.length - b.mEnd := by
    rw [hi.tailSpaceLen_eq, if_neg (by omega)]
  have hpos : b.mBuffer.length - b.mEnd > 0 := by omega
  unfold fetchIov overflowIov
  rw [hspace, hi.writableCapacity_eq]
  by_cases hw : b.mBuffer.length - b.mSize ≥ maxPackageLen
  · simp only [hpos, hw, if_true, List.dropLast_cons_cons, List.dropLast_singleton, List.append_nil]
  · simp only [hpos, hw, if_true, if_false, List.cons_append, List.nil_append]

/-- One free range between the newest and the oldest byte, or none at all. -/
theorem fetchIov_wrapped {b : RingBuffer} (hi : Inv b) (h : b.getTailSpaceLen = 0) :
    b.fetchIov = ⟨.storage, b.mEnd, b.mBuffer.length - b.mSize⟩ :: b.overflowIov := by
  unfold fetchIov overflowIov
  rw [h, hi.writableCapacity_eq]
  by_cases hw : b.mBuffer.length - b.mSize ≥ maxPackageLen
  · simp only [gt_iff_lt, lt_irrefl, hw, if_true, if_false, List.dropLast_cons_cons,
      List.dropLast_singleton]
  · simp only [gt_iff_lt, lt_irrefl, hw, if_false]

/-- Where the content lies when it does not stop short at the end of the storage. -/
theorem Inv.fetch_cases {b : RingBuffer} (hi : Inv b) (hn : ¬ b.AtEnd) :
    (b.mEnd = b.mBegin + b.mSize ∧ b.mEnd < b.mBuffer.length) ∨
    (b.getTailSpaceLen = 0 ∧ b.mEnd + (b.mBuffer.length - b.mSize) ≤ b.mBuffer.length ∧
      (b.mEnd = b.mBegin + b.mSize ∨ b.mEnd + b.mBuffer.length = b.mBegin + b.mSize) ∧
      (b.mEnd ≤ b.mBegin ∨ b.mSize = b.mBuffer.length)) := by
  have hb := hi.beginLt
  unfold AtEnd at hn
  rw [hi.tailSpaceLen_eq]
  rcases hi.layout with hl | hl | hl
  · exact Or.inl (by omega)
  · by_cases he : b.mEnd < b.mBuffer.length
    · exact Or.inl (by omega)
    · rw [if_neg (by omega)]
      exact Or.inr (by omega)
  · rw [if_pos (by omega)]
    exact Or.inr (by omega)

theorem iovTotal_eq {b : RingBuffer} (hi : Inv b) (hn : ¬ b.AtEnd) :
    iovTotal b.fetchIov = b.mBuffer.length - b.mSize + iovTotal b.overflowIov := by
  have hsz := hi.sizeLe
  rcases hi.fetch_cases hn with ⟨hs, he⟩ | ⟨h0, -⟩
  · rw [fetchIov_straight hi hs he]
    simp only [iovTotal, List.map_append, List.map_cons, List.map_nil, List.sum_append,
      List.sum_cons, List.sum_nil]
    omega
  · rw [fetchIov_wrapped hi h0]
    simp only [iovTotal, List.map_cons, List.sum_cons]

theorem delivered_le {b : RingBuffer} (hi : Inv b) (hn : ¬ b.AtEnd) (data : List Byte) :
    (b.delivered data).length ≤ b.mBuffer.length - b.mSize + iovTotal b.overflowIov := by
  rw [delivered, List.length_take, iovTotal_eq hi hn]
  exact Nat.min_le_left _ _

/-! ### Storing the delivered bytes -/

theorem scatter_overflow (b : RingBuffer) (storage rest : List Byte)
    (h : rest.length ≤ iovTotal b.overflowIov) :
    ∃ expansion, scatter b.overflowIov rest (storage, List.replicate maxPackageLen 0)
        = .ok (storage, expansion) ∧ rest.length ≤ expansion.length ∧
      expansion.take rest.length = rest := by
  unfold overflowIov at *
  by_cases hw : b.mBuffer.length - b.mSize ≥ maxPackageLen
  · rw [if_pos hw] at h ⊢
    have hr : rest = [] := List.eq_nil_of_length_eq_zero (Nat.le_zero.mp h)
    rw [hr]
    exact ⟨_, rfl, Nat.zero_le _, rfl⟩
  · rw [if_neg hw] at h ⊢
    have hlen : rest.length ≤ maxPackageLen := h
    have hroom : 0 + rest.length ≤ (List.replicate maxPackageLen (0 : Byte)).length := by
      rw [List.length_replicate]
      omega
    refine ⟨paste (List.replicate maxPackageLen 0) 0 rest, ?_, ?_, ?_⟩
    · simp only [scatter, List.take_of_length_le hlen]
      rw [writeAt_ok hroom]
      rfl
    · rw [paste_length _ _ _ hroom]
      omega
    · rw [paste, List.take_zero, List.nil_append, List.take_left]

/-- readv puts the first bytes right behind the content and the rest into the
overflow array. -/
theorem scatter_spec {b : RingBuffer} (hi : Inv b) (hn : ¬ b.AtEnd) {d : List Byte}
    (hd : d.length ≤ b.mBuffer.length - b.mSize + iovTotal b.overflowIov) :
    ∃ storage expansion, scatter b.fetchIov d (b.mBuffer, List.replicate maxPackageLen 0)
        = .ok (storage, expansion) ∧ storage.length = b.mBuffer.length ∧
      ringView storage b.mBegin (b.mSize + (d.take (b.mBuffer.length - b.mSize)).length)
        = b.content ++ d.take (b.mBuffer.length - b.mSize) ∧
      d.length - (b.mBuffer.length - b.mSize) ≤ expansion.length ∧
      expansion.take (d.length - (b.mBuffer.length - b.mSize))
        = d.drop (b.mBuffer.length - b.mSize) := by
  have hb := hi.beginLt
  have hsz := hi.sizeLe
  have hrest : (d.drop (b.mBuffer.length - b.mSize)).length
      = d.length - (b.mBuffer.length - b.mSize) := List.length_drop
  have htl : (d.take (b.mBuffer.length - b.mSize)).length
      = min (b.mBuffer.length - b.mSize) d.length := List.length_take
  rcases hi.fetch_cases hn with ⟨hs, he⟩ | ⟨h0, hend, hpos, -⟩
  · -- Two free ranges: up to the end of the storage, then up to the oldest byte.
    have hk : b.mBuffer.length - b.mSize = b.mBuffer.length - b.mEnd + b.mBegin := by omega
    have hfront : (d.take (b.mBuffer.length - b.mSize)).take (b.mBuffer.length - b.mEnd)
        = d.take (b.mBuffer.length - b.mEnd) := by
      rw [List.take_take, Nat.min_eq_left (by omega)]
    have hback : (d.take (b.mBuffer.length - b.mSize)).drop (b.mBuffer.length - b.mEnd)
        = (d.drop (b.mBuffer.length - b.mEnd)).take b.mBegin := by
      rw [List.drop_take]
      congr 1
      omega
    have hfl : (d.take (b.mBuffer.length - b.mEnd)).length ≤ b.mBuffer.length - b.mEnd := by
      rw [List.length_take]
      exact Nat.min_le_left _ _
    have hbl : ((d.drop (b.mBuffer.length - b.mEnd)).take b.mBegin).length ≤ b.mBegin := by
      rw [List.length_take]
      exact Nat.min_le_left _ _
    have hview := ringView_fill b.mBuffer b.mBegin b.mSize (d.take (b.mBuffer.length - b.mSize))
      (by omega) (by omega)
    rw [← hs, hfront, hback] at hview
    have hp1 := paste_length b.mBuffer b.mEnd (d.take (b.mBuffer.length - b.mEnd)) (by omega)
    have hp2 := paste_length (paste b.mBuffer b.mEnd (d.take (b.mBuffer.length - b.mEnd))) 0
      ((d.drop (b.mBuffer.length - b.mEnd)).take b.mBegin) (by omega)
    obtain ⟨expansion, hov, hlen, htake⟩ := scatter_overflow b (paste (paste b.mBuffer b.mEnd
      (d.take (b.mBuffer.length - b.mEnd))) 0 ((d.drop (b.mBuffer.length - b.mEnd)).take b.mBegin))
      (d.drop (b.mBuffer.length - b.mSize)) (by omega)
    rw [hrest] at hlen htake
    refine ⟨_, expansion, ?_, hp2.trans hp1, hview, hlen, htake⟩
    rw [fetchIov_straight hi hs he]
    simp only [List.cons_append, List.nil_append, scatter]
    rw [writeAt_ok (by omega)]
    simp only [Exec.ok_bind]
    rw [writeAt_ok (by omega)]
    simp only [Exec.ok_bind, List.drop_drop, ← hk]
    exact hov
  · have hview := ringView_paste b.mBuffer b.mBegin b.mSize b.mEnd
      (d.take (b.mBuffer.length - b.mSize)) (by omega) (by omega) (by omega) hpos
    have hp := paste_length b.mBuffer b.mEnd (d.take (b.mBuffer.length - b.mSize)) (by omega)
    obtain ⟨expansion, hov, hlen, htake⟩ := scatter_overflow b (paste b.mBuffer b.mEnd
      (d.take (b.mBuffer.length - b.mSize))) (d.drop (b.mBuffer.length - b.mSize)) (by omega)
    rw [hrest] at hlen htake
    refine ⟨_, expansion, ?_, hp, hview, hlen, htake⟩
    rw [fetchIov_wrapped hi h0]
    simp only [scatter]
    rw [writeAt_ok (by omega)]
    exact hov

/-- Bytes that readv left in the free ranges and in the overflow array become the
newest content. -/
theorem appendFetched_spec {b : RingBuffer} (hi : Inv b) {d storage expansion : List Byte}
    (hsl : storage.length = b.mBuffer.length)
    (hview : ringView storage b.mBegin (b.mSize + (d.take (b.mBuffer.length - b.mSize)).length)
      = b.content ++ d.take (b.mBuffer.length - b.mSize))
    (hel : d.length - (b.mBuffer.length - b.mSize) ≤ expansion.length)
    (het : expansion.take (d.length - (b.mBuffer.length - b.mSize))
      = d.drop (b.mBuffer.length - b.mSize))
    (hs : b.mSize + d.length < maxTotal) :
    ∃ b', appendFetched { b with mBuffer := storage } (b.mBuffer.length - b.mSize) d.length expansion
        = .ok b' ∧ Inv b' ∧ b'.content = b.content ++ d := by
  have hsz := hi.sizeLe
  have htl : (d.take (b.mBuffer.length - b.mSize)).length
      = min (b.mBuffer.length - b.mSize) d.length := List.length_take
  obtain ⟨hinv, hcont⟩ := stored_spec hi hsl (by omega) hview
  unfold appendFetched
  by_cases hmore : d.length > b.mBuffer.length - b.mSize
  · have hsub : u32Sub d.length (b.mBuffer.length - b.mSize)
        = d.length - (b.mBuffer.length - b.mSize) := by
      unfold maxTotal at hs
      exact u32Sub_of_le (by omega) (by omega)
    rw [htl, Nat.min_eq_left (by omega)] at hinv hcont
    have hsz' := hinv.content_length
    rw [hcont, List.length_append, hi.content_length, htl] at hsz'
    obtain ⟨b', hw, hi', hc'⟩ := write_spec hinv hel (by omega)
    rw [if_pos hmore, hsub, hw]
    refine ⟨b', rfl, hi', ?_⟩
    rw [hc', hcont, het, List.append_assoc, List.take_append_drop]
  · have hall : d.take (b.mBuffer.length - b.mSize) = d := List.take_of_length_le (by omega)
    rw [hall] at hinv hcont
    rw [if_neg hmore]
    exact ⟨_, rfl, hinv, hcont⟩

theorem fetchDataFromFd_spec {b : RingBuffer} (hi : Inv b) (hn : ¬ b.AtEnd) (data : List Byte)
    (hs : b.mSize + (b.delivered data).length < maxTotal) :
    ∃ b', b.fetchDataFromFd (some data) = .ok ((b.delivered data).length, b') ∧ Inv b' ∧
      b'.content = b.content ++ b.delivered data := by
  obtain ⟨storage, expansion, hscatter, hsl, hview, hel, het⟩ :=
    scatter_spec hi hn (delivered_le hi hn data)
  obtain ⟨b', happend, hinv, hcont⟩ := appendFetched_spec hi hsl hview hel het hs
  have hint : int32 (b.delivered data).length = (b.delivered data).length := by
    unfold maxTotal at hs
    exact int32_of_lt (by omega)
  refine ⟨b', ?_, hinv, hcont⟩
  unfold fetchDataFromFd
  dsimp only
  rw [hscatter, Exec.ok_bind, hint, if_neg (by omega), Int.toNat_natCast, hi.writableCapacity_eq,
    happend]
  rfl

/-! ### Nothing delivered -/

theorem scatter_nil (iov : List IoVec) (mem : List Byte × List Byte)
    (h : ∀ v ∈ iov, (v.region = .storage → v.off ≤ mem.1.length) ∧
      (v.region = .expansion → v.off ≤ mem.2.length)) :
    scatter iov [] mem = .ok mem := by
  induction iov with
  | nil => rfl
  | cons v iov ih =>
    obtain ⟨region, off, len⟩ := v
    obtain ⟨h1, h2⟩ := h _ List.mem_cons_self
    have ih := ih fun w hw => h w (List.mem_cons_of_mem _ hw)
    cases region with
    | storage =>
      have hoff : off + ([] : List Byte).length ≤ mem.1.length := h1 rfl
      rw [scatter, List.take_nil, writeAt_ok hoff, Exec.ok_bind, paste_nil, List.drop_nil]
      exact ih
    | expansion =>
      have hoff : off + ([] : List Byte).length ≤ mem.2.length := h2 rfl
      rw [scatter, List.take_nil, writeAt_ok hoff, Exec.ok_bind, paste_nil, List.drop_nil]
      exact ih

theorem Inv.endLe {b : RingBuffer} (hi : Inv b) : b.mEnd ≤ b.mBuffer.length := by
  have hb := hi.beginLt
  rcases hi.layout with hl | hl | hl <;> omega

/-- The offset of a segment never leaves its region, its length may. -/
theorem Inv.fetchIov_off {b : RingBuffer} (hi : Inv b) : ∀ v ∈ b.fetchIov,
    (v.region = .storage → v.off ≤ b.mBuffer.length) ∧ (v.region = .expansion → v.off ≤ 0) := by
  have hend := hi.endLe
  have hmem : ∀ v ∈ b.fetchIov, v = ⟨.storage, b.mEnd, b.getTailSpaceLen⟩ ∨
      v = ⟨.storage, b.mEnd, b.getWritableCapacity⟩ ∨ v = ⟨.storage, 0, b.mBegin⟩ ∨
      v = ⟨.expansion, 0, maxPackageLen⟩ := by
    intro v hv
    unfold fetchIov at hv
    dsimp only at hv
    split at hv <;> split at hv <;>
      simp only [List.dropLast_cons_cons, List.dropLast_singleton, List.mem_cons,
        List.not_mem_nil, or_false] at hv <;> tauto
  intro v hv
  rcases hmem v hv with rfl | rfl | rfl | rfl
  · exact ⟨fun _ => hend, fun h => Region.noConfusion h⟩
  · exact ⟨fun _ => hend, fun h => Region.noConfusion h⟩
  · exact ⟨fun _ => Nat.zero_le _, fun h => Region.noConfusion h⟩
  · exact ⟨fun h => Region.noConfusion h, fun _ => le_refl 0⟩

theorem fetchDataFromFd_eof {b : RingBuffer} (hi : Inv b) :
    b.fetchDataFromFd (some []) = .ok (0, b) := by
  have hd : b.delivered [] = [] := List.take_nil
  have hscatter : scatter b.fetchIov [] (b.mBuffer, List.replicate maxPackageLen 0)
      = .ok (b.mBuffer, List.replicate maxPackageLen 0) := by
    apply scatter_nil
    intro v hv
    obtain ⟨h1, h2⟩ := hi.fetchIov_off v hv
    exact ⟨h1, fun h => le_trans (h2 h) (Nat.zero_le _)⟩
  have hint : int32 (([] : List Byte).length : ℤ) = 0 := by decide
  have happend : appendFetched b b.getWritableCapacity 0 (List.replicate maxPackageLen 0)
      = .ok b := by
    rw [appendFetched, if_neg (by omega), updateAfterWrite, if_pos rfl]
    rfl
  unfold fetchDataFromFd
  dsimp only
  rw [hd, hscatter, Exec.ok_bind, hint, if_neg (by omega), Int.toNat_zero, happend, Exec.ok_bind]
  rfl

/-! ### A byte behind the storage -/

theorem Inv.getTailSpaceLen_atEnd {b : RingBuffer} (hi : Inv b) (h : b.AtEnd) :
    b.getTailSpaceLen = 0 ∧ b.mBuffer.length - b.mSize = b.mBegin := by
  obtain ⟨hbegin, hend⟩ := h
  have hb := hi.beginLt
  refine ⟨?_, ?_⟩
  · rw [hi.tailSpaceLen_eq, hend, Nat.sub_self, ite_self]
  · rcases hi.layout with hl | hl | hl <;> omega

/-- A byte that arrives now goes to the first index behind the storage. -/
theorem fetchDataFromFd_atEnd {b : RingBuffer} (hi : Inv b) (h : b.AtEnd) {data : List Byte}
    (hd : data ≠ []) : b.fetchDataFromFd (some data) = .error .outOfRange := by
  obtain ⟨h0, hroom⟩ := hi.getTailSpaceLen_atEnd h
  obtain ⟨hbegin, hend⟩ := h
  have hiov := fetchIov_wrapped hi h0
  have hpos : 0 < data.length := List.length_pos_iff.mpr hd
  have hsum : iovTotal b.fetchIov = b.mBegin + iovTotal b.overflowIov := by
    rw [hiov, iovTotal, List.map_cons, List.sum_cons, hroom]
    rfl
  have hlen : 0 < ((b.delivered data).take b.mBegin).length := by
    rw [List.length_take, delivered, List.length_take]
    omega
  have hout : ¬ b.mBuffer.length + ((b.delivered data).take b.mBegin).length
      ≤ b.mBuffer.length := by
    omega
  unfold fetchDataFromFd
  dsimp only
  rw [hiov, scatter, hroom, hend, writeAt, if_neg hout]
  rfl

/-! ### Buffers that are read empty -/

theorem updateAfterWrite_begin (b : RingBuffer) (len : ℕ) :
    (b.updateAfterWrite len).mBegin = b.mBegin := by
  unfold updateAfterWrite
  split
  · rfl
  · split <;> rfl

theorem enableWritableSpace_begin {b b' : RingBuffer} {required : ℕ} (hb : b.mBegin = 0)
    (h : b.enableWritableSpace required = .ok b') : b'.mBegin = 0 := by
  unfold enableWritableSpace at h
  split at h
  · cases h
    exact hb
  · obtain ⟨newCapacity, -, h⟩ := Exec.bind_eq_ok h
    obtain ⟨buffer, -, h⟩ := Exec.bind_eq_ok h
    cases h
    rfl

theorem write_begin {b b' : RingBuffer} {data : List Byte} {len n : ℕ} (hb : b.mBegin = 0)
    (h : b.write data len = .ok (n, b')) : b'.mBegin = 0 := by
  obtain ⟨grown, hgrow, h⟩ := Exec.bind_eq_ok h
  have hbegin := enableWritableSpace_begin hb hgrow
  split at h
  · obtain ⟨bytes, -, h⟩ := Exec.bind_eq_ok h
    obtain ⟨buffer, -, h⟩ := Exec.bind_eq_ok h
    cases h
    rw [updateAfterWrite_begin]
    exact hbegin
  · generalize (if grown.getTailSpaceLen > len then len else grown.getTailSpaceLen) = tailCapacity at h
    obtain ⟨front, -, h⟩ := Exec.bind_eq_ok h
    obtain ⟨buffer, -, h⟩ := Exec.bind_eq_ok h
    dsimp only at h
    split at h
    · obtain ⟨back, -, h⟩ := Exec.bind_eq_ok h
      obtain ⟨whole, -, h⟩ := Exec.bind_eq_ok h
      cases h
      rw [updateAfterWrite_begin]
      exact hbegin
    · cases h
      rw [updateAfterWrite_begin]
      exact hbegin

theorem fetchDataFromFd_begin {b b' : RingBuffer} {answer : Option (List Byte)} {n : ℤ}
    (hb : b.mBegin = 0) (h : b.fetchDataFromFd answer = .ok (n, b')) : b'.mBegin = 0 := by
  cases answer with
  | none =>
    cases h
    exact hb
  | some data =>
    obtain ⟨mem, -, h⟩ := Exec.bind_eq_ok h
    dsimp only at h
    split at h
    · simp only [Exec.pure_eq_ok, Except.ok.injEq, Prod.mk.injEq] at h
      rw [← h.2]
      exact hb
    · obtain ⟨appended, happend, h⟩ := Exec.bind_eq_ok h
      simp only [Exec.pure_eq_ok, Except.ok.injEq, Prod.mk.injEq] at h
      rw [h.2] at happend
      unfold appendFetched at happend
      split at happend
      · obtain ⟨⟨count, grown⟩, hwrite, happend⟩ := Exec.bind_eq_ok happend
        cases happend
        exact write_begin (by rw [updateAfterWrite_begin]; exact hb) hwrite
      · simp only [Exec.pure_eq_ok, Except.ok.injEq] at happend
        rw [← happend, updateAfterWrite_begin]
        exact hb

theorem read_begin {b b' : RingBuffer} (hi : Inv b) {data : List Byte} {len : ℕ}
    (hb : b.mSize = 0 → b.mBegin = 0) (h : b.read len = .ok (data, b')) :
    b'.mSize = 0 → b'.mBegin = 0 := by
  unfold read at h
  rw [clamp_eq_min] at h
  split at h
  · cases h
    exact hb
  · obtain ⟨bytes, -, h⟩ := Exec.bind_eq_ok h
    cases h
    have hcap := hi.capLe
    have hsz := hi.sizeLe
    unfold maxTotal at hcap
    unfold updateAfterRead
    split
    · exact fun _ => rfl
    · next hne =>
      have hsub : u32Sub b.mSize (min len b.mSize) = b.mSize - min len b.mSize :=
        u32Sub_of_le (Nat.min_le_right _ _) (by omega)
      intro hzero
      have hempty : u32Sub b.mSize (min len b.mSize) = 0 := hzero
      omega

end DeftRpc.Buffer.RingBuffer
