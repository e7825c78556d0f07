import DeftRpc.Buffer.RingFetch

/-!
# When FetchDataFromFd is right

The segments of a fetch are safe, and the fetch appends what readv delivers,
in exactly those states whose content does not stop at the end of the storage
with free bytes in front of it. There the segment that should start at index 0
starts one past the last byte.
-/

namespace DeftRpc.Buffer.RingBuffer
open DeftRpc.Foundation

/-! ### Safe segments -/

def regionLen (b : RingBuffer) : Region → ℕ
  | .storage => b.mBuffer.length
  | .expansion => maxPackageLen

def Unread (b : RingBuffer) (i : ℕ) : Prop :=
  ∃ k, k < b.mSize ∧ i = ringIndex b.mBuffer.length b.mBegin k

def Apart (v w : IoVec) : Prop := ∀ r i, v.Covers r i → ¬ w.Covers r i

structure SegmentsSafe (b : RingBuffer) : Prop where
  inside : ∀ v ∈ b.fetchIov, v.off + v.len ≤ b.regionLen v.region
  apart : b.fetchIov.Pairwise Apart
  free : ∀ v ∈ b.fetchIov, ∀ i, b.Unread i → ¬ v.Covers .storage i

theorem mem_overflowIov {b : RingBuffer} {v : IoVec} (h : v ∈ b.overflowIov) :
    v = ⟨.expansion, 0, maxPackageLen⟩ := by
  unfold overflowIov at h
  by_cases hw : b.mBuffer.length - b.mSize ≥ maxPackageLen
  · rw [if_pos hw] at h
    exact absurd h List.not_mem_nil
  · rw [if_neg hw] at h
    exact List.mem_singleton.mp h

theorem overflowIov_pairwise (b : RingBuffer) : b.overflowIov.Pairwise Apart := by
  unfold overflowIov
  split
  · exact List.Pairwise.nil
  · exact List.pairwise_singleton _ _

theorem storage_apart_overflow {b : RingBuffer} (off len : ℕ) {w : IoVec}
    (h : w ∈ b.overflowIov) : Apart ⟨.storage, off, len⟩ w := by
  intro r i hv hw
  rw [mem_overflowIov h] at hw
  exact Region.noConfusion (hv.1.trans hw.1.symm)

theorem overflow_inside {b : RingBuffer} {v : IoVec} (h : v ∈ b.overflowIov) :
    v.off + v.len ≤ b.regionLen v.region := by
  rw [mem_overflowIov h]
  exact le_of_eq (Nat.zero_add _)

theorem overflow_free {b : RingBuffer} {v : IoVec} (h : v ∈ b.overflowIov) (i : ℕ) :
    ¬ v.Covers .storage i := by
  intro hc
  rw [mem_overflowIov h] at hc
  exact absurd hc.1 (by decide)

theorem unread_straight {b : RingBuffer} {i : ℕ} (hs : b.mBegin + b.mSize ≤ b.mBuffer.length)
    (h : b.Unread i) : b.mBegin ≤ i ∧ i < b.mBegin + b.mSize := by
  obtain ⟨k, hk, rfl⟩ := h
  unfold ringIndex
  split <;> omega

theorem unread_wrapped {b : RingBuffer} {i : ℕ} (hi : Inv b)
    (hs : b.mEnd + b.mBuffer.length = b.mBegin + b.mSize) (h : b.Unread i) :
    b.mBegin ≤ i ∨ i < b.mEnd := by
  have hb := hi.beginLt
  obtain ⟨k, hk, rfl⟩ := h
  unfold ringIndex
  split <;> omega

theorem segmentsSafe_of_not_atEnd {b : RingBuffer} (hi : Inv b) (hn : ¬ b.AtEnd) :
    SegmentsSafe b := by
  have hsz := hi.sizeLe
  rcases hi.fetch_cases hn with ⟨hs, he⟩ | ⟨h0, hend, hpos, hfree⟩
  · have hiov := fetchIov_straight hi hs he
    have hmem : ∀ v ∈ b.fetchIov, v = ⟨.storage, b.mEnd, b.mBuffer.length - b.mEnd⟩ ∨
        v = ⟨.storage, 0, b.mBegin⟩ ∨ v ∈ b.overflowIov := by
      intro v hv
      rwa [hiov, List.cons_append, List.cons_append, List.nil_append, List.mem_cons,
        List.mem_cons] at hv
    refine ⟨?_, ?_, ?_⟩
    · intro v hv
      rcases hmem v hv with rfl | rfl | hov
      · simp only [regionLen]
        omega
      · simp only [regionLen]
        omega
      · exact overflow_inside hov
    · rw [hiov, List.cons_append, List.cons_append, List.nil_append, List.pairwise_cons,
        List.pairwise_cons]
      refine ⟨?_, fun w hw => storage_apart_overflow _ _ hw, overflowIov_pairwise b⟩
      intro w hw
      rcases List.mem_cons.mp hw with rfl | hov
      · intro r i hv hw'
        have h1 := hv.2.1
        have h2 := hw'.2.2
        dsimp only at h1 h2
        omega
      · exact storage_apart_overflow _ _ hov
    · intro v hv i hu hc
      have hr := unread_straight (by omega) hu
      rcases hmem v hv with rfl | rfl | hov
      · have h1 := hc.2.1
        dsimp only at h1
        omega
      · have h2 := hc.2.2
        dsimp only at h2
        omega
      · exact overflow_free hov i hc
  · have hiov := fetchIov_wrapped hi h0
    refine ⟨?_, ?_, ?_⟩
    · intro v hv
      rw [hiov] at hv
      rcases List.mem_cons.mp hv with rfl | hov
      · exact hend
      · exact overflow_inside hov
    · rw [hiov, List.pairwise_cons]
      exact ⟨fun w hw => storage_apart_overflow _ _ hw, overflowIov_pairwise b⟩
    · intro v hv i hu hc
      rw [hiov] at hv
      rcases List.mem_cons.mp hv with rfl | hov
      · have h1 := hc.2.1
        have h2 := hc.2.2
        dsimp only at h1 h2
        by_cases hfull : b.mSize = b.mBuffer.length
        · omega
        · rcases hpos with hpos | hpos
          · have hr := unread_straight (by omega) hu
            omega
          · have hr := unread_wrapped hi hpos hu
            omega
      · exact overflow_free hov i hc

theorem not_segmentsSafe_of_atEnd {b : RingBuffer} (hi : Inv b) (h : b.AtEnd) :
    ¬ SegmentsSafe b := by
  intro hs
  obtain ⟨h0, hroom⟩ := hi.getTailSpaceLen_atEnd h
  obtain ⟨hbegin, hend⟩ := h
  have hmem : (⟨.storage, b.mEnd, b.mBuffer.length - b.mSize⟩ : IoVec) ∈ b.fetchIov := by
    rw [fetchIov_wrapped hi h0]
    exact List.mem_cons_self
  have hin := hs.inside _ hmem
  simp only [regionLen] at hin
  omega

/-! ### A fetch that does what it should -/

/-- For every answer of readv within the bound: the delivered bytes become the
newest content, and a failure changes nothing. -/
structure FetchRight (limit : ℕ) (b : RingBuffer) : Prop where
  safe : SegmentsSafe b
  appends : ∀ data, b.mSize + (b.delivered data).length < limit →
    ∃ b', b.fetchDataFromFd (some data) = .ok ((b.delivered data).length, b') ∧
      b'.content = b.content ++ b.delivered data
  fails : b.fetchDataFromFd none = .ok (-1, b)

theorem fetchRight_iff {limit : ℕ} (hlim : limit ≤ maxTotal) {b : RingBuffer} (hi : Inv b) :
    FetchRight limit b ↔ ¬ b.AtEnd := by
  constructor
  · intro h he
    exact not_segmentsSafe_of_atEnd hi he h.safe
  · intro hn
    refine ⟨segmentsSafe_of_not_atEnd hi hn, ?_, rfl⟩
    intro data hd
    obtain ⟨b', hf, -, hc⟩ := fetchDataFromFd_spec hi hn data (by omega)
    exact ⟨b', hf, hc⟩

/-! ### Runs with fetches -/

inductive IoOp where
  | call (op : Op)
  | fetch (answer : Option (List Byte))

inductive IoOut where
  | ret (o : Out)
  | fetched (result : ℤ)
  deriving DecidableEq

def ioStep (b : RingBuffer) : IoOp → Exec (IoOut × RingBuffer)
  | .call op => do
    let r ← step b op
    pure (.ret r.1, r.2)
  | .fetch answer => do
    let r ← b.fetchDataFromFd answer
    pure (.fetched r.1, r.2)

/-- What readv hands over when `answer` is waiting. -/
def received (b : RingBuffer) : Option (List Byte) → List Byte
  | none => []
  | some data => b.delivered data

/-- The total stays below `limit`, and no fetch meets a content that stops at the
end of the storage behind free bytes. -/
def FetchOk (limit : ℕ) (b : RingBuffer) : IoOp → Prop
  | .call op => Below limit b op
  | .fetch answer => b.mSize + (b.received answer).length < limit ∧ ¬ b.AtEnd

instance (limit : ℕ) (b : RingBuffer) : ∀ op, Decidable (FetchOk limit b op)
  | .call op => inferInstanceAs (Decidable (Below limit b op))
  | .fetch _ => instDecidableAnd

/-- The byte queue with fetches that deliver some bytes. -/
inductive QueueIo : List Byte → IoOp → IoOut → List Byte → Prop
  | call {q q' : List Byte} {op : Op} {o : Out} (h : queueStep q op = (o, q')) :
      QueueIo q (.call op) (.ret o) q'
  | fetched (q data : List Byte) (n : ℕ) :
      QueueIo q (.fetch (some data)) (.fetched (data.take n).length) (q ++ data.take n)
  | failed (q : List Byte) : QueueIo q (.fetch none) (.fetched (-1)) q

theorem ioStep_refines {limit : ℕ} (hlim : limit ≤ maxTotal) (b : RingBuffer) (q : List Byte)
    (op : IoOp) (h : Holds limit b q) (hok : FetchOk limit b op) :
    ∃ o b' q', ioStep b op = .ok (o, b') ∧ QueueIo q op o q' ∧ Holds limit b' q' := by
  cases op with
  | call op =>
    obtain ⟨o, b', q', hstep, hq, hold⟩ := step_refines hlim b q op h hok
    simp only [ioStep, hstep, Exec.ok_bind, Exec.pure_eq_ok]
    exact ⟨_, b', q', rfl, .call hq, hold⟩
  | fetch answer =>
    cases answer with
    | none => exact ⟨_, b, q, rfl, .failed q, h⟩
    | some data =>
      obtain ⟨hd, hn⟩ := hok
      have hd' : b.mSize + (b.delivered data).length < limit := hd
      obtain ⟨b', hf, hinv, hc⟩ := fetchDataFromFd_spec h.inv hn data (by omega)
      have hio : ioStep b (.fetch (some data)) = .ok (.fetched (b.delivered data).length, b') := by
        rw [ioStep, hf]
        rfl
      refine ⟨_, b', q ++ b.delivered data, hio, .fetched q data _, hinv, ?_, ?_⟩
      · rw [hc, h.content]
      · rw [List.length_append, ← h.size_eq]
        exact hd'

/-- In every run whose fetches all start from a content that does not stop at the
end of the storage behind free bytes, the buffer is a byte queue, and in the
state reached the next fetch is right exactly when that condition holds again. -/
theorem fetch_right_iff_not_atEnd (ops : List IoOp)
    (h : StepsOk ioStep (FetchOk 1073741824) fresh ops) :
    ∃ outs b q, runOps ioStep fresh ops = .ok (outs, b) ∧ Trace QueueIo [] ops outs q ∧
      b.content = q ∧ (FetchRight 1073741824 b ↔ ¬ b.AtEnd) := by
  have hlim : 1073741824 ≤ maxTotal := by
    unfold maxTotal
    omega
  obtain ⟨outs, b, q, hrun, htrace, hold⟩ :=
    run_simulates (fun b q op => ioStep_refines hlim b q op) ops fresh [] (fresh_holds (by omega)) h
  exact ⟨outs, b, q, hrun, htrace, hold.content, fetchRight_iff hlim hold.inv⟩

/-- A fetch, a read of part of it and another fetch. -/
theorem fetch_right_iff_not_atEnd_twice :
    ∃ outs b q, runOps ioStep fresh
        [.fetch (some [1, 2, 3]), .call (.read 2), .fetch (some [4]), .fetch none]
          = .ok (outs, b) ∧
      Trace QueueIo [] [.fetch (some [1, 2, 3]), .call (.read 2), .fetch (some [4]), .fetch none]
        outs q ∧
      b.content = q ∧ (FetchRight 1073741824 b ↔ ¬ b.AtEnd) :=
  fetch_right_iff_not_atEnd _ (by decide +kernel)

/-- Fill the fresh storage and read one byte: the next fetch is handed a segment
that starts behind the storage, and one byte is enough to be stored there. -/
theorem fetch_behind_storage :
    ∃ outs b, runOps ioStep fresh [.call (.write (List.replicate 2048 0)), .call (.read 1)]
        = .ok (outs, b) ∧
      (⟨.storage, 2048, 1⟩ : IoVec) ∈ b.fetchIov ∧ b.mBuffer.length = 2048 ∧
      b.fetchDataFromFd (some [5]) = .error .outOfRange ∧ ¬ FetchRight 1073741824 b := by
  have hrun : runOps ioStep fresh [.call (.write (List.replicate 2048 0)), .call (.read 1)]
      = .ok ([.ret (.count 2048), .ret (.bytes [0])], ⟨1, 2048, 2047, List.replicate 2048 0⟩) := by
    decide +kernel
  have hfault : fetchDataFromFd ⟨1, 2048, 2047, List.replicate 2048 0⟩ (some [5])
      = .error .outOfRange := by
    decide +kernel
  refine ⟨_, _, hrun, by decide +kernel, by decide +kernel, hfault, ?_⟩
  intro hright
  obtain ⟨b', hf, -⟩ := hright.appends [5] (by decide +kernel)
  rw [hfault] at hf
  cases hf

end DeftRpc.Buffer.RingBuffer
