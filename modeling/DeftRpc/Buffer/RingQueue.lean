import DeftRpc.Buffer.RingInvariant

/-!
# The ring buffer refines a byte queue

One specification lemma for each operation, over the content as a queue, then
the queue machine and the refinement of every run.
-/

namespace DeftRpc.Buffer.RingBuffer
open DeftRpc.Foundation

/-! ### Reading -/

theorem copyOut_spec {b : RingBuffer} (hi : Inv b) {len : ℕ} (h : len ≤ b.mSize) :
    b.copyOut len = .ok (b.content.take len) := by
  have hb := hi.beginLt
  have hsz := hi.sizeLe
  have ht : b.content.take len = ringView b.mBuffer b.mBegin len := ringView_take _ _ _ _ h
  unfold copyOut
  rw [ht]
  by_cases hbe : b.mBegin < b.mEnd
  · have hl : b.mBegin + len ≤ b.mBuffer.length := by
      rcases hi.layout with hl | hl | hl <;> omega
    rw [if_pos hbe, readAt_ok hl, ringView_straight hl]
  · rw [if_neg hbe]
    by_cases h0 : b.mSize = 0
    · have hlen : len = 0 := by omega
      rw [hi.tailContentLen_empty h0, hlen, if_neg (by omega)]
      dsimp only
      rw [readAt_ok (by omega)]
      rfl
    · have hend : b.mEnd ≤ b.mBegin := by omega
      rw [hi.tailContentLen_wrapped (by omega) hend]
      by_cases hlen : b.mBuffer.length - b.mBegin > len
      · have hl : b.mBegin + len ≤ b.mBuffer.length := by omega
        rw [if_pos hlen]
        dsimp only
        rw [readAt_ok hl, ringView_straight hl]
        simp only [Exec.ok_bind, gt_iff_lt, lt_irrefl, if_false, Exec.pure_eq_ok]
      · have htail : (b.mBuffer.drop b.mBegin).take (b.mBuffer.length - b.mBegin)
            = b.mBuffer.drop b.mBegin :=
          List.take_of_length_le (by rw [List.length_drop])
        have hk : b.mBegin + len - b.mBuffer.length = len - (b.mBuffer.length - b.mBegin) := by
          omega
        rw [if_neg hlen]
        dsimp only
        rw [readAt_ok (by omega), htail, ringView_wrapped (le_of_lt hb) (by omega), hk]
        simp only [Exec.ok_bind]
        by_cases hgt : len > b.mBuffer.length - b.mBegin
        · rw [if_pos hgt, readAt_ok (by omega)]
          simp only [Exec.ok_bind, List.drop_zero, Exec.pure_eq_ok]
        · have hz : len - (b.mBuffer.length - b.mBegin) = 0 := by omega
          rw [if_neg hgt, hz, List.take_zero, List.append_nil]
          rfl

theorem clamp_eq_min (len size : ℕ) : (if len > size then size else len) = min len size := by
  split <;> omega

theorem peek_spec {b : RingBuffer} (hi : Inv b) (len : ℕ) :
    b.peek len = .ok (b.content.take len) := by
  unfold peek
  by_cases h0 : len = 0
  · rw [if_pos h0, h0, List.take_zero]
  · rw [if_neg h0, clamp_eq_min, copyOut_spec hi (Nat.min_le_right _ _)]
    rw [← hi.content_length, ← List.take_eq_take_min]

theorem read_spec {b : RingBuffer} (hi : Inv b) (len : ℕ) :
    ∃ b', b.read len = .ok (b.content.take len, b') ∧ Inv b' ∧ b'.content = b.content.drop len := by
  unfold read
  by_cases h0 : len = 0
  · rw [if_pos h0, h0]
    exact ⟨b, rfl, hi, rfl⟩
  · have hu := updateAfterRead_spec hi (Nat.min_le_right len b.mSize)
    have hd : b.content.drop (min len b.mSize) = b.content.drop len := by
      by_cases hle : len ≤ b.mSize
      · rw [Nat.min_eq_left hle]
      · have hcl := hi.content_length
        rw [Nat.min_eq_right (by omega), List.drop_of_length_le (by omega),
          List.drop_of_length_le (by omega)]
    rw [if_neg h0, clamp_eq_min]
    simp only [copyOut_spec hi (Nat.min_le_right len b.mSize), Exec.ok_bind, Exec.pure_eq_ok]
    refine ⟨_, ?_, hu.1, hu.2.trans hd⟩
    rw [← hi.content_length, ← List.take_eq_take_min]

theorem cPeek_spec {b : RingBuffer} (hi : Inv b) (len : ℕ) :
    b.cPeek len = .ok (b.content.drop (b.content.length - len)) := by
  have hall : b.content.take b.size = b.content :=
    List.take_of_length_le (le_of_eq hi.content_length)
  unfold cPeek
  rw [peek_spec hi, hall]
  simp only [Exec.ok_bind, Exec.pure_eq_ok]
  split
  · rfl
  · next h =>
    have hz : b.content.length - len = 0 := by omega
    rw [hz, List.drop_zero]

/-! ### Writing -/

theorem Inv.storage {b : RingBuffer} (hi : Inv b) {buffer : List Byte}
    (h : buffer.length = b.mBuffer.length) : Inv { b with mBuffer := buffer } := by
  refine ⟨⟨?_, ?_, ?_⟩, ?_, ?_, ?_⟩ <;> dsimp only <;> rw [h]
  · exact hi.capLt
  · exact hi.beginLt
  · exact hi.layout
  · exact hi.capLe
  · exact hi.capGe
  · exact hi.capMul

theorem stored_spec {b : RingBuffer} (hi : Inv b) {buffer bytes : List Byte}
    (hl : buffer.length = b.mBuffer.length) (hroom : b.mSize + bytes.length ≤ b.mBuffer.length)
    (hview : ringView buffer b.mBegin (b.mSize + bytes.length) = b.content ++ bytes) :
    Inv ({ b with mBuffer := buffer }.updateAfterWrite bytes.length) ∧
      ({ b with mBuffer := buffer }.updateAfterWrite bytes.length).content
        = b.content ++ bytes := by
  have hfit : b.mSize + bytes.length ≤ buffer.length := by omega
  obtain ⟨hinv, hs, hbegin, hbuf⟩ := updateAfterWrite_inv (hi.storage hl) hfit
  refine ⟨hinv, ?_⟩
  rw [content, hs, hbegin, hbuf]
  exact hview

theorem write_spec {b : RingBuffer} (hi : Inv b) {data : List Byte} {len : ℕ}
    (hl : len ≤ data.length) (h : b.mSize + len ≤ maxTotal) :
    ∃ b', b.write data len = .ok (len, b') ∧ Inv b' ∧ b'.content = b.content ++ data.take len := by
  obtain ⟨c, henable, hc, hcc, hcs, hroom⟩ := enableWritableSpace_spec hi h
  have hb := hc.beginLt
  have htl : (data.take len).length = len := by
    rw [List.length_take]
    omega
  unfold write
  rw [henable]
  simp only [Exec.ok_bind]
  rw [← hcc]
  by_cases hbe : c.mBegin ≥ c.mEnd
  · have hend : c.mEnd + (data.take len).length ≤ c.mBuffer.length := by
      rcases hc.layout with hl | hl | hl <;> omega
    have hview := ringView_paste c.mBuffer c.mBegin c.mSize c.mEnd (data.take len) (le_of_lt hb)
      (by omega) hend (by rcases hc.layout with hl | hl | hl <;> omega)
    obtain ⟨hinv, hcont⟩ := stored_spec hc (paste_length _ _ _ hend) (by omega) hview
    rw [if_pos hbe, readAt_ok (by omega), List.drop_zero]
    simp only [Exec.ok_bind]
    rw [writeAt_ok hend]
    rw [htl] at hinv hcont
    exact ⟨_, rfl, hinv, hcont⟩
  · have hlay : c.mEnd = c.mBegin + c.mSize ∧ c.mEnd ≤ c.mBuffer.length := by
      rcases hc.layout with hl | hl | hl <;> omega
    have hspace : c.getTailSpaceLen = c.mBuffer.length - c.mEnd := by
      rw [hc.tailSpaceLen_eq, if_neg (by omega)]
    rw [if_neg hbe, hspace]
    by_cases hfit : c.mBuffer.length - c.mEnd > len
    · have hend : c.mEnd + (data.take len).length ≤ c.mBuffer.length := by omega
      have hview := ringView_paste c.mBuffer c.mBegin c.mSize c.mEnd (data.take len) (le_of_lt hb)
        (by omega) hend (Or.inl hlay.1)
      obtain ⟨hinv, hcont⟩ := stored_spec hc (paste_length _ _ _ hend) (by omega) hview
      rw [if_pos hfit, readAt_ok (by omega), List.drop_zero]
      simp only [Exec.ok_bind, lt_irrefl, if_false]
      rw [writeAt_ok hend]
      rw [htl] at hinv hcont
      exact ⟨_, rfl, hinv, hcont⟩
    · -- The bytes straddle the end of the storage: a first piece up to it, the rest at index 0.
      obtain ⟨k, hk⟩ : ∃ k, c.mBuffer.length - c.mEnd = k := ⟨_, rfl⟩
      have hfl : (data.take k).length = k := by
        rw [List.length_take]
        omega
      have hbl : ((data.drop k).take (len - k)).length = len - k := by
        rw [List.length_take, List.length_drop]
        omega
      have hjoin : data.take k ++ (data.drop k).take (len - k) = data.take len := by
        rw [← List.take_add]
        congr 1
        omega
      have hview := ringView_paste_around c.mBuffer c.mBegin c.mSize (data.take k)
        ((data.drop k).take (len - k)) (by omega) (by omega)
      have hpl := paste_length c.mBuffer c.mEnd (data.take k) (by omega)
      have hpl2 := paste_length (paste c.mBuffer c.mEnd (data.take k)) 0
        ((data.drop k).take (len - k)) (by omega)
      rw [hjoin, ← hlay.1] at hview
      obtain ⟨hinv, hcont⟩ := stored_spec hc (hpl2.trans hpl) (by omega) hview
      rw [htl] at hinv hcont
      rw [hk, if_neg (by omega), readAt_ok (by omega), List.drop_zero]
      simp only [Exec.ok_bind]
      rw [writeAt_ok (by omega)]
      simp only [Exec.ok_bind]
      by_cases hlt : k < len
      · rw [if_pos hlt, readAt_ok (by omega)]
        simp only [Exec.ok_bind]
        rw [writeAt_ok (by omega)]
        exact ⟨_, rfl, hinv, hcont⟩
      · have hz : len - k = 0 := by omega
        rw [hz, List.take_zero, paste_nil] at hinv hcont
        rw [if_neg hlt]
        exact ⟨_, rfl, hinv, hcont⟩

/-! ### Flushing -/

theorem flushIov_spec {b : RingBuffer} (hi : Layout b) :
    ∃ iov, b.flushIov = .ok iov ∧ iov.flatten = b.content := by
  have hb := hi.beginLt
  have hsz := hi.sizeLe
  have hc := hi.capLt
  unfold flushIov
  dsimp only
  by_cases hw : b.mEnd ≤ b.mBegin ∧ 0 < b.mSize
  · have hl : b.mEnd + b.mBuffer.length = b.mBegin + b.mSize := by
      rcases hi.layout with hl | hl | hl <;> omega
    have hhead : u32Sub b.mSize (b.mBuffer.length - b.mBegin) = b.mEnd := by
      rw [u32Sub_of_le (by omega) (by omega)]
      omega
    have htail : (b.mBuffer.drop b.mBegin).take (b.mBuffer.length - b.mBegin)
        = b.mBuffer.drop b.mBegin :=
      List.take_of_length_le (by rw [List.length_drop])
    have hk : b.mBegin + b.mSize - b.mBuffer.length = b.mEnd := by omega
    rw [hi.tailContentLen_wrapped hw.2 hw.1, if_pos (by omega), readAt_ok (by omega), hhead]
    simp only [Exec.ok_bind]
    rw [readAt_ok (by omega), htail, List.drop_zero]
    refine ⟨_, rfl, ?_⟩
    rw [content, ringView_wrapped (by omega) (by omega), hk]
    simp only [List.flatten_cons, List.flatten_nil, List.append_nil]
  · have h0 : b.getTailContentLen = 0 := by
      by_cases hz : b.mSize = 0
      · exact hi.tailContentLen_empty hz
      · exact tailContentLen_straight (by omega)
    have hfit : b.mBegin + b.mSize ≤ b.mBuffer.length := by
      rcases hi.layout with hl | hl | hl <;> omega
    rw [h0, if_neg (by omega), readAt_ok hfit]
    refine ⟨_, rfl, ?_⟩
    rw [content, ringView_straight hfit]
    simp only [List.flatten_cons, List.flatten_nil, List.append_nil]

/-- What writev reports when `n` bytes are offered. -/
def flushResult (answer : Option ℕ) (n : ℕ) : ℤ :=
  match answer with
  | none => -1
  | some k => (min k n : ℕ)

/-- How many of the `n` offered bytes writev took. -/
def flushAccepted (answer : Option ℕ) (n : ℕ) : ℕ :=
  match answer with
  | none => 0
  | some k => min k n

theorem flushDataToFd_spec {b : RingBuffer} (hi : Inv b) (hs : b.mSize < maxTotal)
    (answer : Option ℕ) :
    ∃ iov b', b.flushDataToFd answer = .ok ((iov, flushResult answer b.content.length), b') ∧
      iov.flatten = b.content ∧ Inv b' ∧
      b'.content = b.content.drop (flushAccepted answer b.content.length) := by
  obtain ⟨iov, hiov, hflat⟩ := flushIov_spec hi.toLayout
  have hlen := hi.content_length
  unfold maxTotal at hs
  unfold flushDataToFd
  rw [hiov]
  simp only [Exec.ok_bind]
  cases answer with
  | none =>
    simp only [kernelWritev, int32_neg_one, Int.reduceNeg, Int.reduceLT, if_true, Exec.pure_eq_ok]
    exact ⟨iov, b, rfl, hflat, hi, rfl⟩
  | some k =>
    have hint : int32 (kernelWritev (some k) iov) = (min k b.content.length : ℕ) := by
      rw [kernelWritev, hflat]
      exact int32_of_lt (by omega)
    have hneg : ¬ ((min k b.content.length : ℕ) : ℤ) < 0 := by omega
    have hu := updateAfterRead_spec hi (show min k b.content.length ≤ b.mSize by omega)
    simp only [hint, hneg, if_false, Int.toNat_natCast, Exec.pure_eq_ok]
    exact ⟨iov, _, rfl, hflat, hu.1, hu.2⟩

/-! ### The queue machine -/

inductive Op where
  | write (data : List Byte)
  | read (len : ℕ)
  | peek (len : ℕ)
  | cPeek (len : ℕ)
  | clear
  | size
  | empty
  | flush (answer : Option ℕ)

inductive Out where
  | none
  | bytes (data : List Byte)
  | count (n : ℕ)
  | flag (value : Bool)
  | flushed (offered : List Byte) (result : ℤ)
  deriving DecidableEq

/-- One call on the buffer. A flush reports the concatenation of its segments. -/
def step (b : RingBuffer) : Op → Exec (Out × RingBuffer)
  | .write data => do
    let r ← b.write data data.length
    pure (.count r.1, r.2)
  | .read len => do
    let r ← b.read len
    pure (.bytes r.1, r.2)
  | .peek len => do
    let data ← b.peek len
    pure (.bytes data, b)
  | .cPeek len => do
    let data ← b.cPeek len
    pure (.bytes data, b)
  | .clear => .ok (.none, b.clear)
  | .size => .ok (.count b.size, b)
  | .empty => .ok (.flag b.empty, b)
  | .flush answer => do
    let r ← b.flushDataToFd answer
    pure (.flushed r.1.1.flatten r.1.2, r.2)

/-- The byte queue: what each call answers and leaves. -/
def queueStep (q : List Byte) : Op → Out × List Byte
  | .write data => (.count data.length, q ++ data)
  | .read len => (.bytes (q.take len), q.drop len)
  | .peek len => (.bytes (q.take len), q)
  | .cPeek len => (.bytes (q.drop (q.length - len)), q)
  | .clear => (.none, [])
  | .size => (.count q.length, q)
  | .empty => (.flag q.isEmpty, q)
  | .flush answer => (.flushed q (flushResult answer q.length), q.drop (flushAccepted answer q.length))

def Below (limit : ℕ) (b : RingBuffer) : Op → Prop
  | .write data => b.mSize + data.length < limit
  | _ => True

instance (limit : ℕ) (b : RingBuffer) : ∀ op, Decidable (Below limit b op)
  | .write _ => Nat.decLt _ _
  | .read _ | .peek _ | .cPeek _ | .clear | .size | .empty | .flush _ => .isTrue trivial

structure Holds (limit : ℕ) (b : RingBuffer) (q : List Byte) : Prop where
  inv : Inv b
  content : b.content = q
  below : q.length < limit

theorem Holds.size_eq {limit : ℕ} {b : RingBuffer} {q : List Byte} (h : Holds limit b q) :
    b.mSize = q.length := by
  rw [← h.content, h.inv.content_length]

theorem Holds.empty_eq {limit : ℕ} {b : RingBuffer} {q : List Byte} (h : Holds limit b q) :
    b.empty = q.isEmpty := by
  rw [Bool.eq_iff_iff, h.inv.empty_iff, List.isEmpty_iff, ← h.content, h.inv.content_eq_nil]

theorem fresh_holds {limit : ℕ} (h : 0 < limit) : Holds limit fresh [] :=
  ⟨fresh_inv, fresh_content, h⟩

theorem step_refines {limit : ℕ} (hlim : limit ≤ maxTotal) (b : RingBuffer) (q : List Byte)
    (op : Op) (h : Holds limit b q) (hok : Below limit b op) :
    ∃ o b' q', step b op = .ok (o, b') ∧ queueStep q op = (o, q') ∧ Holds limit b' q' := by
  obtain ⟨hi, hq, hlt⟩ := h
  have hsize : b.mSize = q.length := by rw [← hq, hi.content_length]
  have hdrop : ∀ k, (q.drop k).length < limit := by
    intro k
    rw [List.length_drop]
    omega
  cases op with
  | write data =>
    simp only [Below] at hok
    obtain ⟨b', hw, hi', hc'⟩ := write_spec hi (le_refl data.length) (by omega)
    rw [List.take_length, hq] at hc'
    simp only [step, hw, Exec.ok_bind, Exec.pure_eq_ok]
    refine ⟨_, b', _, rfl, rfl, hi', hc', ?_⟩
    rw [List.length_append]
    omega
  | read len =>
    obtain ⟨b', hr, hi', hc'⟩ := read_spec hi len
    rw [hq] at hr hc'
    simp only [step, hr, Exec.ok_bind, Exec.pure_eq_ok]
    exact ⟨_, b', _, rfl, rfl, hi', hc', hdrop len⟩
  | peek len =>
    simp only [step, peek_spec hi, hq, Exec.ok_bind, Exec.pure_eq_ok]
    exact ⟨_, b, _, rfl, rfl, hi, hq, hlt⟩
  | cPeek len =>
    simp only [step, cPeek_spec hi, hq, Exec.ok_bind, Exec.pure_eq_ok]
    exact ⟨_, b, _, rfl, rfl, hi, hq, hlt⟩
  | clear =>
    have hc := clear_spec hi
    exact ⟨_, b.clear, _, rfl, rfl, hc.1, hc.2, by rw [List.length_nil]; omega⟩
  | size =>
    refine ⟨_, b, _, rfl, ?_, hi, hq, hlt⟩
    rw [size, hsize]
    rfl
  | empty =>
    refine ⟨_, b, _, rfl, ?_, hi, hq, hlt⟩
    rw [Holds.empty_eq ⟨hi, hq, hlt⟩]
    rfl
  | flush answer =>
    obtain ⟨iov, b', hf, hflat, hi', hc'⟩ := flushDataToFd_spec hi (by omega) answer
    rw [hq] at hf hflat hc'
    simp only [step, hf, Exec.ok_bind, hflat, Exec.pure_eq_ok]
    exact ⟨_, b', _, rfl, rfl, hi', hc', hdrop _⟩

/-- Every run on a fresh buffer whose total stays below 2^30 bytes answers as a
byte queue does, meets no fault, and ends holding that queue's content. -/
theorem run_refines_queue (ops : List Op) (h : StepsOk step (Below 1073741824) fresh ops) :
    ∃ outs b q, runOps step fresh ops = .ok (outs, b) ∧
      Trace (fun q op o q' => queueStep q op = (o, q')) [] ops outs q ∧
      b.content = q ∧ b.size = q.length ∧ (b.empty = true ↔ q = []) := by
  have hlim : 1073741824 ≤ maxTotal := by
    unfold maxTotal
    omega
  obtain ⟨outs, b, q, hrun, htrace, hold⟩ :=
    run_simulates (fun b q op => step_refines hlim b q op) ops fresh [] (fresh_holds (by omega)) h
  refine ⟨outs, b, q, hrun, htrace, hold.content, hold.size_eq, ?_⟩
  rw [hold.empty_eq, List.isEmpty_iff]

/-- A run that writes, peeks, reads part of it, flushes one byte and clears. -/
theorem run_refines_queue_mixed :
    ∃ outs b q, runOps step fresh
        [.write [7, 8, 9], .peek 2, .read 1, .flush (some 1), .empty, .clear] = .ok (outs, b) ∧
      Trace (fun q op o q' => queueStep q op = (o, q')) []
        [.write [7, 8, 9], .peek 2, .read 1, .flush (some 1), .empty, .clear] outs q ∧
      b.content = q ∧ b.size = q.length ∧ (b.empty = true ↔ q = []) :=
  run_refines_queue _ (by decide +kernel)

end DeftRpc.Buffer.RingBuffer
