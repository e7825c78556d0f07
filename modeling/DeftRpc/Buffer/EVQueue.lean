import DeftRpc.Buffer.EVBuffer

/-!
# When EVBuffer is a byte queue

The unread segments lie between `m_begin_` and `m_end_`. Read is right and sets
`m_size_` to their number, so that the next Write takes the array for full; with
`m_begin_` behind the start it then loses a segment. FlushDataToFd offers the array
from its start on.
-/

namespace DeftRpc.Buffer
open DeftRpc.Foundation

/-! ### Segments -/

section Segments
variable {α : Type}

/-- The segments without the first `n` items. -/
def dropItems : ℕ → List (List α) → List (List α)
  | _, [] => []
  | n, s :: l => if s.length ≤ n then dropItems (n - s.length) l else s.drop n :: l

theorem dropItems_flatten (n : ℕ) (l : List (List α)) : (dropItems n l).flatten = l.flatten.drop n := by
  induction l generalizing n with
  | nil => rw [dropItems, List.flatten_nil, List.drop_nil]
  | cons s l ih =>
    rw [dropItems, List.flatten_cons, List.drop_append]
    split
    · next h => rw [ih, List.drop_of_length_le h, List.nil_append]
    · next h =>
      have hz : n - s.length = 0 := by omega
      rw [List.flatten_cons, hz, List.drop_zero]

theorem mem_dropItems {n : ℕ} {l : List (List α)} {s : List α} (h : s ∈ dropItems n l) :
    ∃ s' ∈ l, s.length ≤ s'.length ∧ (0 < s'.length → 0 < s.length) := by
  induction l generalizing n with
  | nil => exact absurd h List.not_mem_nil
  | cons a l ih =>
    rw [dropItems] at h
    split at h
    · obtain ⟨s', hs', hlen⟩ := ih h
      exact ⟨s', List.mem_cons_of_mem a hs', hlen⟩
    · rcases List.mem_cons.mp h with rfl | h
      · refine ⟨a, List.mem_cons_self, ?_, fun _ => ?_⟩
        · rw [List.length_drop]
          omega
        · rw [List.length_drop]
          omega
      · exact ⟨s, List.mem_cons_of_mem a h, le_refl _, id⟩

/-! The items of a list between two indices, when the list is written to. -/

theorem window_append {a : List α} {i e : ℕ} (x : α) (hie : i ≤ e) (he : e < a.length) :
    ((paste a e [x]).drop i).take (e + 1 - i) = (a.drop i).take (e - i) ++ [x] := by
  have hlen : (a.take e).length = e := List.length_take_of_le (le_of_lt he)
  have hwin : ((a.take e).drop i).length = e - i := by rw [List.length_drop, hlen]
  have hone : e + 1 - i - (e - i) = 1 := by omega
  rw [paste, List.append_assoc, List.drop_append_of_le_length (by omega), List.take_append, hwin, hone,
    List.take_of_length_le (by omega), List.drop_take]
  rfl

theorem window_shift {a : List α} {i e : ℕ} (hi : 0 < i) (hie : i < e) (he : e ≤ a.length) :
    ((paste a (i - 1) ((a.drop i).take (e - i))).drop i).take (e - 1 - i) =
      ((a.drop i).take (e - i)).tail := by
  have hlen : (a.take (i - 1)).length = i - 1 := List.length_take_of_le (by omega)
  have hwin : ((a.drop i).take (e - i)).length = e - i := by
    rw [List.length_take, List.length_drop]
    omega
  have hone : i - (i - 1) = 1 := by omega
  rw [paste, List.append_assoc, List.drop_append, hlen, List.drop_of_length_le (by omega), List.nil_append,
    hone, List.drop_append_of_le_length (by omega), List.drop_one]
  exact List.take_left' (by rw [List.length_tail, hwin]; omega)

end Segments

namespace EVBuffer

def unread (b : EVBuffer) : List (List Byte) := (b.mIovecs.drop b.mBegin).take (b.mEnd - b.mBegin)

def bytes (b : EVBuffer) : List Byte := b.unread.flatten

/-! ### The invariant -/

structure Inv (b : EVBuffer) : Prop where
  begin_le : b.mBegin ≤ b.mEnd
  end_le : b.mEnd ≤ b.mIovecs.length
  size_le : b.mSize ≤ b.mIovecs.length
  length_lt : b.mIovecs.length < 4294967296
  started : b.mBegin ≠ 0 → b.mBegin < b.mEnd ∧ b.mSize = b.mEnd - b.mBegin
  unstarted : b.mBegin = 0 → b.mEnd ≤ b.mSize
  segments : ∀ s ∈ b.unread, 0 < s.length ∧ s.length < 4294967296

theorem fresh_inv : Inv {} := by
  refine ⟨le_refl 0, by decide, by decide, by decide, fun h => absurd rfl h, fun _ => by decide, ?_⟩
  intro s hs
  exact absurd hs List.not_mem_nil

variable {b : EVBuffer}

theorem Inv.unread_length (h : Inv b) : b.unread.length = b.mEnd - b.mBegin := by
  have hend := h.end_le
  rw [unread, List.length_take, List.length_drop]
  omega

theorem Inv.clear (h : Inv b) : Inv b.clear := by
  refine ⟨le_refl 0, Nat.zero_le _, h.size_le, h.length_lt, fun hne => absurd rfl hne,
    fun _ => Nat.zero_le _, ?_⟩
  intro s hs
  rw [unread, EVBuffer.clear, Nat.sub_self, List.take_zero] at hs
  exact absurd hs List.not_mem_nil

theorem clear_bytes (b : EVBuffer) : b.clear.bytes = [] := by
  rw [bytes, unread, clear, Nat.sub_self, List.take_zero, List.flatten_nil]

theorem Inv.bytes_eq_nil (h : Inv b) : b.bytes = [] ↔ b.mBegin = b.mEnd := by
  have hlen := h.unread_length
  have hle := h.begin_le
  constructor
  · intro hb
    cases hu : b.unread with
    | nil =>
      rw [hu, List.length_nil] at hlen
      omega
    | cons s l =>
      have hpos := (h.segments s (by rw [hu]; exact List.mem_cons_self)).1
      rw [bytes, hu, List.flatten_cons, List.append_eq_nil_iff] at hb
      rw [hb.1, List.length_nil] at hpos
      exact absurd hpos (lt_irrefl 0)
  · intro he
    rw [bytes, unread, he, Nat.sub_self, List.take_zero, List.flatten_nil]

/-! ### Read -/

theorem unread_cons (hlt : b.mBegin < b.mEnd) (hend : b.mEnd ≤ b.mIovecs.length) :
    ∃ iov, b.mIovecs[b.mBegin]? = some iov ∧
      b.unread = iov :: ({ b with mBegin := b.mBegin + 1 } : EVBuffer).unread := by
  have hi : b.mBegin < b.mIovecs.length := by omega
  refine ⟨b.mIovecs[b.mBegin], List.getElem?_eq_getElem hi, ?_⟩
  have hcount : b.mEnd - b.mBegin = (b.mEnd - (b.mBegin + 1)) + 1 := by omega
  rw [unread, unread, List.drop_eq_getElem_cons hi, hcount, List.take_succ_cons]

/-- What the loop of Read leaves. -/
structure Consumed (b : EVBuffer) (len : ℕ) (b' : EVBuffer) : Prop where
  length : b'.mIovecs.length = b.mIovecs.length
  size : b'.mSize = b.mSize
  end_eq : b'.mEnd = b.mEnd
  begin_le : b'.mBegin ≤ b.mEnd
  begin_ge : b.mBegin ≤ b'.mBegin
  unread : b'.unread = dropItems len b.unread

theorem readLoop_spec (turns len : ℕ) (hle : b.mBegin ≤ b.mEnd) (hend : b.mEnd ≤ b.mIovecs.length)
    (hcap : b.mIovecs.length < 4294967296) (hlen : len < 4294967296)
    (hturns : b.mEnd - b.mBegin < turns) : ∃ b', readLoop turns len b = .ok b' ∧ Consumed b len b' := by
  induction turns generalizing b len with
  | zero => exact absurd hturns (Nat.not_lt_zero _)
  | succ turns ih =>
    rw [readLoop]
    by_cases he : b.mBegin = b.mEnd
    · rw [if_pos he]
      refine ⟨b, rfl, rfl, rfl, rfl, hle, le_refl _, ?_⟩
      rw [EVBuffer.unread, he, Nat.sub_self, List.take_zero]
      rfl
    · obtain ⟨iov, hget, hunread⟩ := unread_cons (by omega : b.mBegin < b.mEnd) hend
      rw [if_neg he, hget]
      dsimp only
      by_cases hall : iov.length ≤ len
      · have hnext : u32 (b.mBegin + 1) = b.mBegin + 1 := u32_of_lt (by omega)
        rw [if_pos hall, hnext, u32Sub_of_le hall hlen]
        obtain ⟨b', hloop, hc⟩ := ih (b := { b with mBegin := b.mBegin + 1 }) (len - iov.length)
          (show b.mBegin + 1 ≤ b.mEnd by omega) hend hcap (by omega)
          (show b.mEnd - (b.mBegin + 1) < turns by omega)
        have hge : b.mBegin + 1 ≤ b'.mBegin := hc.begin_ge
        refine ⟨b', hloop, hc.length, hc.size, hc.end_eq, hc.begin_le, by omega, ?_⟩
        rw [hunread, dropItems, if_pos hall]
        exact hc.unread
      · rw [if_neg hall]
        refine ⟨_, rfl, List.length_set, rfl, rfl, hle, le_refl _, ?_⟩
        have hi : b.mBegin < b.mIovecs.length := by omega
        have hcount : b.mEnd - b.mBegin = (b.mEnd - (b.mBegin + 1)) + 1 := by omega
        rw [hunread, dropItems, if_neg hall, EVBuffer.unread, EVBuffer.unread]
        dsimp only
        rw [List.drop_eq_getElem_cons (by rw [List.length_set]; exact hi), List.getElem_set_self, hcount,
          List.take_succ_cons, List.drop_set_of_lt (by omega)]

theorem emptied_inv (hlen : b.mIovecs.length < 4294967296) :
    Inv { b with mBegin := 0, mEnd := 0, mSize := 0 } := by
  refine ⟨le_refl 0, Nat.zero_le _, Nat.zero_le _, hlen, fun hne => absurd rfl hne,
    fun _ => Nat.zero_le _, ?_⟩
  intro s hs
  exact absurd hs List.not_mem_nil

theorem read_spec (h : Inv b) {len : ℕ} (hlen : len < 4294967296) :
    ∃ b', b.read len = .ok ([], b') ∧ Inv b' ∧ b'.bytes = b.bytes.drop len := by
  have hend := h.end_le
  have hcap := h.length_lt
  unfold EVBuffer.read empty
  by_cases he : b.mBegin = b.mEnd
  · rw [if_pos (by simpa using he)]
    refine ⟨b, rfl, h, ?_⟩
    rw [h.bytes_eq_nil.mpr he, List.drop_nil]
  · obtain ⟨b1, hloop, hc⟩ := readLoop_spec (b.mIovecs.length + 1) len h.begin_le hend hcap hlen (by omega)
    have hbegin := hc.begin_le
    have hend1 := hc.end_eq
    have hlength := hc.length
    have hsegments : ∀ s ∈ b1.unread, 0 < s.length ∧ s.length < 4294967296 := by
      intro s hs
      rw [hc.unread] at hs
      obtain ⟨s', hs', hle, hpos⟩ := mem_dropItems hs
      obtain ⟨hpos', hlt⟩ := h.segments s' hs'
      exact ⟨hpos hpos', lt_of_le_of_lt hle hlt⟩
    have hbytes : b1.bytes = b.bytes.drop len := by
      rw [bytes, hc.unread, dropItems_flatten]
      rfl
    rw [if_neg (by simpa using he), hloop, Exec.ok_bind]
    dsimp only
    by_cases hall : b1.mBegin = b1.mEnd
    · have hnil : b1.bytes = [] := by
        rw [bytes, EVBuffer.unread, hall, Nat.sub_self, List.take_zero, List.flatten_nil]
      have hzero : u32Sub 0 0 = 0 := u32Sub_of_le (le_refl 0) (by omega)
      rw [if_pos hall]
      dsimp only
      rw [hzero]
      refine ⟨_, rfl, emptied_inv (by omega), ?_⟩
      rw [← hbytes, hnil]
      rfl
    · rw [if_neg hall]
      have hsize : u32Sub b1.mEnd b1.mBegin = b1.mEnd - b1.mBegin := u32Sub_of_le (by omega) (by omega)
      rw [hsize]
      refine ⟨_, rfl, ⟨?_, ?_, ?_, ?_, ?_, ?_, ?_⟩, hbytes⟩
      · dsimp only
        omega
      · dsimp only
        omega
      · dsimp only
        omega
      · dsimp only
        omega
      · dsimp only
        intro _
        exact ⟨by omega, rfl⟩
      · dsimp only
        intro hz
        omega
      · exact hsegments

/-! ### Write -/

variable {data : List Byte}

/-- The last part of Write, on an array with room. -/
def append (b : EVBuffer) (data : List Byte) : EVBuffer :=
  { b with mIovecs := paste b.mIovecs b.mEnd [data], mEnd := b.mEnd + 1 }

theorem append_unread (hle : b.mBegin ≤ b.mEnd) (hroom : b.mEnd < b.mIovecs.length) (data : List Byte) :
    (b.append data).unread = b.unread ++ [data] := window_append data hle hroom

theorem append_length (hroom : b.mEnd < b.mIovecs.length) (data : List Byte) :
    (b.append data).mIovecs.length = b.mIovecs.length := paste_length b.mIovecs b.mEnd [data] hroom

theorem write_eq {b1 : EVBuffer} (hne : data ≠ [])
    (hmake : (if b.mSize ≤ b.mEnd then b.makeRoom else pure b) = .ok b1)
    (hroom : b1.mEnd < b1.mIovecs.length) (hcap : b1.mIovecs.length < 4294967296) :
    b.write data = .ok (data.length, b1.append data) := by
  have hpos : ¬ data.length = 0 := fun hz => hne (List.length_eq_zero_iff.mp hz)
  have hput : writeAt b1.mIovecs b1.mEnd [data] = .ok (paste b1.mIovecs b1.mEnd [data]) := writeAt_ok hroom
  have hnext : u32 (b1.mEnd + 1) = b1.mEnd + 1 := u32_of_lt (by omega)
  rw [write, if_neg hpos]
  dsimp only
  by_cases hfull : b.mSize ≤ b.mEnd
  · rw [if_pos hfull] at hmake
    rw [if_pos hfull, hmake, Exec.ok_bind, hput, Exec.ok_bind, hnext]
    rfl
  · rw [if_neg hfull] at hmake
    cases hmake
    rw [if_neg hfull, Exec.pure_eq_ok, Exec.ok_bind, hput, Exec.ok_bind, hnext]
    rfl

/-- A full array from its start on is copied to one that is longer by one. -/
theorem makeRoom_grow (h : Inv b) (hb : b.mBegin = 0) (hfull : b.mSize ≤ b.mEnd)
    (hroom : b.mEnd + 1 < 4294967296) :
    ∃ b1, b.makeRoom = .ok b1 ∧ b1.mBegin = 0 ∧ b1.mEnd = b.mEnd ∧ b1.mSize = b.mEnd + 1 ∧
      b1.mIovecs.length = b.mEnd + 1 ∧ b1.unread = b.unread := by
  have hsize := h.unstarted hb
  have hend := h.end_le
  have hnext : u32 (b.mSize + 1) = b.mEnd + 1 := by
    rw [u32_of_lt (by omega)]
    omega
  have hitems : readAt b.mIovecs 0 b.mEnd = .ok (b.mIovecs.take b.mEnd) := readAt_ok (by omega)
  have hlen : (b.mIovecs.take b.mEnd).length = b.mEnd := List.length_take_of_le hend
  have hfit : 0 + (b.mIovecs.take b.mEnd).length ≤ (List.replicate (b.mEnd + 1) ([] : List Byte)).length := by
    rw [hlen, List.length_replicate]
    omega
  rw [makeRoom, if_neg (not_not.mpr hb), hnext, hitems, Exec.ok_bind, writeAt_ok hfit, Exec.ok_bind]
  refine ⟨_, rfl, hb, rfl, rfl, ?_, ?_⟩
  · rw [paste_length _ _ _ hfit, List.length_replicate]
  · rw [unread, unread, hb, Nat.sub_zero, List.drop_zero, List.drop_zero, paste, List.take_zero,
      List.nil_append]
    exact List.take_left' hlen

/-- With segments read the others move down by one, and the oldest of them lies before
`m_begin_`. -/
theorem makeRoom_shift (h : Inv b) (hb : b.mBegin ≠ 0) :
    ∃ b1, b.makeRoom = .ok b1 ∧ b1.mBegin = b.mBegin ∧ b1.mEnd = b.mEnd - 1 ∧ b1.mSize = b.mSize ∧
      b1.mIovecs.length = b.mIovecs.length ∧ b1.unread = b.unread.tail := by
  obtain ⟨hlt, -⟩ := h.started hb
  have hend := h.end_le
  have hcap := h.length_lt
  have hitems : readAt b.mIovecs b.mBegin (b.mEnd - b.mBegin) = .ok b.unread := readAt_ok (by omega)
  have hlen := h.unread_length
  have hfit : b.mBegin - 1 + b.unread.length ≤ b.mIovecs.length := by omega
  rw [makeRoom, if_pos hb, hitems, Exec.ok_bind, writeAt_ok hfit, Exec.ok_bind, u32Sub_of_le (by omega) (by omega)]
  exact ⟨_, rfl, rfl, rfl, rfl, paste_length _ _ _ hfit,
    window_shift (Nat.pos_of_ne_zero hb) hlt hend⟩

theorem segments_append {u : List (List Byte)} (hu : ∀ s ∈ u, 0 < s.length ∧ s.length < 4294967296)
    (hne : data ≠ []) (hlt : data.length < 4294967296) :
    ∀ s ∈ u ++ [data], 0 < s.length ∧ s.length < 4294967296 := by
  intro s hs
  rcases List.mem_append.mp hs with hs | hs
  · exact hu s hs
  · rw [List.mem_singleton.mp hs]
    exact ⟨List.length_pos_iff.mpr hne, hlt⟩

theorem append_inv (hle : b.mBegin ≤ b.mEnd) (hroom : b.mEnd < b.mIovecs.length)
    (hcap : b.mIovecs.length < 4294967296) (hsize : b.mSize ≤ b.mIovecs.length)
    (hstarted : b.mBegin ≠ 0 → b.mSize = b.mEnd + 1 - b.mBegin) (hunstarted : b.mBegin = 0 → b.mEnd < b.mSize)
    (hsegs : ∀ s ∈ b.unread, 0 < s.length ∧ s.length < 4294967296) (hne : data ≠ [])
    (hlt : data.length < 4294967296) : Inv (b.append data) := by
  have hlen := append_length hroom data
  refine ⟨Nat.le_succ_of_le hle, ?_, ?_, by omega, fun hb => ⟨Nat.lt_succ_of_le hle, hstarted hb⟩, hunstarted, ?_⟩
  · exact show b.mEnd + 1 ≤ (b.append data).mIovecs.length by omega
  · exact show b.mSize ≤ (b.append data).mIovecs.length by omega
  · rw [append_unread hle hroom]
    exact segments_append hsegs hne hlt

/-- With nothing read since the array was last empty a range is appended. -/
theorem write_unstarted (h : Inv b) (hne : data ≠ []) (hlt : data.length < 4294967296) (hb : b.mBegin = 0)
    (hroom : b.mEnd + 1 < 4294967296) :
    ∃ b', b.write data = .ok (data.length, b') ∧ Inv b' ∧ b'.unread = b.unread ++ [data] := by
  have hcap := h.length_lt
  have hsize := h.size_le
  have hsegs := h.segments
  by_cases hfull : b.mSize ≤ b.mEnd
  · obtain ⟨b1, hmake, hb1, hend1, hsize1, hlen1, hunread1⟩ := makeRoom_grow h hb hfull hroom
    rw [← hunread1] at hsegs ⊢
    refine ⟨b1.append data, write_eq hne (by rw [if_pos hfull, hmake]) (by omega) (by omega), ?_,
      append_unread (by omega) (by omega) data⟩
    exact append_inv (by omega) (by omega) (by omega) (by omega) (fun hbne => absurd hb1 hbne)
      (fun _ => by omega) hsegs hne hlt
  · refine ⟨b.append data, write_eq hne (by rw [if_neg hfull]; rfl) (by omega) hcap, ?_,
      append_unread (by omega) (by omega) data⟩
    exact append_inv (by omega) (by omega) hcap hsize (fun hbne => absurd hb hbne) (fun _ => by omega) hsegs hne hlt

/-- With `m_begin_` behind the start the oldest unread segment goes lost. -/
theorem write_started (h : Inv b) (hne : data ≠ []) (hlt : data.length < 4294967296) (hb : b.mBegin ≠ 0) :
    ∃ b', b.write data = .ok (data.length, b') ∧ Inv b' ∧ b'.unread = b.unread.tail ++ [data] := by
  obtain ⟨hbe, hsize⟩ := h.started hb
  have hend := h.end_le
  have hcap := h.length_lt
  have hfull : b.mSize ≤ b.mEnd := by omega
  obtain ⟨b1, hmake, hb1, hend1, hsize1, hlen1, hunread1⟩ := makeRoom_shift h hb
  have hsegs : ∀ s ∈ b1.unread, 0 < s.length ∧ s.length < 4294967296 := by
    intro s hs
    rw [hunread1] at hs
    exact h.segments s (List.mem_of_mem_tail hs)
  rw [← hunread1]
  refine ⟨b1.append data, write_eq hne (by rw [if_pos hfull, hmake]) (by omega) (by omega), ?_,
    append_unread (by omega) (by omega) data⟩
  exact append_inv (by omega) (by omega) (by omega) (by omega) (fun _ => by omega)
    (fun hz => absurd (hb1.symm.trans hz) hb) hsegs hne hlt

theorem tail_append_ne {b' : EVBuffer} (h : Inv b) (hb : b.mBegin ≠ 0)
    (hunread : b'.unread = b.unread.tail ++ [data]) : b'.bytes ≠ b.bytes ++ data := by
  obtain ⟨hlt, -⟩ := h.started hb
  obtain ⟨iov, -, hcons⟩ := unread_cons hlt h.end_le
  have hpos := (h.segments iov (by rw [hcons]; exact List.mem_cons_self)).1
  intro heq
  rw [bytes, bytes, hunread, hcons, List.tail_cons, List.flatten_append, List.flatten_singleton,
    List.flatten_cons] at heq
  have hlen := congrArg List.length heq
  rw [List.length_append, List.length_append, List.length_append] at hlen
  omega

theorem write_full (h : Inv b) (hne : data ≠ []) (hb : b.mBegin = 0) (hroom : ¬ b.mEnd + 1 < 4294967296) :
    b.write data = .error .outOfRange := by
  have hend := h.end_le
  have hcap := h.length_lt
  have hsize := h.unstarted hb
  have hsize' := h.size_le
  have hpos : ¬ data.length = 0 := fun hz => hne (List.length_eq_zero_iff.mp hz)
  have hfull : b.mSize ≤ b.mEnd := by omega
  have hwrap : u32 (b.mSize + 1) = 0 := by
    have hs : b.mSize + 1 = 4294967296 := by omega
    rw [hs]
    rfl
  have hitems : readAt b.mIovecs 0 b.mEnd = .ok (b.mIovecs.take b.mEnd) := readAt_ok (by omega)
  have hlen : (b.mIovecs.take b.mEnd).length = b.mEnd := List.length_take_of_le hend
  have hfit : ¬ 0 + (b.mIovecs.take b.mEnd).length ≤ (List.replicate 0 ([] : List Byte)).length := by
    rw [hlen, List.length_replicate]
    omega
  rw [write, if_neg hpos, if_pos hfull, makeRoom, if_neg (not_not.mpr hb), hwrap, hitems, Exec.ok_bind,
    writeAt, if_neg hfit]
  rfl

/-! ### FlushDataToFd -/

theorem flushIov_eq (h : Inv b) (hcount : b.mEnd - b.mBegin < 2147483648) :
    b.flushIov = .ok (b.mIovecs.take (b.mEnd - b.mBegin)) := by
  have hle := h.begin_le
  have hend := h.end_le
  have hcap := h.length_lt
  have hint : int32 (u32Sub b.mEnd b.mBegin) = (b.mEnd - b.mBegin : ℕ) := by
    rw [u32Sub_of_le hle (by omega)]
    exact int32_of_lt hcount
  have hpos : ¬ ((b.mEnd - b.mBegin : ℕ) : ℤ) < 0 := by omega
  rw [flushIov, hint, if_neg hpos, Int.toNat_natCast]
  exact readAt_ok (by omega)

theorem flushIov_negative (h : Inv b) (hcount : ¬ b.mEnd - b.mBegin < 2147483648) : b.flushIov = .ok [] := by
  have hle := h.begin_le
  have hend := h.end_le
  have hcap := h.length_lt
  have hneg : int32 (u32Sub b.mEnd b.mBegin) < 0 := by
    rw [u32Sub_of_le hle (by omega)]
    exact int32_neg_of_le (by omega) (by omega)
  rw [flushIov, if_pos hneg]

/-- What writev returns is read from the buffer, -1 as the largest length. -/
theorem flush_step (h : Inv b) {iov : List (List Byte)} (hiov : b.flushIov = .ok iov)
    (answer : Option ℕ) :
    ∃ b', b.step (.flush answer) = .ok (.flushed iov (int32 (RingBuffer.kernelWritev answer iov)), b') ∧
      Inv b' ∧ b'.bytes = b.bytes.drop (RingBuffer.kernelWritev answer iov % 4294967296).toNat := by
  have hlen : (RingBuffer.kernelWritev answer iov % 4294967296).toNat < 4294967296 := by omega
  obtain ⟨b', hread, hinv, hbytes⟩ := read_spec h hlen
  refine ⟨b', ?_, hinv, hbytes⟩
  rw [step, flushDataToFd, hiov, Exec.ok_bind]
  dsimp only
  rw [int32_emod, hread]
  rfl

/-! ### The queue -/

def bytesAfter (q : List Byte) : Op → List Byte
  | .write data => q ++ data
  | .read len => q.drop len
  | .clear => []
  | .flush answer => q.drop (RingBuffer.flushAccepted answer q.length)

def Offers (b : EVBuffer) : Out → Prop
  | .flushed offered _ => offered = b.unread
  | _ => True

def StepRefines (b : EVBuffer) (op : Op) : Prop :=
  ∃ out b', b.step op = .ok (out, b') ∧ b'.bytes = bytesAfter b.bytes op ∧ b.Offers out

theorem stepRefines_iff {op : Op} {out : Out} {b' : EVBuffer} (hstep : b.step op = .ok (out, b')) :
    b.StepRefines op ↔ b'.bytes = bytesAfter b.bytes op ∧ b.Offers out := by
  constructor
  · rintro ⟨out1, b1, hstep1, hq⟩
    rw [hstep] at hstep1
    cases hstep1
    exact hq
  · exact fun hq => ⟨out, b', hstep, hq⟩

/-- The kernel does not fail, and takes what an `unsigned int` holds. -/
def Takes (b : EVBuffer) : Option ℕ → Prop
  | none => False
  | some k => min k b.bytes.length < 4294967296

/-- Either there is nothing to flush, or the array starts with the unread segments. -/
def FlushOk (b : EVBuffer) (answer : Option ℕ) : Prop :=
  b.mBegin = b.mEnd ∨ b.mEnd - b.mBegin < 2147483648 ∧
    b.mIovecs.take (b.mEnd - b.mBegin) = b.unread ∧ b.Takes answer

def StepOk (b : EVBuffer) : Op → Prop
  | .write data => data = [] ∨ b.mBegin = 0 ∧ b.mEnd + 1 < 4294967296
  | .read _ => True
  | .clear => True
  | .flush answer => b.FlushOk answer

instance : ∀ answer, Decidable (b.Takes answer)
  | none => .isFalse False.elim
  | some _ => Nat.decLt _ _

instance (answer : Option ℕ) : Decidable (b.FlushOk answer) :=
  inferInstanceAs (Decidable (_ ∨ _ ∧ _ ∧ _))

instance : ∀ op, Decidable (b.StepOk op)
  | .write data => inferInstanceAs (Decidable (data = [] ∨ _ ∧ _))
  | .read _ => .isTrue trivial
  | .clear => .isTrue trivial
  | .flush answer => inferInstanceAs (Decidable (b.FlushOk answer))

theorem write_refines_iff (h : Inv b) (hlt : data.length < 4294967296) :
    b.StepRefines (.write data) ↔ b.StepOk (.write data) := by
  by_cases hne : data = []
  · refine ⟨fun _ => .inl hne, fun _ => ⟨.count 0, b, ?_, ?_, trivial⟩⟩
    · rw [step, write, hne]
      rfl
    · rw [bytesAfter, hne, List.append_nil]
  by_cases hb : b.mBegin = 0
  · by_cases hroom : b.mEnd + 1 < 4294967296
    · refine ⟨fun _ => .inr ⟨hb, hroom⟩, fun _ => ?_⟩
      obtain ⟨b', hwrite, -, hunread⟩ := write_unstarted h hne hlt hb hroom
      refine ⟨.count data.length, b', by rw [step, hwrite]; rfl, ?_, trivial⟩
      rw [bytes, hunread, List.flatten_append, List.flatten_singleton]
      rfl
    · constructor
      · intro href
        obtain ⟨out, b', hstep, -⟩ := href
        rw [step, write_full h hne hb hroom] at hstep
        cases hstep
      · intro hok
        rcases hok with hnil | ⟨-, hlt⟩
        · exact absurd hnil hne
        · exact absurd hlt hroom
  · obtain ⟨b1, hwrite, -, hunread⟩ := write_started h hne hlt hb
    have hstep : b.step (.write data) = .ok (.count data.length, b1) := by
      rw [step, hwrite]
      rfl
    rw [stepRefines_iff hstep]
    refine ⟨fun hq => absurd hq.1 (tail_append_ne h hb hunread), fun hok => ?_⟩
    rcases hok with hnil | ⟨hz, -⟩
    · exact absurd hnil hne
    · exact absurd hz hb

theorem flush_empty (h : Inv b) (he : b.mBegin = b.mEnd) (answer : Option ℕ) :
    b.StepRefines (.flush answer) := by
  have hzero : b.mEnd - b.mBegin = 0 := by omega
  have hunread : b.unread = [] := by rw [unread, hzero, List.take_zero]
  have hiov : b.flushIov = .ok [] := by rw [flushIov_eq h (by omega), hzero, List.take_zero]
  obtain ⟨b', hstep, -, hbytes⟩ := flush_step h hiov answer
  have hnil : b.bytes = [] := h.bytes_eq_nil.mpr he
  refine (stepRefines_iff hstep).mpr ⟨?_, hunread.symm⟩
  rw [hbytes, bytesAfter, hnil, List.drop_nil, List.drop_nil]

theorem drop_eq_drop_iff {l : List Byte} {m n : ℕ} (hm : m ≤ l.length) (hn : n ≤ l.length) :
    l.drop m = l.drop n ↔ m = n := by
  refine ⟨fun heq => ?_, fun heq => by rw [heq]⟩
  have hlen := congrArg List.length heq
  rw [List.length_drop, List.length_drop] at hlen
  omega

theorem flush_drops_iff (hne : b.bytes ≠ []) (answer : Option ℕ) :
    b.bytes.drop (RingBuffer.kernelWritev answer b.unread % 4294967296).toNat =
        bytesAfter b.bytes (.flush answer) ↔ b.Takes answer := by
  have hpos : 0 < b.bytes.length := List.length_pos_iff.mpr hne
  cases answer with
  | none =>
    -- the length is 2^32 - 1
    refine ⟨fun heq => ?_, False.elim⟩
    have hlen := congrArg List.length heq
    rw [bytesAfter, RingBuffer.flushAccepted, List.drop_zero, List.length_drop] at hlen
    have hres : (RingBuffer.kernelWritev none b.unread % 4294967296).toNat = 4294967295 := rfl
    omega
  | some k =>
    have hres : (RingBuffer.kernelWritev (some k) b.unread % 4294967296).toNat =
        min k b.bytes.length % 4294967296 := by
      rw [RingBuffer.kernelWritev, ← bytes]
      omega
    have hle := Nat.mod_le (min k b.bytes.length) 4294967296
    rw [hres, bytesAfter, RingBuffer.flushAccepted, drop_eq_drop_iff (by omega) (by omega), Takes]
    omega

theorem flush_refines_iff (h : Inv b) (answer : Option ℕ) :
    b.StepRefines (.flush answer) ↔ b.FlushOk answer := by
  by_cases he : b.mBegin = b.mEnd
  · exact ⟨fun _ => .inl he, fun _ => flush_empty h he answer⟩
  have hle := h.begin_le
  have hlength := h.unread_length
  have hne : b.bytes ≠ [] := fun hnil => he (h.bytes_eq_nil.mp hnil)
  rw [FlushOk, or_iff_right he]
  by_cases hcount : b.mEnd - b.mBegin < 2147483648
  · obtain ⟨b1, hstep, -, hbytes⟩ := flush_step h (flushIov_eq h hcount) answer
    rw [stepRefines_iff hstep, hbytes]
    constructor
    · rintro ⟨hdrop, hoffers⟩
      have hoffered : b.mIovecs.take (b.mEnd - b.mBegin) = b.unread := hoffers
      rw [hoffered] at hdrop
      exact ⟨hcount, hoffered, (flush_drops_iff hne answer).mp hdrop⟩
    · rintro ⟨-, hoffered, htakes⟩
      refine ⟨?_, hoffered⟩
      rw [hoffered]
      exact (flush_drops_iff hne answer).mpr htakes
  · -- a negative count offers nothing
    obtain ⟨b1, hstep, -, -⟩ := flush_step h (flushIov_negative h hcount) answer
    rw [stepRefines_iff hstep]
    refine ⟨fun hq => ?_, fun hok => absurd hok.1 hcount⟩
    have hnil : [] = b.unread := hq.2
    rw [← hnil, List.length_nil] at hlength
    omega

theorem step_refines_iff (h : Inv b) {op : Op} (htyped : op.Typed) : b.StepRefines op ↔ b.StepOk op := by
  cases op with
  | write data => exact write_refines_iff h htyped
  | read len =>
    obtain ⟨b', hread, -, hbytes⟩ := read_spec h htyped
    exact ⟨fun _ => trivial, fun _ => ⟨.bytes [], b', by rw [step, hread]; rfl, hbytes, trivial⟩⟩
  | clear => exact ⟨fun _ => trivial, fun _ => ⟨.none, b.clear, rfl, clear_bytes b, trivial⟩⟩
  | flush answer => exact flush_refines_iff h answer

theorem Inv.step (h : Inv b) {op : Op} (htyped : op.Typed) {out : Out} {b' : EVBuffer}
    (hstep : b.step op = .ok (out, b')) : Inv b' := by
  cases op with
  | write data =>
    by_cases hne : data = []
    · rw [EVBuffer.step, EVBuffer.write, hne] at hstep
      cases hstep
      exact h
    by_cases hb : b.mBegin = 0
    · by_cases hroom : b.mEnd + 1 < 4294967296
      · obtain ⟨b1, hwrite, hinv, -⟩ := write_unstarted h hne htyped hb hroom
        rw [EVBuffer.step, hwrite] at hstep
        cases hstep
        exact hinv
      · rw [EVBuffer.step, write_full h hne hb hroom] at hstep
        cases hstep
    · obtain ⟨b1, hwrite, hinv, -⟩ := write_started h hne htyped hb
      rw [EVBuffer.step, hwrite] at hstep
      cases hstep
      exact hinv
  | read len =>
    obtain ⟨b1, hread, hinv, -⟩ := read_spec h htyped
    rw [EVBuffer.step, hread] at hstep
    cases hstep
    exact hinv
  | clear =>
    cases hstep
    exact h.clear
  | flush answer =>
    have hiov : ∃ iov, b.flushIov = .ok iov := by
      by_cases hcount : b.mEnd - b.mBegin < 2147483648
      · exact ⟨_, flushIov_eq h hcount⟩
      · exact ⟨_, flushIov_negative h hcount⟩
    obtain ⟨iov, hiov⟩ := hiov
    obtain ⟨b1, hflush, hinv, -⟩ := flush_step h hiov answer
    rw [hflush] at hstep
    cases hstep
    exact hinv

/-! ### Runs -/

theorem run_refines (ops : List Op) (h : StepsOk EVBuffer.step StepRefines b ops) :
    ∃ outs b', runOps EVBuffer.step b ops = .ok (outs, b') ∧ b'.bytes = ops.foldl bytesAfter b.bytes := by
  induction ops generalizing b with
  | nil => exact ⟨[], b, rfl, rfl⟩
  | cons op ops ih =>
    obtain ⟨out, b1, hstep, hbytes1, -⟩ := stepsOk_head h
    obtain ⟨outs, b2, hrun, hbytes2⟩ := ih (stepsOk_tail hstep h)
    refine ⟨out :: outs, b2, runOps_cons_ok hstep hrun, ?_⟩
    rw [hbytes2, hbytes1, List.foldl_cons]

/-- All steps of a run refine the queue exactly when no range is written with
segments read, and every flush starts at the start of the array and does not fail. -/
theorem refines_iff (ops : List Op) (htyped : ∀ op ∈ ops, op.Typed) :
    StepsOk EVBuffer.step StepRefines {} ops ↔ StepsOk EVBuffer.step StepOk {} ops := by
  have hdom : StepsOk EVBuffer.step (fun _ op => op.Typed) {} ops := stepsOk_of_forall htyped
  exact stepsOk_iff_of_invariant (fun _ _ hi ht => step_refines_iff hi ht)
    (fun _ _ _ _ hi ht _ hstep => hi.step ht hstep) ops {} fresh_inv hdom

/-- Reads and flushes inside the first range leave the array as it was. -/
theorem refines_iff_run :
    (∀ op ∈ [Op.write [1, 2], .write [3], .flush (some 3), .write [4, 5], .read 1, .flush (some 1), .clear,
        .write [6], .flush (some 9)], op.Typed) ∧
      StepsOk EVBuffer.step StepRefines {}
        [.write [1, 2], .write [3], .flush (some 3), .write [4, 5], .read 1, .flush (some 1), .clear,
          .write [6], .flush (some 9)] :=
  ⟨by decide, (refines_iff _ (by decide)).mpr (by decide)⟩

/-- The range 3, 4 is lost when 5 is written, a failing flush drops all bytes, and a flush
after a read offers the range that was read. -/
theorem not_refines :
    ¬ StepsOk EVBuffer.step StepRefines {} [.write [1, 2], .write [3, 4], .read 2, .write [5]] ∧
      ¬ StepsOk EVBuffer.step StepRefines {} [.write [1, 2], .flush none] ∧
      ¬ StepsOk EVBuffer.step StepRefines {} [.write [1, 2], .write [3, 4], .read 2, .flush (some 2)] := by
  have hfirst : EVBuffer.step {} (.write [1, 2]) = .ok (.count 2, ⟨[[1, 2], [], []], 3, 0, 1⟩) := rfl
  have hsecond : EVBuffer.step ⟨[[1, 2], [], []], 3, 0, 1⟩ (.write [3, 4]) =
      .ok (.count 2, ⟨[[1, 2], [3, 4], []], 3, 0, 2⟩) := rfl
  have hread : EVBuffer.step ⟨[[1, 2], [3, 4], []], 3, 0, 2⟩ (.read 2) =
      .ok (.bytes [], ⟨[[1, 2], [3, 4], []], 1, 1, 2⟩) := rfl
  have hwrite : EVBuffer.step ⟨[[1, 2], [3, 4], []], 1, 1, 2⟩ (.write [5]) =
      .ok (.count 1, ⟨[[3, 4], [5], []], 1, 1, 2⟩) := rfl
  have hfail : EVBuffer.step ⟨[[1, 2], [], []], 3, 0, 1⟩ (.flush none) =
      .ok (.flushed [[1, 2]] (-1), ⟨[[1, 2], [], []], 0, 0, 0⟩) := rfl
  have hflush : EVBuffer.step ⟨[[1, 2], [3, 4], []], 1, 1, 2⟩ (.flush (some 2)) =
      .ok (.flushed [[1, 2]] 2, ⟨[[1, 2], [3, 4], []], 0, 0, 0⟩) := rfl
  refine ⟨fun h => ?_, fun h => ?_, fun h => ?_⟩
  · have hlast := stepsOk_head (stepsOk_tail hread (stepsOk_tail hsecond (stepsOk_tail hfirst h)))
    exact absurd ((stepRefines_iff hwrite).mp hlast).1 (by decide)
  · have hlast := stepsOk_head (stepsOk_tail hfirst h)
    exact absurd ((stepRefines_iff hfail).mp hlast).1 (by decide)
  · have hlast := stepsOk_head (stepsOk_tail hread (stepsOk_tail hsecond (stepsOk_tail hfirst h)))
    have hoffered : [[1, 2]] = ([[3, 4]] : List (List Byte)) := ((stepRefines_iff hflush).mp hlast).2
    exact absurd hoffered (by decide)

end EVBuffer

end DeftRpc.Buffer
