import DeftRpc.Foundation.Exec

/-!
# Ranges of an array and the ring reading of an array

`readAt` and `writeAt` copy a range out of and into an array and fault when
the range leaves it. `ringView buf p n` is the content of a ring of `n` items
that starts at index `p` and wraps at the end of the array.
-/

namespace DeftRpc.Foundation
variable {α : Type}

/-! ### Ranges -/

def readAt (buf : List α) (off len : ℕ) : Exec (List α) :=
  if off + len ≤ buf.length then .ok ((buf.drop off).take len) else .error .outOfRange

/-- `buf` with the items from index `off` on replaced by `data`. -/
def paste (buf : List α) (off : ℕ) (data : List α) : List α :=
  buf.take off ++ data ++ buf.drop (off + data.length)

def writeAt (buf : List α) (off : ℕ) (data : List α) : Exec (List α) :=
  if off + data.length ≤ buf.length then .ok (paste buf off data) else .error .outOfRange

theorem readAt_ok {buf : List α} {off len : ℕ} (h : off + len ≤ buf.length) :
    readAt buf off len = .ok ((buf.drop off).take len) := by
  simp only [readAt, h, if_true]

theorem writeAt_ok {buf : List α} {off : ℕ} {data : List α} (h : off + data.length ≤ buf.length) :
    writeAt buf off data = .ok (paste buf off data) := by
  simp only [writeAt, h, if_true]

theorem paste_length (buf : List α) (off : ℕ) (data : List α)
    (h : off + data.length ≤ buf.length) : (paste buf off data).length = buf.length := by
  simp only [paste, List.length_append, List.length_take, List.length_drop]
  omega

theorem writeAt_length {buf r : List α} {off : ℕ} {data : List α}
    (h : writeAt buf off data = .ok r) : r.length = buf.length := by
  unfold writeAt at h
  split at h
  · next hfit =>
    cases h
    exact paste_length buf off data hfit
  · cases h

@[simp] theorem paste_nil (buf : List α) (off : ℕ) : paste buf off [] = buf := by
  simp only [paste, List.append_nil, List.length_nil, Nat.add_zero, List.take_append_drop]

theorem paste_get_before {buf : List α} {off i : ℕ} {data : List α}
    (h : off + data.length ≤ buf.length) (hi : i < off) : (paste buf off data)[i]? = buf[i]? := by
  have ht : i < (buf.take off).length := by
    rw [List.length_take]
    omega
  rw [paste, List.append_assoc, List.getElem?_append_left ht, List.getElem?_take_of_lt hi]

theorem paste_get_inside {buf : List α} {off i : ℕ} {data : List α}
    (h : off + data.length ≤ buf.length) (hi : i < data.length) :
    (paste buf off data)[off + i]? = data[i]? := by
  have ht : (buf.take off).length = off := by
    rw [List.length_take]
    omega
  rw [paste, List.append_assoc, List.getElem?_append_right (by omega), ht, Nat.add_sub_cancel_left,
    List.getElem?_append_left hi]

theorem paste_get_after {buf : List α} {off i : ℕ} {data : List α}
    (h : off + data.length ≤ buf.length) (hi : off + data.length ≤ i) :
    (paste buf off data)[i]? = buf[i]? := by
  have ht : (buf.take off ++ data).length = off + data.length := by
    rw [List.length_append, List.length_take]
    omega
  rw [paste, List.getElem?_append_right (by omega), ht, List.getElem?_drop]
  congr 1
  omega

/-! ### The ring reading -/

def ringView (buf : List α) (p n : ℕ) : List α := (buf.drop p ++ buf).take n

@[simp] theorem ringView_zero (buf : List α) (p : ℕ) : ringView buf p 0 = [] := rfl

theorem ringView_length {buf : List α} {p n : ℕ} (hn : n ≤ buf.length) :
    (ringView buf p n).length = n := by
  simp only [ringView, List.length_take, List.length_append, List.length_drop]
  omega

/-- The array index of the `i`-th item of the ring. -/
def ringIndex (cap p i : ℕ) : ℕ := if p + i < cap then p + i else p + i - cap

theorem ringView_get {buf : List α} {p n i : ℕ} (hp : p ≤ buf.length) (hi : i < n) :
    (ringView buf p n)[i]? = buf[ringIndex buf.length p i]? := by
  have hd : (buf.drop p).length = buf.length - p := List.length_drop
  rw [ringView, List.getElem?_take_of_lt hi, ringIndex]
  by_cases h : p + i < buf.length
  · rw [List.getElem?_append_left (by omega), List.getElem?_drop]
    simp only [h, if_true]
  · rw [List.getElem?_append_right (by omega), hd]
    simp only [h, if_false]
    congr 1
    omega

theorem ringView_straight {buf : List α} {p n : ℕ} (h : p + n ≤ buf.length) :
    ringView buf p n = (buf.drop p).take n := by
  have hd : (buf.drop p).length = buf.length - p := List.length_drop
  rw [ringView, List.take_append_of_le_length (by omega)]

theorem ringView_wrapped {buf : List α} {p n : ℕ} (hp : p ≤ buf.length)
    (h : buf.length ≤ p + n) :
    ringView buf p n = buf.drop p ++ buf.take (p + n - buf.length) := by
  have hd : (buf.drop p).length = buf.length - p := List.length_drop
  rw [ringView, List.take_append, List.take_of_length_le (by omega), hd]
  congr 2
  omega

theorem ringView_take (buf : List α) (p n k : ℕ) (h : k ≤ n) :
    (ringView buf p n).take k = ringView buf p k := by
  rw [ringView, List.take_take, Nat.min_eq_left h, ringView]

/-- Taking items from the front moves the start, around the end of the array if
it has to. -/
theorem ringView_drop {buf : List α} {p n k : ℕ} (hp : p ≤ buf.length) (hk : k ≤ n)
    (hn : n ≤ buf.length) :
    (ringView buf p n).drop k = ringView buf (ringIndex buf.length p k) (n - k) := by
  apply List.ext_getElem?
  intro i
  rw [List.getElem?_drop]
  by_cases hi : i < n - k
  · have hq : ringIndex buf.length p k ≤ buf.length := by
      unfold ringIndex
      split <;> omega
    rw [ringView_get hp (by omega), ringView_get hq hi]
    congr 1
    unfold ringIndex
    split <;> split <;> split <;> omega
  · have h1 : (ringView buf p n).length ≤ k + i := by
      rw [ringView_length hn]
      omega
    have h2 : (ringView buf (ringIndex buf.length p k) (n - k)).length ≤ i := by
      rw [ringView_length (by omega)]
      omega
    rw [List.getElem?_eq_none h1, List.getElem?_eq_none h2]

theorem ringView_paste (buf : List α) (p n off : ℕ) (data : List α) (hp : p ≤ buf.length)
    (hn : n + data.length ≤ buf.length) (hoff : off + data.length ≤ buf.length)
    (hpos : off = p + n ∨ off + buf.length = p + n) :
    ringView (paste buf off data) p (n + data.length) = ringView buf p n ++ data := by
  have hl : (paste buf off data).length = buf.length := paste_length buf off data hoff
  apply List.ext_getElem?
  intro i
  by_cases hi : i < n + data.length
  · rw [ringView_get (by omega) hi, hl]
    by_cases hin : i < n
    · rw [List.getElem?_append_left (by rw [ringView_length (by omega)]; exact hin),
        ringView_get hp hin]
      unfold ringIndex
      split
      · rcases hpos with hpos | hpos
        · exact paste_get_before hoff (by omega)
        · exact paste_get_after hoff (by omega)
      · rcases hpos with hpos | hpos
        · exact paste_get_before hoff (by omega)
        · exact paste_get_before hoff (by omega)
    · rw [List.getElem?_append_right (by rw [ringView_length (by omega)]; omega),
        ringView_length (by omega)]
      have hidx : ringIndex buf.length p i = off + (i - n) := by
        unfold ringIndex
        split <;> omega
      rw [hidx, paste_get_inside hoff (by omega)]
  · have h1 : (ringView (paste buf off data) p (n + data.length)).length ≤ i := by
      rw [ringView_length (by omega)]
      omega
    have h2 : (ringView buf p n ++ data).length ≤ i := by
      rw [List.length_append, ringView_length (by omega)]
      omega
    rw [List.getElem?_eq_none h1, List.getElem?_eq_none h2]

theorem ringView_paste_around (buf : List α) (p n : ℕ) (front back : List α)
    (hfront : p + n + front.length = buf.length)
    (hn : n + front.length + back.length ≤ buf.length) :
    ringView (paste (paste buf (p + n) front) 0 back) p (n + (front ++ back).length)
      = ringView buf p n ++ (front ++ back) := by
  have hl := paste_length buf (p + n) front (by omega)
  have h1 := ringView_paste buf p n (p + n) front (by omega) (by omega) (by omega) (Or.inl rfl)
  have h2 := ringView_paste (paste buf (p + n) front) p (n + front.length) 0 back (by omega)
    (by omega) (by omega) (Or.inr (by omega))
  rw [List.length_append, ← Nat.add_assoc, h2, h1, List.append_assoc]

/-- Items filled in from the end of a straight ring to the end of the array and
then from its start on. -/
theorem ringView_fill (buf : List α) (p n : ℕ) (data : List α) (hstraight : p + n ≤ buf.length)
    (hn : n + data.length ≤ buf.length) :
    ringView (paste (paste buf (p + n) (data.take (buf.length - (p + n)))) 0
        (data.drop (buf.length - (p + n)))) p (n + data.length) = ringView buf p n ++ data := by
  by_cases hfit : data.length ≤ buf.length - (p + n)
  · rw [List.take_of_length_le hfit, List.drop_of_length_le hfit, paste_nil]
    exact ringView_paste buf p n (p + n) data (by omega) hn (by omega) (Or.inl rfl)
  · have htl : (data.take (buf.length - (p + n))).length = buf.length - (p + n) := by
      rw [List.length_take]
      omega
    have hdl : (data.drop (buf.length - (p + n))).length = data.length - (buf.length - (p + n)) :=
      List.length_drop
    have h := ringView_paste_around buf p n (data.take (buf.length - (p + n)))
      (data.drop (buf.length - (p + n))) (by omega) (by omega)
    rwa [List.take_append_drop] at h

end DeftRpc.Foundation
