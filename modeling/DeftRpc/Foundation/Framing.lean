import Mathlib.Tactic

/-!
# Length-prefixed frames on a stream

A length code writes a length into a fixed number of items and reads it back.
A frame is the code of a message's length followed by the message. A receiver
that holds the front of a stream of frames can tell whether the first frame
has arrived, and takes exactly that frame off when it has.
-/

namespace DeftRpc.Foundation

structure LengthCode (β : Type) where
  width : ℕ
  limit : ℕ
  put : ℕ → List β
  get : List β → ℕ
  put_length : ∀ n, (put n).length = width
  get_put : ∀ n, n < limit → get (put n) = n

namespace LengthCode
variable {β : Type} (c : LengthCode β)

def frame (m : List β) : List β := c.put m.length ++ m

def frames (ms : List (List β)) : List β := (ms.map c.frame).flatten

/-- The first message and what follows its frame; `none` while it is incomplete. -/
def next (q : List β) : Option (List β × List β) :=
  if q.length < c.width then none
  else if q.length < c.width + c.get (q.take c.width) then none
  else some ((q.drop c.width).take (c.get (q.take c.width)),
    q.drop (c.width + c.get (q.take c.width)))

/-- How many of the frames of `ms` end within the first `n` items of the stream. -/
def complete : List (List β) → ℕ → ℕ
  | [], _ => 0
  | m :: ms, n => if (c.frame m).length ≤ n then complete ms (n - (c.frame m).length) + 1 else 0

@[simp] theorem frame_length (m : List β) : (c.frame m).length = c.width + m.length := by
  rw [frame, List.length_append, c.put_length]

@[simp] theorem frames_nil : c.frames [] = [] := rfl

@[simp] theorem frames_cons (m : List β) (ms : List (List β)) :
    c.frames (m :: ms) = c.frame m ++ c.frames ms := rfl

theorem frame_ne_nil (hw : 0 < c.width) (m : List β) : c.frame m ≠ [] := by
  intro h
  have hlen := c.frame_length m
  rw [h, List.length_nil] at hlen
  omega

theorem frames_append (ms ns : List (List β)) :
    c.frames (ms ++ ns) = c.frames ms ++ c.frames ns := by
  simp only [frames, List.map_append, List.flatten_append]

/-! ### The front of a stream -/

theorem split_complete {q future m tail : List β} (h : q ++ future = c.frame m ++ tail)
    (hl : (c.frame m).length ≤ q.length) : ∃ q', q = c.frame m ++ q' ∧ q' ++ future = tail := by
  obtain ⟨q', hq⟩ : c.frame m <+: q := by
    apply List.prefix_of_prefix_length_le _ (List.prefix_append q future) hl
    rw [h]
    exact List.prefix_append _ _
  refine ⟨q', hq.symm, ?_⟩
  rw [← hq, List.append_assoc] at h
  exact List.append_cancel_left h

theorem next_frame {m : List β} (hm : m.length < c.limit) (q : List β) :
    c.next (c.frame m ++ q) = some (m, q) := by
  have hw := c.put_length m.length
  have htake : (c.frame m ++ q).take c.width = c.put m.length := by
    rw [frame, List.append_assoc, List.take_append_of_le_length (by omega),
      List.take_of_length_le (by omega)]
  have hdrop : (c.frame m ++ q).drop c.width = m ++ q := by
    rw [frame, List.append_assoc, List.drop_append_of_le_length (by omega),
      List.drop_of_length_le (by omega), List.nil_append]
  have hlen : (c.frame m ++ q).length = c.width + m.length + q.length := by
    rw [List.length_append, frame_length]
  unfold next
  rw [htake, c.get_put m.length hm, ← List.drop_drop, hdrop, if_neg (by omega), if_neg (by omega),
    List.take_left, List.drop_left]

theorem next_incomplete {q future m tail : List β} (hm : m.length < c.limit)
    (h : q ++ future = c.frame m ++ tail) (hl : q.length < (c.frame m).length) :
    c.next q = none := by
  have hw := c.put_length m.length
  unfold next
  by_cases hq : q.length < c.width
  · rw [if_pos hq]
  · have htake : q.take c.width = c.put m.length := by
      have h2 := congrArg (List.take c.width) h
      rw [frame, List.append_assoc, List.take_append_of_le_length (by omega),
        List.take_append_of_le_length (by omega), List.take_of_length_le (le_of_eq hw)] at h2
      exact h2
    rw [frame_length] at hl
    rw [if_neg hq, htake, c.get_put m.length hm, if_pos hl]

theorem next_nil (h : 0 < c.width) : c.next [] = none := by
  rw [next, List.length_nil, if_pos h]

theorem next_append {q m r : List β} (h : c.next q = some (m, r)) (s : List β) :
    c.next (q ++ s) = some (m, r ++ s) := by
  unfold next at h ⊢
  split at h
  · cases h
  · next hw =>
    have htake : (q ++ s).take c.width = q.take c.width :=
      List.take_append_of_le_length (by omega)
    split at h
    · cases h
    · next hlen =>
      cases h
      rw [htake, List.length_append, if_neg (by omega), if_neg (by omega),
        List.drop_append_of_le_length (by omega), List.drop_append_of_le_length (by omega),
        List.take_append_of_le_length (by rw [List.length_drop]; omega)]

/-- Whether the first frame of a stream has arrived is what `next` finds out. -/
theorem next_cases (hw : 0 < c.width) {q future : List β} {ms : List (List β)}
    (hl : ∀ m ∈ ms, m.length < c.limit) (h : q ++ future = c.frames ms) :
    (c.next q = none ∧ ∀ m tail, ms = m :: tail → q.length < (c.frame m).length) ∨
    ∃ m tail q', ms = m :: tail ∧ q = c.frame m ++ q' ∧ c.next q = some (m, q') ∧
      q' ++ future = c.frames tail := by
  cases ms with
  | nil =>
    rw [frames_nil, List.append_eq_nil_iff] at h
    rw [h.1]
    exact Or.inl ⟨c.next_nil hw, fun m tail he => absurd he.symm (List.cons_ne_nil m tail)⟩
  | cons m tail =>
    have hm := hl m List.mem_cons_self
    rw [frames_cons] at h
    by_cases hq : q.length < (c.frame m).length
    · refine Or.inl ⟨c.next_incomplete hm h hq, ?_⟩
      intro m' tail' he
      cases he
      exact hq
    · obtain ⟨q', hq', hrest⟩ := c.split_complete h (by omega)
      refine Or.inr ⟨m, tail, q', rfl, hq', ?_, hrest⟩
      rw [hq']
      exact c.next_frame hm q'

/-! ### Counting complete frames -/

@[simp] theorem complete_nil (n : ℕ) : c.complete [] n = 0 := rfl

theorem complete_all (ms : List (List β)) : c.complete ms (c.frames ms).length = ms.length := by
  induction ms with
  | nil => rfl
  | cons m ms ih =>
    rw [complete, frames_cons, List.length_append, if_pos (Nat.le_add_right _ _),
      Nat.add_sub_cancel_left, ih, List.length_cons]

/-- Behind the first `k` frames, when the next one is not complete, exactly `k` are. -/
theorem complete_eq (ms : List (List β)) (rest : List (List β)) (n : ℕ)
    (h : ∀ m tail, rest = m :: tail → n < (c.frame m).length) :
    c.complete (ms ++ rest) ((c.frames ms).length + n) = ms.length := by
  induction ms with
  | nil =>
    cases rest with
    | nil => rfl
    | cons m tail =>
      have hn := h m tail rfl
      rw [List.nil_append, frames_nil, List.length_nil, Nat.zero_add, complete, if_neg (by omega),
        List.length_nil]
  | cons m ms ih =>
    have hsub : (c.frame m ++ c.frames ms).length + n - (c.frame m).length
        = (c.frames ms).length + n := by
      rw [List.length_append]
      omega
    rw [List.cons_append, complete, frames_cons, hsub, ih, List.length_cons, if_pos]
    rw [List.length_append]
    omega

end LengthCode

end DeftRpc.Foundation
