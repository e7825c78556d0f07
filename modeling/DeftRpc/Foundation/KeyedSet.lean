import Mathlib.Tactic

/-!
# Sets ordered by a key

A list sorted strictly by a key holds at most one element for each value of
the key. Inserting an element whose key is present changes nothing; erasing
goes by key.
-/

namespace DeftRpc.Foundation
variable {κ ν : Type} [LinearOrder ν]

def keyInsert (key : κ → ν) (x : κ) : List κ → List κ
  | [] => [x]
  | y :: ys =>
    if key x < key y then x :: y :: ys
    else if key y < key x then y :: keyInsert key x ys
    else y :: ys

def keyErase (key : κ → ν) (k : ν) : List κ → List κ
  | [] => []
  | y :: ys =>
    if key y < k then y :: keyErase key k ys
    else if k < key y then y :: ys
    else ys

def KeySorted (key : κ → ν) (l : List κ) : Prop := l.Pairwise fun a b => key a < key b

theorem KeySorted.congr {key key' : κ → ν} {l : List κ} (h : KeySorted key l)
    (he : ∀ x ∈ l, key x = key' x) : KeySorted key' l := by
  induction l with
  | nil => exact List.Pairwise.nil
  | cons x l ih =>
    obtain ⟨hx, hl⟩ := List.pairwise_cons.mp h
    have htail := ih hl fun y hy => he y (List.mem_cons_of_mem x hy)
    refine List.pairwise_cons.mpr ⟨?_, htail⟩
    intro y hy
    rw [← he x List.mem_cons_self, ← he y (List.mem_cons_of_mem x hy)]
    exact hx y hy

theorem KeySorted.head_le {key : κ → ν} {x : κ} {l : List κ} (h : KeySorted key (x :: l)) :
    ∀ y ∈ x :: l, key x ≤ key y := by
  intro y hy
  rcases List.mem_cons.mp hy with rfl | hy
  · exact le_refl _
  · exact le_of_lt ((List.pairwise_cons.mp h).1 y hy)

theorem KeySorted.key_inj {key : κ → ν} {l : List κ} (h : KeySorted key l) {x y : κ} (hx : x ∈ l)
    (hy : y ∈ l) (he : key x = key y) : x = y := by
  induction l with
  | nil => exact absurd hx List.not_mem_nil
  | cons z l ih =>
    obtain ⟨hz, hl⟩ := List.pairwise_cons.mp h
    rcases List.mem_cons.mp hx with hxz | hxl <;> rcases List.mem_cons.mp hy with hyz | hyl
    · rw [hxz, hyz]
    · rw [hxz] at he
      exact absurd he (ne_of_lt (hz y hyl))
    · rw [hyz] at he
      exact absurd he.symm (ne_of_lt (hz x hxl))
    · exact ih hl hxl hyl

theorem KeySorted.pairwise_iff {key : κ → ν} {l : List κ} (h : KeySorted key l) (r : κ → κ → Prop) :
    l.Pairwise r ↔ ∀ x ∈ l, ∀ y ∈ l, key x < key y → r x y := by
  induction l with
  | nil => simp
  | cons z l ih =>
    obtain ⟨hz, hl⟩ := List.pairwise_cons.mp h
    rw [List.pairwise_cons, ih hl]
    constructor
    · rintro ⟨hhead, htail⟩ x hx y hy hlt
      rcases List.mem_cons.mp hx with rfl | hxl
      · rcases List.mem_cons.mp hy with rfl | hyl
        · exact absurd hlt (lt_irrefl _)
        · exact hhead y hyl
      · rcases List.mem_cons.mp hy with rfl | hyl
        · exact absurd hlt (not_lt_of_gt (hz x hxl))
        · exact htail x hxl y hyl hlt
    · intro hall
      refine ⟨fun y hy => ?_, fun x hx y hy => ?_⟩
      · exact hall z List.mem_cons_self y (List.mem_cons_of_mem z hy) (hz y hy)
      · exact hall x (List.mem_cons_of_mem z hx) y (List.mem_cons_of_mem z hy)

theorem KeySorted.mem_takeWhile_iff {key : κ → ν} {l : List κ} (h : KeySorted key l) (k : ν) (x : κ) :
    x ∈ l.takeWhile (fun y => decide (key y ≤ k)) ↔ x ∈ l ∧ key x ≤ k := by
  induction l with
  | nil => simp
  | cons z l ih =>
    obtain ⟨hz, hl⟩ := List.pairwise_cons.mp h
    rw [List.takeWhile_cons]
    by_cases hle : key z ≤ k
    · rw [decide_eq_true hle, if_pos rfl, List.mem_cons, List.mem_cons, ih hl]
      constructor
      · rintro (rfl | ⟨hx, hxk⟩)
        · exact ⟨Or.inl rfl, hle⟩
        · exact ⟨Or.inr hx, hxk⟩
      · rintro ⟨rfl | hx, hxk⟩
        · exact Or.inl rfl
        · exact Or.inr ⟨hx, hxk⟩
    · rw [decide_eq_false hle, if_neg Bool.false_ne_true]
      constructor
      · exact fun hx => absurd hx List.not_mem_nil
      · rintro ⟨hx, hxk⟩
        exact absurd (le_trans (h.head_le x hx) hxk) hle

/-! ### Insertion -/

theorem mem_keyInsert {key : κ → ν} {x y : κ} {l : List κ} (h : y ∈ keyInsert key x l) :
    y = x ∨ y ∈ l := by
  induction l with
  | nil => exact Or.inl (List.mem_singleton.mp h)
  | cons z l ih =>
    rw [keyInsert] at h
    split at h
    · exact List.mem_cons.mp h
    · split at h
      · rcases List.mem_cons.mp h with rfl | h
        · exact Or.inr List.mem_cons_self
        · rcases ih h with rfl | h
          · exact Or.inl rfl
          · exact Or.inr (List.mem_cons_of_mem z h)
      · exact Or.inr h

theorem mem_keyInsert_of_mem {key : κ → ν} (x : κ) {y : κ} {l : List κ} (h : y ∈ l) :
    y ∈ keyInsert key x l := by
  induction l with
  | nil => exact absurd h List.not_mem_nil
  | cons z l ih =>
    rw [keyInsert]
    split
    · exact List.mem_cons_of_mem x h
    · split
      · rcases List.mem_cons.mp h with rfl | h
        · exact List.mem_cons_self
        · exact List.mem_cons_of_mem z (ih h)
      · exact h

theorem mem_keyInsert_self {key : κ → ν} {x : κ} {l : List κ} (h : ∀ y ∈ l, key y ≠ key x) :
    x ∈ keyInsert key x l := by
  induction l with
  | nil => exact List.mem_singleton_self x
  | cons z l ih =>
    have hz := h z List.mem_cons_self
    rw [keyInsert]
    split
    · exact List.mem_cons_self
    · next hlt =>
      have hgt : key z < key x := lt_of_le_of_ne (not_lt.mp hlt) hz
      rw [if_pos hgt]
      exact List.mem_cons_of_mem z (ih fun y hy => h y (List.mem_cons_of_mem z hy))

theorem keyInsert_sorted {key : κ → ν} (x : κ) {l : List κ} (h : KeySorted key l) :
    KeySorted key (keyInsert key x l) := by
  induction l with
  | nil => exact List.pairwise_singleton _ _
  | cons z l ih =>
    obtain ⟨hz, hl⟩ := List.pairwise_cons.mp h
    rw [keyInsert]
    split
    · next hlt =>
      refine List.pairwise_cons.mpr ⟨?_, h⟩
      intro y hy
      exact lt_of_lt_of_le hlt (h.head_le y hy)
    · split
      · next hgt =>
        refine List.pairwise_cons.mpr ⟨?_, ih hl⟩
        intro y hy
        rcases mem_keyInsert hy with rfl | hy
        · exact hgt
        · exact hz y hy
      · exact h

/-- An element whose key is there is not inserted, so the keys are those of both. -/
theorem mem_map_keyInsert {key : κ → ν} {x : κ} {k : ν} {l : List κ} :
    k ∈ (keyInsert key x l).map key ↔ k ∈ l.map key ∨ k = key x := by
  induction l with
  | nil => simp [keyInsert]
  | cons z l ih =>
    rw [keyInsert]
    split
    · rw [List.map_cons, List.mem_cons, or_comm]
    · next hlt =>
      split
      · rw [List.map_cons, List.mem_cons, ih, List.map_cons, List.mem_cons, or_assoc]
      · next hgt =>
        have he : key x = key z := le_antisymm (not_lt.mp hgt) (not_lt.mp hlt)
        refine ⟨Or.inl, ?_⟩
        rintro (hk | rfl)
        · exact hk
        · rw [he, List.map_cons]
          exact List.mem_cons_self

/-! ### Erasure -/

theorem mem_of_mem_keyErase {key : κ → ν} {k : ν} {y : κ} {l : List κ}
    (h : y ∈ keyErase key k l) : y ∈ l := by
  induction l with
  | nil => exact h
  | cons z l ih =>
    rw [keyErase] at h
    split at h
    · rcases List.mem_cons.mp h with rfl | h
      · exact List.mem_cons_self
      · exact List.mem_cons_of_mem z (ih h)
    · split at h
      · exact h
      · exact List.mem_cons_of_mem z h

theorem keyErase_sorted {key : κ → ν} (k : ν) {l : List κ} (h : KeySorted key l) :
    KeySorted key (keyErase key k l) := by
  induction l with
  | nil => exact h
  | cons z l ih =>
    obtain ⟨hz, hl⟩ := List.pairwise_cons.mp h
    rw [keyErase]
    split
    · exact List.pairwise_cons.mpr ⟨fun y hy => hz y (mem_of_mem_keyErase hy), ih hl⟩
    · split
      · exact h
      · exact hl

theorem mem_keyErase_iff {key : κ → ν} {k : ν} {y : κ} {l : List κ} (h : KeySorted key l) :
    y ∈ keyErase key k l ↔ y ∈ l ∧ key y ≠ k := by
  induction l with
  | nil => exact ⟨fun hy => absurd hy List.not_mem_nil, fun hy => hy.1⟩
  | cons z l ih =>
    obtain ⟨hz, hl⟩ := List.pairwise_cons.mp h
    rw [keyErase]
    by_cases hlt : key z < k
    · rw [if_pos hlt, List.mem_cons, List.mem_cons, ih hl]
      constructor
      · rintro (rfl | ⟨hy, hne⟩)
        · exact ⟨Or.inl rfl, ne_of_lt hlt⟩
        · exact ⟨Or.inr hy, hne⟩
      · rintro ⟨rfl | hy, hne⟩
        · exact Or.inl rfl
        · exact Or.inr ⟨hy, hne⟩
    · rw [if_neg hlt]
      by_cases hgt : k < key z
      · rw [if_pos hgt]
        constructor
        · intro hy
          exact ⟨hy, ne_of_gt (lt_of_lt_of_le hgt (h.head_le y hy))⟩
        · exact fun hy => hy.1
      · have hk : k = key z := le_antisymm (not_lt.mp hlt) (not_lt.mp hgt)
        rw [if_neg hgt, hk]
        constructor
        · intro hy
          exact ⟨List.mem_cons_of_mem z hy, ne_of_gt (hz y hy)⟩
        · rintro ⟨hy, hne⟩
          rcases List.mem_cons.mp hy with rfl | hy
          · exact absurd rfl hne
          · exact hy

theorem mem_map_keyErase {key : κ → ν} {k k' : ν} {l : List κ} (h : KeySorted key l) :
    k' ∈ (keyErase key k l).map key ↔ k' ∈ l.map key ∧ k' ≠ k := by
  simp only [List.mem_map, mem_keyErase_iff h]
  constructor
  · rintro ⟨y, ⟨hy, hne⟩, rfl⟩
    exact ⟨⟨y, hy, rfl⟩, hne⟩
  · rintro ⟨⟨y, hy, rfl⟩, hne⟩
    exact ⟨y, ⟨hy, hne⟩, rfl⟩

theorem keyErase_of_free {key : κ → ν} {k : ν} {l : List κ} (h : ∀ y ∈ l, key y ≠ k) :
    keyErase key k l = l := by
  induction l with
  | nil => rfl
  | cons z l ih =>
    have htail := ih fun y hy => h y (List.mem_cons_of_mem z hy)
    rw [keyErase, htail]
    split
    · rfl
    · next hlt =>
      have hgt : k < key z := lt_of_le_of_ne (not_lt.mp hlt) (h z List.mem_cons_self).symm
      rw [if_pos hgt]

theorem length_keyErase_of_mem {key : κ → ν} {x : κ} {l : List κ} (h : KeySorted key l) (hx : x ∈ l) :
    (keyErase key (key x) l).length + 1 = l.length := by
  induction l with
  | nil => exact absurd hx List.not_mem_nil
  | cons z l ih =>
    obtain ⟨hz, hl⟩ := List.pairwise_cons.mp h
    rw [keyErase]
    rcases List.mem_cons.mp hx with rfl | hx
    · rw [if_neg (lt_irrefl _), if_neg (lt_irrefl _), List.length_cons]
    · rw [if_pos (hz x hx), List.length_cons, List.length_cons, ih hl hx]

end DeftRpc.Foundation
