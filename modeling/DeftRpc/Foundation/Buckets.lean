import Mathlib.Tactic

/-!
# Arrays of chains

A list of chains, and what replacing one chain does to the elements. `PlacedBy`
says that a function of the element gives the index of its chain.
-/

namespace DeftRpc.Foundation
variable {α : Type}

theorem flatten_set_perm {buckets : List (List α)} {i : ℕ} {old : List α}
    (h : buckets[i]? = some old) (new : List α) :
    ((buckets.set i new).flatten ++ old).Perm (buckets.flatten ++ new) := by
  induction buckets generalizing i with
  | nil => simp at h
  | cons chain buckets ih =>
    cases i with
    | zero =>
      simp only [List.getElem?_cons_zero, Option.some.injEq] at h
      subst h
      simp only [List.set_cons_zero, List.flatten_cons]
      have hfront : ((new ++ buckets.flatten) ++ chain).Perm (chain ++ (new ++ buckets.flatten)) :=
        List.perm_append_comm
      have hback : (chain ++ (new ++ buckets.flatten)).Perm (chain ++ (buckets.flatten ++ new)) :=
        List.perm_append_comm.append_left chain
      rw [List.append_assoc chain]
      exact hfront.trans hback
    | succ i =>
      simp only [List.getElem?_cons_succ] at h
      simp only [List.set_cons_succ, List.flatten_cons, List.append_assoc]
      exact (ih h).append_left chain

theorem flatten_set_length {buckets : List (List α)} {i : ℕ} {old : List α}
    (h : buckets[i]? = some old) (new : List α) :
    (buckets.set i new).flatten.length + old.length = buckets.flatten.length + new.length := by
  have hlen := (flatten_set_perm h new).length_eq
  simpa using hlen

theorem flatten_set_cons {buckets : List (List α)} {i : ℕ} {chain : List α}
    (h : buckets[i]? = some chain) (x : α) :
    (buckets.set i (x :: chain)).flatten.Perm (x :: buckets.flatten) := by
  have hperm := flatten_set_perm h (x :: chain)
  have hswap : (buckets.flatten ++ x :: chain).Perm ((x :: buckets.flatten) ++ chain) := by
    simp
  exact (List.perm_append_right_iff chain).mp (hperm.trans hswap)

theorem flatten_set_erase {buckets : List (List α)} {i : ℕ} {chain chain' : List α}
    (h : buckets[i]? = some chain) {x : α} (hx : chain.Perm (x :: chain')) :
    buckets.flatten.Perm (x :: (buckets.set i chain').flatten) := by
  have hperm := (flatten_set_perm h chain').symm.trans (hx.append_left _)
  have hswap : ((buckets.set i chain').flatten ++ x :: chain').Perm
      ((x :: (buckets.set i chain').flatten) ++ chain') := by
    simp
  exact (List.perm_append_right_iff chain').mp (hperm.trans hswap)

theorem flatten_eq_drop {buckets : List (List α)} {n : ℕ} (hn : n ≤ buckets.length)
    (h : ∀ i, i < n → buckets[i]? = some []) : buckets.flatten = (buckets.drop n).flatten := by
  induction n generalizing buckets with
  | zero => rfl
  | succ n ih =>
    cases buckets with
    | nil => simp at hn
    | cons chain buckets =>
      have hzero := h 0 (by omega)
      simp only [List.getElem?_cons_zero, Option.some.injEq] at hzero
      have hrest : ∀ i, i < n → buckets[i]? = some [] := by
        intro i hi
        have := h (i + 1) (by omega)
        simpa using this
      simp only [List.flatten_cons, hzero, List.nil_append, List.drop_succ_cons]
      exact ih (by simpa using hn) hrest

/-! ### Placement -/

/-- Every element lies in the chain with its index. -/
def PlacedBy (place : α → ℕ) (buckets : List (List α)) : Prop :=
  ∀ i chain, buckets[i]? = some chain → ∀ x ∈ chain, place x = i

theorem PlacedBy.set {place : α → ℕ} {buckets : List (List α)} (h : PlacedBy place buckets) {i : ℕ}
    {chain : List α} (hchain : ∀ x ∈ chain, place x = i) :
    PlacedBy place (buckets.set i chain) := by
  intro j chain' hj x hx
  rw [List.getElem?_set] at hj
  split at hj
  · next hij =>
    subst hij
    split at hj
    · simp only [Option.some.injEq] at hj
      subst hj
      exact hchain x hx
    · cases hj
  · exact h j chain' hj x hx

theorem placedBy_replicate_nil (place : α → ℕ) (n : ℕ) :
    PlacedBy place (List.replicate n []) := by
  intro i chain hi x hx
  rw [List.getElem?_replicate] at hi
  split at hi
  · simp only [Option.some.injEq] at hi
    subst hi
    exact absurd hx List.not_mem_nil
  · cases hi

theorem PlacedBy.mem_flatten {place : α → ℕ} {buckets : List (List α)} (h : PlacedBy place buckets)
    {x : α} {chain : List α} (hchain : buckets[place x]? = some chain) :
    x ∈ buckets.flatten ↔ x ∈ chain := by
  rw [List.mem_flatten]
  constructor
  · rintro ⟨chain', hmem, hx⟩
    obtain ⟨i, hi⟩ := List.mem_iff_getElem?.mp hmem
    have hplace := h i chain' hi x hx
    rw [hplace, hi] at hchain
    cases hchain
    exact hx
  · exact fun hx => ⟨chain, List.mem_of_getElem? hchain, hx⟩

end DeftRpc.Foundation
