import Mathlib.Tactic

/-!
# Doubly linked chains

`next` and `prev` are what the elements point at. A chain runs from the element before
it to the one behind it; both are `none` for a whole list.
-/

namespace DeftRpc.Foundation
variable {α : Type}

/-- The elements point at each other in order, the first one back at `before`, the last
one on at `after`. -/
def Chained (next prev : α → Option α) : Option α → List α → Option α → Prop
  | _, [], _ => True
  | before, a :: l, after =>
    prev a = before ∧ next a = l.head?.or after ∧ Chained next prev (some a) l after

variable {next prev next' prev' : α → Option α} {before before' after after' : Option α}

theorem chained_append (l m : List α) : Chained next prev before (l ++ m) after ↔
    Chained next prev before l (m.head?.or after) ∧ Chained next prev (l.getLast?.or before) m after := by
  induction l generalizing before with
  | nil => simp [Chained]
  | cons a l ih =>
    have hlast : (a :: l).getLast?.or before = l.getLast?.or (some a) := by
      cases l with
      | nil => rfl
      | cons b l => simp [List.getLast?_cons]
    rw [List.cons_append, Chained, Chained, ih, hlast, List.head?_append, Option.or_assoc]
    tauto

theorem Chained.links {l m : List α} {a : α} (h : Chained next prev before (l ++ a :: m) after) :
    prev a = l.getLast?.or before ∧ next a = m.head?.or after := by
  obtain ⟨hprev, hnext, -⟩ := ((chained_append l (a :: m)).mp h).2
  exact ⟨hprev, hnext⟩

/-! ### Edits -/

theorem Chained.frame {l : List α} (h : Chained next prev before l after)
    (hnext : ∀ a ∈ l, next' a = next a) (hprev : ∀ a ∈ l, prev' a = prev a) :
    Chained next' prev' before l after := by
  induction l generalizing before with
  | nil => trivial
  | cons a l ih =>
    obtain ⟨h1, h2, h3⟩ := h
    have hrest := ih h3 (fun b hb => hnext b (List.mem_cons_of_mem a hb))
      fun b hb => hprev b (List.mem_cons_of_mem a hb)
    exact ⟨(hprev a List.mem_cons_self).trans h1, (hnext a List.mem_cons_self).trans h2, hrest⟩

theorem Chained.setBefore {l : List α} (h : Chained next prev before l after) (hnodup : l.Nodup)
    (hnext : ∀ a ∈ l, next' a = next a) (hhead : ∀ a ∈ l.head?, prev' a = before')
    (hprev : ∀ a ∈ l, a ∉ l.head? → prev' a = prev a) : Chained next' prev' before' l after := by
  cases l with
  | nil => trivial
  | cons a l =>
    obtain ⟨-, h2, h3⟩ := h
    have hne := (List.nodup_cons.mp hnodup).1
    refine ⟨hhead a rfl, (hnext a List.mem_cons_self).trans h2, h3.frame ?_ ?_⟩
    · exact fun b hb => hnext b (List.mem_cons_of_mem a hb)
    · intro b hb
      refine hprev b (List.mem_cons_of_mem a hb) fun heq => hne ?_
      cases heq
      exact hb

theorem Chained.setAfter {l : List α} (h : Chained next prev before l after) (hnodup : l.Nodup)
    (hprev : ∀ a ∈ l, prev' a = prev a) (hlast : ∀ a ∈ l.getLast?, next' a = after')
    (hnext : ∀ a ∈ l, a ∉ l.getLast? → next' a = next a) : Chained next' prev' before l after' := by
  induction l using List.reverseRecOn with
  | nil => trivial
  | append_singleton l a =>
    obtain ⟨hfront, hback, -, -⟩ := (chained_append l [a]).mp h
    have hne : a ∉ l := fun hmem => (List.nodup_append.mp hnodup).2.2 a hmem a List.mem_cons_self rfl
    refine (chained_append l [a]).mpr ⟨hfront.frame ?_ ?_, ?_, ?_, trivial⟩
    · intro b hb
      refine hnext b (List.mem_append_left [a] hb) fun heq => hne ?_
      rw [List.getLast?_concat] at heq
      cases heq
      exact hb
    · exact fun b hb => hprev b (List.mem_append_left [a] hb)
    · exact (hprev a (by simp)).trans hback
    · exact hlast a (by simp)

theorem Chained.push {l : List α} {a : α} (h : Chained next prev none l none) (hnodup : l.Nodup)
    (hnext : ∀ b ∈ l, next' b = next b) (ha : next' a = l.head?) (hback : prev' a = none)
    (hhead : ∀ b ∈ l.head?, prev' b = some a) (hprev : ∀ b ∈ l, b ∉ l.head? → prev' b = prev b) :
    Chained next' prev' none (a :: l) none := by
  refine ⟨hback, ?_, h.setBefore hnodup hnext hhead hprev⟩
  rw [ha, Option.or_none]

/-- An element is taken out: the last one before it and the first one behind it point at each other. -/
theorem Chained.unlink {l m : List α} {a : α} (h : Chained next prev none (l ++ a :: m) none)
    (hnodup : (l ++ a :: m).Nodup) (hlast : ∀ b ∈ l.getLast?, next' b = m.head?)
    (hhead : ∀ b ∈ m.head?, prev' b = l.getLast?)
    (hnext : ∀ b, b ≠ a → b ∉ l.getLast? → next' b = next b)
    (hprev : ∀ b, b ≠ a → b ∉ m.head? → prev' b = prev b) :
    Chained next' prev' none (l ++ m) none := by
  obtain ⟨hl, -, -, hm⟩ := (chained_append l (a :: m)).mp h
  obtain ⟨hnodupL, hnodupM, hdisj⟩ := List.nodup_append.mp hnodup
  have haL : ∀ b ∈ l, b ≠ a := fun b hb => hdisj b hb a List.mem_cons_self
  have haM : ∀ b ∈ m, b ≠ a := by
    rintro b hb rfl
    exact (List.nodup_cons.mp hnodupM).1 hb
  have hmL : ∀ b ∈ l, b ∉ m.head? := fun b hb hmem =>
    hdisj b hb b (List.mem_cons_of_mem a (List.mem_of_mem_head? hmem)) rfl
  have hlM : ∀ b ∈ m, b ∉ l.getLast? := fun b hb hmem =>
    hdisj b (List.mem_of_mem_getLast? hmem) b (List.mem_cons_of_mem a hb) rfl
  refine (chained_append l m).mpr ⟨?_, ?_⟩
  · rw [Option.or_none]
    exact hl.setAfter hnodupL (fun b hb => hprev b (haL b hb) (hmL b hb)) hlast
      fun b hb hnot => hnext b (haL b hb) hnot
  · rw [Option.or_none]
    exact hm.setBefore (List.nodup_cons.mp hnodupM).2 (fun b hb => hnext b (haM b hb) (hlM b hb)) hhead
      fun b hb hnot => hprev b (haM b hb) hnot

end DeftRpc.Foundation
