import Mathlib.Data.List.GetD
import Mathlib.Tactic

/-!
# Ranges of an addressed memory
-/

namespace DeftRpc.Foundation
variable {α : Type}

def load (memory : ℕ → α) (addr len : ℕ) : List α := (List.range len).map fun i => memory (addr + i)

def store (memory : ℕ → α) (addr : ℕ) (data : List α) : ℕ → α := fun a =>
  if addr ≤ a then data.getD (a - addr) (memory a) else memory a

@[simp] theorem load_length (memory : ℕ → α) (addr len : ℕ) : (load memory addr len).length = len := by
  rw [load, List.length_map, List.length_range]

theorem load_get {memory : ℕ → α} {addr len i : ℕ} (h : i < len) :
    (load memory addr len)[i]? = some (memory (addr + i)) := by
  rw [load, List.getElem?_map, List.getElem?_range h, Option.map_some]

theorem store_outside {memory : ℕ → α} {addr a : ℕ} {data : List α}
    (h : a < addr ∨ addr + data.length ≤ a) : store memory addr data a = memory a := by
  unfold store
  by_cases hle : addr ≤ a
  · rw [if_pos hle, List.getD_eq_default]
    omega
  · rw [if_neg hle]

theorem store_inside {memory : ℕ → α} {addr i : ℕ} {data : List α} (h : i < data.length) :
    store memory addr data (addr + i) = data[i] := by
  rw [store, if_pos (Nat.le_add_right _ _), Nat.add_sub_cancel_left, List.getD_eq_getElem _ _ h]

theorem load_congr {memory memory' : ℕ → α} {addr len : ℕ}
    (h : ∀ a, addr ≤ a → a < addr + len → memory a = memory' a) :
    load memory addr len = load memory' addr len := by
  apply List.map_congr_left
  intro i hi
  have hlt := List.mem_range.mp hi
  exact h (addr + i) (Nat.le_add_right _ _) (by omega)

theorem load_store (memory : ℕ → α) (addr : ℕ) (data : List α) :
    load (store memory addr data) addr data.length = data := by
  apply List.ext_getElem
  · exact load_length _ _ _
  · intro i _ hi
    simp only [load, List.getElem_map, List.getElem_range, store_inside hi]

theorem store_load (memory : ℕ → α) (addr len : ℕ) :
    store memory addr (load memory addr len) = memory := by
  funext a
  by_cases h : addr ≤ a ∧ a < addr + len
  · obtain ⟨i, rfl⟩ : ∃ i, a = addr + i := ⟨a - addr, by omega⟩
    have hi : i < (load memory addr len).length := by
      rw [load_length]
      omega
    have hget : (load memory addr len)[i]? = some (memory (addr + i)) := load_get (by omega)
    rw [List.getElem?_eq_getElem hi] at hget
    rw [store_inside hi]
    exact Option.some.inj hget
  · exact store_outside (by rw [load_length]; omega)

/-- `std::fill` -/
def fill (memory : ℕ → α) (addr len : ℕ) (x : α) : ℕ → α := fun a =>
  if addr ≤ a ∧ a < addr + len then x else memory a

theorem fill_outside {memory : ℕ → α} {addr len a : ℕ} {x : α} (h : a < addr ∨ addr + len ≤ a) :
    fill memory addr len x a = memory a := if_neg (by omega)

theorem fill_inside {memory : ℕ → α} {addr len a : ℕ} {x : α} (h : addr ≤ a) (h' : a < addr + len) :
    fill memory addr len x a = x := if_pos ⟨h, h'⟩

end DeftRpc.Foundation
