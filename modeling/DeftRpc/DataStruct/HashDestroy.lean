import DeftRpc.DataStruct.HashSimulation

/-!
# The destructor of a HashTable (Hash.h:105-117, 200-213)

It walks `1 << m_size_[0]` buckets of the first array, and those of the second one while
a rehash goes on. The exponent of a new table is 0, so one bucket of no array is read.
-/

namespace DeftRpc.DataStruct
open DeftRpc.Foundation

variable {V : Type}

/-- Every node is deleted once, nothing else is, and no bucket of no array is read. -/
def NodeTable.DestroysAll (p : NodeTable V) : Prop :=
  ∃ freed nodes, p.destroy = .ok (freed, nodes) ∧ freed.Nodup ∧ (∀ a, a ∈ freed ↔ a ∈ p.nodes) ∧
    ∀ a, a ∉ nodes

theorem freeTable_spec {buckets others : List (List (HashEntry (ℕ × V)))} (n i : ℕ) {nodes : HashNodes V}
    (hi : i + n = buckets.length) (h : Stores nodes none [] (buckets.drop i ++ others)) :
    ∃ nodes', freeTable (some (buckets.map headPtr)) n i nodes =
        .ok ((buckets.drop i).flatten.map addr, nodes') ∧ Stores nodes' none [] others := by
  induction n generalizing i nodes with
  | zero =>
    rw [List.drop_of_length_le (by omega)] at h ⊢
    exact ⟨nodes, rfl, h⟩
  | succ n ih =>
    have hlt : i < buckets.length := by omega
    have hget : buckets[i]? = some buckets[i] := List.getElem?_eq_getElem hlt
    rw [List.drop_eq_getElem_cons hlt, List.cons_append] at h
    have htake := h.take (i := 0) rfl
    have hturns : buckets[i].length < nodes.turns := by
      have hle := htake.owns.length_le
      rw [List.length_append] at hle
      exact Nat.lt_succ_of_le ((Nat.le_add_right _ _).trans hle)
    obtain ⟨nodes1, hfree, h1⟩ := freeBucket_spec htake hturns
    have hrest : Stores nodes1 none [] (buckets.drop (i + 1) ++ others) :=
      h1.congr rfl fun chain hin => .inr (List.mem_cons_of_mem _ hin)
    obtain ⟨nodes', htable, h'⟩ := ih (i + 1) (by omega) hrest
    refine ⟨nodes', ?_, h'⟩
    rw [List.drop_eq_getElem_cons hlt, List.flatten_cons, List.map_append]
    simp only [freeTable, bucketPtr_map hget, Exec.ok_bind, hfree, htable]
    rfl

theorem destroy_spec {p : NodeTable V} {t : HashTable (ℕ × V)} (h : Renders p t) (hready : HashTable.Ready t) :
    ∃ nodes, p.destroy = .ok (t.entries.map addr, nodes) ∧ Stores nodes none [] [] := by
  obtain ⟨hp, hstores⟩ := h
  generalize p.nodes = nodes at *
  subst hp
  cases hready with
  | still buckets size used hlen hpos hused =>
    obtain ⟨nodes', hfree, h'⟩ := freeTable_spec (2 ^ size) 0
      (show 0 + 2 ^ size = buckets.length by omega) hstores
    refine ⟨nodes', ?_, h'⟩
    simp only [NodeTable.destroy, render_mTable, Option.map_some, render_mSize0, render_nodes, hfree, Exec.ok_bind]
    simp [NodeTable.isReHashing, HashTable.entries]
  | moving old new size0 size1 used0 used1 idx hold hnew hpos hlt hused0 hused1 hidx hmoved =>
    obtain ⟨nodes1, hfree, h1⟩ := freeTable_spec (2 ^ size0) 0
      (show 0 + 2 ^ size0 = old.length by omega) hstores
    have hsecond : Stores nodes1 none [] (new.drop 0 ++ []) := by simpa using h1
    obtain ⟨nodes', hfree', h'⟩ := freeTable_spec (2 ^ size1) 0 (by omega) hsecond
    refine ⟨nodes', ?_, h'⟩
    simp only [NodeTable.destroy, render_mTable, render_mRehashTable, Option.map_some, render_mSize0,
      render_mSize1, render_nodes, hfree, hfree', Exec.ok_bind]
    simp [NodeTable.isReHashing, HashTable.entries]

theorem destroysAll_of_ready {p : NodeTable V} {t : HashTable (ℕ × V)} (h : Renders p t)
    (hready : HashTable.Ready t) : p.DestroysAll := by
  obtain ⟨nodes, hdestroy, hempty⟩ := destroy_spec h hready
  have howns := h.stores.owns
  rw [List.nil_append, chains_flatten] at howns
  refine ⟨_, nodes, hdestroy, howns.nodup, fun a => h.mem_nodes.symm, fun a hin => ?_⟩
  have hleft := hempty.owns.live a (HashNodes.mem_iff_content.mp hin)
  simp at hleft

section Hashed
variable (hashFunc : List Byte → ℕ)

theorem run_ready {ops : List (HashTable.HashOp V)} (hne : ops ≠ []) {t t' : HashTable V}
    {outs : List (Option (HashEntry V))} (h : HashTable.Inv t)
    (hrun : runOps (HashTable.step hashFunc) t ops = .ok (outs, t')) : HashTable.Ready t' := by
  cases ops with
  | nil => exact absurd rfl hne
  | cons op ops =>
    obtain ⟨o, t1, rest, hstep, hrest, -⟩ := runOps_cons_inv hrun
    have keep : ∀ (t : HashTable V) op o t', HashTable.Ready t → True →
        HashTable.step hashFunc t op = .ok (o, t') → HashTable.Ready t' :=
      fun t op o t' h _ hstep => HashTable.step_inv hashFunc (.inr h) hstep
    exact run_keeps keep (HashTable.step_inv hashFunc h hstep) (stepsOk_true t1 ops) hrest

/-- After any run the destructor deletes every node once, unless no call was made. -/
theorem destroysAll_iff (ops : List (HashTable.HashOp (ℕ × V))) (outs : List (Option ℕ)) (p : NodeTable V)
    (hfresh : StepsOk (NodeTable.step hashFunc) NodeTable.Fresh {} ops)
    (hrun : runOps (NodeTable.step hashFunc) {} ops = .ok (outs, p)) : p.DestroysAll ↔ ops ≠ [] := by
  constructor
  · rintro ⟨freed, nodes, hdestroy, -⟩ rfl
    cases hrun
    cases hdestroy
  · intro hne
    obtain ⟨⟨outs', t⟩, hrun', -, h, -⟩ := (run_sim hashFunc ops hfresh).of_ok_left hrun
    exact destroysAll_of_ready h (run_ready hashFunc hne (.inl rfl) hrun')

end Hashed

/-- A table that is never used: the null pointer of its array is followed. -/
theorem destroy_new : ({} : NodeTable ℕ).destroy = .error .badPointer ∧ ¬({} : NodeTable ℕ).DestroysAll := by
  have hdestroy : ({} : NodeTable ℕ).destroy = .error .badPointer := rfl
  refine ⟨hdestroy, ?_⟩
  rintro ⟨freed, nodes, hok, -⟩
  rw [hdestroy] at hok
  cases hok

/- Two entries in one chain, and a rehash that has begun. -/
def chainOfTwo : List (HashTable.HashOp (ℕ × ℕ)) :=
  [.insert [5] 1 (1, 50), .insert [21] 1 (2, 60), .delete [9] 1]

/-- The destructor of a table in the middle of a rehash. -/
theorem destroysAll_rehash : ∃ outs p, runOps (NodeTable.step fun key => (key.headD 0).val) {} chainOfTwo =
    .ok (outs, p) ∧ p.isReHashing = true ∧ (p.DestroysAll ↔ chainOfTwo ≠ []) :=
  ⟨_, _, rfl, rfl, destroysAll_iff (fun key => (key.headD 0).val) chainOfTwo _ _ (by decide +kernel) rfl⟩

end DeftRpc.DataStruct
