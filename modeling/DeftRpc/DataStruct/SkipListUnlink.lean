import DeftRpc.DataStruct.SkipListLevels

/-!
# References to a deleted node

Delete takes a node out of the levels but leaves `m_prev_` of the node behind it and
`m_tail_` as they are. Until then each node of level 0 is `m_prev_` of the next one and
the last one is `m_tail_`; which addresses the levels hold is all that is needed here,
spans and ranks are not.
-/

namespace DeftRpc.DataStruct
open DeftRpc.Foundation

namespace Nodes

variable {nodes nodes' : Nodes} {p i : ℕ} {S : ℕ → Prop}

/-- `m_level_[0].m_next_` and `m_prev_` -/
def base (nodes : Nodes) (x : ℕ) : Option (Option ℕ × Option ℕ) :=
  (nodes.lookup x).bind fun node => node.mLevel[0]?.map fun level => (level.mNext, node.mPrev)

def prevs (nodes : Nodes) (x : ℕ) : Option (Option ℕ) := (nodes.lookup x).map SkipListNode.mPrev

/-- On every level a node points into `S`. -/
def Targets (S : ℕ → Prop) (nodes : Nodes) : Prop :=
  ∀ x node, nodes.lookup x = some node → ∀ level ∈ node.mLevel, ∀ y, level.mNext = some y → S y

/-! ### Writing -/

theorem deref_inv {node : SkipListNode} (h : nodes.deref p = .ok node) : nodes.lookup p = some node := by
  unfold deref at h
  cases hl : nodes.lookup p with
  | none =>
    rw [hl] at h
    cases h
  | some node' =>
    rw [hl] at h
    cases h
    rfl

theorem getLevel_inv {level : SkipListLevel} (h : nodes.getLevel p i = .ok level) :
    ∃ node, nodes.lookup p = some node ∧ node.mLevel[i]? = some level := by
  obtain ⟨node, hnode, hlevel⟩ := Exec.bind_eq_ok h
  refine ⟨node, deref_inv hnode, ?_⟩
  cases hget : node.mLevel[i]? with
  | none =>
    rw [hget] at hlevel
    cases hlevel
  | some level' =>
    rw [hget] at hlevel
    cases hlevel
    rfl

theorem getNext_inv {next : Option ℕ} (h : nodes.getNext p i = .ok next) :
    ∃ node level, nodes.lookup p = some node ∧ node.mLevel[i]? = some level ∧ level.mNext = next := by
  obtain ⟨level, hlevel, hnext⟩ := Exec.bind_eq_ok h
  obtain ⟨node, hnode, hget⟩ := getLevel_inv hlevel
  exact ⟨node, level, hnode, hget, Except.ok.inj hnext⟩

theorem getNext_base {next : Option ℕ} (h : nodes.getNext p 0 = .ok next) :
    ∃ prev, nodes.base p = some (next, prev) := by
  obtain ⟨node, level, hnode, hget, rfl⟩ := getNext_inv h
  exact ⟨node.mPrev, by rw [base, hnode, Option.bind_some, hget, Option.map_some]⟩

theorem Targets.getNext (h : Targets S nodes) {y : ℕ} (hnext : nodes.getNext p i = .ok (some y)) : S y := by
  obtain ⟨node, level, hnode, hget, hy⟩ := getNext_inv hnext
  exact h p node hnode level (List.mem_of_getElem? hget) y hy

theorem setLevel_inv {level : SkipListLevel} (h : nodes.setLevel p i level = .ok nodes') :
    ∃ node, nodes.lookup p = some node ∧ i < node.mLevel.length ∧
      nodes' = nodes.insert p { node with mLevel := node.mLevel.set i level } := by
  obtain ⟨node, hnode, hset⟩ := Exec.bind_eq_ok h
  split at hset
  · next hi => exact ⟨node, deref_inv hnode, hi, (Except.ok.inj hset).symm⟩
  · cases hset

theorem setLevel_prevs {level : SkipListLevel} (h : nodes.setLevel p i level = .ok nodes') :
    nodes'.prevs = nodes.prevs := by
  obtain ⟨node, hnode, -, rfl⟩ := setLevel_inv h
  funext y
  by_cases hy : y = p
  · rw [hy, prevs, prevs, AList.lookup_insert, hnode]
    rfl
  · rw [prevs, prevs, AList.lookup_insert_ne hy]

theorem setLevel_targets {level : SkipListLevel} (h : nodes.setLevel p i level = .ok nodes')
    (hS : Targets S nodes) (hlevel : ∀ y, level.mNext = some y → S y) : Targets S nodes' := by
  obtain ⟨node, hnode, -, rfl⟩ := setLevel_inv h
  intro x n hx l hl y hy
  by_cases hxp : x = p
  · rw [hxp, AList.lookup_insert] at hx
    cases hx
    rcases List.mem_or_eq_of_mem_set hl with hl | rfl
    · exact hS p node hnode l hl y hy
    · exact hlevel y hy
  · rw [AList.lookup_insert_ne hxp] at hx
    exact hS x n hx l hl y hy

theorem setLevel_base {level : SkipListLevel} (h : nodes.setLevel p i level = .ok nodes') :
    (0 < i ∧ nodes'.base = nodes.base) ∨ (i = 0 ∧ ∃ next prev, nodes.base p = some (next, prev) ∧
      nodes'.base = Function.update nodes.base p (some (level.mNext, prev))) := by
  obtain ⟨node, hnode, hi, rfl⟩ := setLevel_inv h
  rcases Nat.eq_zero_or_pos i with rfl | hpos
  · right
    obtain ⟨old, hold⟩ : ∃ old, node.mLevel[0]? = some old := ⟨node.mLevel[0], List.getElem?_eq_getElem hi⟩
    refine ⟨rfl, old.mNext, node.mPrev, ?_, ?_⟩
    · rw [base, hnode, Option.bind_some, hold, Option.map_some]
    · funext y
      by_cases hy : y = p
      · rw [hy, Function.update_self, base, AList.lookup_insert, Option.bind_some,
          List.getElem?_set_self hi, Option.map_some]
      · rw [Function.update_of_ne hy, base, base, AList.lookup_insert_ne hy]
  · left
    refine ⟨hpos, ?_⟩
    funext y
    by_cases hy : y = p
    · rw [hy, base, base, AList.lookup_insert, hnode, Option.bind_some, Option.bind_some,
        List.getElem?_set_ne (by omega)]
    · rw [base, base, AList.lookup_insert_ne hy]

theorem setSpan_inv {s : ℕ} (h : nodes.setSpan p i s = .ok nodes') :
    ∃ level, nodes.getLevel p i = .ok level ∧ nodes.setLevel p i { level with mSpan := s } = .ok nodes' :=
  Exec.bind_eq_ok h

theorem setSpan_base {s : ℕ} (h : nodes.setSpan p i s = .ok nodes') : nodes'.base = nodes.base := by
  obtain ⟨level, hget, hset⟩ := setSpan_inv h
  obtain ⟨node, hnode, hlevel⟩ := getLevel_inv hget
  rcases setLevel_base hset with ⟨-, hbase⟩ | ⟨rfl, next, prev, hp, hbase⟩
  · exact hbase
  · rw [base, hnode, Option.bind_some, hlevel, Option.map_some] at hp
    cases hp
    rw [hbase]
    refine Function.update_eq_self_iff.mpr ?_
    rw [base, hnode, Option.bind_some, hlevel, Option.map_some]

theorem setSpan_prevs {s : ℕ} (h : nodes.setSpan p i s = .ok nodes') : nodes'.prevs = nodes.prevs := by
  obtain ⟨level, -, hset⟩ := setSpan_inv h
  exact setLevel_prevs hset

theorem setSpan_targets {s : ℕ} (h : nodes.setSpan p i s = .ok nodes') (hS : Targets S nodes) :
    Targets S nodes' := by
  obtain ⟨level, hget, hset⟩ := setSpan_inv h
  obtain ⟨node, hnode, hlevel⟩ := getLevel_inv hget
  exact setLevel_targets hset hS (hS p node hnode level (List.mem_of_getElem? hlevel))

theorem setNext_inv {n : Option ℕ} {r : Option ℕ × Nodes} (h : nodes.setNext p i n = .ok r) :
    ∃ level, nodes.getLevel p i = .ok level ∧ r.1 = level.mNext ∧
      nodes.setLevel p i { level with mNext := n } = .ok r.2 := by
  obtain ⟨level, hget, hrest⟩ := Exec.bind_eq_ok h
  obtain ⟨nodes', hset, hr⟩ := Exec.bind_eq_ok hrest
  cases hr
  exact ⟨level, hget, rfl, hset⟩

theorem setNext_prevs {n : Option ℕ} {r : Option ℕ × Nodes} (h : nodes.setNext p i n = .ok r) :
    r.2.prevs = nodes.prevs := by
  obtain ⟨level, -, -, hset⟩ := setNext_inv h
  exact setLevel_prevs hset

theorem setNext_targets {n : Option ℕ} {r : Option ℕ × Nodes} (h : nodes.setNext p i n = .ok r)
    (hS : Targets S nodes) (hn : ∀ y, n = some y → S y) :
    Targets S r.2 ∧ ∀ y, r.1 = some y → S y := by
  obtain ⟨level, hget, hr, hset⟩ := setNext_inv h
  obtain ⟨node, hnode, hlevel⟩ := getLevel_inv hget
  refine ⟨setLevel_targets hset hS hn, fun y hy => ?_⟩
  rw [hr] at hy
  exact hS p node hnode level (List.mem_of_getElem? hlevel) y hy

theorem setNext_base {n : Option ℕ} {r : Option ℕ × Nodes} (h : nodes.setNext p i n = .ok r)
    (hi : 0 < i) : r.2.base = nodes.base := by
  obtain ⟨level, -, -, hset⟩ := setNext_inv h
  rcases setLevel_base hset with ⟨-, hbase⟩ | ⟨rfl, -⟩
  · exact hbase
  · exact absurd hi (lt_irrefl 0)

theorem setNext_base_zero {n : Option ℕ} {r : Option ℕ × Nodes} (h : nodes.setNext p 0 n = .ok r) :
    ∃ prev, nodes.base p = some (r.1, prev) ∧ r.2.base = Function.update nodes.base p (some (n, prev)) := by
  obtain ⟨level, hget, hr, hset⟩ := setNext_inv h
  obtain ⟨node, hnode, hlevel⟩ := getLevel_inv hget
  rcases setLevel_base hset with ⟨hpos, -⟩ | ⟨-, next, prev, hp, hbase⟩
  · exact absurd hpos (lt_irrefl 0)
  · refine ⟨prev, ?_, hbase⟩
    rw [base, hnode, Option.bind_some, hlevel, Option.map_some] at hp ⊢
    cases hp
    rw [hr]

theorem setPrev_inv {prev : ℕ} (h : nodes.setPrev p prev = .ok nodes') :
    ∃ node, nodes.lookup p = some node ∧ nodes' = nodes.insert p { node with mPrev := some prev } := by
  obtain ⟨node, hnode, hset⟩ := Exec.bind_eq_ok h
  exact ⟨node, deref_inv hnode, (Except.ok.inj hset).symm⟩

theorem setPrev_targets {prev : ℕ} (h : nodes.setPrev p prev = .ok nodes') (hS : Targets S nodes) :
    Targets S nodes' := by
  obtain ⟨node, hnode, rfl⟩ := setPrev_inv h
  intro x n hx l hl y hy
  by_cases hxp : x = p
  · rw [hxp, AList.lookup_insert] at hx
    cases hx
    exact hS p node hnode l hl y hy
  · rw [AList.lookup_insert_ne hxp] at hx
    exact hS x n hx l hl y hy

theorem setPrev_base {prev : ℕ} (h : nodes.setPrev p prev = .ok nodes') {next old : Option ℕ}
    (hp : nodes.base p = some (next, old)) :
    nodes'.base = Function.update nodes.base p (some (next, some prev)) := by
  obtain ⟨node, hnode, rfl⟩ := setPrev_inv h
  rw [base, hnode, Option.bind_some] at hp
  obtain ⟨level, hlevel, he⟩ := Option.map_eq_some_iff.mp hp
  cases he
  funext y
  by_cases hy : y = p
  · rw [hy, Function.update_self, base, AList.lookup_insert, Option.bind_some, hlevel, Option.map_some]
  · rw [Function.update_of_ne hy, base, base, AList.lookup_insert_ne hy]

theorem getNext_of_base {next prev : Option ℕ} (h : nodes.base p = some (next, prev)) :
    nodes.getNext p 0 = .ok next := by
  obtain ⟨node, hnode, hlevel⟩ := Option.bind_eq_some_iff.mp h
  obtain ⟨level, hget, he⟩ := Option.map_eq_some_iff.mp hlevel
  cases he
  simp only [getNext, getLevel, deref, hnode, Exec.ok_bind, hget]
  rfl

theorem prevs_of_base {next prev : Option ℕ} (h : nodes.base p = some (next, prev)) :
    nodes.prevs p = some prev := by
  obtain ⟨node, hnode, hlevel⟩ := Option.bind_eq_some_iff.mp h
  obtain ⟨level, -, he⟩ := Option.map_eq_some_iff.mp hlevel
  cases he
  rw [prevs, hnode, Option.map_some]

theorem base_of_lookup_none (h : nodes.lookup p = none) : nodes.base p = none := by
  rw [base, h, Option.bind_none]

theorem lookup_of_base {link : Option ℕ × Option ℕ} (h : nodes.base p = some link) :
    (nodes.lookup p).isSome = true := by
  obtain ⟨node, hnode, -⟩ := Option.bind_eq_some_iff.mp h
  rw [hnode]
  rfl

end Nodes

/-! ### Level 0 as pointers -/

/-- Each node is the `m_prev_` of the next one, and one without a next one is `tail`. -/
structure Threaded (base : ℕ → Option (Option ℕ × Option ℕ)) (head tail : ℕ) : Prop where
  head : ∃ next, base head = some (next, none)
  next : ∀ x y prev, base x = some (some y, prev) → y ≠ x ∧ ∃ next, base y = some (next, some x)
  tail : ∀ x prev, base x = some (none, prev) → tail = x

namespace Threaded

variable {base : ℕ → Option (Option ℕ × Option ℕ)} {head tail p addr : ℕ} {prev : Option ℕ}

theorem ne_of_free {x : ℕ} {v : Option ℕ × Option ℕ} (hx : base x = some v) (hfree : base addr = none) :
    x ≠ addr := by
  rintro rfl
  rw [hfree] at hx
  cases hx

theorem update_next {z : ℕ} {next next' old back : Option ℕ} (hp : base p = some (next, prev))
    (hz : base z = some (old, back)) :
    ∃ n, Function.update base p (some (next', prev)) z = some (n, back) := by
  by_cases hzp : z = p
  · rw [hzp, hp] at hz
    cases hz
    rw [hzp]
    exact ⟨next', Function.update_self ..⟩
  · rw [Function.update_of_ne hzp]
    exact ⟨old, hz⟩

theorem append (h : Threaded base head tail) (hp : base p = some (none, prev)) (hfree : base addr = none) :
    Threaded (Function.update (Function.update base p (some (some addr, prev))) addr (some (none, some p)))
      head addr := by
  have hne : p ≠ addr := ne_of_free hp hfree
  obtain ⟨nh, hhead⟩ := h.head
  refine ⟨?_, ?_, ?_⟩
  · rw [Function.update_of_ne (ne_of_free hhead hfree)]
    exact update_next hp hhead
  · intro x y old hx
    by_cases hxa : x = addr
    · rw [hxa, Function.update_self] at hx
      cases hx
    · rw [Function.update_of_ne hxa] at hx
      by_cases hxp : x = p
      · rw [hxp, Function.update_self] at hx
        cases hx
        rw [hxp]
        exact ⟨hne.symm, none, Function.update_self ..⟩
      · rw [Function.update_of_ne hxp] at hx
        obtain ⟨hyx, n, hy⟩ := h.next x y old hx
        refine ⟨hyx, ?_⟩
        rw [Function.update_of_ne (ne_of_free hy hfree)]
        exact update_next hp hy
  · intro x old hx
    by_cases hxa : x = addr
    · exact hxa.symm
    · rw [Function.update_of_ne hxa] at hx
      by_cases hxp : x = p
      · rw [hxp, Function.update_self] at hx
        cases hx
      · rw [Function.update_of_ne hxp] at hx
        have h1 := h.tail x old hx
        have h2 := h.tail p prev hp
        exact absurd (h1.symm.trans h2) hxp

theorem between {y : ℕ} {next : Option ℕ} (h : Threaded base head tail) (hp : base p = some (some y, prev))
    (hy : base y = some (next, some p)) (hfree : base addr = none) :
    Threaded (Function.update (Function.update (Function.update base p (some (some addr, prev)))
      addr (some (some y, some p))) y (some (next, some addr))) head tail := by
  have hyp : y ≠ p := (h.next p y prev hp).1
  have hpa : p ≠ addr := ne_of_free hp hfree
  have hya : y ≠ addr := ne_of_free hy hfree
  obtain ⟨nh, hhead⟩ := h.head
  have hheadY : head ≠ y := by
    rintro rfl
    rw [hhead] at hy
    cases hy
  refine ⟨?_, ?_, ?_⟩
  · rw [Function.update_of_ne hheadY, Function.update_of_ne (ne_of_free hhead hfree)]
    exact update_next hp hhead
  · intro x z old hx
    -- `y` keeps what is behind it, `p` and `addr` get a new next node.
    have hkeep : ∀ w, base x = some (some z, w) → x ≠ p → z ≠ x ∧ ∃ n,
        Function.update (Function.update (Function.update base p (some (some addr, prev)))
          addr (some (some y, some p))) y (some (next, some addr)) z = some (n, some x) := by
      intro w hxw hxp
      obtain ⟨hzx, n, hz⟩ := h.next x z w hxw
      have hzy : z ≠ y := by
        rintro rfl
        rw [hy] at hz
        cases hz
        exact hxp rfl
      refine ⟨hzx, ?_⟩
      rw [Function.update_of_ne hzy, Function.update_of_ne (ne_of_free hz hfree)]
      exact update_next hp hz
    by_cases hxy : x = y
    · rw [hxy, Function.update_self] at hx
      cases hx
      exact hkeep (some p) (by rw [hxy]; exact hy) (by rw [hxy]; exact hyp)
    · rw [Function.update_of_ne hxy] at hx
      by_cases hxa : x = addr
      · rw [hxa, Function.update_self] at hx
        cases hx
        rw [hxa]
        exact ⟨hya, next, Function.update_self ..⟩
      · rw [Function.update_of_ne hxa] at hx
        by_cases hxp : x = p
        · rw [hxp, Function.update_self] at hx
          cases hx
          rw [hxp]
          refine ⟨hpa.symm, some y, ?_⟩
          rw [Function.update_of_ne hya.symm, Function.update_self]
        · rw [Function.update_of_ne hxp] at hx
          exact hkeep old hx hxp
  · intro x old hx
    by_cases hxy : x = y
    · rw [hxy, Function.update_self] at hx
      cases hx
      rw [hxy]
      exact h.tail y (some p) hy
    · rw [Function.update_of_ne hxy] at hx
      by_cases hxa : x = addr
      · rw [hxa, Function.update_self] at hx
        cases hx
      · rw [Function.update_of_ne hxa] at hx
        by_cases hxp : x = p
        · rw [hxp, Function.update_self] at hx
          cases hx
        · rw [Function.update_of_ne hxp] at hx
          exact h.tail x old hx

end Threaded

namespace SkipList

variable {t t' : SkipList} {score : ℕ} {val : List Byte} {S : ℕ → Prop}

/-! ### GetUpdateVec -/

/-- GetUpdateVec writes spans, and the vectors get nodes of `S`. -/
structure Searched (S : ℕ → Prop) (nodes : Nodes) (s : UpdateVec) : Prop where
  base : s.nodes.base = nodes.base
  prevs : s.nodes.prevs = nodes.prevs
  targets : s.nodes.Targets S
  header : S s.header
  update : ∀ (i p : ℕ), s.update[i]? = some (some p) → S p

theorem vecSet_inv {α : Type} {v v' : List α} {i : ℕ} {a : α} (h : vecSet v i a = .ok v') : v' = v.set i a := by
  unfold vecSet at h
  split at h
  · exact (Except.ok.inj h).symm
  · cases h

theorem nodeAt_inv {update : List (Option ℕ)} {i p : ℕ} (h : nodeAt update i = .ok p) :
    update[i]? = some (some p) := by
  obtain ⟨q, hq, hp⟩ := Exec.bind_eq_ok h
  cases q with
  | none => cases hp
  | some q =>
    cases hp
    unfold vecGet at hq
    cases hget : update[i]? with
    | none =>
      rw [hget] at hq
      cases hq
    | some r =>
      rw [hget] at hq
      cases hq
      rfl

theorem walk_target {nodes : Nodes} (hS : nodes.Targets S) {i turns header rank : ℕ} {r : ℕ × ℕ}
    (hheader : S header) (h : walk nodes score val i turns header rank = .ok r) : S r.1 := by
  induction turns generalizing header rank with
  | zero => cases h
  | succ turns ih =>
    obtain ⟨next, hnext, hrest⟩ := Exec.bind_eq_ok h
    cases next with
    | none =>
      cases hrest
      exact hheader
    | some next =>
      obtain ⟨node, -, hrest⟩ := Exec.bind_eq_ok hrest
      split at hrest
      · obtain ⟨span, -, hrest⟩ := Exec.bind_eq_ok hrest
        exact ih (hS.getNext hnext) hrest
      · cases hrest
        exact hheader

theorem Searched.startLevel {nodes : Nodes} {mLevel i : ℕ} {s s' : UpdateVec} (hs : Searched S nodes s)
    (h : t.startLevel mLevel i s = .ok s') : Searched S nodes s' := by
  unfold SkipList.startLevel at h
  split at h
  · obtain ⟨rank, -, h⟩ := Exec.bind_eq_ok h
    obtain ⟨nodes', hspan, h⟩ := Exec.bind_eq_ok h
    cases h
    exact ⟨(Nodes.setSpan_base hspan).trans hs.base, (Nodes.setSpan_prevs hspan).trans hs.prevs,
      Nodes.setSpan_targets hspan hs.targets, hs.header, hs.update⟩
  · split at h
    · obtain ⟨rank, -, h⟩ := Exec.bind_eq_ok h
      cases h
      exact ⟨hs.base, hs.prevs, hs.targets, hs.header, hs.update⟩
    · obtain ⟨old, -, h⟩ := Exec.bind_eq_ok h
      split at h
      · obtain ⟨above, -, h⟩ := Exec.bind_eq_ok h
        obtain ⟨rank, -, h⟩ := Exec.bind_eq_ok h
        cases h
        exact ⟨hs.base, hs.prevs, hs.targets, hs.header, hs.update⟩
      · cases h
        exact hs

theorem Searched.updateLevel {nodes : Nodes} {mLevel i : ℕ} {s s' : UpdateVec} (hs : Searched S nodes s)
    (h : t.updateLevel score val mLevel i s = .ok s') : Searched S nodes s' := by
  obtain ⟨s1, hstart, h⟩ := Exec.bind_eq_ok h
  obtain ⟨start, -, h⟩ := Exec.bind_eq_ok h
  obtain ⟨r, hwalk, h⟩ := Exec.bind_eq_ok h
  obtain ⟨rank, -, h⟩ := Exec.bind_eq_ok h
  obtain ⟨update, hset, h⟩ := Exec.bind_eq_ok h
  cases h
  have hs1 := hs.startLevel hstart
  have hr := walk_target hs1.targets hs1.header hwalk
  refine ⟨hs1.base, hs1.prevs, hs1.targets, hr, fun j p hp => ?_⟩
  rw [vecSet_inv hset] at hp
  by_cases hj : i = j
  · subst hj
    rw [List.getElem?_set] at hp
    split at hp
    · split at hp
      · cases hp
        exact hr
      · cases hp
    · exact hs1.update i p hp
  · rw [List.getElem?_set_ne hj] at hp
    exact hs1.update j p hp

theorem getUpdateVec_searched {size : ℕ} {s : UpdateVec} (hS : t.nodes.Targets S) (hhead : S t.mHead)
    (h : t.getUpdateVec score val size = .ok s) : Searched S t.nodes s := by
  refine forDown_invariant (fun i s s' hs hturn => hs.updateLevel hturn) ⟨rfl, rfl, hS, hhead, ?_⟩ h
  intro i p hp
  rw [List.getElem?_replicate] at hp
  split at hp
  · cases hp
  · cases hp

/-! ### Insert -/

theorem widenLevel_base {s : UpdateVec} {i : ℕ} {nodes nodes' : Nodes}
    (h : widenLevel s i nodes = .ok nodes') :
    nodes'.base = nodes.base ∧ (nodes.Targets S → nodes'.Targets S) := by
  obtain ⟨p, -, h⟩ := Exec.bind_eq_ok h
  obtain ⟨span, -, h⟩ := Exec.bind_eq_ok h
  exact ⟨Nodes.setSpan_base h, Nodes.setSpan_targets h⟩

theorem linkLevel_inv {s : UpdateVec} {node i : ℕ} {nodes nodes' : Nodes}
    (h : linkLevel s node i nodes = .ok nodes') :
    ∃ p temp own, s.update[i]? = some (some p) ∧ nodes.setNext p i (some node) = .ok temp ∧
      temp.2.setNext node i temp.1 = .ok own ∧ nodes'.base = own.2.base ∧
      ∀ S, own.2.Targets S → nodes'.Targets S := by
  obtain ⟨p, hp, h⟩ := Exec.bind_eq_ok h
  obtain ⟨temp, htemp, h⟩ := Exec.bind_eq_ok h
  obtain ⟨own, hown, h⟩ := Exec.bind_eq_ok h
  obtain ⟨rank0, -, h⟩ := Exec.bind_eq_ok h
  obtain ⟨rank, -, h⟩ := Exec.bind_eq_ok h
  obtain ⟨span, -, h⟩ := Exec.bind_eq_ok h
  obtain ⟨nodes1, hspan1, hspan2⟩ := Exec.bind_eq_ok h
  refine ⟨p, temp, own, nodeAt_inv hp, htemp, hown, ?_, fun S hS => ?_⟩
  · rw [Nodes.setSpan_base hspan2, Nodes.setSpan_base hspan1]
  · exact Nodes.setSpan_targets hspan2 (Nodes.setSpan_targets hspan1 hS)

theorem linkLevel_targets {s : UpdateVec} {node i : ℕ} {nodes nodes' : Nodes} (hnode : S node)
    (hS : nodes.Targets S) (h : linkLevel s node i nodes = .ok nodes') : nodes'.Targets S := by
  obtain ⟨p, temp, own, -, htemp, hown, -, hkeep⟩ := linkLevel_inv h
  have hnew : ∀ y, some node = some y → S y := by
    intro y hy
    cases hy
    exact hnode
  obtain ⟨hS1, hold⟩ := Nodes.setNext_targets htemp hS hnew
  exact hkeep S (Nodes.setNext_targets hown hS1 hold).1

theorem linkLevel_base {s : UpdateVec} {node i : ℕ} {nodes nodes' : Nodes} (hi : 0 < i)
    (h : linkLevel s node i nodes = .ok nodes') : nodes'.base = nodes.base := by
  obtain ⟨p, temp, own, -, htemp, hown, hbase, -⟩ := linkLevel_inv h
  rw [hbase, Nodes.setNext_base hown hi, Nodes.setNext_base htemp hi]

theorem linkLoop_base {s : UpdateVec} {node lo n : ℕ} {nodes nodes' : Nodes} (hlo : 0 < lo)
    (h : forDown (linkLevel s node) lo n nodes = .ok nodes') : nodes'.base = nodes.base := by
  induction n generalizing nodes with
  | zero =>
    cases h
    rfl
  | succ n ih =>
    obtain ⟨nodes1, hturn, hrest⟩ := Exec.bind_eq_ok h
    rw [ih hrest]
    exact linkLevel_base (by omega) hturn

theorem linkLevel_base_zero {s : UpdateVec} {node : ℕ} {nodes nodes' : Nodes}
    (h : linkLevel s node 0 nodes = .ok nodes') {p : ℕ} (hp : s.update[0]? = some (some p)) (hne : p ≠ node)
    (hnode : nodes.base node = some (none, none)) :
    ∃ next prev, nodes.base p = some (next, prev) ∧ nodes'.base = Function.update
      (Function.update nodes.base p (some (some node, prev))) node (some (next, none)) := by
  obtain ⟨p', temp, own, hp', htemp, hown, hbase, -⟩ := linkLevel_inv h
  rw [hp] at hp'
  cases hp'
  obtain ⟨prev, hold, hbase1⟩ := Nodes.setNext_base_zero htemp
  obtain ⟨prev', hself, hbase2⟩ := Nodes.setNext_base_zero hown
  rw [hbase1, Function.update_of_ne hne.symm, hnode] at hself
  obtain ⟨-, rfl⟩ := Prod.mk.inj (Option.some.inj hself)
  exact ⟨temp.1, prev, hold, by rw [hbase, hbase2, hbase1]⟩

theorem insert_inv {lv addr : ℕ} {out : Option ℕ × ℕ} (h : t.insert score val lv addr = .ok (out, t')) :
    ∃ size s nodes1 nodes2 nodes3 p next,
      (t.stored score val lv addr).getUpdateVec score val size = .ok s ∧
      forDown (widenLevel s) (lv + 1) (t.mLevel - (lv + 1)) s.nodes = .ok nodes1 ∧
      forDown (linkLevel s addr) 0 (lv + 1) nodes1 = .ok nodes2 ∧
      s.update[0]? = some (some p) ∧ nodes2.setPrev addr p = .ok nodes3 ∧
      nodes3.getNext addr 0 = .ok next ∧ t'.mHead = t.mHead ∧
      ((next = none ∧ t'.nodes = nodes3 ∧ t'.mTail = addr) ∨
        ∃ y, next = some y ∧ nodes3.setPrev y addr = .ok t'.nodes ∧ t'.mTail = t.mTail) := by
  unfold SkipList.insert at h
  obtain ⟨s, hs, h⟩ := Exec.bind_eq_ok h
  obtain ⟨nodes1, hwiden, h⟩ := Exec.bind_eq_ok h
  obtain ⟨nodes2, hlink, h⟩ := Exec.bind_eq_ok h
  obtain ⟨p, hp, h⟩ := Exec.bind_eq_ok h
  obtain ⟨nodes3, hprev, h⟩ := Exec.bind_eq_ok h
  obtain ⟨next, hnext, h⟩ := Exec.bind_eq_ok h
  obtain ⟨rank0, -, h⟩ := Exec.bind_eq_ok h
  refine ⟨_, s, nodes1, nodes2, nodes3, p, next, hs, hwiden, hlink, nodeAt_inv hp, hprev, hnext, ?_⟩
  cases next with
  | none =>
    cases h
    exact ⟨rfl, Or.inl ⟨rfl, rfl, rfl⟩⟩
  | some y =>
    obtain ⟨nodes4, hprev', h⟩ := Exec.bind_eq_ok h
    cases h
    exact ⟨rfl, Or.inr ⟨y, rfl, hprev', rfl⟩⟩

/-- Before a Delete has found anything. -/
structure Whole (t : SkipList) : Prop where
  threaded : Threaded t.nodes.base t.mHead t.mTail
  targets : t.nodes.Targets fun y => (t.nodes.base y).isSome = true

theorem stored_base {lv addr : ℕ} :
    (t.stored score val lv addr).nodes.base = Function.update t.nodes.base addr (some (none, none)) := by
  funext y
  by_cases hy : y = addr
  · rw [hy, Function.update_self, Nodes.base, stored]
    dsimp only
    rw [AList.lookup_insert, Option.bind_some, SkipListNode.make, List.getElem?_replicate,
      if_pos (Nat.zero_lt_succ lv), Option.map_some]
  · rw [Function.update_of_ne hy, Nodes.base, Nodes.base, stored]
    dsimp only
    rw [AList.lookup_insert_ne hy]

theorem stored_targets {lv addr : ℕ} (hS : t.nodes.Targets S) : (t.stored score val lv addr).nodes.Targets S := by
  intro x node hx level hlevel y hy
  by_cases hxa : x = addr
  · rw [hxa, stored] at hx
    dsimp only at hx
    rw [AList.lookup_insert] at hx
    cases hx
    rw [SkipListNode.make] at hlevel
    rw [List.eq_of_mem_replicate hlevel] at hy
    cases hy
  · rw [stored] at hx
    dsimp only at hx
    rw [AList.lookup_insert_ne hxa] at hx
    exact hS x node hx level hlevel y hy

/-- A store with the new node at `addr` linked on the levels above level 0 is the old one on level 0. -/
theorem Whole.linked {lv addr size : ℕ} (h : Whole t) (hfree : t.nodes.lookup addr = none) {s : UpdateVec}
    {nodes1 nodes2 : Nodes} (hs : (t.stored score val lv addr).getUpdateVec score val size = .ok s)
    (hwiden : forDown (widenLevel s) (lv + 1) (t.mLevel - (lv + 1)) s.nodes = .ok nodes1)
    (hlink : forDown (linkLevel s addr) 0 (lv + 1) nodes1 = .ok nodes2) {p : ℕ}
    (hp : s.update[0]? = some (some p)) :
    p ≠ addr ∧ (∃ next prev, t.nodes.base p = some (next, prev) ∧
        nodes2.base = Function.update (Function.update t.nodes.base p (some (some addr, prev))) addr
          (some (next, none))) ∧
      nodes2.Targets fun y => y = addr ∨ (t.nodes.base y).isSome = true := by
  have hnone := Nodes.base_of_lookup_none hfree
  obtain ⟨nh, hhead⟩ := h.threaded.head
  have hheadSome : (t.nodes.base t.mHead).isSome = true := by
    rw [hhead]
    rfl
  have hsearch := getUpdateVec_searched (stored_targets h.targets) hheadSome hs
  have hpa : p ≠ addr := by
    intro he
    have hsome := hsearch.update 0 p hp
    rw [he, hnone] at hsome
    cases hsome
  have hwide : nodes1.base = s.nodes.base ∧ nodes1.Targets fun y => (t.nodes.base y).isSome = true := by
    refine forDown_invariant (I := fun nodes => nodes.base = s.nodes.base ∧
      nodes.Targets fun y => (t.nodes.base y).isSome = true) ?_ ⟨rfl, hsearch.targets⟩ hwiden
    intro i nodes nodes' hn hturn
    obtain ⟨hbase, hkeep⟩ := widenLevel_base (S := fun y => (t.nodes.base y).isSome = true) hturn
    exact ⟨hbase.trans hn.1, hkeep hn.2⟩
  have hbase1 : nodes1.base = Function.update t.nodes.base addr (some (none, none)) := by
    rw [hwide.1, hsearch.base, stored_base]
  have htargets1 : nodes1.Targets fun y => y = addr ∨ (t.nodes.base y).isSome = true :=
    fun x node hx level hlevel y hy => Or.inr (hwide.2 x node hx level hlevel y hy)
  rw [forDown_last] at hlink
  obtain ⟨nodes', hupper, hzero⟩ := Exec.bind_eq_ok hlink
  have hup := linkLoop_base (by omega) hupper
  have htargets' : nodes'.Targets fun y => y = addr ∨ (t.nodes.base y).isSome = true :=
    forDown_invariant (fun i n n' hn hturn => linkLevel_targets (Or.inl rfl) hn hturn) htargets1 hupper
  have hself : nodes'.base addr = some (none, none) := by
    rw [hup, hbase1, Function.update_self]
  obtain ⟨next, prev, hold, hbase⟩ := linkLevel_base_zero hzero hp hpa hself
  rw [hup, hbase1, Function.update_of_ne hpa] at hold
  refine ⟨hpa, ⟨next, prev, hold, ?_⟩, linkLevel_targets (Or.inl rfl) htargets' hzero⟩
  rw [hbase, hup, hbase1, Function.update_comm hpa.symm, Function.update_idem]

theorem Whole.insert {lv addr : ℕ} (h : Whole t) (hfree : t.nodes.lookup addr = none)
    {out : Option ℕ × ℕ} (hins : t.insert score val lv addr = .ok (out, t')) : Whole t' := by
  have hnone := Nodes.base_of_lookup_none hfree
  obtain ⟨size, s, nodes1, nodes2, nodes3, p, next, hs, hwiden, hlink, hp, hprev, hnext, hhead, hend⟩ :=
    insert_inv hins
  obtain ⟨hpa, ⟨next', prev, hold, hbase2⟩, htargets2⟩ := h.linked hfree hs hwiden hlink hp
  have hself2 : nodes2.base addr = some (next', none) := by
    rw [hbase2, Function.update_self]
  have hbase3 : nodes3.base = Function.update
      (Function.update t.nodes.base p (some (some addr, prev))) addr (some (next', some p)) := by
    rw [Nodes.setPrev_base hprev hself2, hbase2, Function.update_idem]
  have htargets3 := Nodes.setPrev_targets hprev htargets2
  obtain ⟨prev3, hself3⟩ := Nodes.getNext_base hnext
  rw [hbase3, Function.update_self] at hself3
  obtain ⟨rfl, -⟩ := Prod.mk.inj (Option.some.inj hself3)
  -- Every node of the old store is still one, and so is the new one.
  have hgrown : ∀ y, y = addr ∨ (t.nodes.base y).isSome = true → (nodes3.base y).isSome = true := by
    intro y hy
    rw [hbase3]
    by_cases hya : y = addr
    · rw [hya, Function.update_self]
      rfl
    · rw [Function.update_of_ne hya]
      by_cases hyp : y = p
      · rw [hyp, Function.update_self]
        rfl
      · rw [Function.update_of_ne hyp]
        exact hy.resolve_left hya
  rcases hend with ⟨rfl, hnodes, htail⟩ | ⟨y, rfl, hset, htail⟩
  · refine ⟨?_, ?_⟩
    · rw [hnodes, hhead, htail, hbase3]
      exact h.threaded.append hold hnone
    · rw [hnodes]
      exact fun x node hx level hlevel y hy => hgrown y (htargets3 x node hx level hlevel y hy)
  · obtain ⟨hyp, ny, hy⟩ := h.threaded.next p y prev hold
    have hya : y ≠ addr := by
      rintro rfl
      rw [hnone] at hy
      cases hy
    have hy3 : nodes3.base y = some (ny, some p) := by
      rw [hbase3, Function.update_of_ne hya, Function.update_of_ne hyp]
      exact hy
    have hbase4 := Nodes.setPrev_base hset hy3
    refine ⟨?_, ?_⟩
    · rw [hhead, htail, hbase4, hbase3]
      exact h.threaded.between hold hy hnone
    · intro x node hx level hlevel z hz
      have hsome := hgrown z (Nodes.setPrev_targets hset htargets3 x node hx level hlevel z hz)
      rw [hbase4]
      by_cases hzy : z = y
      · rw [hzy, Function.update_self]
        rfl
      · rw [Function.update_of_ne hzy]
        exact hsome

/-! ### Delete -/

theorem narrowLevels_prevs {s : UpdateVec} {node n : ℕ} {nodes : Nodes} {r : ℕ × Nodes}
    (h : narrowLevels s node n nodes = .ok r) : r.2.prevs = nodes.prevs := by
  induction n generalizing nodes with
  | zero =>
    cases h
    rfl
  | succ i ih =>
    obtain ⟨p, -, h⟩ := Exec.bind_eq_ok h
    obtain ⟨next, -, h⟩ := Exec.bind_eq_ok h
    split at h
    · cases h
      rfl
    · obtain ⟨span, -, h⟩ := Exec.bind_eq_ok h
      obtain ⟨nodes1, hset, h⟩ := Exec.bind_eq_ok h
      rw [ih h, Nodes.setSpan_prevs hset]

theorem unlinkLevel_prevs {s : UpdateVec} {node i : ℕ} {nodes nodes' : Nodes}
    (h : unlinkLevel s node i nodes = .ok nodes') : nodes'.prevs = nodes.prevs := by
  obtain ⟨p, -, h⟩ := Exec.bind_eq_ok h
  obtain ⟨next, -, h⟩ := Exec.bind_eq_ok h
  obtain ⟨r1, hset1, h⟩ := Exec.bind_eq_ok h
  obtain ⟨r2, hset2, h⟩ := Exec.bind_eq_ok h
  obtain ⟨span, -, h⟩ := Exec.bind_eq_ok h
  obtain ⟨own, -, h⟩ := Exec.bind_eq_ok h
  rw [Nodes.setSpan_prevs h, Nodes.setNext_prevs hset2, Nodes.setNext_prevs hset1]

/-- A Delete that returns true frees a node of level 0, and writes no `m_prev_` and not `m_tail_`. -/
theorem delete_inv (h : t.delete score val = .ok (true, t')) :
    ∃ s p x, t.getUpdateVec score val t.mLevel = .ok s ∧ s.nodes.getNext p 0 = .ok (some x) ∧
      (∀ y, y ≠ x → t'.nodes.prevs y = s.nodes.prevs y) ∧ t'.nodes.lookup x = none ∧
      t'.mTail = t.mTail := by
  obtain ⟨s, hs, h⟩ := Exec.bind_eq_ok h
  obtain ⟨p, -, h⟩ := Exec.bind_eq_ok h
  obtain ⟨next, hnext, h⟩ := Exec.bind_eq_ok h
  cases next with
  | none => cases h
  | some x =>
    obtain ⟨n, -, h⟩ := Exec.bind_eq_ok h
    split at h
    · obtain ⟨r, hnarrow, h⟩ := Exec.bind_eq_ok h
      obtain ⟨nodes2, hunlink, h⟩ := Exec.bind_eq_ok h
      obtain ⟨mLevel, -, h⟩ := Exec.bind_eq_ok h
      cases h
      have hprevs : nodes2.prevs = s.nodes.prevs := by
        have hloop : nodes2.prevs = r.2.prevs := forDown_invariant (I := fun m => m.prevs = r.2.prevs)
          (fun i m m' hm hturn => (unlinkLevel_prevs hturn).trans hm) rfl hunlink
        rw [hloop, narrowLevels_prevs hnarrow]
      refine ⟨s, p, x, hs, hnext, fun y hy => ?_, AList.lookup_erase x nodes2, rfl⟩
      rw [← hprevs, Nodes.prevs, Nodes.prevs]
      dsimp only
      rw [AList.lookup_erase_ne hy]
    · cases h

structure Unreferenced (t t' : SkipList) (x : ℕ) : Prop where
  next : ∀ p node, t'.nodes.lookup p = some node → ∀ level ∈ node.mLevel, level.mNext ≠ some x
  prev : ∀ p y, t.nodes.getNext p 0 = .ok (some x) → t.nodes.getNext x 0 = .ok (some y) →
    t'.nodes.prevs y = some (some p)
  tail : t'.mTail ≠ x
  last : t'.mTail = ((t'.elements.map Element.node).getLast?).getD t'.mHead

/-- After a Delete that returns true the node that it freed is referenced from nowhere. -/
def Unlinks (t : SkipList) : Op → Prop
  | .delete score val => ∀ t', t.delete score val = .ok (true, t') →
      ∀ x, (t.nodes.lookup x).isSome = true → t'.nodes.lookup x = none → Unreferenced t t' x
  | _ => True

def Misses (t : SkipList) : Op → Prop
  | .delete score val => ∀ t', t.delete score val ≠ .ok (true, t')
  | _ => True

/-- Insert, with a level up to 254 and storage that is not in use, and Delete. -/
def InsertOrDelete (t : SkipList) : Op → Prop
  | .insert _ _ lv addr => lv ≤ 254 ∧ t.nodes.lookup addr = none
  | .delete _ _ => True
  | _ => False

/-- The node behind the deleted one, or `m_tail_`, still points at it. -/
theorem Whole.not_unlinks (h : Whole t) (hdel : t.delete score val = .ok (true, t')) :
    ¬ Unlinks t (.delete score val) := by
  intro hunlinks
  obtain ⟨s, p, x, hs, hnext, hkept, hfreed, htail⟩ := delete_inv hdel
  obtain ⟨nh, hhead⟩ := h.threaded.head
  have hheadSome : (t.nodes.base t.mHead).isSome = true := by
    rw [hhead]
    rfl
  have hsearch := getUpdateVec_searched h.targets hheadSome hs
  obtain ⟨prev, hp⟩ := Nodes.getNext_base hnext
  rw [hsearch.base] at hp
  obtain ⟨hxp, next, hx⟩ := h.threaded.next p x prev hp
  have hunref := hunlinks t' hdel x (Nodes.lookup_of_base hx) hfreed
  cases next with
  | none => exact hunref.tail (htail.trans (h.threaded.tail x (some p) hx))
  | some y =>
    obtain ⟨hyx, ny, hy⟩ := h.threaded.next x y (some p) hx
    have hnew := hunref.prev p y (Nodes.getNext_of_base hp) (Nodes.getNext_of_base hx)
    rw [hkept y hyx, hsearch.prevs, Nodes.prevs_of_base hy] at hnew
    exact hxp (Option.some.inj (Option.some.inj hnew))

/-! ### Every run -/

theorem Whole.unlinks_iff_misses (h : Whole t) (op : Op) : Unlinks t op ↔ Misses t op := by
  cases op with
  | delete score val =>
    constructor
    · exact fun hunlinks t' hdel => h.not_unlinks hdel hunlinks
    · exact fun hmisses t' hdel => absurd hdel (hmisses t')
  | insert score val lv addr => exact Iff.rfl
  | find score val => exact Iff.rfl
  | modify score val lv addr => exact Iff.rfl
  | getSize => exact Iff.rfl

theorem Whole.delete_false (h : Whole t) (hdel : t.delete score val = .ok (false, t')) : Whole t' := by
  obtain ⟨nh, hhead⟩ := h.threaded.head
  have hheadSome : (t.nodes.base t.mHead).isSome = true := by
    rw [hhead]
    rfl
  obtain ⟨s, hs, hdel⟩ := Exec.bind_eq_ok hdel
  have hsearch := getUpdateVec_searched h.targets hheadSome hs
  have hsame : Whole { t with nodes := s.nodes } := by
    refine ⟨?_, ?_⟩
    · dsimp only
      rw [hsearch.base]
      exact h.threaded
    · dsimp only
      rw [hsearch.base]
      exact hsearch.targets
  obtain ⟨p, -, hdel⟩ := Exec.bind_eq_ok hdel
  obtain ⟨next, -, hdel⟩ := Exec.bind_eq_ok hdel
  cases next with
  | none =>
    cases hdel
    exact hsame
  | some x =>
    obtain ⟨n, -, hdel⟩ := Exec.bind_eq_ok hdel
    split at hdel
    · obtain ⟨r, -, hdel⟩ := Exec.bind_eq_ok hdel
      obtain ⟨nodes2, -, hdel⟩ := Exec.bind_eq_ok hdel
      obtain ⟨mLevel, -, hdel⟩ := Exec.bind_eq_ok hdel
      cases hdel
    · cases hdel
      exact hsame

theorem create_whole (head : ℕ) : Whole (create head) := by
  have hbase : (create head).nodes.base head = some (none, none) := by
    rw [Nodes.base, create_lookup, Option.bind_some, SkipListNode.make, List.getElem?_replicate,
      if_pos (by omega), Option.map_some]
  have hother : ∀ x, x ≠ head → (create head).nodes.base x = none := fun x hx =>
    Nodes.base_of_lookup_none (create_lookup_ne hx)
  refine ⟨⟨⟨none, hbase⟩, fun x y prev hx => ?_, fun x prev hx => ?_⟩, fun x node hx level hlevel y hy => ?_⟩
  · by_cases hxh : x = head
    · rw [hxh, hbase] at hx
      cases hx
    · rw [hother x hxh] at hx
      cases hx
  · by_cases hxh : x = head
    · exact hxh.symm
    · rw [hother x hxh] at hx
      cases hx
  · by_cases hxh : x = head
    · rw [hxh, create_lookup] at hx
      cases hx
      rw [SkipListNode.make] at hlevel
      rw [List.eq_of_mem_replicate hlevel] at hy
      cases hy
    · rw [create_lookup_ne hxh] at hx
      cases hx

theorem misses_run (head : ℕ) (ops : List Op) (h : StepsOk step InsertOrDelete (create head) ops) :
    StepsOk step Unlinks (create head) ops ↔ StepsOk step Misses (create head) ops := by
  refine stepsOk_iff_of_invariant (fun t op ht _ => ht.unlinks_iff_misses op) ?_ ops (create head)
    (create_whole head) h
  intro t op out t' ht hdom hok hstep
  cases op with
  | insert score val lv addr =>
    obtain ⟨r, hins, hout⟩ := Exec.bind_eq_ok hstep
    cases hout
    exact ht.insert hdom.2 hins
  | delete score val =>
    obtain ⟨⟨done, t1⟩, hdel, hout⟩ := Exec.bind_eq_ok hstep
    cases hout
    cases done with
    | true => exact absurd hok (ht.not_unlinks hdel)
    | false => exact ht.delete_false hdel
  | find score val => exact False.elim hdom
  | modify score val lv addr => exact False.elim hdom
  | getSize => exact False.elim hdom

def Absent (t : SkipList) : Op → Prop
  | .delete score val => ∀ e ∈ t.elements, ¬ e.Is score val
  | _ => True

instance (t : SkipList) : ∀ op, Decidable (t.Absent op)
  | .delete score val => inferInstanceAs (Decidable (∀ e ∈ t.elements, ¬ e.Is score val))
  | .insert _ _ _ _ => .isTrue trivial
  | .find _ _ => .isTrue trivial
  | .modify _ _ _ _ => .isTrue trivial
  | .getSize => .isTrue trivial

instance (t : SkipList) : ∀ op, Decidable (t.InsertOrDelete op)
  | .insert _ _ lv addr => inferInstanceAs (Decidable (lv ≤ 254 ∧ t.nodes.lookup addr = none))
  | .delete _ _ => .isTrue trivial
  | .find _ _ => .isFalse False.elim
  | .modify _ _ _ _ => .isFalse False.elim
  | .getSize => .isFalse False.elim

theorem WellFormed.misses_delete {l : List Element} (h : WellFormed t l) (score : ℕ) (val : List Byte) :
    (Misses t (.delete score val) ↔ Absent t (.delete score val)) ∧
      ∀ t', t.delete score val = .ok (false, t') → t' = t := by
  have hrep : Represents False t l :=
    { h.represents with lanes := fun i hi ha => (h.represents.lanes i hi ha).weaken fun hf => hf.1.elim }
  have hlevel : 0 < t.mLevel := by
    rw [h.level]
    exact levelsOf_pos l
  rw [Absent, hrep.elements_eq]
  rcases delete_spec hrep hlevel score val with ⟨t1, hdel, -, -, -, -, hlength⟩ | ⟨hnone, hdel⟩
  · refine ⟨⟨fun hmisses => absurd hdel (hmisses t1), fun hnone => ?_⟩, fun t' hdel' => ?_⟩
    · rw [List.eraseP_of_forall_not (by simpa using hnone)] at hlength
      omega
    · rw [hdel] at hdel'
      cases hdel'
  · refine ⟨⟨fun _ => hnone, fun _ t' hdel' => ?_⟩, fun t' hdel' => ?_⟩
    · rw [hdel] at hdel'
      cases hdel'
    · rw [hdel] at hdel'
      cases hdel'
      rfl

theorem absent_run {l : List Element} (ops : List Op) (h : WellFormed t l)
    (hsmall : l.length + ops.length < 4294967296) (hdom : StepsOk step InsertOrDelete t ops) :
    StepsOk step Misses t ops ↔ StepsOk step Absent t ops := by
  induction ops generalizing t l with
  | nil => exact Iff.rfl
  | cons op ops ih =>
    rw [List.length_cons] at hsmall
    cases op with
    | insert score val lv addr =>
      obtain ⟨hlv, hfree⟩ := stepsOk_head hdom
      have hunused : t.Unused addr l := by
        have hnone : t.nodes.info addr = none := by
          rw [Nodes.info, hfree, Option.map_none]
        refine ⟨?_, fun e he => ?_⟩
        · rintro rfl
          obtain ⟨info, hinfo, -⟩ := h.head
          rw [hnone] at hinfo
          cases hinfo
        · rintro rfl
          rw [h.stored e he] at hnone
          cases hnone
      obtain ⟨pre, post, t', hl, -, -, hins, h'⟩ := h.insert score val (Nat.lt_succ_of_le hlv) hunused (by omega)
      have hstep : t.step (.insert score val lv addr) = .ok (.found (some addr) (pre.length + 1), t') := by
        rw [step, hins]
        rfl
      rw [stepsOk_cons_iff hstep, stepsOk_cons_iff hstep]
      refine and_congr Iff.rfl (ih h' ?_ (stepsOk_tail hstep hdom))
      rw [hl, List.length_append] at hsmall
      rw [List.length_append, List.length_cons]
      omega
    | delete score val =>
      obtain ⟨hiff, hkept⟩ := h.misses_delete score val
      rw [StepsOk, StepsOk, hiff]
      refine and_congr_right fun habsent => ?_
      cases hdel : t.delete score val with
      | error e =>
        have hstep : t.step (.delete score val) = .error e := by
          rw [step, hdel]
          rfl
        rw [hstep]
      | ok r =>
        obtain ⟨done, t'⟩ := r
        have hstep : t.step (.delete score val) = .ok (.deleted done, t') := by
          rw [step, hdel]
          rfl
        cases done with
        | true => exact absurd hdel (hiff.mpr habsent t')
        | false =>
          obtain rfl := hkept t' hdel
          have htail := stepsOk_tail hstep hdom
          rw [hstep]
          exact ih h (by omega) htail
    | find score val => exact False.elim (stepsOk_head hdom)
    | modify score val lv addr => exact False.elim (stepsOk_head hdom)
    | getSize => exact False.elim (stepsOk_head hdom)

/-- In every run of Insert and Delete, the first Delete that returns true leaves a reference to the
node that it frees. In a run of fewer than 2^32 calls this is the first one whose element is in
the list. -/
theorem unlinks_iff (head : ℕ) (ops : List Op) (h : StepsOk step InsertOrDelete (create head) ops) :
    (StepsOk step Unlinks (create head) ops ↔ StepsOk step Misses (create head) ops) ∧
      (ops.length < 4294967296 →
        (StepsOk step Unlinks (create head) ops ↔ StepsOk step Absent (create head) ops)) := by
  have hmisses := misses_run head ops h
  refine ⟨hmisses, fun hsmall => hmisses.trans ?_⟩
  exact absent_run ops (create_wellFormed head) (by rw [List.length_nil, Nat.zero_add]; exact hsmall) h

/-- Two elements; a Delete that finds nothing, and one that finds the first. -/
theorem unlinks_iff_four :
    StepsOk step Unlinks (create 0) [.insert 1 [97] 0 1, .insert 2 [98] 2 2, .delete 3 [97]] ∧
      ¬ StepsOk step Unlinks (create 0) [.insert 1 [97] 0 1, .insert 2 [98] 2 2, .delete 3 [97],
        .delete 1 [97]] := by
  refine ⟨((unlinks_iff 0 _ (by decide +kernel)).2 (by decide)).mpr (by decide +kernel), fun h => ?_⟩
  exact absurd (((unlinks_iff 0 _ (by decide +kernel)).2 (by decide)).mp h) (by decide +kernel)

/-- A Delete of the only element leaves `m_tail_` at it, and a Delete of the first of two leaves the
`m_prev_` of the second. -/
theorem delete_leaves_references :
    ((runOps step (create 0) [.insert 1 [97] 0 1, .delete 1 [97]]).map
        fun r => (r.1, r.2.mTail, (r.2.nodes.lookup 1).isSome))
          = .ok ([.found (some 1) 1, .deleted true], 1, false) ∧
      ((runOps step (create 0) [.insert 1 [97] 0 1, .insert 2 [98] 0 2, .delete 1 [97]]).map
        fun r => (r.1, r.2.nodes.prevs 2, (r.2.nodes.lookup 1).isSome))
          = .ok ([.found (some 1) 1, .found (some 2) 2, .deleted true], some (some 1), false) ∧
      ¬ StepsOk step Unlinks (create 0) [.insert 1 [97] 0 1, .delete 1 [97]] := by
  refine ⟨by decide +kernel, by decide +kernel, fun h => ?_⟩
  have hmisses := (misses_run 0 _ (by decide +kernel)).mp h
  have habsent := (absent_run _ (create_wellFormed 0) (by decide) (by decide +kernel)).mp hmisses
  exact absurd habsent (by decide +kernel)

end SkipList

end DeftRpc.DataStruct
