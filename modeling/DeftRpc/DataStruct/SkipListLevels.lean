import DeftRpc.DataStruct.SkipListRefinement

/-!
# Insert and Find on well-formed lists

Here `m_level_` is as the levels of the nodes want it, and the last node of every level
in use counts the nodes behind it.
-/

namespace DeftRpc.DataStruct
open DeftRpc.Foundation

namespace SkipList

/-- One more than the highest level of a node, and at least 1. -/
def levelsOf (l : List Element) : ℕ := l.foldr (fun e levels => max (e.lv + 1) levels) 1

/-- The representation of the elements `l`. On level `i` stand the nodes with more than `i` levels,
in the order of the list, and every span is the difference of two positions. -/
structure WellFormed (t : SkipList) (l : List Element) : Prop where
  head : ∃ info, t.nodes.info t.mHead = some info ∧ info.levels = 256
  stored : ∀ e ∈ l, t.nodes.info e.node = some ⟨e.score, e.val, e.lv + 1⟩
  only : ∀ x, (t.nodes.info x).isSome = true → x = t.mHead ∨ x ∈ l.map Element.node
  nodup : (t.mHead :: l.map Element.node).Nodup
  ordered : Ordered l
  low : ∀ e ∈ l, e.lv < 255
  length : t.mLength = l.length
  small : t.mLength < 4294967296
  level : t.mLevel = levelsOf l
  lanes : ∀ i, i < 256 → Linked (i < t.mLevel) (t.nodes.lane i) t.mHead 0 (l.map Element.node)

variable {t : SkipList} {l pre post : List Element}

theorem lt_levelsOf {e : Element} (he : e ∈ l) : e.lv < levelsOf l := by
  induction l with
  | nil => exact absurd he List.not_mem_nil
  | cons a l ih =>
    show e.lv < max (a.lv + 1) (levelsOf l)
    rcases List.mem_cons.mp he with rfl | he
    · omega
    · have hlt := ih he
      omega

theorem levelsOf_le {n : ℕ} (hn : 1 ≤ n) (h : ∀ e ∈ l, e.lv < n) : levelsOf l ≤ n := by
  induction l with
  | nil => exact hn
  | cons a l ih =>
    have ha := h a List.mem_cons_self
    have hl := ih fun e he => h e (List.mem_cons_of_mem a he)
    show max (a.lv + 1) (levelsOf l) ≤ n
    omega

theorem levelsOf_pos (l : List Element) : 1 ≤ levelsOf l := by
  induction l with
  | nil => exact le_refl 1
  | cons a l ih => exact le_trans ih (le_max_right _ _)

theorem levelsOf_insert (pre post : List Element) (e : Element) :
    levelsOf (pre ++ e :: post) = max (e.lv + 1) (levelsOf (pre ++ post)) := by
  induction pre with
  | nil => rfl
  | cons a pre ih =>
    show max (a.lv + 1) (levelsOf (pre ++ e :: post)) = max (e.lv + 1) (max (a.lv + 1) (levelsOf (pre ++ post)))
    rw [ih, max_left_comm]

theorem WellFormed.level_lt (h : WellFormed t l) : t.mLevel < 256 := by
  have hle := levelsOf_le (l := l) (n := 255) (by decide) h.low
  rw [h.level]
  omega

theorem WellFormed.top_none (h : WellFormed t l) : t.top = none := by
  have hlt := h.level_lt
  rcases (h.lanes t.mLevel hlt).next with ⟨span, hspan, -⟩ | ⟨p, b, q, hsplit, -, -, hb, -⟩
  · rw [top, hspan]
    rfl
  · have hmem : b ∈ l.map Element.node := by simp [hsplit]
    obtain ⟨e, he, rfl⟩ := List.mem_map.mp hmem
    have hbelow := lt_levelsOf he
    rw [← h.level] at hbelow
    rw [Nodes.lane_off (h.stored e he) (show e.lv + 1 ≤ t.mLevel by omega)] at hb
    cases hb

theorem WellFormed.represents (h : WellFormed t l) : Represents True t l where
  head := h.head
  stored := h.stored
  only := h.only
  nodup := h.nodup
  ordered := h.ordered
  low := h.low
  length := h.length
  small := by
    rw [← h.length]
    exact h.small
  level := h.level_lt
  lanes := fun i hi _ => (h.lanes i hi).weaken And.right

theorem Represents.wellFormed (h : Represents True t l) (htop : t.top = none) (hlevel : t.mLevel = levelsOf l) :
    WellFormed t l where
  head := h.head
  stored := h.stored
  only := h.only
  nodup := h.nodup
  ordered := h.ordered
  low := h.low
  length := h.length
  small := by
    rw [h.length]
    exact h.small
  level := hlevel
  lanes := fun i hi => (h.lanes i hi (Or.inr (Or.inr htop))).weaken fun hlt => ⟨trivial, hlt⟩

theorem WellFormed.insert_at (h : WellFormed t (pre ++ post)) (score : ℕ) (val : List Byte) (lv addr : ℕ)
    (hpre : ∀ e ∈ pre, e.key < keyOf score val) (hpost : ∀ e ∈ post, keyOf score val ≤ e.key)
    (hlv : lv < 255) (hfree : t.Unused addr (pre ++ post))
    (hsmall : (pre ++ post).length + 1 < 4294967296) :
    ∃ t', t.insert score val lv addr = .ok ((some addr, pre.length + 1), t') ∧
      WellFormed t' (pre ++ ⟨addr, score, val, lv⟩ :: post) := by
  obtain ⟨t', hins, hrep, hlevel, htop⟩ :=
    insert_ok h.represents hfree.not_mem hlv hsmall (Or.inr h.top_none) hpre hpost
  refine ⟨t', hins, hrep.wellFormed (htop h.top_none) ?_⟩
  rw [hlevel, levelsOf_insert, ← h.level]
  show (if t.mLevel ≤ lv then lv + 1 else t.mLevel) = max (lv + 1) t.mLevel
  split <;> omega

theorem WellFormed.insert (h : WellFormed t l) (score : ℕ) (val : List Byte) {lv addr : ℕ} (hlv : lv < 255)
    (hfree : t.Unused addr l) (hsmall : l.length + 1 < 4294967296) :
    ∃ pre post t', l = pre ++ post ∧ (∀ e ∈ pre, e.key < keyOf score val) ∧
      (∀ e ∈ post, keyOf score val ≤ e.key) ∧
      t.insert score val lv addr = .ok ((some addr, pre.length + 1), t') ∧
      WellFormed t' (pre ++ ⟨addr, score, val, lv⟩ :: post) := by
  obtain ⟨pre, post, rfl, hpre, hpost⟩ := h.ordered.split (keyOf score val)
  obtain ⟨t', hins, h'⟩ := h.insert_at score val lv addr hpre hpost hlv hfree hsmall
  exact ⟨pre, post, t', rfl, hpre, hpost, hins, h'⟩

theorem insert_mHead {score lv addr : ℕ} {val : List Byte} {r : Option ℕ × ℕ} {t' : SkipList}
    (h : t.insert score val lv addr = .ok (r, t')) : t'.mHead = t.mHead := by
  obtain ⟨s, -, h⟩ := Exec.bind_eq_ok h
  obtain ⟨widened, -, h⟩ := Exec.bind_eq_ok h
  obtain ⟨linked, -, h⟩ := Exec.bind_eq_ok h
  obtain ⟨p, -, h⟩ := Exec.bind_eq_ok h
  obtain ⟨nodes, -, h⟩ := Exec.bind_eq_ok h
  obtain ⟨next, -, h⟩ := Exec.bind_eq_ok h
  obtain ⟨rank0, -, h⟩ := Exec.bind_eq_ok h
  cases next with
  | none =>
    cases h
    rfl
  | some next =>
    obtain ⟨nodes', -, h⟩ := Exec.bind_eq_ok h
    cases h
    rfl

theorem create_wellFormed (head : ℕ) : WellFormed (create head) [] := by
  apply (create_represents True head).wellFormed
  · rw [top, Nodes.lane, show (create head).mHead = head from rfl, create_lookup]
    rfl
  · rfl

theorem exists_unused (t : SkipList) (l : List Element) : ∃ addr, t.Unused addr l := by
  obtain ⟨addr, haddr⟩ := Infinite.exists_notMem_finset (t.mHead :: l.map Element.node).toFinset
  rw [List.mem_toFinset, List.mem_cons, not_or] at haddr
  exact ⟨addr, haddr.1, fun e he heq => haddr.2 (List.mem_map.mpr ⟨e, he, heq⟩)⟩

theorem exists_wellFormed (n : ℕ) (hn : n < 4294967296) : ∃ t l, WellFormed t l ∧ l.length = n := by
  induction n with
  | zero => exact ⟨create 0, [], create_wellFormed 0, rfl⟩
  | succ n ih =>
    obtain ⟨t, l, h, hlen⟩ := ih (by omega)
    obtain ⟨addr, hfree⟩ := exists_unused t l
    obtain ⟨pre, post, t', rfl, -, -, -, h'⟩ := h.insert 0 [] (show 0 < 255 by decide) hfree (by omega)
    refine ⟨t', _, h', ?_⟩
    rw [List.length_append] at hlen
    rw [List.length_append, List.length_cons]
    omega

/-- Insert keeps the list well-formed and returns the rank of the new element, which goes before
its equals; Find returns a matching node with its rank. -/
theorem wellFormed_insert_find (h : WellFormed t l) (score : ℕ) (val : List Byte) :
    (∀ lv addr, lv ≤ 254 → t.Unused addr l → l.length + 1 < 4294967296 →
      ∃ pre post t', l = pre ++ post ∧ (∀ e ∈ pre, e.key < keyOf score val) ∧
        (∀ e ∈ post, keyOf score val ≤ e.key) ∧
        t.insert score val lv addr = .ok ((some addr, pre.length + 1), t') ∧
        WellFormed t' (pre ++ ⟨addr, score, val, lv⟩ :: post)) ∧
    ∃ node rank, t.find score val = .ok ((node, rank), t) ∧
      ((∃ e, e.Is score val ∧ At l e rank ∧ node = some e.node) ∨
        (∀ e ∈ l, ¬e.Is score val) ∧ node = none ∧ rank = 0) := by
  constructor
  · intro lv addr hlv hfree hsmall
    exact h.insert score val (by omega) hfree hsmall
  · have hpos := levelsOf_pos l
    rw [← h.level] at hpos
    obtain ⟨node, rank, hfind, hcase⟩ := find_ok h.represents score val (Or.inl hpos)
    refine ⟨node, rank, hfind, ?_⟩
    simp only [Element.is_iff]
    exact hcase

/-- Four Inserts make nodes of the levels 0, 1, 2 and 0, the two in the middle with one key. -/
theorem exists_fourLevels : ∃ t1 t2 t3 t,
    (create 0).insert 10 [1] 0 1 = .ok ((some 1, 1), t1) ∧
    t1.insert 20 [2] 2 2 = .ok ((some 2, 2), t2) ∧ t2.insert 20 [2] 1 3 = .ok ((some 3, 2), t3) ∧
    t3.insert 30 [3] 0 4 = .ok ((some 4, 4), t) ∧ t.mHead = 0 ∧
    WellFormed t [⟨1, 10, [1], 0⟩, ⟨3, 20, [2], 1⟩, ⟨2, 20, [2], 2⟩, ⟨4, 30, [3], 0⟩] := by
  have free : ∀ {t : SkipList} {addr : ℕ} {l : List Element}, t.mHead = 0 → addr ≠ 0 →
      (∀ e ∈ l, e.node ≠ addr) → t.Unused addr l :=
    fun hhead hne hnot => ⟨by rw [hhead]; exact hne, hnot⟩
  have h0 : WellFormed (create 0) ([] ++ []) := create_wellFormed 0
  obtain ⟨t1, hins1, h1⟩ := h0.insert_at 10 [1] 0 1 (by decide) (by decide) (by decide)
    (free rfl (by decide) (by decide)) (by decide)
  have hhead1 : t1.mHead = 0 := insert_mHead hins1
  replace h1 : WellFormed t1 ([⟨1, 10, [1], 0⟩] ++ []) := h1
  obtain ⟨t2, hins2, h2⟩ := h1.insert_at 20 [2] 2 2 (by decide) (by decide) (by decide)
    (free hhead1 (by decide) (by decide)) (by decide)
  have hhead2 : t2.mHead = 0 := (insert_mHead hins2).trans hhead1
  obtain ⟨t3, hins3, h3⟩ := h2.insert_at 20 [2] 1 3 (by decide) (by decide) (by decide)
    (free hhead2 (by decide) (by decide)) (by decide)
  have hhead3 : t3.mHead = 0 := (insert_mHead hins3).trans hhead2
  replace h3 : WellFormed t3 ([⟨1, 10, [1], 0⟩, ⟨3, 20, [2], 1⟩, ⟨2, 20, [2], 2⟩] ++ []) := h3
  obtain ⟨t, hins, h⟩ := h3.insert_at 30 [3] 0 4 (by decide) (by decide) (by decide)
    (free hhead3 (by decide) (by decide)) (by decide)
  exact ⟨t1, t2, t3, t, hins1, hins2, hins3, hins, (insert_mHead hins).trans hhead3, h⟩

theorem wellFormed_insert_find_levels : ∃ t,
    WellFormed t [⟨1, 10, [1], 0⟩, ⟨3, 20, [2], 1⟩, ⟨2, 20, [2], 2⟩, ⟨4, 30, [3], 0⟩] ∧
    (∃ pre post t', [⟨1, 10, [1], 0⟩, ⟨3, 20, [2], 1⟩, ⟨2, 20, [2], 2⟩, ⟨4, 30, [3], 0⟩] = pre ++ post ∧
      (∀ e ∈ pre, e.key < keyOf 20 [2]) ∧ (∀ e ∈ post, keyOf 20 [2] ≤ e.key) ∧
      t.insert 20 [2] 3 5 = .ok ((some 5, pre.length + 1), t') ∧
      WellFormed t' (pre ++ ⟨5, 20, [2], 3⟩ :: post)) ∧
    ∃ node rank, t.find 20 [2] = .ok ((node, rank), t) ∧
      ((∃ e : Element, e.Is 20 [2] ∧
          At [⟨1, 10, [1], 0⟩, ⟨3, 20, [2], 1⟩, ⟨2, 20, [2], 2⟩, ⟨4, 30, [3], 0⟩] e rank ∧
          node = some e.node) ∨
        (∀ e ∈ [(⟨1, 10, [1], 0⟩ : Element), ⟨3, 20, [2], 1⟩, ⟨2, 20, [2], 2⟩, ⟨4, 30, [3], 0⟩],
          ¬e.Is 20 [2]) ∧ node = none ∧ rank = 0) := by
  obtain ⟨-, -, -, t, -, -, -, -, hhead, h⟩ := exists_fourLevels
  have hfree : t.Unused 5 [⟨1, 10, [1], 0⟩, ⟨3, 20, [2], 1⟩, ⟨2, 20, [2], 2⟩, ⟨4, 30, [3], 0⟩] := by
    refine ⟨?_, by decide⟩
    rw [hhead]
    decide
  exact ⟨t, h, (wellFormed_insert_find h 20 [2]).1 3 5 (by decide) hfree (by decide),
    (wellFormed_insert_find h 20 [2]).2⟩

/-- `m_length_` has 32 bits, so the list that uses all of them takes no further element. -/
theorem wellFormed_insert_full :
    ¬∀ t l, WellFormed t l → ∀ score val lv addr, lv ≤ 254 → t.Unused addr l →
      ∃ pre post t', l = pre ++ post ∧ (∀ e ∈ pre, e.key < keyOf score val) ∧
        (∀ e ∈ post, keyOf score val ≤ e.key) ∧
        t.insert score val lv addr = .ok ((some addr, pre.length + 1), t') ∧
        WellFormed t' (pre ++ ⟨addr, score, val, lv⟩ :: post) := by
  intro hall
  obtain ⟨t, l, h, hlen⟩ := exists_wellFormed 4294967295 (by decide)
  obtain ⟨addr, hfree⟩ := exists_unused t l
  obtain ⟨pre, post, t', rfl, -, -, -, h'⟩ := hall t l h 0 [] 0 addr (by decide) hfree
  have hsmall := h'.small
  rw [h'.length, List.length_append, List.length_cons] at hsmall
  rw [List.length_append] at hlen
  omega

end SkipList

end DeftRpc.DataStruct
