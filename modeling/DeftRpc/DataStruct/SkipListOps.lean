import DeftRpc.DataStruct.SkipListInvariant

/-!
# Find, Delete and Insert on the elements

Each of them runs GetUpdateVec and then goes through the levels; a turn works on one
lane, and puts it right for the list as it is afterwards.
-/

namespace DeftRpc.DataStruct
open DeftRpc.Foundation

namespace SkipList
variable {exact : Prop} {t : SkipList} {l pre post : List Element} {score : ℕ} {val : List Byte} {s : UpdateVec}

/-! ### Levels -/

theorem lastBefore_eq {nodes : Nodes} (hinfo : nodes.info = t.nodes.info) (pre : List ℕ) (i : ℕ) :
    holder (nodes.lane i) t.mHead 0 pre = t.lastBefore pre i := by
  rw [Nodes.holder_eq hinfo]
  rfl

theorem link_lastBefore {nodes : Nodes} (hinfo : nodes.info = t.nodes.info) {i : ℕ}
    (hhead : (t.nodes.lane i t.mHead).isSome = true) (pre : List ℕ) :
    ∃ next span, nodes.lane i (t.lastBefore pre i).1 = some (next, span) := by
  have hon := holder_isSome hhead 0 pre
  rw [← Nodes.lane_isSome_congr hinfo] at hon
  obtain ⟨⟨next, span⟩, hlink⟩ := Option.isSome_iff_exists.mp hon
  exact ⟨next, span, hlink⟩

theorem rest_lastBefore {nodes : Nodes} (hinfo : nodes.info = t.nodes.info) {i : ℕ} {pre post : List ℕ}
    (h : Linked exact (nodes.lane i) t.mHead 0 (pre ++ post)) :
    Linked exact (nodes.lane i) (t.lastBefore pre i).1 (t.lastBefore pre i).2 post := by
  have hrest := ((linked_append _ _ _ _ _ _).mp h).2
  rwa [lastBefore_eq hinfo] at hrest

theorem lastBefore_le (t : SkipList) (pre : List ℕ) (i : ℕ) : (t.lastBefore pre i).2 ≤ pre.length := by
  obtain ⟨p, q, hsplit, hq⟩ := holder_position (t.nodes.lane i) t.mHead pre
  have hlength := congrArg List.length hsplit
  rw [List.length_append, List.length_cons, List.length_cons] at hlength
  rw [lastBefore, hq]
  omega

/-- The first element of a level behind a place; on level 0 it is the first of all. -/
theorem Represents.next_level (h : Represents exact t (pre ++ post)) {nodes : Nodes}
    (hinfo : nodes.info = t.nodes.info) {i c d : ℕ} (hl : Linked exact (nodes.lane i) c d (post.map Element.node)) :
    (∃ span, nodes.lane i c = some (none, span) ∧ (i = 0 → post = [])) ∨
      ∃ p x q, post = p ++ x :: q ∧ nodes.lane i c = some (some x.node, d + p.length + 1) ∧
        (i = 0 → p = []) := by
  have hon : i = 0 → ∀ e ∈ post, ¬nodes.lane i e.node = none := by
    intro hi e he hnone
    have hsome := (h.on_iff (List.mem_append_right pre he) i).mpr (by omega)
    rw [← Nodes.lane_isSome_congr hinfo, hnone] at hsome
    cases hsome
  rcases hl.next with ⟨span, hc, -, hnone⟩ | ⟨p, b, q, hsplit, hc, hnone, -, -⟩
  · refine Or.inl ⟨span, hc, fun hi => List.eq_nil_iff_forall_not_mem.mpr fun e he => ?_⟩
    exact hon hi e he (hnone e.node (List.mem_map_of_mem he))
  · obtain ⟨p1, rest, rfl, rfl, hrest⟩ := List.map_eq_append_iff.mp hsplit
    obtain ⟨x, q1, rfl, rfl, -⟩ := List.map_eq_cons_iff.mp hrest
    rw [List.length_map] at hc
    refine Or.inr ⟨p1, x, q1, rfl, hc, fun hi => List.eq_nil_iff_forall_not_mem.mpr fun e he => ?_⟩
    exact hon hi e (List.mem_append_left _ he) (hnone e.node (List.mem_map_of_mem he))

theorem Represents.deref_key (h : Represents exact t l) {nodes : Nodes} (hinfo : nodes.info = t.nodes.info)
    {e : Element} (he : e ∈ l) (score : ℕ) (val : List Byte) :
    ∃ node, nodes.deref e.node = .ok node ∧
      ((node.mScore = score ∧ node.mVal = val) ↔ e.key = keyOf score val) := by
  have hstored := h.stored e he
  rw [← hinfo] at hstored
  obtain ⟨node, hnode, hs, hv⟩ := Nodes.deref_ok hstored
  refine ⟨node, hnode, ?_⟩
  rw [hs, hv, Element.key, keyOf_inj]

/-! ### Find -/

/-- The element is at this 1-based position. -/
def At (l : List Element) (e : Element) (rank : ℕ) : Prop := ∃ r, l[r]? = some e ∧ rank = r + 1

theorem findLevels_ok (score : ℕ) (val : List Byte) (h : Represents exact t (pre ++ post))
    (hs : Walked exact t t.mLevel (pre.map Element.node) (post.map Element.node) 0 0 s) (n : ℕ)
    (hn : n ≤ t.mLevel) :
    ∃ node rank, findLevels s score val n = .ok (node, rank) ∧
      ((∃ e, e.key = keyOf score val ∧ At (pre ++ post) e rank ∧ node = some e.node) ∨
        node = none ∧ rank = 0 ∧ (0 < n → ∀ e ∈ post.head?, e.key ≠ keyOf score val)) := by
  induction n with
  | zero => exact ⟨none, 0, rfl, Or.inr ⟨rfl, rfl, fun hlt => absurd hlt (Nat.lt_irrefl 0)⟩⟩
  | succ i ih =>
    obtain ⟨node, rank, hlater, hcase⟩ := ih (by omega)
    have hrest := rest_lastBefore hs.info (hs.linked (show i < t.mLevel by omega))
    have hupdate := nodeAt_ok (hs.update i (Nat.zero_le i) (by omega))
    -- a level without the key hands on; level 0 has the first element behind the place
    have hpass : findLevels s score val (i + 1) = findLevels s score val i →
        (i = 0 → ∀ e ∈ post.head?, e.key ≠ keyOf score val) →
        ∃ node rank, findLevels s score val (i + 1) = .ok (node, rank) ∧
          ((∃ e, e.key = keyOf score val ∧ At (pre ++ post) e rank ∧ node = some e.node) ∨
            node = none ∧ rank = 0 ∧ (0 < i + 1 → ∀ e ∈ post.head?, e.key ≠ keyOf score val)) := by
      intro heq hzero
      refine ⟨node, rank, heq.trans hlater, ?_⟩
      rcases hcase with hfound | ⟨hnode, hrank, habsent⟩
      · exact Or.inl hfound
      · refine Or.inr ⟨hnode, hrank, fun _ => ?_⟩
        by_cases hi : i = 0
        · exact hzero hi
        · exact habsent (by omega)
    rcases h.next_level hs.info hrest with ⟨span, hc, hempty⟩ | ⟨p, x, q, hsplit, hc, hfirst⟩
    · apply hpass
      · simp only [findLevels, hupdate, Exec.ok_bind, Nodes.getNext_ok hc]
      · intro hi e he
        rw [hempty hi] at he
        cases he
    · have hx : x ∈ pre ++ post := by simp [hsplit]
      obtain ⟨n, hderef, hkey⟩ := h.deref_key hs.info hx score val
      by_cases hmatch : n.mScore = score ∧ n.mVal = val
      · obtain ⟨r, hr, hrank⟩ := hs.rank i (Nat.zero_le i) (by omega)
        have hsmall := h.small
        have hcount : r + ((t.lastBefore (pre.map Element.node) i).2 + p.length + 1)
            = pre.length + p.length + 1 := by
          rw [List.length_map] at hrank
          omega
        have hwrap : u32 (pre.length + p.length + 1) = pre.length + p.length + 1 := by
          apply u32_of_lt
          rw [hsplit, List.length_append, List.length_append, List.length_cons] at hsmall
          omega
        refine ⟨some x.node, pre.length + p.length + 1, ?_, Or.inl ⟨x, hkey.mp hmatch, ?_, rfl⟩⟩
        · simp only [findLevels, hupdate, Exec.ok_bind, Nodes.getNext_ok hc, hderef, if_pos hmatch,
            vecGet_ok hr, Nodes.getSpan_ok hc, hcount, hwrap]
          rfl
        · refine ⟨pre.length + p.length, ?_, rfl⟩
          rw [hsplit, ← List.append_assoc, ← List.length_append]
          simp
      · apply hpass
        · simp only [findLevels, hupdate, Exec.ok_bind, Nodes.getNext_ok hc, hderef, if_neg hmatch]
        · intro hi e he
          rw [hsplit, hfirst hi] at he
          cases he
          exact fun hk => hmatch (hkey.mpr hk)

theorem find_ok (h : Represents exact t l) (score : ℕ) (val : List Byte)
    (hlevel : 0 < t.mLevel ∨ ∀ e ∈ l, e.key ≠ keyOf score val) :
    ∃ node rank, t.find score val = .ok ((node, rank), t) ∧
      ((∃ e, e.key = keyOf score val ∧ At l e rank ∧ node = some e.node) ∨
        (∀ e ∈ l, e.key ≠ keyOf score val) ∧ node = none ∧ rank = 0) := by
  obtain ⟨pre, post, rfl, hpre, hpost⟩ := h.ordered.split (keyOf score val)
  have hlt := h.level
  obtain ⟨s, hupdate, hs⟩ := getUpdateVec_ok
    (h.places (Nat.le_of_lt hlt) (le_refl _) (fun hn => absurd hn (Nat.lt_irrefl _)) hpre hpost)
  obtain ⟨node, rank, hfind, hcase⟩ := findLevels_ok score val h hs t.mLevel (le_refl _)
  refine ⟨node, rank, ?_, ?_⟩
  · simp only [find, hupdate, Exec.ok_bind, hfind, hs.same rfl]
    rfl
  · rcases hcase with hfound | ⟨hnode, hrank, habsent⟩
    · exact Or.inl hfound
    · refine Or.inr ⟨?_, hnode, hrank⟩
      rcases hlevel with hpos | hnone
      · exact absent_of_head h.ordered hpre hpost (habsent hpos)
      · exact hnone

/-! ### Delete -/

section Delete
variable {x : Element} {nodes : Nodes}

theorem Represents.nodup_split (h : Represents exact t (pre ++ x :: post)) :
    (t.mHead :: (pre.map Element.node ++ x.node :: post.map Element.node)).Nodup := by
  have hnodup := h.nodup
  rwa [List.map_append, List.map_cons] at hnodup

theorem Represents.small_split (h : Represents exact t (pre ++ x :: post)) :
    (pre.map Element.node).length + (post.map Element.node).length + 1 < 4294967296 := by
  have hsmall := h.small
  rw [List.length_append, List.length_cons] at hsmall
  rw [List.length_map, List.length_map]
  omega

theorem narrowLevels_ok (h : Represents exact t (pre ++ x :: post))
    (hs : Walked exact t t.mLevel (pre.map Element.node) ((x :: post).map Element.node) 0 0 s) (n : ℕ)
    (hn : n ≤ t.mLevel) (hinfo : nodes.info = t.nodes.info)
    (hl : ∀ i, i < n →
      Linked exact (nodes.lane i) t.mHead 0 (pre.map Element.node ++ x.node :: post.map Element.node)) :
    ∃ b nodes', narrowLevels s x.node n nodes = .ok (b, nodes') ∧ b ≤ n ∧ nodes'.info = nodes.info ∧
      (∀ i, i < b → i ≤ x.lv) ∧
      (∀ i, b ≤ i → i < n →
        Linked exact (nodes'.lane i) t.mHead 0 (pre.map Element.node ++ post.map Element.node)) ∧
      ∀ i, (i < b ∨ n ≤ i) → nodes'.lane i = nodes.lane i := by
  induction n generalizing nodes with
  | zero =>
    exact ⟨0, nodes, rfl, le_refl 0, rfl, fun i hi => absurd hi (Nat.not_lt_zero i),
      fun i _ hi => absurd hi (Nat.not_lt_zero i), fun _ _ => rfl⟩
  | succ i ih =>
    have hlevel := h.level
    have hupdate := nodeAt_ok (hs.update i (Nat.zero_le i) (by omega))
    have hlinked := hl i (by omega)
    have hx : x ∈ pre ++ x :: post := by simp
    by_cases hon : i ≤ x.lv
    · have hsome : (nodes.lane i x.node).isSome = true := by
        rw [Nodes.lane_isSome_congr hinfo]
        exact (h.on_iff hx i).mpr hon
      have hc := (hlinked.holder_next hsome).1
      rw [lastBefore_eq hinfo] at hc
      refine ⟨i + 1, nodes, ?_, le_refl _, rfl, fun j hj => by omega, fun j h1 h2 => by omega,
        fun _ _ => rfl⟩
      simp only [narrowLevels, hupdate, Exec.ok_bind, Nodes.getNext_ok hc, if_true]
      rfl
    · have hnone : nodes.lane i x.node = none := by
        have hoff := (h.on_iff hx i).not.mpr hon
        rw [← Nodes.lane_isSome_congr hinfo] at hoff
        simpa using hoff
      obtain ⟨next, span, hc⟩ := link_lastBefore hinfo (h.head_on (show i < 256 by omega))
        (pre.map Element.node)
      have hrest := rest_lastBefore hinfo hlinked
      have hother : next ≠ some x.node := by
        intro he
        rw [he] at hc
        rcases hrest.next with ⟨span', hc', -⟩ | ⟨p, b, q, -, hc', -, hb, -⟩
        · rw [hc] at hc'
          cases hc'
        · rw [hc] at hc'
          cases hc'
          rw [hnone] at hb
          cases hb
      obtain ⟨nodes₁, hset, hwrites⟩ := Nodes.setSpan_ok hc (u32Sub span 1)
      have herased : Linked exact (nodes₁.lane i) t.mHead 0 (pre.map Element.node ++ post.map Element.node) := by
        rw [← lastBefore_eq hinfo] at hc hwrites
        apply hlinked.eraseOff h.nodup_split hnone hc hwrites.here
        · intro hcounts
          rw [lastBefore_eq hinfo] at hc
          obtain ⟨-, hle, hlt⟩ := hrest.span_le hc hcounts
          have hpos := hlt (List.cons_ne_nil _ _)
          have hsmall := h.small_split
          have hholder := t.lastBefore_le (pre.map Element.node) i
          rw [List.length_cons] at hle
          rw [u32Sub_of_le (by omega) (by omega)]
          omega
        · exact fun y _ hy => hwrites.beside y hy
      obtain ⟨b, nodes', hloop, hb, hinfo', hon', hnew, hsame⟩ := @ih nodes₁ (by omega)
        (hwrites.info.trans hinfo) fun j hj => by
          rw [hwrites.other j (by omega)]
          exact hl j (by omega)
      refine ⟨b, nodes', ?_, by omega, hinfo'.trans hwrites.info, hon', fun j h1 h2 => ?_, fun j hj => ?_⟩
      · simp only [narrowLevels, hupdate, Exec.ok_bind, Nodes.getNext_ok hc, if_neg hother,
          Nodes.getSpan_ok hc, hset, hloop]
      · by_cases he : j = i
        · rw [he, hsame i (Or.inr (le_refl i))]
          exact herased
        · exact hnew j h1 (by omega)
      · rw [hsame j (by omega), hwrites.other j (by omega)]

theorem unlinkLevel_ok (h : Represents exact t (pre ++ x :: post))
    (hs : Walked exact t t.mLevel (pre.map Element.node) ((x :: post).map Element.node) 0 0 s) {i : ℕ}
    (hi : i < t.mLevel) (hon : i ≤ x.lv) (hinfo : nodes.info = t.nodes.info)
    (hl : Linked exact (nodes.lane i) t.mHead 0 (pre.map Element.node ++ x.node :: post.map Element.node)) :
    ∃ nodes', unlinkLevel s x.node i nodes = .ok nodes' ∧ nodes'.info = nodes.info ∧
      Linked exact (nodes'.lane i) t.mHead 0 (pre.map Element.node ++ post.map Element.node) ∧
      ∀ j, j ≠ i → nodes'.lane j = nodes.lane j := by
  have hx : x ∈ pre ++ x :: post := by simp
  have hupdate := nodeAt_ok (hs.update i (Nat.zero_le i) hi)
  have hsome : (nodes.lane i x.node).isSome = true := by
    rw [Nodes.lane_isSome_congr hinfo]
    exact (h.on_iff hx i).mpr hon
  obtain ⟨⟨next, span⟩, hown⟩ := Option.isSome_iff_exists.mp hsome
  obtain ⟨hc, hrest⟩ := hl.holder_next hsome
  rw [lastBefore_eq hinfo] at hc
  have hne : x.node ≠ (t.lastBefore (pre.map Element.node) i).1 := by
    intro he
    have hmem := holder_mem (t.nodes.lane i) t.mHead 0 (pre.map Element.node)
    exact not_mem_of_nodup h.nodup_split hmem (he ▸ List.mem_cons_self)
  obtain ⟨nodes₁, hset1, hw1⟩ := Nodes.setNext_ok hc next
  have hown1 := (hw1.beside x.node hne).trans hown
  obtain ⟨nodes₂, hset2, hw2⟩ := Nodes.setNext_ok hown1 none
  have hc2 := (hw2.beside _ (Ne.symm hne)).trans hw1.here
  obtain ⟨nodes₃, hset3, hw3⟩ := Nodes.setSpan_ok hc2
    (u32Sub (u32 ((t.lastBefore (pre.map Element.node) i).2 + 1 + span)) 1)
  refine ⟨nodes₃, ?_, hw3.info.trans (hw2.info.trans hw1.info), ?_, fun j hj => ?_⟩
  · simp only [unlinkLevel, hupdate, Exec.ok_bind, Nodes.getNext_ok hown, hset1, hset2,
      Nodes.getSpan_ok hc2, Nodes.getSpan_ok hw2.here, hset3]
  · apply hl.eraseOn h.nodup_split hown
    · rw [lastBefore_eq hinfo]
      exact hw3.here
    · intro hcounts
      obtain ⟨-, hle, -⟩ := hrest.span_le hown hcounts
      have hsmall := h.small_split
      have hholder := t.lastBefore_le (pre.map Element.node) i
      rw [lastBefore_eq hinfo, u32_of_lt (by omega), u32Sub_of_le (by omega) (by omega)]
      omega
    · intro y hy hyc
      rw [lastBefore_eq hinfo] at hyc
      rw [hw3.beside y hyc, hw2.beside y hy, hw1.beside y hyc]
  · rw [hw3.other j hj, hw2.other j hj, hw1.other j hj]

/-- Where the loop that lowers `m_level_` comes to: the highest level that the head still uses,
or round to 255 when there is none. -/
def LowersTo (nodes : Nodes) (head n r : ℕ) : Prop :=
  (r < n ∧ ((nodes.lane r head).bind fun link => link.1) ≠ none ∧
      ∀ i, r < i → i < n → ((nodes.lane i head).bind fun link => link.1) = none) ∨
    r = 255 ∧ ∀ i, i < n → ((nodes.lane i head).bind fun link => link.1) = none

theorem LowersTo.lt {head n r : ℕ} (h : LowersTo nodes head n r) (hn : n ≤ 256) : r < 256 := by
  rcases h with ⟨hr, -⟩ | ⟨hr, -⟩
  · omega
  · omega

theorem LowersTo.none_above {head n r i : ℕ} (h : LowersTo nodes head n r) (hr : r < i) (hi : i < n) :
    ((nodes.lane i head).bind fun link => link.1) = none := by
  rcases h with ⟨-, -, habove⟩ | ⟨-, hall⟩
  · exact habove i hr hi
  · exact hall i hi

theorem lowerLevel_ok {head : ℕ} (n : ℕ) (hn : n ≤ 256)
    (hhead : ∀ i, i < n → (nodes.lane i head).isSome = true) :
    ∃ r, lowerLevel nodes head n ((n + 255) % 256) = .ok r ∧ LowersTo nodes head n r := by
  induction n with
  | zero => exact ⟨255, rfl, Or.inr ⟨rfl, fun i hi => absurd hi (Nat.not_lt_zero i)⟩⟩
  | succ i ih =>
    obtain ⟨⟨next, span⟩, hlane⟩ := Option.isSome_iff_exists.mp (hhead i (Nat.lt_succ_self i))
    have hcount : (i + 1 + 255) % 256 = i := by omega
    rw [hcount]
    by_cases hnext : next = none
    · subst hnext
      obtain ⟨r, hloop, hcase⟩ := ih (by omega) fun j hj => hhead j (by omega)
      refine ⟨r, ?_, ?_⟩
      · simp only [lowerLevel, Nodes.getNext_ok hlane, Exec.ok_bind, if_true, hloop]
      · have hi : ((nodes.lane i head).bind fun link => link.1) = none := by rw [hlane, Option.bind_some]
        rcases hcase with ⟨hr, hsome, habove⟩ | ⟨hr, hall⟩
        · refine Or.inl ⟨by omega, hsome, fun j h1 h2 => ?_⟩
          by_cases hj : j = i
          · rw [hj, hi]
          · exact habove j h1 (by omega)
        · refine Or.inr ⟨hr, fun j hj => ?_⟩
          by_cases hj' : j = i
          · rw [hj', hi]
          · exact hall j (by omega)
    · refine ⟨i, ?_, Or.inl ⟨Nat.lt_succ_self i, ?_, fun j h1 h2 => by omega⟩⟩
      · simp only [lowerLevel, Nodes.getNext_ok hlane, Exec.ok_bind, if_neg hnext]
        rfl
      · rw [hlane, Option.bind_some]
        exact hnext

/-- `m_level_` after a Delete that leaves `l`. -/
structure Lowered (t t' : SkipList) (l : List Element) : Prop where
  kept : t.top ≠ none → t'.mLevel = t.mLevel
  empty : t.top = none → l = [] → t'.mLevel = 255
  above : t.top = none → ∀ e ∈ l, e.lv ≤ t'.mLevel

theorem erase_lane (nodes : Nodes) {p y : ℕ} (hy : y ≠ p) (i : ℕ) :
    Nodes.lane (AList.erase p nodes) i y = nodes.lane i y := by
  rw [Nodes.lane, Nodes.lane, AList.lookup_erase_ne hy]

theorem erase_info (nodes : Nodes) {p y : ℕ} (hy : y ≠ p) :
    Nodes.info (AList.erase p nodes) y = nodes.info y := by
  rw [Nodes.info, Nodes.info, AList.lookup_erase_ne hy]

theorem Accurate.top_none {i : ℕ} (h : t.Accurate i) (hlevel : 0 < t.mLevel) (hi : t.mLevel ≤ i) :
    t.top = none := by
  rcases h with h | h | h
  · omega
  · omega
  · exact h

theorem Represents.linked_unused (h : Represents exact t l) (htop : t.top = none) {i : ℕ} (hlt : i < 256)
    (hi : t.mLevel ≤ i) : ∃ span, t.nodes.lane i t.mHead = some (none, span) := by
  obtain ⟨⟨next, span⟩, hlane⟩ := Option.isSome_iff_exists.mp (h.head_on hlt)
  have hlinked := h.lanes i hlt (Or.inr (Or.inr htop))
  have hnext : next = none := by
    apply (hlinked.next_none_iff hlane).mpr
    intro x hx
    obtain ⟨e, he, rfl⟩ := List.mem_map.mp hx
    have hbelow := h.below_top htop e he
    exact Nodes.lane_off (h.stored e he) (show e.lv + 1 ≤ i by omega)
  subst hnext
  exact ⟨span, hlane⟩

theorem unlinked_lanes (h : Represents exact t (pre ++ x :: post)) (hlevel : 0 < t.mLevel)
    (hused : ∀ i, i < t.mLevel →
      Linked False (nodes.lane i) t.mHead 0 (pre.map Element.node ++ post.map Element.node))
    (hrest : ∀ i, t.mLevel ≤ i → nodes.lane i = t.nodes.lane i) {i : ℕ} (hi : i < 256)
    (hacc : t.Accurate i) :
    Linked False (Nodes.lane (AList.erase x.node nodes) i) t.mHead 0 ((pre ++ post).map Element.node) := by
  have hnodup := h.nodup_split
  have hnot : ∀ y ∈ t.mHead :: (pre.map Element.node ++ post.map Element.node), y ≠ x.node := by
    have hperm : (t.mHead :: (pre.map Element.node ++ x.node :: post.map Element.node)).Perm
        (x.node :: t.mHead :: (pre.map Element.node ++ post.map Element.node)) :=
      (List.perm_middle.cons t.mHead).trans (List.Perm.swap _ _ _)
    intro y hy he
    rw [he] at hy
    exact (List.nodup_cons.mp (hperm.nodup_iff.mp hnodup)).1 hy
  rw [List.map_append]
  by_cases hlt : i < t.mLevel
  · exact (hused i hlt).congr fun y hy => erase_lane nodes (hnot y hy) i
  · have htop := hacc.top_none hlevel (not_lt.mp hlt)
    obtain ⟨span, hhead⟩ := h.linked_unused htop hi (not_lt.mp hlt)
    have hhead' : Nodes.lane (AList.erase x.node nodes) i t.mHead = some (none, span) := by
      rw [erase_lane nodes (hnot _ List.mem_cons_self), hrest i (not_lt.mp hlt), hhead]
    refine linked_of_none hhead' ?_ fun he => he.elim
    intro y hy
    rw [erase_lane nodes (hnot y (List.mem_cons_of_mem _ hy)), hrest i (not_lt.mp hlt)]
    rw [← List.map_append] at hy
    obtain ⟨e, he, rfl⟩ := List.mem_map.mp hy
    have hmem : e ∈ pre ++ x :: post := by
      rcases List.mem_append.mp he with he | he
      · exact List.mem_append_left _ he
      · exact List.mem_append_right _ (List.mem_cons_of_mem x he)
    have hbelow := h.below_top htop e hmem
    exact Nodes.lane_off (h.stored e hmem) (show e.lv + 1 ≤ i by omega)

theorem Represents.head_ne (h : Represents exact t (pre ++ x :: post)) : t.mHead ≠ x.node := by
  intro he
  exact (List.nodup_cons.mp h.nodup).1 (by simp [he])

theorem Represents.node_ne (h : Represents exact t (pre ++ x :: post)) {e : Element} (he : e ∈ pre ++ post) :
    e.node ≠ x.node := by
  intro heq
  have hnodup := (List.nodup_cons.mp h.nodup).2
  rw [(List.perm_middle.map Element.node).nodup_iff, List.map_cons] at hnodup
  exact (List.nodup_cons.mp hnodup).1 (heq ▸ List.mem_map_of_mem he)

theorem LowersTo.kept {r : ℕ} (h : LowersTo nodes t.mHead (t.mLevel + 1) r)
    (hrest : nodes.lane t.mLevel = t.nodes.lane t.mLevel) (htop : t.top ≠ none) : r = t.mLevel := by
  have hsome : ((nodes.lane t.mLevel t.mHead).bind fun link => link.1) ≠ none := by
    rw [hrest]
    exact htop
  rcases h with ⟨hr, -, habove⟩ | ⟨-, hall⟩
  · by_contra hne
    exact hsome (habove t.mLevel (by omega) (by omega))
  · exact absurd (hall t.mLevel (by omega)) hsome

theorem erased_represents (h : Represents exact t (pre ++ x :: post)) (hinfo : nodes.info = t.nodes.info)
    {r : ℕ} (hr : r < 256) {t' : SkipList} (ht' : t' = { t with
      nodes := AList.erase x.node nodes, mLevel := r, mLength := u32Sub t.mLength 1 })
    (hlanes : ∀ i, i < 256 → t'.Accurate i →
      Linked False (t'.nodes.lane i) t.mHead 0 ((pre ++ post).map Element.node)) :
    Represents False t' (pre ++ post) := by
  have hsub : (pre ++ post).Sublist (pre ++ x :: post) := (List.sublist_cons_self x post).append_left pre
  have hlength := h.length
  have hsmall := h.small
  rw [List.length_append, List.length_cons] at hlength hsmall
  subst ht'
  exact {
    head := by
      obtain ⟨info, hinfo', hlevels⟩ := h.head
      refine ⟨info, ?_, hlevels⟩
      show Nodes.info (AList.erase x.node nodes) t.mHead = some info
      rw [erase_info nodes h.head_ne, hinfo, hinfo']
    stored := fun e he => by
      show Nodes.info (AList.erase x.node nodes) e.node = _
      rw [erase_info nodes (h.node_ne he), hinfo]
      exact h.stored e (hsub.subset he)
    only := fun y hy => by
      by_cases hyx : y = x.node
      · rw [hyx] at hy
        simp [Nodes.info, AList.lookup_erase] at hy
      · have hy' : (Nodes.info (AList.erase x.node nodes) y).isSome = true := hy
        rw [erase_info nodes hyx, hinfo] at hy'
        rcases h.only y hy' with hy' | hy'
        · exact Or.inl hy'
        · rw [List.map_append, List.map_cons, List.mem_append, List.mem_cons] at hy'
          rw [List.map_append, List.mem_append]
          tauto
    nodup := h.nodup.sublist ((hsub.map Element.node).cons_cons t.mHead)
    ordered := h.ordered.erase
    low := fun e he => h.low e (hsub.subset he)
    length := by
      show u32Sub t.mLength 1 = _
      rw [u32Sub_of_le (by omega) (by omega), List.length_append]
      omega
    small := by
      rw [List.length_append]
      omega
    level := hr
    lanes := fun i hi ha => (hlanes i hi ha).weaken And.left }

theorem erased_lowered (h : Represents exact t (pre ++ x :: post)) (hinfo : nodes.info = t.nodes.info)
    (hrest : nodes.lane t.mLevel = t.nodes.lane t.mLevel)
    (hlanes : ∀ i, i < 256 → t.Accurate i →
      Linked False (Nodes.lane (AList.erase x.node nodes) i) t.mHead 0 ((pre ++ post).map Element.node))
    {t' : SkipList} (hlower : LowersTo nodes t.mHead (t.mLevel + 1) t'.mLevel) :
    Lowered t t' (pre ++ post) := by
  have hlt := h.level
  have hnext : ∀ i, ((Nodes.lane (AList.erase x.node nodes) i t.mHead).bind fun link => link.1)
      = ((nodes.lane i t.mHead).bind fun link => link.1) := fun i => by rw [erase_lane nodes h.head_ne]
  refine ⟨hlower.kept hrest, ?_, ?_⟩
  · intro htop hnil
    rcases hlower with ⟨hr, hsome, -⟩ | ⟨hr, -⟩
    · have hlinked := hlanes t'.mLevel (by omega) (Or.inr (Or.inr htop))
      rw [hnil] at hlinked
      obtain ⟨span, hspan, -⟩ := hlinked
      rw [← hnext, hspan] at hsome
      exact absurd rfl hsome
    · exact hr
  · intro htop e he
    have hmem := List.mem_append.mpr ((List.mem_append.mp he).imp id (List.mem_cons_of_mem x))
    have hbelow := h.below_top htop e hmem
    by_contra hgt
    have hnone := hlower.none_above (not_le.mp hgt) (by omega)
    have hon : (Nodes.lane (AList.erase x.node nodes) e.lv e.node).isSome = true := by
      rw [erase_lane nodes (h.node_ne he), Nodes.lane_isSome_congr hinfo]
      exact (h.on_iff hmem e.lv).mpr (le_refl _)
    rw [← hnext] at hnone
    rcases (hlanes e.lv (by omega) (Or.inr (Or.inr htop))).next with
      ⟨span, -, -, hall⟩ | ⟨p, b, q, -, hb, -⟩
    · rw [hall e.node (List.mem_map_of_mem he)] at hon
      cases hon
    · rw [hb] at hnone
      cases hnone

/-- The state that Delete leaves: the node is out of every level, and `m_level_` may have come
down on a level that is still in use. -/
theorem removed_represents (h : Represents exact t (pre ++ x :: post)) (hlevel : 0 < t.mLevel)
    (hinfo : nodes.info = t.nodes.info)
    (hused : ∀ i, i < t.mLevel →
      Linked False (nodes.lane i) t.mHead 0 (pre.map Element.node ++ post.map Element.node))
    (hrest : ∀ i, t.mLevel ≤ i → nodes.lane i = t.nodes.lane i) {r : ℕ}
    (hlower : LowersTo nodes t.mHead (t.mLevel + 1) r)
    {t' : SkipList} (ht' : t' = { t with
      nodes := AList.erase x.node nodes, mLevel := r, mLength := u32Sub t.mLength 1 }) :
    Represents False t' (pre ++ post) ∧ Lowered t t' (pre ++ post) := by
  have hlt := h.level
  have htoprest := hrest t.mLevel (le_refl _)
  have hlanes : ∀ i, i < 256 → t.Accurate i →
      Linked False (Nodes.lane (AList.erase x.node nodes) i) t.mHead 0 ((pre ++ post).map Element.node) :=
    fun i hi ha => unlinked_lanes h hlevel hused hrest hi ha
  have hacc : ∀ i, t'.Accurate i → t.Accurate i := by
    intro i hi
    by_cases htop : t.top = none
    · exact Or.inr (Or.inr htop)
    · have hkept := hlower.kept htoprest htop
      have htop' : t'.top = t.top := by
        rw [ht', top, top, hkept]
        show ((Nodes.lane (AList.erase x.node nodes) t.mLevel t.mHead).bind fun link => link.1) = _
        rw [erase_lane nodes h.head_ne, htoprest]
      rw [Accurate, htop', ht', hkept] at hi
      exact hi
  constructor
  · refine erased_represents h hinfo (hlower.lt (by omega)) ht' fun i hi ha => ?_
    rw [ht']
    exact hlanes i hi (hacc i ha)
  · have hr : t'.mLevel = r := by rw [ht']
    rw [← hr] at hlower
    exact erased_lowered h hinfo htoprest hlanes hlower

theorem delete_ok (h : Represents False t l) (score : ℕ) (val : List Byte) (hlevel : 0 < t.mLevel) :
    (∃ pre x post t', l = pre ++ x :: post ∧ (∀ e ∈ pre, e.key < keyOf score val) ∧
        x.key = keyOf score val ∧ t.delete score val = .ok (true, t') ∧
        Represents False t' (pre ++ post) ∧ Lowered t t' (pre ++ post) ∧ t'.mHead = t.mHead) ∨
      (∀ e ∈ l, e.key ≠ keyOf score val) ∧ t.delete score val = .ok (false, t) := by
  obtain ⟨pre, post, rfl, hpre, hpost⟩ := h.ordered.split (keyOf score val)
  have hlt := h.level
  obtain ⟨s, hvec, hs⟩ := getUpdateVec_ok
    (h.places (Nat.le_of_lt hlt) (le_refl _) (fun hn => absurd hn (Nat.lt_irrefl _)) hpre hpost)
  have hsame := hs.same rfl
  have hlanes : ∀ i, i < t.mLevel →
      Linked False (t.nodes.lane i) t.mHead 0 (pre.map Element.node ++ post.map Element.node) := by
    intro i hi
    rw [← hsame]
    exact hs.linked hi
  have hupdate := nodeAt_ok (hs.update 0 (le_refl 0) hlevel)
  have hrest := rest_lastBefore rfl (hlanes 0 hlevel)
  rcases h.next_level rfl hrest with ⟨span, hc, hempty⟩ | ⟨p, x, q, hsplit, hc, hfirst⟩
  · right
    constructor
    · apply absent_of_head h.ordered hpre hpost
      rw [hempty rfl]
      exact fun e he => by cases he
    · simp only [delete, hvec, Exec.ok_bind, hupdate, hsame, Nodes.getNext_ok hc]
      rfl
  · rw [hfirst rfl, List.nil_append] at hsplit
    subst hsplit
    obtain ⟨node, hderef, hkey⟩ := h.deref_key rfl (List.mem_append_right pre List.mem_cons_self) score val
    by_cases hmatch : node.mScore = score ∧ node.mVal = val
    · left
      obtain ⟨b, nodes₁, hnarrow, hb, hinfo1, hon, hnew, hold⟩ := narrowLevels_ok h hs t.mLevel (le_refl _)
        rfl hlanes
      obtain ⟨nodes₂, hunlink, hinfo2, hdone, hother⟩ := Nodes.forDown_ok
        (fun _ lane => Linked False lane t.mHead 0 (pre.map Element.node ++ x.node :: q.map Element.node))
        (fun _ lane => Linked False lane t.mHead 0 (pre.map Element.node ++ q.map Element.node)) 0 b
        (fun i nodes' _ hi hinfo hbefore => unlinkLevel_ok h hs (show i < t.mLevel by omega)
          (hon i (by omega)) (hinfo.trans hinfo1) hbefore)
        (fun i _ hi => by
          rw [hold i (Or.inl (by omega))]
          exact hlanes i (by omega))
      have hinfo := hinfo2.trans hinfo1
      obtain ⟨r, hlower, hcase⟩ := lowerLevel_ok (t.mLevel + 1) (show t.mLevel + 1 ≤ 256 by omega)
        (fun i hi => by
          rw [Nodes.lane_isSome_congr hinfo]
          exact h.head_on (show i < 256 by omega))
      rw [show (t.mLevel + 1 + 255) % 256 = t.mLevel by omega] at hlower
      have hused : ∀ i, i < t.mLevel →
          Linked False (nodes₂.lane i) t.mHead 0 (pre.map Element.node ++ q.map Element.node) := by
        intro i hi
        by_cases hib : i < b
        · exact hdone i (Nat.zero_le i) (by omega)
        · rw [hother i (by omega)]
          exact hnew i (by omega) hi
      have hbeyond : ∀ i, t.mLevel ≤ i → nodes₂.lane i = t.nodes.lane i := by
        intro i hi
        rw [hother i (by omega), hold i (Or.inr hi)]
      obtain ⟨hrep, hlow⟩ := removed_represents h hlevel hinfo hused hbeyond hcase rfl
      refine ⟨pre, x, q, _, rfl, hpre, hkey.mp hmatch, ?_, hrep, hlow, rfl⟩
      simp only [delete, hvec, Exec.ok_bind, hupdate, hsame, Nodes.getNext_ok hc, hderef, if_pos hmatch,
        hnarrow, hunlink, hlower]
      rfl
    · right
      constructor
      · apply absent_of_head h.ordered hpre hpost
        intro e he
        cases he
        exact fun hk => hmatch (hkey.mpr hk)
      · simp only [delete, hvec, Exec.ok_bind, hupdate, hsame, Nodes.getNext_ok hc, hderef, if_neg hmatch]
        rfl

end Delete

end SkipList

end DeftRpc.DataStruct
