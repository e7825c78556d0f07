import DeftRpc.DataStruct.SkipListLanes

/-!
# GetUpdateVec

Of every level the vectors get the last node before the place of a key, and its
position. The nodes before that place are `pre`, the others `post`.
-/

namespace DeftRpc.DataStruct
open DeftRpc.Foundation

namespace Nodes

def Ahead (nodes : Nodes) (score : ℕ) (val : List Byte) (x : ℕ) : Prop :=
  ∃ info, nodes.info x = some info ∧ info.Before score val

def Behind (nodes : Nodes) (score : ℕ) (val : List Byte) (x : ℕ) : Prop :=
  ∃ info, nodes.info x = some info ∧ ¬info.Before score val

theorem deref_ahead {nodes : Nodes} {score x : ℕ} {val : List Byte} (h : nodes.Ahead score val x) :
    ∃ node, nodes.deref x = .ok node ∧ node.Before score val := by
  obtain ⟨info, hinfo, hbefore⟩ := h
  obtain ⟨node, hnode, hs, hv⟩ := deref_ok hinfo
  refine ⟨node, hnode, ?_⟩
  unfold SkipListNode.Before
  rw [hs, hv]
  exact hbefore

theorem deref_behind {nodes : Nodes} {score x : ℕ} {val : List Byte} (h : nodes.Behind score val x) :
    ∃ node, nodes.deref x = .ok node ∧ ¬node.Before score val := by
  obtain ⟨info, hinfo, hbefore⟩ := h
  obtain ⟨node, hnode, hs, hv⟩ := deref_ok hinfo
  refine ⟨node, hnode, ?_⟩
  unfold SkipListNode.Before
  rw [hs, hv]
  exact hbefore

theorem length_le_entries {nodes : Nodes} {l : List ℕ} (hnodup : l.Nodup)
    (h : ∀ x ∈ l, (nodes.info x).isSome = true) : l.length ≤ nodes.entries.length := by
  have hsub : l ⊆ nodes.keys := by
    intro x hx
    have hx := h x hx
    rw [info, Option.isSome_map] at hx
    exact AList.mem_keys.mp (AList.lookup_isSome.mp hx)
  have hle := (hnodup.subperm hsub).length_le
  rwa [AList.keys, List.keys, List.length_map] at hle

end Nodes

/-! ### Vectors -/

theorem vecGet_ok {α : Type} {v : List α} {i : ℕ} {a : α} (h : v[i]? = some a) : vecGet v i = .ok a := by
  rw [vecGet, h]

theorem vecSet_ok {α : Type} {v : List α} {i : ℕ} (h : i < v.length) (a : α) :
    vecSet v i a = .ok (v.set i a) := if_pos h

theorem nodeAt_ok {update : List (Option ℕ)} {i p : ℕ} (h : update[i]? = some (some p)) :
    nodeAt update i = .ok p := by
  rw [nodeAt, vecGet_ok h]
  rfl

namespace SkipList

theorem walk_ok {exact : Prop} {nodes : Nodes} {score : ℕ} {val : List Byte} {i a d : ℕ} (rank turns : ℕ) {l post : List ℕ}
    (h : Linked exact (nodes.lane i) a d (l ++ post)) (hl : ∀ x ∈ l, nodes.Ahead score val x)
    (hpost : ∀ x ∈ post, nodes.Behind score val x) (hturns : l.length < turns)
    (hrank : rank + d + l.length < 4294967296) :
    ∃ r, walk nodes score val i turns a rank = .ok ((holder (nodes.lane i) a d l).1, r) ∧
      r + (holder (nodes.lane i) a d l).2 = rank + d + l.length := by
  induction l generalizing a d rank turns with
  | nil =>
    obtain ⟨turns, rfl⟩ := Nat.exists_eq_add_one_of_ne_zero (Nat.ne_of_gt hturns)
    refine ⟨rank, ?_, rfl⟩
    rcases Linked.next h with ⟨span, ha, -⟩ | ⟨p, b, q, hsplit, ha, -⟩
    · simp only [walk, Nodes.getNext_ok ha, Exec.ok_bind]
      rfl
    · have hb : b ∈ post := by
        rw [List.nil_append] at hsplit
        simp [hsplit]
      obtain ⟨node, hnode, hnot⟩ := Nodes.deref_behind (hpost b hb)
      simp only [walk, Nodes.getNext_ok ha, Exec.ok_bind, hnode, if_neg hnot]
      rfl
  | cons b l ih =>
    have hl' : ∀ x ∈ l, nodes.Ahead score val x := fun x hx => hl x (List.mem_cons_of_mem b hx)
    rw [List.length_cons] at hturns hrank ⊢
    rw [List.cons_append] at h
    by_cases hb : (nodes.lane i b).isSome = true
    · obtain ⟨turns, rfl⟩ := Nat.exists_eq_add_one_of_ne_zero (Nat.ne_of_gt (Nat.zero_lt_of_lt hturns))
      obtain ⟨ha, hrest⟩ := (linked_on hb).mp h
      obtain ⟨node, hnode, hbefore⟩ := Nodes.deref_ahead (hl b List.mem_cons_self)
      have hwrap : u32 (rank + (d + 1)) = rank + (d + 1) := u32_of_lt (by omega)
      obtain ⟨r, hwalk, hr⟩ := ih (rank + (d + 1)) turns hrest hl' (by omega) (by omega)
      refine ⟨r, ?_, ?_⟩
      · simp only [walk, Nodes.getNext_ok ha, Exec.ok_bind, hnode, if_pos hbefore, Nodes.getSpan_ok ha,
          hwrap, hwalk, holder_on hb]
      · rw [holder_on hb, hr]
        omega
    · obtain ⟨r, hwalk, hr⟩ := ih rank turns ((linked_off hb).mp h) hl' (by omega) (by omega)
      rw [holder_off hb]
      exact ⟨r, hwalk, by omega⟩

/-- The list around the place of a key, as far as `size` levels of it are used. With `exact` the
last node of a level in use counts the nodes behind it. -/
structure Places (exact : Prop) (t : SkipList) (score : ℕ) (val : List Byte) (size : ℕ)
    (pre post : List ℕ) : Prop where
  head : ∃ info, t.nodes.info t.mHead = some info ∧ info.levels = 256
  size_le : size ≤ 256
  level_le : t.mLevel ≤ size
  ahead : ∀ x ∈ pre, t.nodes.Ahead score val x
  behind : ∀ x ∈ post, t.nodes.Behind score val x
  nodup : (t.mHead :: (pre ++ post)).Nodup
  length : pre.length < 4294967296
  lanes : ∀ i, i < size → Linked (exact ∧ i < t.mLevel) (t.nodes.lane i) t.mHead 0 (pre ++ post)
  counted : exact → t.mLength = (pre ++ post).length
  unused : ∀ i, t.mLevel ≤ i → ∀ x ∈ pre ++ post, i < size → t.nodes.lane i x = none

/-- The last node before the place and the number of nodes between, on one level. -/
def lastBefore (t : SkipList) (pre : List ℕ) (i : ℕ) : ℕ × ℕ := holder (t.nodes.lane i) t.mHead 0 pre

/-- The levels from `n` on are done, and `rank` is still zero below `m`. -/
structure Walked (exact : Prop) (t : SkipList) (size : ℕ) (pre post : List ℕ) (n m : ℕ) (s : UpdateVec) :
    Prop where
  info : s.nodes.info = t.nodes.info
  lanes : ∀ i, i < size →
    Linked (exact ∧ (i < t.mLevel ∨ m ≤ i)) (s.nodes.lane i) t.mHead 0 (pre ++ post)
  beyond : ∀ i, size ≤ i → s.nodes.lane i = t.nodes.lane i
  same : size = t.mLevel → s.nodes = t.nodes
  update_length : s.update.length = size
  rank_length : s.rank.length = size
  update : ∀ i, n ≤ i → i < size → s.update[i]? = some (some (t.lastBefore pre i).1)
  rank : ∀ i, n ≤ i → i < size → ∃ r, s.rank[i]? = some r ∧ r + (t.lastBefore pre i).2 = pre.length
  fresh : ∀ i, i < m → s.rank[i]? = some 0
  header : s.header = if n < size then (t.lastBefore pre n).1 else t.mHead

section Loop
variable {exact : Prop} {t : SkipList} {score : ℕ} {val : List Byte} {size : ℕ} {pre post : List ℕ} {s : UpdateVec} {i : ℕ}

theorem Places.head_on (h : Places exact t score val size pre post) (hi : i < size) :
    (t.nodes.lane i t.mHead).isSome = true := by
  obtain ⟨info, hinfo, hlevels⟩ := h.head
  have hle := h.size_le
  exact (Nodes.lane_isSome hinfo i).mpr (by omega)

theorem Walked.header_top (h : Places exact t score val size pre post) (hs : Walked exact t size pre post (i + 1) (i + 1) s)
    (htop : t.mLevel ≤ i + 1 ∨ i + 1 = size) : s.header = t.mHead := by
  have hheader := hs.header
  split at hheader
  · next hlt =>
    have hnone : ∀ x ∈ pre, t.nodes.lane (i + 1) x = none := fun x hx =>
      h.unused (i + 1) (by omega) x (List.mem_append_left post hx) hlt
    rw [hheader, lastBefore, holder_of_none hnone]
  · exact hheader

theorem Walked.set_rank (hs : Walked exact t size pre post (i + 1) (i + 1) s) (hi : i < t.mLevel) (r : ℕ) :
    Walked exact t size pre post (i + 1) i { s with rank := s.rank.set i r } :=
  { hs with
    lanes := fun j hj => by
      apply (hs.lanes j hj).weaken
      intro he
      exact ⟨he.1, by omega⟩
    rank_length := List.length_set.trans hs.rank_length
    rank := fun j h1 h2 => by
      rw [List.getElem?_set_ne (by omega)]
      exact hs.rank j h1 h2
    fresh := fun j hj => by
      rw [List.getElem?_set_ne (by omega)]
      exact hs.fresh j (by omega) }

/-- A level that the list does not use yet: the head spans all of it. -/
theorem Walked.new_level (h : Places exact t score val size pre post) (hi : i < size) (hnew : t.mLevel ≤ i)
    (hs : Walked exact t size pre post (i + 1) (i + 1) s) :
    ∃ nodes', s.nodes.setSpan t.mHead i t.mLength = .ok nodes' ∧
      Walked exact t size pre post (i + 1) i { s with nodes := nodes', rank := s.rank.set i 0 } := by
  obtain ⟨⟨next, span⟩, hlane⟩ : ∃ link, s.nodes.lane i t.mHead = some link := by
    apply Option.isSome_iff_exists.mp
    rw [Nodes.lane_isSome_congr hs.info]
    exact h.head_on hi
  obtain ⟨nodes', hspan, hwrites⟩ := Nodes.setSpan_ok hlane t.mLength
  have hnone : ∀ x ∈ pre ++ post, s.nodes.lane i x = none := by
    intro x hx
    have hx' := h.unused i hnew x hx hi
    have hcongr := Nodes.lane_isSome_congr hs.info i x
    rw [hx', Option.isSome_none] at hcongr
    simpa using hcongr
  have hnext : next = none := ((hs.lanes i hi).next_none_iff hlane).mpr hnone
  subst hnext
  refine ⟨nodes', hspan, ?_⟩
  exact {
    info := hwrites.info.trans hs.info
    lanes := fun j hj => by
      by_cases hj' : j = i
      · subst hj'
        apply linked_of_none hwrites.here
        · intro x hx
          have hne : x ≠ t.mHead := by
            intro he
            rw [he] at hx
            exact (List.nodup_cons.mp h.nodup).1 hx
          rw [hwrites.beside x hne, hnone x hx]
        · intro he
          rw [Nat.zero_add]
          exact h.counted he.1
      · rw [hwrites.other j hj']
        apply (hs.lanes j hj).weaken
        intro he
        exact ⟨he.1, by omega⟩
    beyond := fun j hj => by
      rw [hwrites.other j (by omega)]
      exact hs.beyond j hj
    same := fun he => by omega
    update_length := hs.update_length
    rank_length := List.length_set.trans hs.rank_length
    update := hs.update
    rank := fun j h1 h2 => by
      rw [List.getElem?_set_ne (by omega)]
      exact hs.rank j h1 h2
    fresh := fun j hj => by
      rw [List.getElem?_set_ne (by omega)]
      exact hs.fresh j (by omega)
    header := hs.header }

theorem lane_isSome_below {x : ℕ} (hon : (t.nodes.lane (i + 1) x).isSome = true) :
    (t.nodes.lane i x).isSome = true := by
  cases hinfo : t.nodes.info x with
  | none =>
    rw [Nodes.lane_none hinfo] at hon
    cases hon
  | some info =>
    have hlt := (Nodes.lane_isSome hinfo (i + 1)).mp hon
    exact (Nodes.lane_isSome hinfo i).mpr (by omega)

theorem startLevel_ok (h : Places exact t score val size pre post) (hi : i < size)
    (hs : Walked exact t size pre post (i + 1) (i + 1) s) :
    ∃ s' p q, t.startLevel size i s = .ok s' ∧ Walked exact t size pre post (i + 1) i s' ∧
      t.mHead :: pre = p ++ s'.header :: q ∧ (t.nodes.lane i s'.header).isSome = true ∧
      s'.rank[i]? = some p.length := by
  have hlen := hs.rank_length
  have hset : ∀ r, vecSet s.rank i r = .ok (s.rank.set i r) := fun r => vecSet_ok (by omega) r
  have hget : ∀ r, (s.rank.set i r)[i]? = some r := fun r => by
    rw [List.getElem?_set_self (by omega)]
  unfold startLevel
  by_cases hnew : t.mLevel ≤ i
  · have hheader : s.header = t.mHead := hs.header_top h (Or.inl (by omega))
    obtain ⟨nodes', hspan, hwalked⟩ := hs.new_level h hi hnew
    rw [← hheader] at hspan
    simp only [if_pos hnew, hset, Exec.ok_bind, hspan]
    exact ⟨_, [], pre, rfl, hwalked, by rw [hheader]; rfl, by rw [hheader]; exact h.head_on hi, hget 0⟩
  · rw [if_neg hnew]
    by_cases htop : i + 1 = t.mLevel ∨ i + 1 = size
    · have hheader : s.header = t.mHead := hs.header_top h (by omega)
      simp only [if_pos htop, hset, Exec.ok_bind]
      refine ⟨_, [], pre, rfl, hs.set_rank (by omega) 0, by rw [hheader]; rfl, by rw [hheader]; exact h.head_on hi,
        hget 0⟩
    · have hlevel := h.level_le
      obtain ⟨r, hr, hrank⟩ := hs.rank (i + 1) (le_refl _) (by omega)
      obtain ⟨p, q, hsplit, hq⟩ := holder_position (t.nodes.lane (i + 1)) t.mHead pre
      have hheader : s.header = (t.lastBefore pre (i + 1)).1 := by
        rw [hs.header, if_pos (by omega)]
      have hposition : r = p.length := by
        have hcount := congrArg List.length hsplit
        rw [List.length_append, List.length_cons, List.length_cons] at hcount
        rw [lastBefore] at hrank
        omega
      simp only [if_neg htop, vecGet_ok (hs.fresh i (by omega)), Exec.ok_bind,
        if_pos (show 0 < t.mLevel by omega), vecGet_ok hr, hset]
      refine ⟨_, p, q, rfl, hs.set_rank (by omega) r, ?_, ?_, by rw [hget, hposition]⟩
      · rw [hheader]
        exact hsplit
      · apply lane_isSome_below
        rw [hheader]
        exact holder_isSome (h.head_on (by omega)) 0 pre

theorem updateLevel_ok (h : Places exact t score val size pre post) (hi : i < size)
    (hs : Walked exact t size pre post (i + 1) (i + 1) s) :
    ∃ s', t.updateLevel score val size i s = .ok s' ∧ Walked exact t size pre post i i s' := by
  obtain ⟨s1, p, q, hstart, h1, hsplit, hon, hrank⟩ := startLevel_ok h hi hs
  have hcount : p.length + q.length = pre.length := by
    have hlength := congrArg List.length hsplit
    rw [List.length_append, List.length_cons, List.length_cons] at hlength
    omega
  have hq : ∀ x ∈ q, x ∈ pre := by
    intro x hx
    cases p with
    | nil =>
      have he : pre = q := (List.cons_eq_cons.mp hsplit).2
      rwa [he]
    | cons b p =>
      have he : pre = p ++ s1.header :: q := (List.cons_eq_cons.mp hsplit).2
      simp [he, hx]
  have hahead : ∀ x ∈ q, s1.nodes.Ahead score val x := fun x hx => by
    rw [Nodes.Ahead, h1.info]
    exact h.ahead x (hq x hx)
  have hbehind : ∀ x ∈ post, s1.nodes.Behind score val x := fun x hx => by
    rw [Nodes.Behind, h1.info]
    exact h.behind x hx
  have hstored : pre.length ≤ s1.nodes.entries.length := by
    have hnodup := (List.nodup_append.mp (List.nodup_cons.mp h.nodup).2).1
    apply Nodes.length_le_entries hnodup
    intro x hx
    obtain ⟨info, hinfo, -⟩ := h.ahead x hx
    rw [h1.info, hinfo, Option.isSome_some]
  rw [← Nodes.lane_isSome_congr h1.info] at hon
  obtain ⟨hlinked, hholder⟩ := (h1.lanes i hi).suffix hsplit hon
  have hlength := h.length
  obtain ⟨r, hwalk, hr⟩ := walk_ok p.length (s1.nodes.entries.length + 1) hlinked hahead
    hbehind (by omega) (by omega)
  rw [← hholder, Nodes.holder_eq h1.info] at hwalk hr
  have hulen := h1.update_length
  have hrlen := h1.rank_length
  simp only [updateLevel, hstart, Exec.ok_bind, vecGet_ok hrank, hwalk,
    vecSet_ok (show i < s1.rank.length by omega), vecSet_ok (show i < s1.update.length by omega)]
  refine ⟨_, rfl, ?_⟩
  exact {
    info := h1.info
    lanes := h1.lanes
    beyond := h1.beyond
    same := h1.same
    update_length := List.length_set.trans hulen
    rank_length := List.length_set.trans hrlen
    update := fun j hij hj => by
      by_cases he : j = i
      · rw [he, List.getElem?_set_self (by omega)]
        rfl
      · rw [List.getElem?_set_ne (Ne.symm he)]
        exact h1.update j (by omega) hj
    rank := fun j hij hj => by
      by_cases he : j = i
      · rw [he]
        refine ⟨r, List.getElem?_set_self (by omega), ?_⟩
        rw [lastBefore, hr]
        omega
      · rw [List.getElem?_set_ne (Ne.symm he)]
        exact h1.rank j (by omega) hj
    fresh := fun j hj => by
      rw [List.getElem?_set_ne (by omega)]
      exact h1.fresh j hj
    header := by
      rw [if_pos hi]
      rfl }

theorem updateLoop_ok (h : Places exact t score val size pre post) (n : ℕ) (hn : n ≤ size)
    (hs : Walked exact t size pre post n n s) :
    ∃ s', forDown (t.updateLevel score val size) 0 n s = .ok s' ∧ Walked exact t size pre post 0 0 s' := by
  induction n generalizing s with
  | zero => exact ⟨s, rfl, hs⟩
  | succ n ih =>
    obtain ⟨s1, hlevel, h1⟩ := updateLevel_ok h (by omega) hs
    obtain ⟨s2, hloop, h2⟩ := ih (by omega) h1
    refine ⟨s2, ?_, h2⟩
    simp only [forDown, Nat.zero_add, hlevel, Exec.ok_bind, hloop]

theorem Walked.linked (hs : Walked exact t size pre post 0 0 s) {i : ℕ} (hi : i < size) :
    Linked exact (s.nodes.lane i) t.mHead 0 (pre ++ post) :=
  (hs.lanes i hi).weaken fun he => ⟨he, Or.inr (Nat.zero_le i)⟩

theorem getUpdateVec_ok (h : Places exact t score val size pre post) :
    ∃ s, t.getUpdateVec score val size = .ok s ∧ Walked exact t size pre post 0 0 s := by
  apply updateLoop_ok h size (le_refl _)
  exact {
    info := rfl
    lanes := fun i hi => by
      apply (h.lanes i hi).weaken
      intro he
      exact ⟨he.1, by omega⟩
    beyond := fun _ _ => rfl
    same := fun _ => rfl
    update_length := List.length_replicate
    rank_length := List.length_replicate
    update := fun i h1 h2 => by omega
    rank := fun i h1 h2 => by omega
    fresh := fun i hi => by rw [List.getElem?_replicate, if_pos hi]
    header := by rw [if_neg (Nat.lt_irrefl _)] }

end Loop

end SkipList

end DeftRpc.DataStruct
