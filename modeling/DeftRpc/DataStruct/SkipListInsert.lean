import DeftRpc.DataStruct.SkipListOps

/-!
# Insert on the elements

The new node is stored first; it is on no lane of the list until its levels are linked.
-/

namespace DeftRpc.DataStruct
open DeftRpc.Foundation

namespace SkipList
variable {exact : Prop} {t : SkipList} {score lv addr : ℕ} {val : List Byte} {s : UpdateVec} {nodes : Nodes}

/-! ### The levels of a new node -/

section Levels
variable {size : ℕ} {pre post : List ℕ}

theorem Places.link (h : Places exact t score val size pre post) (hinfo : nodes.info = t.nodes.info) {i : ℕ}
    (hi : i < size) : ∃ next span, nodes.lane i (t.lastBefore pre i).1 = some (next, span) :=
  link_lastBefore hinfo (h.head_on hi) pre

theorem span_bounds (hinfo : nodes.info = t.nodes.info) {i span : ℕ} {next : Option ℕ}
    (hl : Linked exact (nodes.lane i) t.mHead 0 (pre ++ post))
    (hc : nodes.lane i (t.lastBefore pre i).1 = some (next, span)) (hcounts : next ≠ none ∨ exact) :
    (t.lastBefore pre i).2 ≤ span ∧ span ≤ pre.length + post.length := by
  obtain ⟨hle, hle', -⟩ := (rest_lastBefore hinfo hl).span_le hc hcounts
  have hholder := t.lastBefore_le pre i
  omega

theorem widenLevel_ok (h : Places exact t score val size pre post) (hs : Walked exact t size pre post 0 0 s)
    (hnew : t.nodes.info addr = some ⟨score, val, lv + 1⟩) (hfree : addr ∉ t.mHead :: (pre ++ post))
    (hsmall : pre.length + post.length + 1 < 4294967296) {i : ℕ} (hi : i < size) (hlv : lv < i)
    (hinfo : nodes.info = t.nodes.info) (hl : Linked exact (nodes.lane i) t.mHead 0 (pre ++ post)) :
    ∃ nodes', widenLevel s i nodes = .ok nodes' ∧ nodes'.info = nodes.info ∧
      Linked exact (nodes'.lane i) t.mHead 0 (pre ++ addr :: post) ∧
      ∀ j, j ≠ i → nodes'.lane j = nodes.lane j := by
  have hupdate := nodeAt_ok (hs.update i (Nat.zero_le i) hi)
  obtain ⟨next, span, hc⟩ := h.link hinfo hi
  obtain ⟨nodes', hset, hw⟩ := Nodes.setSpan_ok hc (u32 (span + 1))
  refine ⟨nodes', ?_, hw.info, ?_, hw.other⟩
  · simp only [widenLevel, hupdate, Exec.ok_bind, Nodes.getSpan_ok hc, hset]
  · have hstored : nodes'.info addr = some ⟨score, val, lv + 1⟩ := by rw [hw.info, hinfo, hnew]
    have hoff : nodes'.lane i addr = none := Nodes.lane_off hstored hlv
    have hspan : next ≠ none ∨ exact → u32 (span + 1) = span + 1 := by
      intro hcounts
      have hbounds := span_bounds hinfo hl hc hcounts
      exact u32_of_lt (by omega)
    rw [← lastBefore_eq hinfo] at hc hw
    exact hl.insertOff h.nodup hfree hc hw.here hoff hspan fun y _ hy => hw.beside y hy

theorem linkLevel_ok (h : Places exact t score val size pre post) (hs : Walked exact t size pre post 0 0 s)
    (hnew : t.nodes.info addr = some ⟨score, val, lv + 1⟩) (hfree : addr ∉ t.mHead :: (pre ++ post))
    (hsmall : pre.length + post.length + 1 < 4294967296)
    (hlow : ∀ x ∈ pre, (t.nodes.lane 0 x).isSome = true) {i : ℕ} (hi : i < size) (hlv : i ≤ lv)
    (hinfo : nodes.info = t.nodes.info) (hl : Linked exact (nodes.lane i) t.mHead 0 (pre ++ post)) :
    ∃ nodes', linkLevel s addr i nodes = .ok nodes' ∧ nodes'.info = nodes.info ∧
      Linked exact (nodes'.lane i) t.mHead 0 (pre ++ addr :: post) ∧
      ∀ j, j ≠ i → nodes'.lane j = nodes.lane j := by
  have hupdate := nodeAt_ok (hs.update i (Nat.zero_le i) hi)
  obtain ⟨next, span, hc⟩ := h.link hinfo hi
  obtain ⟨⟨own, ownSpan⟩, ha⟩ : ∃ link, nodes.lane i addr = some link := by
    apply Option.isSome_iff_exists.mp
    rw [Nodes.lane_isSome_congr hinfo]
    exact (Nodes.lane_isSome hnew i).mpr (Nat.lt_succ_of_le hlv)
  have hne : addr ≠ (t.lastBefore pre i).1 := by
    intro he
    have hmem := holder_mem (t.nodes.lane i) t.mHead 0 pre
    rw [lastBefore] at he
    rw [← he, List.mem_cons] at hmem
    rw [List.mem_cons, List.mem_append] at hfree
    tauto
  -- the four writes of a turn
  obtain ⟨nodes₁, hset1, hw1⟩ := Nodes.setNext_ok hc (some addr)
  have ha1 := (hw1.beside addr hne).trans ha
  obtain ⟨nodes₂, hset2, hw2⟩ := Nodes.setNext_ok ha1 next
  have hc2 := (hw2.beside _ (Ne.symm hne)).trans hw1.here
  obtain ⟨r0, hr0, hrank0⟩ := hs.rank 0 (le_refl 0) (by omega)
  obtain ⟨r, hr, hrank⟩ := hs.rank i (Nat.zero_le i) hi
  have hzero : (t.lastBefore pre 0).2 = 0 := holder_all hlow t.mHead
  have hbehind : u32Sub r0 r = (t.lastBefore pre i).2 := by
    rw [u32Sub_of_le (by omega) (by omega)]
    omega
  obtain ⟨nodes₃, hset3, hw3⟩ := Nodes.setSpan_ok hw2.here (u32Sub span (t.lastBefore pre i).2)
  have hc3 := (hw3.beside _ (Ne.symm hne)).trans hc2
  obtain ⟨nodes₄, hset4, hw4⟩ := Nodes.setSpan_ok hc3 (u32 (1 + (t.lastBefore pre i).2))
  have hholder := t.lastBefore_le pre i
  refine ⟨nodes₄, ?_, hw4.info.trans (hw3.info.trans (hw2.info.trans hw1.info)), ?_, fun j hj => ?_⟩
  · simp only [linkLevel, hupdate, Exec.ok_bind, hset1, hset2, vecGet_ok hr0, vecGet_ok hr,
      Nodes.getSpan_ok hc2, hbehind, hset3, hset4]
  · have hspan : next ≠ none ∨ exact →
        u32Sub span (t.lastBefore pre i).2 + (t.lastBefore pre i).2 = span := by
      intro hcounts
      have hbounds := span_bounds hinfo hl hc hcounts
      rw [u32Sub_of_le (by omega) (by omega)]
      omega
    have hc4 : nodes₄.lane i (t.lastBefore pre i).1 = some (some addr, (t.lastBefore pre i).2 + 1) := by
      rw [hw4.here, u32_of_lt (by omega), Nat.add_comm]
    have ha4 := (hw4.beside addr hne).trans hw3.here
    rw [← lastBefore_eq hinfo] at hc hc4
    apply hl.insertOn h.nodup hfree hc hc4 ha4
    · rw [lastBefore_eq hinfo]
      exact hspan
    · intro y hy hyc
      rw [lastBefore_eq hinfo] at hyc
      rw [hw4.beside y hyc, hw3.beside y hy, hw2.beside y hy, hw1.beside y hyc]
  · rw [hw4.other j hj, hw3.other j hj, hw2.other j hj, hw1.other j hj]

/-- The two loops put the new node on every level in use, and leave the others as they are. -/
theorem insertLevels_ok (h : Places exact t score val size pre post) (hs : Walked exact t size pre post 0 0 s)
    (hnew : t.nodes.info addr = some ⟨score, val, lv + 1⟩) (hfree : addr ∉ t.mHead :: (pre ++ post))
    (hsmall : pre.length + post.length + 1 < 4294967296)
    (hlow : ∀ x ∈ pre, (t.nodes.lane 0 x).isSome = true) {n : ℕ} (hn : (lv + 1) + n = size) :
    ∃ nodes₁ nodes₂, forDown (widenLevel s) (lv + 1) n s.nodes = .ok nodes₁ ∧
      forDown (linkLevel s addr) 0 (lv + 1) nodes₁ = .ok nodes₂ ∧ nodes₂.info = t.nodes.info ∧
      (∀ i, i < size → Linked exact (nodes₂.lane i) t.mHead 0 (pre ++ addr :: post)) ∧
      ∀ i, size ≤ i → nodes₂.lane i = t.nodes.lane i := by
  obtain ⟨nodes₁, hwiden, hinfo1, hdone1, hother1⟩ := Nodes.forDown_ok
    (fun _ lane => Linked exact lane t.mHead 0 (pre ++ post))
    (fun _ lane => Linked exact lane t.mHead 0 (pre ++ addr :: post)) (lv + 1) n
    (fun i nodes' h1 h2 hinfo hbefore => widenLevel_ok h hs hnew hfree hsmall (show i < size by omega)
      (by omega) (hinfo.trans hs.info) hbefore)
    (fun i _ hi => hs.linked (show i < size by omega))
  obtain ⟨nodes₂, hlink, hinfo2, hdone2, hother2⟩ := Nodes.forDown_ok
    (fun _ lane => Linked exact lane t.mHead 0 (pre ++ post))
    (fun _ lane => Linked exact lane t.mHead 0 (pre ++ addr :: post)) 0 (lv + 1)
    (fun i nodes' _ h2 hinfo hbefore => linkLevel_ok h hs hnew hfree hsmall hlow (show i < size by omega)
      (by omega) ((hinfo.trans hinfo1).trans hs.info) hbefore)
    (fun i _ hi => by
      rw [hother1 i (Or.inl (by omega))]
      exact hs.linked (show i < size by omega))
  refine ⟨nodes₁, nodes₂, hwiden, hlink, hinfo2.trans (hinfo1.trans hs.info), ?_, ?_⟩
  · intro i hi
    by_cases hlow' : i < lv + 1
    · exact hdone2 i (Nat.zero_le i) (by omega)
    · rw [hother2 i (by omega)]
      exact hdone1 i (by omega) (by omega)
  · intro i hi
    rw [hother2 i (by omega), hother1 i (by omega), hs.beyond i hi]

end Levels

/-! ### The new list -/

section Added
variable {l pre post : List Element}

def stored (t : SkipList) (score : ℕ) (val : List Byte) (lv addr : ℕ) : SkipList :=
  { t with nodes := AList.insert addr (SkipListNode.make score val lv) t.nodes }

theorem stored_lane {y : ℕ} (hy : y ≠ addr) (i : ℕ) :
    (t.stored score val lv addr).nodes.lane i y = t.nodes.lane i y := by
  rw [stored, Nodes.lane, Nodes.lane, AList.lookup_insert_ne hy]

theorem stored_info {y : ℕ} (hy : y ≠ addr) :
    (t.stored score val lv addr).nodes.info y = t.nodes.info y := by
  rw [stored, Nodes.info, Nodes.info, AList.lookup_insert_ne hy]

theorem stored_new : (t.stored score val lv addr).nodes.info addr = some ⟨score, val, lv + 1⟩ := by
  rw [stored, Nodes.info, AList.lookup_insert, SkipListNode.make, Option.map_some, List.length_replicate]

theorem Places.stored {size : ℕ} {pre post : List ℕ} (h : Places exact t score val size pre post)
    (hfree : addr ∉ t.mHead :: (pre ++ post)) :
    Places exact (t.stored score val lv addr) score val size pre post := by
  have hne : ∀ x ∈ t.mHead :: (pre ++ post), x ≠ addr := by
    intro x hx he
    rw [he] at hx
    exact hfree hx
  have hmem : ∀ x ∈ pre ++ post, x ≠ addr := fun x hx => hne x (List.mem_cons_of_mem _ hx)
  exact {
    head := by
      obtain ⟨info, hinfo, hlevels⟩ := h.head
      exact ⟨info, (stored_info (hne _ List.mem_cons_self)).trans hinfo, hlevels⟩
    size_le := h.size_le
    level_le := h.level_le
    ahead := fun x hx => by
      rw [Nodes.Ahead, stored_info (hmem x (List.mem_append_left post hx))]
      exact h.ahead x hx
    behind := fun x hx => by
      rw [Nodes.Behind, stored_info (hmem x (List.mem_append_right pre hx))]
      exact h.behind x hx
    nodup := h.nodup
    length := h.length
    lanes := fun i hi => (h.lanes i hi).congr fun y hy => stored_lane (hne y hy) i
    counted := h.counted
    unused := fun i hi x hx hsize => by
      rw [stored_lane (hmem x hx)]
      exact h.unused i hi x hx hsize }

theorem added_represents (h : Represents exact t (pre ++ post)) (hfree : addr ∉ t.mHead :: (pre ++ post).map Element.node)
    (hlv : lv < 255) (hsmall : (pre ++ post).length + 1 < 4294967296)
    (hlevel : lv < t.mLevel ∨ t.top = none) (hpre : ∀ e ∈ pre, e.key < keyOf score val)
    (hpost : ∀ e ∈ post, keyOf score val ≤ e.key) {size : ℕ}
    (hsize : size = if t.mLevel ≤ lv then lv + 1 else t.mLevel)
    (hinfo : nodes.info = (t.stored score val lv addr).nodes.info)
    (hused : ∀ i, i < size →
      Linked exact (nodes.lane i) t.mHead 0 (pre.map Element.node ++ addr :: post.map Element.node))
    (hbeyond : ∀ i, size ≤ i → nodes.lane i = (t.stored score val lv addr).nodes.lane i) {t' : SkipList}
    (hnodes : t'.nodes = nodes) (hhead : t'.mHead = t.mHead) (hlevel' : t'.mLevel = size)
    (hlength : t'.mLength = t.mLength + 1) : Represents exact t' (pre ++ ⟨addr, score, val, lv⟩ :: post) := by
  have hlt := h.level
  have hsz : t.mLevel ≤ size ∧ lv < size ∧ size < 256 := by
    rw [hsize]
    split <;> omega
  have hne : ∀ x ∈ t.mHead :: (pre ++ post).map Element.node, x ≠ addr := by
    intro x hx he
    rw [he] at hx
    exact hfree hx
  have hheadne : t.mHead ≠ addr := hne _ List.mem_cons_self
  have hmem : ∀ e ∈ pre ++ post, e.node ≠ addr := fun e he =>
    hne e.node (List.mem_cons_of_mem _ (List.mem_map_of_mem he))
  have hperm : (pre ++ (⟨addr, score, val, lv⟩ : Element) :: post).Perm (⟨addr, score, val, lv⟩ :: (pre ++ post)) :=
    List.perm_middle
  have hmap : pre.map Element.node ++ addr :: post.map Element.node
      = (pre ++ (⟨addr, score, val, lv⟩ : Element) :: post).map Element.node := by
    rw [List.map_append, List.map_cons]
  have hlanes : ∀ i, i < 256 → t'.Accurate i → Linked (exact ∧ i < size) (nodes.lane i) t.mHead 0
      (pre.map Element.node ++ addr :: post.map Element.node) := by
    intro i hi hacc
    by_cases hused' : i < size
    · exact (hused i hused').weaken And.left
    · have htop' : t'.top = none := hacc.top_none (by omega) (by omega)
      have htop : t.top = none := by
        rcases hlevel with hlow | htop
        · have hsame : t'.mLevel = t.mLevel := by
            rw [hlevel', hsize, if_neg (by omega)]
          rw [top, hnodes, hhead, hsame, hbeyond t.mLevel (by omega), stored_lane hheadne] at htop'
          exact htop'
        · exact htop
      obtain ⟨span, hspan⟩ := h.linked_unused htop hi (by omega)
      have hspan' : nodes.lane i t.mHead = some (none, span) := by
        rw [hbeyond i (by omega), stored_lane hheadne, hspan]
      refine linked_of_none hspan' ?_ fun he => absurd he.2 hused'
      intro x hx
      rw [hmap] at hx
      obtain ⟨e, he, rfl⟩ := List.mem_map.mp hx
      rcases List.mem_cons.mp (hperm.mem_iff.mp he) with rfl | he
      · have hstored : nodes.info addr = some ⟨score, val, lv + 1⟩ := by rw [hinfo, stored_new]
        exact Nodes.lane_off hstored (show lv + 1 ≤ i by omega)
      · have hbelow := h.below_top htop e he
        have hstored : nodes.info e.node = some ⟨e.score, e.val, e.lv + 1⟩ := by
          rw [hinfo, stored_info (hmem e he), h.stored e he]
        exact Nodes.lane_off hstored (show e.lv + 1 ≤ i by omega)
  exact {
    head := by
      rw [hnodes, hhead, hinfo, stored_info hheadne]
      exact h.head
    stored := fun e he => by
      rw [hnodes, hinfo]
      rcases List.mem_cons.mp (hperm.mem_iff.mp he) with rfl | he
      · exact stored_new
      · rw [stored_info (hmem e he)]
        exact h.stored e he
    only := fun x hx => by
      rw [hnodes, hinfo] at hx
      rw [hhead, (hperm.map Element.node).mem_iff, List.map_cons, List.mem_cons]
      by_cases hxa : x = addr
      · exact Or.inr (Or.inl hxa)
      · rw [stored_info hxa] at hx
        rcases h.only x hx with hx | hx
        · exact Or.inl hx
        · exact Or.inr (Or.inr hx)
    nodup := by
      rw [hhead, ((hperm.map Element.node).cons t.mHead).nodup_iff]
      have hswap : (t.mHead :: ((⟨addr, score, val, lv⟩ : Element) :: (pre ++ post)).map Element.node).Perm
          (addr :: t.mHead :: (pre ++ post).map Element.node) := List.Perm.swap _ _ _
      rw [hswap.nodup_iff]
      exact List.nodup_cons.mpr ⟨hfree, h.nodup⟩
    ordered := h.ordered.insert hpre hpost
    low := fun e he => by
      rcases List.mem_cons.mp (hperm.mem_iff.mp he) with rfl | he
      · exact hlv
      · exact h.low e he
    length := by
      rw [hlength, h.length, hperm.length_eq, List.length_cons]
    small := by
      rw [hperm.length_eq, List.length_cons]
      exact hsmall
    level := by
      rw [hlevel']
      exact hsz.2.2
    lanes := fun i hi hacc => by
      rw [hnodes, hhead, hlevel', ← hmap]
      exact hlanes i hi hacc }

theorem added_top (h : Represents exact t l) (hfree : t.mHead ≠ addr) (htop : t.top = none) {size : ℕ}
    (hsize : t.mLevel ≤ size ∧ size < 256)
    {t' : SkipList} (hlane : t'.nodes.lane size = (t.stored score val lv addr).nodes.lane size)
    (hhead : t'.mHead = t.mHead) (hlevel : t'.mLevel = size) : t'.top = none := by
  obtain ⟨span, hspan⟩ := h.linked_unused htop hsize.2 hsize.1
  rw [top, hhead, hlevel, hlane, stored_lane hfree, hspan]
  rfl

theorem insert_ok (h : Represents exact t (pre ++ post)) (hfree : addr ∉ t.mHead :: (pre ++ post).map Element.node)
    (hlv : lv < 255) (hsmall : (pre ++ post).length + 1 < 4294967296)
    (hlevel : lv < t.mLevel ∨ t.top = none) (hpre : ∀ e ∈ pre, e.key < keyOf score val)
    (hpost : ∀ e ∈ post, keyOf score val ≤ e.key) :
    ∃ t', t.insert score val lv addr = .ok ((some addr, pre.length + 1), t') ∧
      Represents exact t' (pre ++ ⟨addr, score, val, lv⟩ :: post) ∧
      t'.mLevel = (if t.mLevel ≤ lv then lv + 1 else t.mLevel) ∧ (t.top = none → t'.top = none) := by
  have hlt := h.level
  have hlength := h.length
  rw [List.length_append] at hlength hsmall
  obtain ⟨size, hsize⟩ : ∃ size, size = if t.mLevel ≤ lv then lv + 1 else t.mLevel := ⟨_, rfl⟩
  have hsz : t.mLevel ≤ size ∧ lv < size ∧ size < 256 ∧ (lv + 1) + (t.mLevel - (lv + 1)) = size := by
    rw [hsize]
    split <;> omega
  have htop : t.mLevel < size → t.top = none := by
    intro hgrow
    rcases hlevel with hlow | htop
    · rw [hsize, if_neg (by omega)] at hgrow
      omega
    · exact htop
  have hfree' : addr ∉ t.mHead :: (pre.map Element.node ++ post.map Element.node) := by
    rwa [← List.map_append]
  have hplaces : Places exact (t.stored score val lv addr) score val size (pre.map Element.node)
      (post.map Element.node) := (h.places (by omega) hsz.1 htop hpre hpost).stored hfree'
  have hnew : (t.stored score val lv addr).nodes.info addr = some ⟨score, val, lv + 1⟩ := stored_new
  have hcount : (pre.map Element.node).length + (post.map Element.node).length + 1 < 4294967296 := by
    rw [List.length_map, List.length_map]
    omega
  have hne : ∀ e ∈ pre ++ post, e.node ≠ addr := by
    intro e he heq
    apply hfree
    rw [← heq]
    exact List.mem_cons_of_mem _ (List.mem_map_of_mem he)
  have hlow : ∀ x ∈ pre.map Element.node, ((t.stored score val lv addr).nodes.lane 0 x).isSome = true := by
    intro x hx
    obtain ⟨e, he, rfl⟩ := List.mem_map.mp hx
    rw [stored_lane (hne e (List.mem_append_left post he))]
    exact (h.on_iff (List.mem_append_left post he) 0).mpr (Nat.zero_le e.lv)
  obtain ⟨s, hvec, hs⟩ := getUpdateVec_ok hplaces
  obtain ⟨nodes₁, nodes₂, hwiden, hlink, hinfo, hused, hbeyond⟩ :=
    insertLevels_ok hplaces hs hnew hfree' hcount hlow hsz.2.2.2
  obtain ⟨r0, hr0, hrank0⟩ := hs.rank 0 (le_refl 0) (by omega)
  have hzero : ((t.stored score val lv addr).lastBefore (pre.map Element.node) 0).2 = 0 :=
    holder_all hlow t.mHead
  rw [hzero, Nat.add_zero, List.length_map] at hrank0
  have hwrap : u32 (r0 + 1) = pre.length + 1 := by
    rw [hrank0, u32_of_lt (by omega)]
  have hlength' : u32 (t.mLength + 1) = t.mLength + 1 := u32_of_lt (by omega)
  have hupdate := nodeAt_ok (hs.update 0 (le_refl 0) (by omega))
  have hnew2 : nodes₂.info addr = some ⟨score, val, lv + 1⟩ := by rw [hinfo, hnew]
  obtain ⟨nodes₃, hprev, hinfo3, hlane3⟩ := Nodes.setPrev_ok hnew2
    ((t.stored score val lv addr).lastBefore (pre.map Element.node) 0).1
  have hrest := ((hused 0 (by omega)).holder_next
    ((Nodes.lane_isSome hnew2 0).mpr (Nat.zero_lt_succ lv))).2
  rw [← hlane3] at hrest
  have hhead : t.mHead ≠ addr := by
    intro he
    rw [he] at hfree
    exact hfree List.mem_cons_self
  -- The back pointers and `m_tail_`, which are set last, are on no lane.
  have hdone : ∀ (nodes : Nodes) (mTail : ℕ), nodes.info = nodes₂.info → nodes.lane = nodes₂.lane →
      Represents exact ⟨nodes, t.mLength + 1, size, t.mHead, mTail⟩
          (pre ++ ⟨addr, score, val, lv⟩ :: post) ∧ size = (if t.mLevel ≤ lv then lv + 1 else t.mLevel) ∧
        (t.top = none → (SkipList.mk nodes (t.mLength + 1) size t.mHead mTail).top = none) := by
    intro nodes mTail hinfo' hlane'
    rw [← hlane'] at hused hbeyond
    have hrep : Represents exact ⟨nodes, t.mLength + 1, size, t.mHead, mTail⟩
        (pre ++ ⟨addr, score, val, lv⟩ :: post) :=
      added_represents h hfree hlv (by rw [List.length_append]; omega) hlevel hpre hpost hsize
        (hinfo'.trans hinfo) hused hbeyond rfl rfl rfl rfl
    refine ⟨hrep, hsize, fun htop => ?_⟩
    exact added_top h hhead htop ⟨hsz.1, hsz.2.2.1⟩ (hbeyond size (le_refl size)) rfl rfl
  unfold stored at hvec
  rcases hrest.next with ⟨span, hnext, -⟩ | ⟨p, b, q, hsplit, hnext, -⟩
  · refine ⟨_, ?_, hdone nodes₃ addr hinfo3 hlane3⟩
    simp only [insert, ← hsize, hvec, Exec.ok_bind, hwiden, hlink, hupdate, hprev, Nodes.getNext_ok hnext,
      vecGet_ok hr0, hwrap, hlength']
    rfl
  · have hb : b ∈ post.map Element.node := by simp [hsplit]
    obtain ⟨e, he, rfl⟩ := List.mem_map.mp hb
    have he' := List.mem_append_right pre he
    have hstored : nodes₃.info e.node = some ⟨e.score, e.val, e.lv + 1⟩ := by
      rw [hinfo3, hinfo, stored_info (hne e he'), h.stored e he']
    obtain ⟨nodes₄, hprev', hinfo4, hlane4⟩ := Nodes.setPrev_ok hstored addr
    refine ⟨_, ?_, hdone nodes₄ t.mTail (hinfo4.trans hinfo3) (hlane4.trans hlane3)⟩
    simp only [insert, ← hsize, hvec, Exec.ok_bind, hwiden, hlink, hupdate, hprev, Nodes.getNext_ok hnext,
      vecGet_ok hr0, hwrap, hlength', hprev']
    rfl

end Added

end SkipList

end DeftRpc.DataStruct
