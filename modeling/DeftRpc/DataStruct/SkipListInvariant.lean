import Mathlib.Data.Prod.Lex
import DeftRpc.DataStruct.SkipListUpdate

/-!
# What a SkipList holds

The elements lie on level 0 in the order of their keys. A level below `m_level_` is
right; one above is right as long as the head has nothing on level `m_level_`. Delete can
leave `m_level_` one too small, and the levels from there on are then out of date.
-/

namespace DeftRpc.DataStruct
open DeftRpc.Foundation

structure Element where
  node : ℕ
  score : ℕ
  val : List Byte
  lv : ℕ
  deriving DecidableEq

abbrev Key := ℕ ×ₗ List Byte

def keyOf (score : ℕ) (val : List Byte) : Key := toLex (score, val)

def Element.key (e : Element) : Key := keyOf e.score e.val

def Ordered (l : List Element) : Prop := l.Pairwise fun a b => a.key ≤ b.key

theorem keyOf_inj {score score' : ℕ} {val val' : List Byte} :
    keyOf score val = keyOf score' val' ↔ score = score' ∧ val = val' := by
  rw [keyOf, keyOf, toLex_inj, Prod.mk.injEq]

theorem before_iff (info : NodeInfo) (score : ℕ) (val : List Byte) :
    info.Before score val ↔ keyOf info.score info.val < keyOf score val := by
  rw [keyOf, keyOf, Prod.Lex.toLex_lt_toLex]
  rfl

theorem Ordered.split {l : List Element} (h : Ordered l) (k : Key) :
    ∃ pre post, l = pre ++ post ∧ (∀ e ∈ pre, e.key < k) ∧ ∀ e ∈ post, k ≤ e.key := by
  induction l with
  | nil => exact ⟨[], [], rfl, fun e he => absurd he List.not_mem_nil, fun e he => absurd he List.not_mem_nil⟩
  | cons a l ih =>
    obtain ⟨ha, hl⟩ := List.pairwise_cons.mp h
    by_cases hlt : a.key < k
    · obtain ⟨pre, post, rfl, hpre, hpost⟩ := ih hl
      refine ⟨a :: pre, post, rfl, fun e he => ?_, hpost⟩
      rcases List.mem_cons.mp he with rfl | he
      · exact hlt
      · exact hpre e he
    · refine ⟨[], a :: l, rfl, fun e he => absurd he List.not_mem_nil, fun e he => ?_⟩
      have hge : k ≤ a.key := not_lt.mp hlt
      rcases List.mem_cons.mp he with rfl | he
      · exact hge
      · exact le_trans hge (ha e he)

theorem Ordered.insert {pre post : List Element} (h : Ordered (pre ++ post)) {e : Element}
    (hpre : ∀ x ∈ pre, x.key < e.key) (hpost : ∀ x ∈ post, e.key ≤ x.key) : Ordered (pre ++ e :: post) := by
  obtain ⟨h1, h2, h3⟩ := List.pairwise_append.mp h
  apply List.pairwise_append.mpr
  refine ⟨h1, List.pairwise_cons.mpr ⟨hpost, h2⟩, fun x hx y hy => ?_⟩
  rcases List.mem_cons.mp hy with rfl | hy
  · exact le_of_lt (hpre x hx)
  · exact h3 x hx y hy

theorem Ordered.erase {pre post : List Element} {e : Element} (h : Ordered (pre ++ e :: post)) :
    Ordered (pre ++ post) := by
  exact List.Pairwise.sublist ((List.sublist_cons_self e post).append_left pre) h

theorem absent_of_head {pre post : List Element} {k : Key} (h : Ordered (pre ++ post))
    (hpre : ∀ x ∈ pre, x.key < k) (hpost : ∀ x ∈ post, k ≤ x.key) (hhead : ∀ e ∈ post.head?, e.key ≠ k) :
    ∀ e ∈ pre ++ post, e.key ≠ k := by
  intro e he
  rcases List.mem_append.mp he with he | he
  · exact ne_of_lt (hpre e he)
  · cases post with
    | nil => cases he
    | cons a post =>
      have ha : a.key ≠ k := hhead a rfl
      rcases List.mem_cons.mp he with rfl | hmem
      · exact ha
      · have hle := (List.pairwise_cons.mp (List.pairwise_append.mp h).2.1).1 e hmem
        have hlt : k < a.key := lt_of_le_of_ne (hpost a List.mem_cons_self) (Ne.symm ha)
        exact ne_of_gt (lt_of_lt_of_le hlt hle)

namespace SkipList

/-- `m_head_->GetNext(m_level_)` -/
def top (t : SkipList) : Option ℕ := (t.nodes.lane t.mLevel t.mHead).bind fun link => link.1

/-- The levels that the nodes keep right. -/
def Accurate (t : SkipList) (i : ℕ) : Prop := i < t.mLevel ∨ i = 0 ∨ t.top = none

/-- With `exact` the last node of a level in use counts the nodes behind it. -/
structure Represents (exact : Prop) (t : SkipList) (l : List Element) : Prop where
  head : ∃ info, t.nodes.info t.mHead = some info ∧ info.levels = 256
  stored : ∀ e ∈ l, t.nodes.info e.node = some ⟨e.score, e.val, e.lv + 1⟩
  only : ∀ x, (t.nodes.info x).isSome = true → x = t.mHead ∨ x ∈ l.map Element.node
  nodup : (t.mHead :: l.map Element.node).Nodup
  ordered : Ordered l
  low : ∀ e ∈ l, e.lv < 255
  length : t.mLength = l.length
  small : l.length < 4294967296
  level : t.mLevel < 256
  lanes : ∀ i, i < 256 → t.Accurate i →
    Linked (exact ∧ i < t.mLevel) (t.nodes.lane i) t.mHead 0 (l.map Element.node)

/-- The elements along level 0. -/
def follow (nodes : Nodes) : ℕ → Option ℕ → List Element
  | 0, _ => []
  | _ + 1, none => []
  | turns + 1, some p =>
    match nodes.info p with
    | none => []
    | some info => ⟨p, info.score, info.val, info.levels - 1⟩ ::
      follow nodes turns ((nodes.lane 0 p).bind fun link => link.1)

def elements (t : SkipList) : List Element :=
  follow t.nodes t.nodes.entries.length ((t.nodes.lane 0 t.mHead).bind fun link => link.1)

theorem follow_eq {exact : Prop} {nodes : Nodes} {l : List Element} {a turns : ℕ}
    (h : Linked exact (nodes.lane 0) a 0 (l.map Element.node))
    (hl : ∀ e ∈ l, nodes.info e.node = some ⟨e.score, e.val, e.lv + 1⟩) (hturns : l.length ≤ turns) :
    follow nodes turns ((nodes.lane 0 a).bind fun link => link.1) = l := by
  induction l generalizing a turns with
  | nil =>
    obtain ⟨span, ha, -⟩ := h
    rw [ha]
    cases turns <;> rfl
  | cons e l ih =>
    obtain ⟨turns, rfl⟩ := Nat.exists_eq_add_one_of_ne_zero (Nat.ne_of_gt (Nat.zero_lt_of_lt hturns))
    have hinfo := hl e List.mem_cons_self
    obtain ⟨ha, hrest⟩ := (linked_on ((Nodes.lane_isSome hinfo 0).mpr (Nat.zero_lt_succ e.lv))).mp h
    have htail := ih hrest (fun x hx => hl x (List.mem_cons_of_mem e hx)) (Nat.le_of_succ_le_succ hturns)
    rw [ha, Option.bind_some, follow, hinfo]
    show (⟨e.node, e.score, e.val, e.lv + 1 - 1⟩ : Element) :: _ = e :: l
    rw [htail, Nat.add_sub_cancel]

variable {exact : Prop} {t : SkipList} {l pre post : List Element} {score : ℕ} {val : List Byte}

theorem Represents.head_on (h : Represents exact t l) {i : ℕ} (hi : i < 256) :
    (t.nodes.lane i t.mHead).isSome = true := by
  obtain ⟨info, hinfo, hlevels⟩ := h.head
  exact (Nodes.lane_isSome hinfo i).mpr (by omega)

theorem Represents.on_iff (h : Represents exact t l) {e : Element} (he : e ∈ l) (i : ℕ) :
    (t.nodes.lane i e.node).isSome = true ↔ i ≤ e.lv := by
  rw [Nodes.lane_isSome (h.stored e he)]
  exact Nat.lt_succ_iff

theorem Represents.elements_eq (h : Represents exact t l) : t.elements = l := by
  apply follow_eq (h.lanes 0 (by omega) (Or.inr (Or.inl rfl))) h.stored
  have hle := Nodes.length_le_entries (List.nodup_cons.mp h.nodup).2 fun x hx => by
    obtain ⟨e, he, rfl⟩ := List.mem_map.mp hx
    rw [h.stored e he, Option.isSome_some]
  rwa [List.length_map] at hle

/-- While the head has nothing on level `m_level_`, no node reaches it. -/
theorem Represents.below_top (h : Represents exact t l) (htop : t.top = none) : ∀ e ∈ l, e.lv < t.mLevel := by
  intro e he
  obtain ⟨⟨next, span⟩, hlane⟩ := Option.isSome_iff_exists.mp (h.head_on h.level)
  have hnext : next = none := by
    rw [top, hlane] at htop
    exact htop
  have hnone := ((h.lanes _ h.level (Or.inr (Or.inr htop))).next_none_iff hlane).mp hnext e.node
    (List.mem_map_of_mem he)
  by_contra hle
  have hon := (h.on_iff he t.mLevel).mpr (not_lt.mp hle)
  rw [hnone] at hon
  cases hon

/-- The vectors of GetUpdateVec are right when every level they use is. -/
theorem Represents.places (h : Represents exact t (pre ++ post)) {size : ℕ} (hsize : size ≤ 256)
    (hlevel : t.mLevel ≤ size) (htop : t.mLevel < size → t.top = none)
    (hpre : ∀ e ∈ pre, e.key < keyOf score val) (hpost : ∀ e ∈ post, keyOf score val ≤ e.key) :
    Places exact t score val size (pre.map Element.node) (post.map Element.node) where
  head := h.head
  size_le := hsize
  level_le := hlevel
  ahead := by
    intro x hx
    obtain ⟨e, he, rfl⟩ := List.mem_map.mp hx
    exact ⟨_, h.stored e (List.mem_append_left post he), (before_iff _ _ _).mpr (hpre e he)⟩
  behind := by
    intro x hx
    obtain ⟨e, he, rfl⟩ := List.mem_map.mp hx
    refine ⟨_, h.stored e (List.mem_append_right pre he), fun hbefore => ?_⟩
    exact absurd ((before_iff _ _ _).mp hbefore) (not_lt.mpr (hpost e he))
  nodup := by
    rw [← List.map_append]
    exact h.nodup
  length := by
    have hsmall := h.small
    rw [List.length_append] at hsmall
    rw [List.length_map]
    omega
  counted := by
    intro he
    rw [← List.map_append, List.length_map]
    exact h.length
  lanes := by
    intro i hi
    rw [← List.map_append]
    apply h.lanes i (by omega)
    by_cases hlt : i < t.mLevel
    · exact Or.inl hlt
    · exact Or.inr (Or.inr (htop (by omega)))
  unused := by
    intro i hi x hx hsz
    rw [← List.map_append] at hx
    obtain ⟨e, he, rfl⟩ := List.mem_map.mp hx
    have hlt := h.below_top (htop (by omega)) e he
    exact Nodes.lane_off (h.stored e he) (show e.lv + 1 ≤ i by omega)

end SkipList

end DeftRpc.DataStruct
