import DeftRpc.DataStruct.SkipList
import DeftRpc.Foundation.Lane

/-!
# The levels of a SkipList as lanes

Level `i` of the nodes is a lane over the list: it holds the nodes with more than `i`
levels. Every write of the list changes the pointer or the span of one node on one lane.
-/

namespace DeftRpc.DataStruct
open DeftRpc.Foundation

structure NodeInfo where
  score : ℕ
  val : List Byte
  levels : ℕ

def NodeInfo.Before (info : NodeInfo) (score : ℕ) (val : List Byte) : Prop :=
  info.score < score ∨ info.score = score ∧ info.val < val

namespace Nodes

/-- What no operation on a stored node changes. -/
def info (nodes : Nodes) (x : ℕ) : Option NodeInfo :=
  (nodes.lookup x).map fun node => ⟨node.mScore, node.mVal, node.mLevel.length⟩

def lane (nodes : Nodes) (i : ℕ) : Lane ℕ := fun x =>
  (nodes.lookup x).bind fun node => (node.mLevel[i]?).map fun level => (level.mNext, level.mSpan)

variable {nodes nodes' : Nodes} {x i : ℕ}

theorem lane_isSome {info : NodeInfo} (h : nodes.info x = some info) (i : ℕ) :
    (nodes.lane i x).isSome = true ↔ i < info.levels := by
  obtain ⟨node, hnode, rfl⟩ := Option.map_eq_some_iff.mp h
  simp [lane, hnode]

theorem lane_none (h : nodes.info x = none) (i : ℕ) : nodes.lane i x = none := by
  have hlookup : nodes.lookup x = none := by simpa [info] using h
  simp [lane, hlookup]

theorem lane_off {info : NodeInfo} (h : nodes.info x = some info) (hi : info.levels ≤ i) :
    nodes.lane i x = none := by
  have hnot := (lane_isSome h i).not.mpr (not_lt.mpr hi)
  simpa using hnot

theorem lane_isSome_congr (h : nodes'.info = nodes.info) (i x : ℕ) :
    (nodes'.lane i x).isSome = (nodes.lane i x).isSome := by
  cases hx : nodes.info x with
  | none => rw [lane_none hx, lane_none (by rw [h, hx])]
  | some info =>
    rw [Bool.eq_iff_iff, lane_isSome hx, lane_isSome (by rw [h, hx])]

theorem holder_eq (h : nodes'.info = nodes.info) (i : ℕ) :
    holder (nodes'.lane i) = holder (nodes.lane i) := holder_congr (lane_isSome_congr h i)

/-! ### Reading -/

theorem deref_ok {info : NodeInfo} (h : nodes.info x = some info) :
    ∃ node, nodes.deref x = .ok node ∧ node.mScore = info.score ∧ node.mVal = info.val := by
  obtain ⟨node, hnode, rfl⟩ := Option.map_eq_some_iff.mp h
  exact ⟨node, by rw [deref, hnode], rfl, rfl⟩

variable {next : Option ℕ} {span : ℕ}

theorem getLevel_ok (h : nodes.lane i x = some (next, span)) : nodes.getLevel x i = .ok ⟨next, span⟩ := by
  obtain ⟨node, hnode, hlevel⟩ := Option.bind_eq_some_iff.mp h
  obtain ⟨level, hget, he⟩ := Option.map_eq_some_iff.mp hlevel
  cases he
  simp only [getLevel, deref, hnode, Exec.ok_bind, hget]

theorem getNext_ok (h : nodes.lane i x = some (next, span)) : nodes.getNext x i = .ok next := by
  rw [getNext, getLevel_ok h]
  rfl

theorem getSpan_ok (h : nodes.lane i x = some (next, span)) : nodes.getSpan x i = .ok span := by
  rw [getSpan, getLevel_ok h]
  rfl

/-! ### Writing -/

/-- One node of one lane is written. -/
structure Writes (nodes nodes' : Nodes) (i x : ℕ) (link : Option ℕ × ℕ) : Prop where
  info : nodes'.info = nodes.info
  here : nodes'.lane i x = some link
  beside : ∀ y, y ≠ x → nodes'.lane i y = nodes.lane i y
  other : ∀ j, j ≠ i → nodes'.lane j = nodes.lane j

theorem insert_info {p : ℕ} {node node' : SkipListNode} (h : nodes.lookup p = some node)
    (hs : node'.mScore = node.mScore) (hv : node'.mVal = node.mVal)
    (hl : node'.mLevel.length = node.mLevel.length) :
    Nodes.info (AList.insert p node' nodes) = nodes.info := by
  funext y
  by_cases hy : y = p
  · rw [hy, info, info, AList.lookup_insert, h, Option.map_some, Option.map_some, hs, hv, hl]
  · rw [info, info, AList.lookup_insert_ne hy]

theorem setLevel_ok {link : Option ℕ × ℕ} (h : nodes.lane i x = some link) (level : SkipListLevel) :
    ∃ nodes', nodes.setLevel x i level = .ok nodes' ∧ Writes nodes nodes' i x (level.mNext, level.mSpan) := by
  obtain ⟨node, hnode, hlevel⟩ := Option.bind_eq_some_iff.mp h
  obtain ⟨old, hget, -⟩ := Option.map_eq_some_iff.mp hlevel
  have hi : i < node.mLevel.length := (List.getElem?_eq_some_iff.mp hget).1
  simp only [setLevel, deref, hnode, Exec.ok_bind, if_pos hi]
  refine ⟨_, rfl, insert_info hnode rfl rfl (List.length_set), ?_, fun y hy => ?_, fun j hj => ?_⟩
  · simp [lane, hi]
  · rw [lane, lane, AList.lookup_insert_ne hy]
  · funext y
    by_cases hy : y = x
    · rw [hy]
      simp [lane, hnode, List.getElem?_set_ne (Ne.symm hj)]
    · rw [lane, lane, AList.lookup_insert_ne hy]

theorem setSpan_ok (h : nodes.lane i x = some (next, span)) (s : ℕ) :
    ∃ nodes', nodes.setSpan x i s = .ok nodes' ∧ Writes nodes nodes' i x (next, s) := by
  rw [setSpan, getLevel_ok h]
  exact setLevel_ok h ⟨next, s⟩

theorem setNext_ok (h : nodes.lane i x = some (next, span)) (n : Option ℕ) :
    ∃ nodes', nodes.setNext x i n = .ok (next, nodes') ∧ Writes nodes nodes' i x (n, span) := by
  obtain ⟨nodes', hset, hwrites⟩ := setLevel_ok h ⟨n, span⟩
  refine ⟨nodes', ?_, hwrites⟩
  rw [setNext, getLevel_ok h]
  simp only [Exec.ok_bind, hset]
  rfl

theorem setPrev_ok {info : NodeInfo} (h : nodes.info x = some info) (prev : ℕ) :
    ∃ nodes', nodes.setPrev x prev = .ok nodes' ∧ nodes'.info = nodes.info ∧
      nodes'.lane = nodes.lane := by
  obtain ⟨node, hnode, -⟩ := Option.map_eq_some_iff.mp h
  simp only [setPrev, deref, hnode, Exec.ok_bind]
  refine ⟨_, rfl, insert_info hnode rfl rfl rfl, ?_⟩
  funext j y
  by_cases hy : y = x
  · rw [hy]
    simp [lane, hnode]
  · rw [lane, lane, AList.lookup_insert_ne hy]

theorem forDown_ok {body : ℕ → Nodes → Exec Nodes} (before after : ℕ → Lane ℕ → Prop) (lo n : ℕ)
    (hbody : ∀ i nodes₁, lo ≤ i → i < lo + n → nodes₁.info = nodes.info → before i (nodes₁.lane i) →
      ∃ nodes', body i nodes₁ = .ok nodes' ∧ nodes'.info = nodes₁.info ∧ after i (nodes'.lane i) ∧
        ∀ j, j ≠ i → nodes'.lane j = nodes₁.lane j)
    (h : ∀ i, lo ≤ i → i < lo + n → before i (nodes.lane i)) :
    ∃ nodes', forDown body lo n nodes = .ok nodes' ∧ nodes'.info = nodes.info ∧
      (∀ i, lo ≤ i → i < lo + n → after i (nodes'.lane i)) ∧
      ∀ j, (j < lo ∨ lo + n ≤ j) → nodes'.lane j = nodes.lane j := by
  induction n generalizing nodes with
  | zero => exact ⟨nodes, rfl, rfl, fun i h1 h2 => by omega, fun j _ => rfl⟩
  | succ n ih =>
    obtain ⟨nodes₁, hturn, hinfo, hafter, hother⟩ := hbody (lo + n) nodes (by omega) (by omega) rfl
      (h (lo + n) (by omega) (by omega))
    obtain ⟨nodes', hloop, hinfo', hafter', hother'⟩ := @ih nodes₁
      (fun i nodes₂ h1 h2 h3 => hbody i nodes₂ h1 (by omega) (h3.trans hinfo))
      (fun i h1 h2 => by
        rw [hother i (by omega)]
        exact h i h1 (by omega))
    refine ⟨nodes', ?_, hinfo'.trans hinfo, fun i h1 h2 => ?_, fun j hj => ?_⟩
    · simp only [forDown, hturn, Exec.ok_bind, hloop]
    · by_cases hi : i = lo + n
      · rw [hi, hother' (lo + n) (by omega)]
        exact hafter
      · exact hafter' i h1 (by omega)
    · rw [hother' j (by omega), hother j (by omega)]

end Nodes

end DeftRpc.DataStruct
