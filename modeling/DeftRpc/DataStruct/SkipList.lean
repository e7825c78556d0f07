import Mathlib.Data.List.AList
import Mathlib.Data.List.Lex
import DeftRpc.Foundation.Bytes
import DeftRpc.Foundation.Exec
import DeftRpc.Foundation.Word

/-!
# SkipList (SkipList.h, SkipList.cpp)

Nodes lie at addresses; a pointer to no node is a fault when it is followed, and so
is an index behind a vector or behind the levels of a node. `m_next_` of a node owns
what level 0 points at, the two are set together. The level that GetRandomLevel draws
and the address that `new` returns are arguments.
-/

namespace DeftRpc.DataStruct
open DeftRpc.Foundation

structure SkipListLevel where
  mNext : Option ℕ := none
  mSpan : ℕ := 0

structure SkipListNode where
  mScore : ℕ
  mVal : List Byte
  mPrev : Option ℕ := none
  mLevel : List SkipListLevel

/-- `SkipListNode(s, v, lv)` -/
def SkipListNode.make (s : ℕ) (v : List Byte) (lv : ℕ) : SkipListNode :=
  { mScore := s, mVal := v, mLevel := List.replicate (lv + 1) {} }

/-- The order of the list: by score, then by value. -/
def SkipListNode.Before (node : SkipListNode) (score : ℕ) (val : List Byte) : Prop :=
  node.mScore < score ∨ node.mScore = score ∧ node.mVal < val

instance (node : SkipListNode) (score : ℕ) (val : List Byte) : Decidable (node.Before score val) :=
  inferInstanceAs (Decidable (_ ∨ _ ∧ _))

abbrev Nodes := AList fun _ : ℕ => SkipListNode

namespace Nodes

def deref (nodes : Nodes) (p : ℕ) : Exec SkipListNode :=
  match nodes.lookup p with
  | none => .error .badPointer
  | some node => .ok node

def getLevel (nodes : Nodes) (p i : ℕ) : Exec SkipListLevel := do
  let node ← nodes.deref p
  match node.mLevel[i]? with
  | none => .error .outOfRange
  | some level => .ok level

def getNext (nodes : Nodes) (p i : ℕ) : Exec (Option ℕ) := do
  let level ← nodes.getLevel p i
  pure level.mNext

def getSpan (nodes : Nodes) (p i : ℕ) : Exec ℕ := do
  let level ← nodes.getLevel p i
  pure level.mSpan

def setLevel (nodes : Nodes) (p i : ℕ) (level : SkipListLevel) : Exec Nodes := do
  let node ← nodes.deref p
  if i < node.mLevel.length then
    .ok (nodes.insert p { node with mLevel := node.mLevel.set i level })
  else .error .outOfRange

def setSpan (nodes : Nodes) (p i s : ℕ) : Exec Nodes := do
  let level ← nodes.getLevel p i
  nodes.setLevel p i { level with mSpan := s }

/-- SetNext returns the pointer that was there. -/
def setNext (nodes : Nodes) (p i : ℕ) (n : Option ℕ) : Exec (Option ℕ × Nodes) := do
  let level ← nodes.getLevel p i
  let nodes ← nodes.setLevel p i { level with mNext := n }
  pure (level.mNext, nodes)

def setPrev (nodes : Nodes) (p : ℕ) (prev : ℕ) : Exec Nodes := do
  let node ← nodes.deref p
  pure (nodes.insert p { node with mPrev := some prev })

end Nodes

/-- `v[i]` -/
def vecGet {α : Type} (v : List α) (i : ℕ) : Exec α :=
  match v[i]? with
  | none => .error .outOfRange
  | some a => .ok a

/-- `v[i] = a` -/
def vecSet {α : Type} (v : List α) (i : ℕ) (a : α) : Exec (List α) :=
  if i < v.length then .ok (v.set i a) else .error .outOfRange

def nodeAt (update : List (Option ℕ)) (i : ℕ) : Exec ℕ := do
  let p ← vecGet update i
  match p with
  | none => .error .badPointer
  | some p => .ok p

structure SkipList where
  nodes : Nodes
  mLength : ℕ := 0
  mLevel : ℕ := 1
  mHead : ℕ
  mTail : ℕ

namespace SkipList

def create (head : ℕ) : SkipList :=
  { nodes := AList.singleton head (SkipListNode.make 4294967295 [] 255), mHead := head, mTail := head }

def getSize (t : SkipList) : ℕ := t.mLength

/- `while (header->GetNext(i) != nullptr && ...)`. A walk of more steps than there are
nodes comes to a node twice and never ends. -/
def walk (nodes : Nodes) (score : ℕ) (val : List Byte) (i : ℕ) : ℕ → ℕ → ℕ → Exec (ℕ × ℕ)
  | 0, _, _ => .error .diverge
  | turns + 1, header, rank => do
    let next ← nodes.getNext header i
    match next with
    | none => pure (header, rank)
    | some next => do
      let node ← nodes.deref next
      if node.Before score val then do
        let span ← nodes.getSpan header i
        walk nodes score val i turns next (u32 (rank + span))
      else pure (header, rank)

/-- What GetUpdateVec works on. -/
structure UpdateVec where
  nodes : Nodes
  header : ℕ
  update : List (Option ℕ)
  rank : List ℕ

/-- `rank[i]` and the span of `header` before the walk of level `i`. -/
def startLevel (t : SkipList) (mLevel i : ℕ) (s : UpdateVec) : Exec UpdateVec :=
  if t.mLevel ≤ i then do
    let rank ← vecSet s.rank i 0
    let nodes ← s.nodes.setSpan s.header i t.mLength
    pure { s with nodes := nodes, rank := rank }
  else if i + 1 = t.mLevel ∨ i + 1 = mLevel then do
    let rank ← vecSet s.rank i 0
    pure { s with rank := rank }
  else do
    let old ← vecGet s.rank i
    if old < t.mLevel then do
      let above ← vecGet s.rank (i + 1)
      let rank ← vecSet s.rank i above
      pure { s with rank := rank }
    else pure s

def updateLevel (t : SkipList) (score : ℕ) (val : List Byte) (mLevel i : ℕ) (s : UpdateVec) :
    Exec UpdateVec := do
  let s ← t.startLevel mLevel i s
  let start ← vecGet s.rank i
  let r ← walk s.nodes score val i (s.nodes.entries.length + 1) s.header start
  let rank ← vecSet s.rank i r.2
  let update ← vecSet s.update i (some r.1)
  pure ⟨s.nodes, r.1, update, rank⟩

/-- Both vectors have `size` elements. -/
def getUpdateVec (t : SkipList) (score : ℕ) (val : List Byte) (size : ℕ) : Exec UpdateVec :=
  forDown (t.updateLevel score val size) 0 size
    ⟨t.nodes, t.mHead, List.replicate size none, List.replicate size 0⟩

/-- A level above the new node. -/
def widenLevel (s : UpdateVec) (i : ℕ) (nodes : Nodes) : Exec Nodes := do
  let p ← nodeAt s.update i
  let span ← nodes.getSpan p i
  nodes.setSpan p i (u32 (span + 1))

/-- A level of the new node. -/
def linkLevel (s : UpdateVec) (node i : ℕ) (nodes : Nodes) : Exec Nodes := do
  let p ← nodeAt s.update i
  let temp ← nodes.setNext p i (some node)
  let own ← temp.2.setNext node i temp.1
  let rank0 ← vecGet s.rank 0
  let rank ← vecGet s.rank i
  let span ← own.2.getSpan p i
  let nodes ← own.2.setSpan node i (u32Sub span (u32Sub rank0 rank))
  nodes.setSpan p i (u32 (1 + u32Sub rank0 rank))

/-- `addr` is the address that `new` returns, `lv` the level that GetRandomLevel draws. -/
def insert (t : SkipList) (score : ℕ) (val : List Byte) (lv addr : ℕ) :
    Exec ((Option ℕ × ℕ) × SkipList) := do
  let size := if t.mLevel ≤ lv then lv + 1 else t.mLevel
  let t := { t with nodes := t.nodes.insert addr (SkipListNode.make score val lv) }
  let s ← t.getUpdateVec score val size
  let nodes ← forDown (widenLevel s) (lv + 1) (t.mLevel - (lv + 1)) s.nodes
  let nodes ← forDown (linkLevel s addr) 0 (lv + 1) nodes
  let p ← nodeAt s.update 0
  let nodes ← nodes.setPrev addr p
  let next ← nodes.getNext addr 0
  let rank0 ← vecGet s.rank 0
  let t := { t with
    mLevel := if t.mLevel ≤ lv then lv + 1 else t.mLevel
    mLength := u32 (t.mLength + 1) }
  match next with
  | some next => do
    let nodes ← nodes.setPrev next addr
    pure ((some addr, u32 (rank0 + 1)), { t with nodes := nodes })
  | none => pure ((some addr, u32 (rank0 + 1)), { t with nodes := nodes, mTail := addr })

/-- The levels above `node`, down to the first that holds it. -/
def narrowLevels (s : UpdateVec) (node : ℕ) : ℕ → Nodes → Exec (ℕ × Nodes)
  | 0, nodes => .ok (0, nodes)
  | i + 1, nodes => do
    let p ← nodeAt s.update i
    let next ← nodes.getNext p i
    if next = some node then pure (i + 1, nodes)
    else do
      let span ← nodes.getSpan p i
      let nodes ← nodes.setSpan p i (u32Sub span 1)
      narrowLevels s node i nodes

/-- A level of the node that goes. -/
def unlinkLevel (s : UpdateVec) (node i : ℕ) (nodes : Nodes) : Exec Nodes := do
  let p ← nodeAt s.update i
  let next ← nodes.getNext node i
  let r ← nodes.setNext p i next
  let r ← r.2.setNext node i none
  let span ← r.2.getSpan p i
  let own ← r.2.getSpan node i
  r.2.setSpan p i (u32Sub (u32 (span + own)) 1)

/-- `for (i = m_level_; i >= 0; --i)`, where `m_level_` has 8 bits. -/
def lowerLevel (nodes : Nodes) (head : ℕ) : ℕ → ℕ → Exec ℕ
  | 0, mLevel => .ok mLevel
  | i + 1, mLevel => do
    let next ← nodes.getNext head i
    if next = none then lowerLevel nodes head i ((mLevel + 255) % 256) else pure mLevel

def delete (t : SkipList) (score : ℕ) (val : List Byte) : Exec (Bool × SkipList) := do
  let s ← t.getUpdateVec score val t.mLevel
  let p ← nodeAt s.update 0
  let next ← s.nodes.getNext p 0
  match next with
  | none => pure (false, { t with nodes := s.nodes })
  | some node => do
    let n ← s.nodes.deref node
    if n.mScore = score ∧ n.mVal = val then do
      let r ← narrowLevels s node t.mLevel s.nodes
      let nodes ← forDown (unlinkLevel s node) 0 r.1 r.2
      let mLevel ← lowerLevel nodes t.mHead (t.mLevel + 1) t.mLevel
      pure (true, { t with
        nodes := nodes.erase node, mLevel := mLevel, mLength := u32Sub t.mLength 1 })
    else pure (false, { t with nodes := s.nodes })

def findLevels (s : UpdateVec) (score : ℕ) (val : List Byte) : ℕ → Exec (Option ℕ × ℕ)
  | 0 => .ok (none, 0)
  | i + 1 => do
    let p ← nodeAt s.update i
    let next ← s.nodes.getNext p i
    match next with
    | none => findLevels s score val i
    | some next => do
      let n ← s.nodes.deref next
      if n.mScore = score ∧ n.mVal = val then do
        let rank ← vecGet s.rank i
        let span ← s.nodes.getSpan p i
        pure (some next, u32 (rank + span))
      else findLevels s score val i

def find (t : SkipList) (score : ℕ) (val : List Byte) : Exec ((Option ℕ × ℕ) × SkipList) := do
  let s ← t.getUpdateVec score val t.mLevel
  let r ← findLevels s score val t.mLevel
  pure (r, { t with nodes := s.nodes })

def modify (t : SkipList) (score : ℕ) (val : List Byte) (lv addr : ℕ) :
    Exec ((Option ℕ × ℕ) × SkipList) := do
  let r ← t.delete score val
  if r.1 then r.2.insert score val lv addr else pure ((none, 0), r.2)

/-! ### Runs -/

inductive Op where
  | insert (score : ℕ) (val : List Byte) (lv addr : ℕ)
  | delete (score : ℕ) (val : List Byte)
  | find (score : ℕ) (val : List Byte)
  | modify (score : ℕ) (val : List Byte) (lv addr : ℕ)
  | getSize

inductive Out where
  | found (node : Option ℕ) (rank : ℕ)
  | deleted (done : Bool)
  | size (n : ℕ)
  deriving DecidableEq

def step (t : SkipList) : Op → Exec (Out × SkipList)
  | .insert score val lv addr => do
    let r ← t.insert score val lv addr
    pure (.found r.1.1 r.1.2, r.2)
  | .delete score val => do
    let r ← t.delete score val
    pure (.deleted r.1, r.2)
  | .find score val => do
    let r ← t.find score val
    pure (.found r.1.1 r.1.2, r.2)
  | .modify score val lv addr => do
    let r ← t.modify score val lv addr
    pure (.found r.1.1 r.1.2, r.2)
  | .getSize => .ok (.size t.getSize, t)

end SkipList

end DeftRpc.DataStruct
