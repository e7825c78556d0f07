import Mathlib.Data.List.AList
import DeftRpc.DataStruct.HashTable

/-!
# The nodes of a HashTable (Hash.h, hash.cpp)

The same functions over the entries as they lie in memory: a bucket points at the first
node of its chain, a node at the next and at the previous one. Following a pointer to
no node is a fault. The value of an Insert comes with the address that `new` returns.
-/

namespace DeftRpc.DataStruct
open DeftRpc.Foundation

/-- HashEntryBase with the value of HashEntry. -/
structure HashNode (V : Type) where
  mKey : List Byte
  mVal : V
  mNext : Option ℕ := none
  mPrev : Option ℕ := none

abbrev HashNodes (V : Type) := AList fun _ : ℕ => HashNode V

namespace HashNodes
variable {V : Type}

def deref (nodes : HashNodes V) (p : ℕ) : Exec (HashNode V) :=
  match nodes.lookup p with
  | none => .error .badPointer
  | some node => .ok node

def setNext (nodes : HashNodes V) (p : ℕ) (n : Option ℕ) : Exec (HashNodes V) := do
  let node ← nodes.deref p
  pure (nodes.insert p { node with mNext := n })

def setPrev (nodes : HashNodes V) (p : ℕ) (n : Option ℕ) : Exec (HashNodes V) := do
  let node ← nodes.deref p
  pure (nodes.insert p { node with mPrev := n })

/-- `if (p != nullptr) p->SetPrev(n);` -/
def setPrevOf (nodes : HashNodes V) (p n : Option ℕ) : Exec (HashNodes V) :=
  match p with
  | none => .ok nodes
  | some p => nodes.setPrev p n

/-- `entry` is linked in front of the node that its bucket points at. -/
def linkFront (nodes : HashNodes V) (entry : ℕ) (bucket : Option ℕ) : Exec (HashNodes V) := do
  let nodes ← nodes.setNext entry bucket
  let nodes ← nodes.setPrev entry none
  nodes.setPrevOf bucket (some entry)

/-- A walk along more nodes than there are never ends. -/
def turns (nodes : HashNodes V) : ℕ := nodes.entries.length + 1

/-- The loop along a chain: the node with the key and the one before it. -/
def search (nodes : HashNodes V) (key : List Byte) :
    ℕ → Option ℕ → Option ℕ → Exec (Option (Option ℕ × ℕ))
  | 0, _, _ => .error .diverge
  | _ + 1, _, none => .ok none
  | turns + 1, prev, some entry => do
    let node ← nodes.deref entry
    if node.mKey = cString key then pure (some (prev, entry))
    else nodes.search key turns (some entry) node.mNext

/-- ForEachBucket with `delete`: the pointers it deletes. -/
def freeBucket : ℕ → HashNodes V → Option ℕ → Exec (List ℕ × HashNodes V)
  | 0, _, _ => .error .diverge
  | _ + 1, nodes, none => .ok ([], nodes)
  | turns + 1, nodes, some entry => do
    let node ← nodes.deref entry
    let r ← freeBucket turns (nodes.erase entry) node.mNext
    pure (entry :: r.1, r.2)

end HashNodes

/-- The pointer in a bucket. -/
def bucketPtr (table : Option (List (Option ℕ))) (i : ℕ) : Exec (Option ℕ) :=
  match table with
  | none => .error .badPointer
  | some buckets =>
    match buckets[i]? with
    | none => .error .outOfRange
    | some p => .ok p

def setBucketPtr (table : Option (List (Option ℕ))) (i : ℕ) (p : Option ℕ) :
    Option (List (Option ℕ)) :=
  table.map fun buckets => buckets.set i p

/-- ForEachTable from bucket `i` on, for `n` buckets. -/
def freeTable {V : Type} (table : Option (List (Option ℕ))) :
    ℕ → ℕ → HashNodes V → Exec (List ℕ × HashNodes V)
  | 0, _, nodes => .ok ([], nodes)
  | n + 1, i, nodes => do
    let p ← bucketPtr table i
    let r ← HashNodes.freeBucket nodes.turns nodes p
    let rest ← freeTable table n (i + 1) r.2
    pure (r.1 ++ rest.1, rest.2)

structure NodeTable (V : Type) where
  nodes : HashNodes V := ∅
  mTable : Option (List (Option ℕ)) := none
  mRehashTable : Option (List (Option ℕ)) := none
  mSize0 : ℕ := 0
  mSize1 : ℕ := 0
  mUsed0 : ℕ := 0
  mUsed1 : ℕ := 0
  mRehashIdx : Option ℕ := none

namespace NodeTable
variable {V : Type}

def size (t : NodeTable V) : ℕ := t.mUsed0 + t.mUsed1

def isReHashing (t : NodeTable V) : Bool := t.mRehashIdx.isSome

/-- The counters, which are all that NeedExpend, NeedReduce and ExpendSize read. -/
def counters (t : NodeTable V) : HashTable V :=
  { mSize0 := t.mSize0, mSize1 := t.mSize1, mUsed0 := t.mUsed0, mUsed1 := t.mUsed1, mRehashIdx := t.mRehashIdx }

def needExpend (t : NodeTable V) : Bool := t.counters.needExpend

def needReduce (t : NodeTable V) : Bool := t.counters.needReduce

def expendSize (t : NodeTable V) : ℕ := t.counters.expendSize

def expendOrReduce (t : NodeTable V) (len : ℕ) : Exec (NodeTable V) :=
  if len < 31 then
    let buckets := List.replicate (2 ^ len) none
    if t.mSize0 = 0 then .ok { t with mTable := some buckets, mSize0 := len }
    else .ok { t with mRehashTable := some buckets, mSize1 := len, mRehashIdx := some 0 }
  else .error .outOfRange

/-- `if (need) ExpendOrReduce(ExpendSize());` -/
def expendWhen (t : NodeTable V) (need : Bool) : Exec (NodeTable V) :=
  if need then t.expendOrReduce t.expendSize else .ok t

section Hashed
variable (hashFunc : List Byte → ℕ)

/-- The loop of ReHash along the chain of bucket `rehashIdx`. -/
def moveChain (rehashIdx : ℕ) : ℕ → NodeTable V → Option ℕ → Exec (NodeTable V)
  | 0, _, _ => .error .diverge
  | _ + 1, t, none => .ok t
  | turns + 1, t, some entry => do
    let node ← t.nodes.deref entry
    let i := if t.mSize0 < t.mSize1 then hashFunc node.mKey % 2 ^ t.mSize1
      else rehashIdx % 2 ^ t.mSize1
    let bucket ← bucketPtr t.mRehashTable i
    let nodes ← t.nodes.linkFront entry bucket
    moveChain rehashIdx turns { t with
      nodes := nodes
      mRehashTable := setBucketPtr t.mRehashTable i (some entry)
      mUsed0 := t.mUsed0 - 1
      mUsed1 := t.mUsed1 + 1 } node.mNext

def reHash (t : NodeTable V) : Exec (NodeTable V) :=
  match t.mRehashIdx with
  | none => .ok t
  | some idx => do
    let bucket ← bucketPtr t.mTable idx
    let t ← moveChain hashFunc idx t.nodes.turns t bucket
    let t := { t with mTable := setBucketPtr t.mTable idx none }
    if t.mUsed0 = 0 then
      pure { t with
        mRehashIdx := none, mUsed0 := t.mUsed1, mSize0 := t.mSize1, mUsed1 := 0, mSize1 := 0
        mTable := t.mRehashTable, mRehashTable := none }
    else pure { t with mRehashIdx := some (idx + 1) }

/-- `if (IsReHashing()) ReHash();` -/
def reHashStep (t : NodeTable V) : Exec (NodeTable V) :=
  if t.isReHashing then t.reHash hashFunc else .ok t

/-- What FindBucketByKey finds: the entry, or the bucket it would go to. -/
inductive Found where
  | entry (p : ℕ)
  | bucket (i : ℕ)

def findBucketByKey (t : NodeTable V) (key : List Byte) (len : ℕ) : Exec (Found × NodeTable V) := do
  let hashKey := hashFunc (key.take len)
  let t ← t.reHashStep hashFunc
  let t ← t.expendWhen t.needExpend
  let p ← bucketPtr t.mTable (hashKey % 2 ^ t.mSize0)
  let r ← t.nodes.search key t.nodes.turns none p
  match r with
  | some entry => pure (.entry entry.2, t)
  | none =>
    if !t.isReHashing then pure (.bucket (hashKey % 2 ^ t.mSize0), t)
    else do
      let p ← bucketPtr t.mRehashTable (hashKey % 2 ^ t.mSize1)
      let r ← t.nodes.search key t.nodes.turns none p
      match r with
      | some entry => pure (.entry entry.2, t)
      | none => pure (.bucket (hashKey % 2 ^ t.mSize1), t)

def findByKey (t : NodeTable V) (key : List Byte) (len : ℕ) : Exec (Option ℕ × NodeTable V) := do
  let r ← t.findBucketByKey hashFunc key len
  match r.1 with
  | .entry entry => pure (some entry, r.2)
  | .bucket _ => pure (none, r.2)

def insertToBucket (t : NodeTable V) (key : List Byte) (value : ℕ × V) (i : ℕ) :
    Exec (ℕ × NodeTable V) := do
  let entry := value.1
  let nodes : HashNodes V := t.nodes.insert entry { mKey := cString key, mVal := value.2 }
  if t.isReHashing then do
    let bucket ← bucketPtr t.mRehashTable i
    let nodes ← nodes.linkFront entry bucket
    pure (entry, { t with
      nodes := nodes, mUsed1 := t.mUsed1 + 1
      mRehashTable := setBucketPtr t.mRehashTable i (some entry) })
  else do
    let bucket ← bucketPtr t.mTable i
    let nodes ← nodes.linkFront entry bucket
    pure (entry, { t with
      nodes := nodes, mUsed0 := t.mUsed0 + 1, mTable := setBucketPtr t.mTable i (some entry) })

def insert (t : NodeTable V) (key : List Byte) (len : ℕ) (value : ℕ × V) :
    Exec (Option ℕ × NodeTable V) := do
  let r ← t.findBucketByKey hashFunc key len
  match r.1 with
  | .entry _ => pure (none, r.2)
  | .bucket i => do
    let r ← r.2.insertToBucket key value i
    pure (some r.1, r.2)

/-- `entry` is taken out of the chain of bucket `i` and deleted. -/
def unlink (nodes : HashNodes V) (table : Option (List (Option ℕ))) (i : ℕ) (prev : Option ℕ)
    (entry : ℕ) : Exec (HashNodes V × Option (List (Option ℕ))) := do
  let node ← nodes.deref entry
  match prev with
  | none => do
    let nodes ← nodes.setPrevOf node.mNext none
    pure (nodes.erase entry, setBucketPtr table i node.mNext)
  | some q => do
    let nodes ← nodes.setNext q node.mNext
    let nodes ← nodes.setPrevOf node.mNext (some q)
    pure (nodes.erase entry, table)

def delete (t : NodeTable V) (key : List Byte) (len : ℕ) : Exec (NodeTable V) := do
  let hashKey := hashFunc (key.take len)
  let t ← t.reHashStep hashFunc
  let t ← t.expendWhen t.needReduce
  let p ← bucketPtr t.mTable (hashKey % 2 ^ t.mSize0)
  let r ← t.nodes.search key t.nodes.turns none p
  match r with
  | some (prev, entry) => do
    let u ← unlink t.nodes t.mTable (hashKey % 2 ^ t.mSize0) prev entry
    pure { t with nodes := u.1, mUsed0 := t.mUsed0 - 1, mTable := u.2 }
  | none =>
    if !t.isReHashing then pure t
    else do
      let p ← bucketPtr t.mRehashTable (hashKey % 2 ^ t.mSize1)
      let r ← t.nodes.search key t.nodes.turns none p
      match r with
      | some (prev, entry) => do
        let u ← unlink t.nodes t.mRehashTable (hashKey % 2 ^ t.mSize1) prev entry
        pure { t with nodes := u.1, mUsed1 := t.mUsed1 - 1, mRehashTable := u.2 }
      | none => pure t

def step (t : NodeTable V) : HashTable.HashOp (ℕ × V) → Exec (Option ℕ × NodeTable V)
  | .insert key len value => t.insert hashFunc key len value
  | .find key len => t.findByKey hashFunc key len
  | .delete key len => do
    let t ← t.delete hashFunc key len
    pure (none, t)

end Hashed

/-- `~HashTable()`: the pointers that it deletes, and the nodes that are left. -/
def destroy (t : NodeTable V) : Exec (List ℕ × HashNodes V) := do
  let r ← freeTable t.mTable (2 ^ t.mSize0) 0 t.nodes
  if t.isReHashing then do
    let rest ← freeTable t.mRehashTable (2 ^ t.mSize1) 0 r.2
    pure (r.1 ++ rest.1, rest.2)
  else pure r

/-! ### Runs -/

/-- `new` returns the address of no node. -/
def Fresh (t : NodeTable V) : HashTable.HashOp (ℕ × V) → Prop
  | .insert _ _ value => value.1 ∉ t.nodes
  | .find _ _ => True
  | .delete _ _ => True

instance (t : NodeTable V) : ∀ op, Decidable (t.Fresh op)
  | .insert _ _ value => inferInstanceAs (Decidable (value.1 ∉ t.nodes))
  | .find _ _ => .isTrue trivial
  | .delete _ _ => .isTrue trivial

def Reachable (hashFunc : List Byte → ℕ) (t : NodeTable V) : Prop :=
  ∃ ops outs, StepsOk (step hashFunc) Fresh {} ops ∧ runOps (step hashFunc) {} ops = .ok (outs, t)

end NodeTable

end DeftRpc.DataStruct
