import DeftRpc.Foundation.Bytes
import DeftRpc.Foundation.Exec

/-!
# HashTable (Hash.h, hash.cpp)

An array of buckets is a list of chains, a chain is the list of its entries from
the head on; the backward links follow from it. A key is the memory that the
`char` pointer points at. A load factor `a <= used / (1 << size)` is compared by
multiplying out, which is exact for these doubles.
-/

namespace DeftRpc.DataStruct
open DeftRpc.Foundation

structure HashEntry (V : Type) where
  key : List Byte
  val : V
  deriving DecidableEq

/-- `1 << len` buckets. From 31 on the shift is no `int`, and nothing is allocated. -/
def makeTable (V : Type) (len : ℕ) : Exec (List (List (HashEntry V))) :=
  if len < 31 then .ok (List.replicate (2 ^ len) []) else .error .outOfRange

/-- The string that a `const char *` is read as. -/
def cString (key : List Byte) : List Byte := key.takeWhile fun c => c ≠ 0

structure HashTable (V : Type) where
  mTable : Option (List (List (HashEntry V))) := none
  mRehashTable : Option (List (List (HashEntry V))) := none
  mSize0 : ℕ := 0
  mSize1 : ℕ := 0
  mUsed0 : ℕ := 0
  mUsed1 : ℕ := 0
  mRehashIdx : Option ℕ := none
  deriving DecidableEq

/-- A chain of one of the two arrays. -/
def bucketAt {V : Type} (table : Option (List (List (HashEntry V)))) (i : ℕ) :
    Exec (List (HashEntry V)) :=
  match table with
  | none => .error .badPointer
  | some buckets =>
    match buckets[i]? with
    | none => .error .outOfRange
    | some chain => .ok chain

def setBucket {V : Type} (table : Option (List (List (HashEntry V)))) (i : ℕ)
    (chain : List (HashEntry V)) : Option (List (List (HashEntry V))) :=
  table.map fun buckets => buckets.set i chain

namespace HashTable
variable {V : Type}

def size (t : HashTable V) : ℕ := t.mUsed0 + t.mUsed1

def isEmpty (t : HashTable V) : Bool := t.mUsed0 + t.mUsed1 == 0

def isReHashing (t : HashTable V) : Bool := t.mRehashIdx.isSome

def needExpend (t : HashTable V) : Bool :=
  t.mSize0 == 0 || (!t.isReHashing && decide (2 ^ t.mSize0 ≤ t.mUsed0))

def needReduce (t : HashTable V) : Bool :=
  !t.isReHashing && decide (2 * t.mUsed0 ≤ 2 ^ t.mSize0)

/- `do { ++temp; } while ((1 << temp) <= target)`; at `target + 1` the power is larger. -/
def expendLoop (target : ℕ) : ℕ → ℕ → ℕ
  | 0, temp => temp
  | turns + 1, temp =>
    if 2 ^ (temp + 1) ≤ target then expendLoop target turns (temp + 1) else temp + 1

def expendSize (t : HashTable V) : ℕ :=
  if t.mSize0 = 0 then 4
  else expendLoop (4 * t.mUsed0) (4 * t.mUsed0 + 1) t.mSize0

def expendOrReduce (t : HashTable V) (len : ℕ) : Exec (HashTable V) := do
  let buckets ← makeTable V len
  if t.mSize0 = 0 then pure { t with mTable := some buckets, mSize0 := len }
  else pure { t with mRehashTable := some buckets, mSize1 := len, mRehashIdx := some 0 }

/-- `if (need) ExpendOrReduce(ExpendSize());` -/
def expendWhen (t : HashTable V) (need : Bool) : Exec (HashTable V) :=
  if need then t.expendOrReduce t.expendSize else .ok t

section Hashed
variable (hashFunc : List Byte → ℕ)

/-- The entries of one bucket move to the heads of their new buckets. -/
def moveChain (rehashIdx : ℕ) : HashTable V → List (HashEntry V) → Exec (HashTable V)
  | t, [] => .ok t
  | t, entry :: chain => do
    let i := if t.mSize0 < t.mSize1 then hashFunc entry.key % 2 ^ t.mSize1
      else rehashIdx % 2 ^ t.mSize1
    let bucket ← bucketAt t.mRehashTable i
    moveChain rehashIdx { t with
      mRehashTable := setBucket t.mRehashTable i (entry :: bucket)
      mUsed0 := t.mUsed0 - 1
      mUsed1 := t.mUsed1 + 1 } chain

def reHash (t : HashTable V) : Exec (HashTable V) :=
  match t.mRehashIdx with
  | none => .ok t
  | some idx => do
    let chain ← bucketAt t.mTable idx
    let t ← moveChain hashFunc idx t chain
    let t := { t with mTable := setBucket t.mTable idx [] }
    if t.mUsed0 = 0 then
      pure { t with
        mRehashIdx := none, mUsed0 := t.mUsed1, mSize0 := t.mSize1, mUsed1 := 0, mSize1 := 0
        mTable := t.mRehashTable, mRehashTable := none }
    else pure { t with mRehashIdx := some (idx + 1) }

/-- `if (IsReHashing()) ReHash();` -/
def reHashStep (t : HashTable V) : Exec (HashTable V) :=
  if t.isReHashing then t.reHash hashFunc else .ok t

/-- What FindBucketByKey finds: the entry, or the bucket it would go to. -/
inductive Found (V : Type) where
  | entry (e : HashEntry V)
  | bucket (i : ℕ)

def findBucketByKey (t : HashTable V) (key : List Byte) (len : ℕ) :
    Exec (Found V × HashTable V) := do
  let hashKey := hashFunc (key.take len)
  let t ← t.reHashStep hashFunc
  let t ← t.expendWhen t.needExpend
  let chain ← bucketAt t.mTable (hashKey % 2 ^ t.mSize0)
  match chain.find? fun entry => entry.key = cString key with
  | some entry => pure (.entry entry, t)
  | none =>
    if !t.isReHashing then pure (.bucket (hashKey % 2 ^ t.mSize0), t)
    else do
      let chain ← bucketAt t.mRehashTable (hashKey % 2 ^ t.mSize1)
      match chain.find? fun entry => entry.key = cString key with
      | some entry => pure (.entry entry, t)
      | none => pure (.bucket (hashKey % 2 ^ t.mSize1), t)

def findByKey (t : HashTable V) (key : List Byte) (len : ℕ) :
    Exec (Option (HashEntry V) × HashTable V) := do
  let r ← t.findBucketByKey hashFunc key len
  match r.1 with
  | .entry entry => pure (some entry, r.2)
  | .bucket _ => pure (none, r.2)

def insertToBucket (t : HashTable V) (key : List Byte) (value : V) (i : ℕ) :
    Exec (HashEntry V × HashTable V) := do
  let entry : HashEntry V := ⟨cString key, value⟩
  if t.isReHashing then do
    let bucket ← bucketAt t.mRehashTable i
    pure (entry, { t with
      mUsed1 := t.mUsed1 + 1, mRehashTable := setBucket t.mRehashTable i (entry :: bucket) })
  else do
    let bucket ← bucketAt t.mTable i
    pure (entry, { t with
      mUsed0 := t.mUsed0 + 1, mTable := setBucket t.mTable i (entry :: bucket) })

def insert (t : HashTable V) (key : List Byte) (len : ℕ) (value : V) :
    Exec (Option (HashEntry V) × HashTable V) := do
  let r ← t.findBucketByKey hashFunc key len
  match r.1 with
  | .entry _ => pure (none, r.2)
  | .bucket i => do
    let r ← r.2.insertToBucket key value i
    pure (some r.1, r.2)

def delete (t : HashTable V) (key : List Byte) (len : ℕ) : Exec (HashTable V) := do
  let hashKey := hashFunc (key.take len)
  let t ← t.reHashStep hashFunc
  let t ← t.expendWhen t.needReduce
  let chain ← bucketAt t.mTable (hashKey % 2 ^ t.mSize0)
  if chain.any fun entry => entry.key = cString key then
    pure { t with
      mUsed0 := t.mUsed0 - 1
      mTable := setBucket t.mTable (hashKey % 2 ^ t.mSize0)
        (chain.eraseP fun entry => entry.key = cString key) }
  else if !t.isReHashing then pure t
  else do
    let chain ← bucketAt t.mRehashTable (hashKey % 2 ^ t.mSize1)
    if chain.any fun entry => entry.key = cString key then
      pure { t with
        mUsed1 := t.mUsed1 - 1
        mRehashTable := setBucket t.mRehashTable (hashKey % 2 ^ t.mSize1)
          (chain.eraseP fun entry => entry.key = cString key) }
    else pure t

/-! ### Runs -/

inductive HashOp (V : Type) where
  | insert (key : List Byte) (len : ℕ) (value : V)
  | find (key : List Byte) (len : ℕ)
  | delete (key : List Byte) (len : ℕ)

/-- Delete returns nothing. -/
def step (t : HashTable V) : HashOp V → Exec (Option (HashEntry V) × HashTable V)
  | .insert key len value => t.insert hashFunc key len value
  | .find key len => t.findByKey hashFunc key len
  | .delete key len => do
    let t ← t.delete hashFunc key len
    pure (none, t)

end Hashed

end HashTable

end DeftRpc.DataStruct
