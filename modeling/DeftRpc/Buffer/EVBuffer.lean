import DeftRpc.Buffer.RingQueue

/-!
# EVBuffer (EVBuffer.h, EVBuffer.cpp)

An iovec is the bytes that it points at. The array has the length with which it was
allocated, which `m_size_` is only sometimes; an index outside of it is a fault. The
`unsigned int` counters wrap.
-/

namespace DeftRpc.Buffer
open DeftRpc.Foundation

structure EVBuffer where
  mIovecs : List (List Byte) := List.replicate 3 []
  mSize : ℕ := 3
  mBegin : ℕ := 0
  mEnd : ℕ := 0
  deriving DecidableEq

namespace EVBuffer

def empty (b : EVBuffer) : Bool := b.mBegin == b.mEnd

def clear (b : EVBuffer) : EVBuffer := { b with mBegin := 0, mEnd := 0 }

/-- The branch of Write for a full array. -/
def makeRoom (b : EVBuffer) : Exec EVBuffer :=
  if b.mBegin ≠ 0 then do
    let items ← readAt b.mIovecs b.mBegin (b.mEnd - b.mBegin)
    let iovecs ← writeAt b.mIovecs (b.mBegin - 1) items
    pure { b with mIovecs := iovecs, mEnd := u32Sub b.mEnd 1 }
  else do
    let mSize := u32 (b.mSize + 1)
    let items ← readAt b.mIovecs 0 b.mEnd
    let temp ← writeAt (List.replicate mSize []) 0 items
    pure { b with mIovecs := temp, mSize := mSize }

/-- `Write(data, len)` with `len` the number of bytes at `data`. -/
def write (b : EVBuffer) (data : List Byte) : Exec (ℕ × EVBuffer) :=
  if data.length = 0 then .ok (0, b)
  else do
    let b ← if b.mSize ≤ b.mEnd then b.makeRoom else pure b
    let iovecs ← writeAt b.mIovecs b.mEnd [data]
    pure (data.length, { b with mIovecs := iovecs, mEnd := u32 (b.mEnd + 1) })

/- The loop of Read. Every turn uses an index and then counts it up, so more turns than
there are iovecs leave the array. -/
def readLoop : ℕ → ℕ → EVBuffer → Exec EVBuffer
  | 0, _, _ => .error .diverge
  | turns + 1, len, b =>
    if b.mBegin = b.mEnd then .ok b
    else match b.mIovecs[b.mBegin]? with
      | none => .error .outOfRange
      | some iov =>
        if iov.length ≤ len then
          readLoop turns (u32Sub len iov.length) { b with mBegin := u32 (b.mBegin + 1) }
        else .ok { b with mIovecs := b.mIovecs.set b.mBegin (iov.drop len) }

/-- Read returns an empty string. -/
def read (b : EVBuffer) (len : ℕ) : Exec (List Byte × EVBuffer) :=
  if b.empty then .ok ([], b)
  else do
    let b ← readLoop (b.mIovecs.length + 1) len b
    let b := if b.mBegin = b.mEnd then { b with mBegin := 0, mEnd := 0 } else b
    pure ([], { b with mSize := u32Sub b.mEnd b.mBegin })

/-- The segments handed to writev, with a negative count none. -/
def flushIov (b : EVBuffer) : Exec (List (List Byte)) :=
  if int32 (u32Sub b.mEnd b.mBegin) < 0 then .ok []
  else readAt b.mIovecs 0 (int32 (u32Sub b.mEnd b.mBegin)).toNat

/-- Returns the segments offered and the result. -/
def flushDataToFd (b : EVBuffer) (answer : Option ℕ) : Exec ((List (List Byte) × ℤ) × EVBuffer) := do
  let iov ← b.flushIov
  let res := int32 (RingBuffer.kernelWritev answer iov)
  let r ← b.read (res % 4294967296).toNat
  pure ((iov, res), r.2)

/-! ### Runs -/

inductive Op where
  | write (data : List Byte)
  | read (len : ℕ)
  | clear
  | flush (answer : Option ℕ)

inductive Out where
  | none
  | count (n : ℕ)
  | bytes (data : List Byte)
  | flushed (offered : List (List Byte)) (result : ℤ)
  deriving DecidableEq

def step (b : EVBuffer) : Op → Exec (Out × EVBuffer)
  | .write data => do
    let r ← b.write data
    pure (.count r.1, r.2)
  | .read len => do
    let r ← b.read len
    pure (.bytes r.1, r.2)
  | .clear => .ok (.none, b.clear)
  | .flush answer => do
    let r ← b.flushDataToFd answer
    pure (.flushed r.1.1 r.1.2, r.2)

def Op.Typed : Op → Prop
  | .write data => data.length < 4294967296
  | .read len => len < 4294967296
  | .clear => True
  | .flush _ => True

instance : ∀ op : Op, Decidable op.Typed
  | .write _ => Nat.decLt _ _
  | .read _ => Nat.decLt _ _
  | .clear => .isTrue trivial
  | .flush _ => .isTrue trivial

end EVBuffer

end DeftRpc.Buffer
