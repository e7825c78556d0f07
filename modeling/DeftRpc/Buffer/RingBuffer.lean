import DeftRpc.Foundation.Bytes
import DeftRpc.Foundation.Ring
import DeftRpc.Foundation.Word

/-!
# The ring buffer (RingBuffer.h, RingBuffer.cpp)

`m_buffer_` is the storage, its length the capacity (the vector is only ever
replaced by one constructed with exactly the new capacity). Copies go through
`readAt` and `writeAt`, so an iterator outside the storage is a fault. The
`uint32_t` counters wrap.
-/

namespace DeftRpc.Buffer
open DeftRpc.Foundation

def maxPackageLen : ℕ := 1024
def singleExpansion : ℕ := 1024
def multiplyExpansionLimit : ℕ := 2048
def defaultBufferLen : ℕ := 2048

structure RingBuffer where
  mBegin : ℕ := 0
  mEnd : ℕ := 0
  mSize : ℕ := 0
  mBuffer : List Byte := List.replicate defaultBufferLen 0
  deriving DecidableEq

namespace RingBuffer

def fresh : RingBuffer := {}

def size (b : RingBuffer) : ℕ := b.mSize

def empty (b : RingBuffer) : Bool := b.mBegin == b.mEnd && b.mSize == 0

def capacity (b : RingBuffer) : ℕ := u32 b.mBuffer.length

def clear (b : RingBuffer) : RingBuffer := { b with mBegin := 0, mEnd := 0, mSize := 0 }

def isFull (b : RingBuffer) : Bool := b.mBegin == b.mEnd && b.mSize == b.mBuffer.length

def getTailSpaceLen (b : RingBuffer) : ℕ :=
  if b.mBegin > b.mEnd || b.isFull then 0 else u32Sub b.capacity b.mEnd

def getTailContentLen (b : RingBuffer) : ℕ :=
  if b.mBegin < b.mEnd || b.empty then 0 else u32Sub b.capacity b.mBegin

def getWritableCapacity (b : RingBuffer) : ℕ := u32Sub b.capacity b.mSize

def updateAfterRead (b : RingBuffer) (len : ℕ) : RingBuffer :=
  if b.mSize = len then { b with mSize := 0, mBegin := 0, mEnd := 0 }
  else { b with mSize := u32Sub b.mSize len, mBegin := u32 (b.mBegin + len) % b.capacity }

def updateAfterWrite (b : RingBuffer) (len : ℕ) : RingBuffer :=
  if len = 0 then b
  else if b.mBegin ≥ b.mEnd then
    { b with mSize := u32 (b.mSize + len), mEnd := u32 (b.mEnd + len) }
  else { b with mSize := u32 (b.mSize + len), mEnd := u32 (b.mEnd + len) % b.capacity }

/- The loop of EnableWritableSpace. Its only variable is a uint32_t, so a run
of more than 2^32 turns repeats a value and never ends. -/
def expandLoop (oldCapacity needle : ℕ) : ℕ → ℕ → Exec ℕ
  | 0, _ => .error .diverge
  | turns + 1, newCapacity =>
    let next := if oldCapacity ≤ multiplyExpansionLimit then u32 (newCapacity * 2)
      else u32 (newCapacity + singleExpansion)
    if next < needle then expandLoop oldCapacity needle turns next else .ok next

/-- The content copied to the front of a new storage. -/
def relocate (b : RingBuffer) (tempBuffer : List Byte) : Exec (List Byte) :=
  if b.mBegin < b.mEnd then do
    let content ← readAt b.mBuffer b.mBegin (b.mEnd - b.mBegin)
    writeAt tempBuffer 0 content
  else do
    let tail ← readAt b.mBuffer b.mBegin (b.mBuffer.length - b.mBegin)
    let tempBuffer ← writeAt tempBuffer 0 tail
    let head ← readAt b.mBuffer 0 b.mEnd
    writeAt tempBuffer b.getTailContentLen head

def enableWritableSpace (b : RingBuffer) (requiredFreeCapacity : ℕ) : Exec RingBuffer :=
  if b.mBuffer.length ≥ u32 (requiredFreeCapacity + b.mSize) then .ok b
  else do
    let needle := u32 (b.mSize + requiredFreeCapacity)
    let newCapacity ← expandLoop b.mBuffer.length needle 4294967296 b.capacity
    let buffer ← b.relocate (List.replicate newCapacity 0)
    pure { b with mBegin := 0, mEnd := b.mSize, mBuffer := buffer }

/-- The bytes that Read and Peek copy out; `len` is at most the size. -/
def copyOut (b : RingBuffer) (len : ℕ) : Exec (List Byte) :=
  if b.mBegin < b.mEnd then readAt b.mBuffer b.mBegin len
  else do
    let tailLen := if b.getTailContentLen > len then len else b.getTailContentLen
    let tail ← readAt b.mBuffer b.mBegin tailLen
    if len > tailLen then do
      let head ← readAt b.mBuffer 0 (len - tailLen)
      pure (tail ++ head)
    else pure tail

def read (b : RingBuffer) (len : ℕ) : Exec (List Byte × RingBuffer) :=
  if len = 0 then .ok ([], b)
  else do
    let len := if len > b.mSize then b.mSize else len
    let data ← b.copyOut len
    pure (data, b.updateAfterRead len)

def peek (b : RingBuffer) (len : ℕ) : Exec (List Byte) :=
  if len = 0 then .ok []
  else b.copyOut (if len > b.mSize then b.mSize else len)

def cPeek (b : RingBuffer) (len : ℕ) : Exec (List Byte) := do
  let peek ← b.peek b.size
  pure (if peek.length > len then peek.drop (peek.length - len) else peek)

/-- `Write(data, len)`; `data` is the array the pointer points into. -/
def write (b : RingBuffer) (data : List Byte) (len : ℕ) : Exec (ℕ × RingBuffer) := do
  let b ← b.enableWritableSpace len
  if b.mBegin ≥ b.mEnd then do
    let bytes ← readAt data 0 len
    let buffer ← writeAt b.mBuffer b.mEnd bytes
    pure (len, { b with mBuffer := buffer }.updateAfterWrite len)
  else do
    let tailCapacity := if b.getTailSpaceLen > len then len else b.getTailSpaceLen
    let front ← readAt data 0 tailCapacity
    let buffer ← writeAt b.mBuffer b.mEnd front
    let buffer ← if tailCapacity < len then do
        let back ← readAt data tailCapacity (len - tailCapacity)
        writeAt buffer 0 back
      else pure buffer
    pure (len, { b with mBuffer := buffer }.updateAfterWrite len)

/-! ### FlushDataToFd -/

/-- The segments handed to writev, each as the bytes it points at. -/
def flushIov (b : RingBuffer) : Exec (List (List Byte)) :=
  let tailContentLen := b.getTailContentLen
  if tailContentLen > 0 then do
    let tail ← readAt b.mBuffer b.mBegin tailContentLen
    let head ← readAt b.mBuffer 0 (u32Sub b.mSize tailContentLen)
    pure [tail, head]
  else do
    let content ← readAt b.mBuffer b.mBegin b.mSize
    pure [content]

/-- The result of writev: `none` fails, `some k` accepts the first `k` offered
bytes (all of them when there are fewer). -/
def kernelWritev (answer : Option ℕ) (iov : List (List Byte)) : ℤ :=
  match answer with
  | none => -1
  | some k => (min k iov.flatten.length : ℕ)

/-- Returns the segments offered and the result. -/
def flushDataToFd (b : RingBuffer) (answer : Option ℕ) :
    Exec ((List (List Byte) × ℤ) × RingBuffer) := do
  let iov ← b.flushIov
  let writeSize := int32 (kernelWritev answer iov)
  if writeSize < 0 then pure ((iov, -1), b)
  else pure ((iov, writeSize), b.updateAfterRead writeSize.toNat)

end RingBuffer

end DeftRpc.Buffer
