import DeftRpc.Foundation.Interleave
import DeftRpc.Foundation.Word

/-!
# LockFreeQueue.h

Each atomic access of EnQueue and Dequeue is a step of its own; the program
counter of a call says which access is next and holds its local variables.
Addresses are handed out in order and never again, so `delete` has no effect
that another access could see. `m_size_` is kept before its reduction to
32 bits, which `Size()` makes.
-/

namespace DeftRpc.Concurrent
open DeftRpc.Foundation

variable {ε : Type}

abbrev Addr := ℕ

/-- `nullptr` is `none`; so is an element that has not been constructed. -/
structure QueueNode (ε : Type) where
  mNext : Option Addr
  mElement : Option ε

structure LockFreeQueue (ε : Type) where
  mHead : Option Addr
  mTail : Addr
  mSize : ℤ
  nodes : Addr → QueueNode ε
  unused : Addr

namespace LockFreeQueue

def new : LockFreeQueue ε :=
  { mHead := some 0, mTail := 0, mSize := 0, nodes := fun _ => ⟨none, none⟩, unused := 1 }

def size (q : LockFreeQueue ε) : ℤ := q.mSize % 4294967296

def setNode (q : LockFreeQueue ε) (a : Addr) (node : QueueNode ε) : LockFreeQueue ε :=
  { q with nodes := Function.update q.nodes a node }

/-- `m_tail_.compare_exchange_strong(expected, desired)`. -/
def casTail (q : LockFreeQueue ε) (expected desired : Addr) : LockFreeQueue ε :=
  if q.mTail = expected then { q with mTail := desired } else q

end LockFreeQueue

/-! ### EnQueue -/

inductive EnPc (ε : Type) where
  | idle
  | storeNext (newNode : Addr) (element : ε)
  | loadTail (newNode : Addr)
  | loadNext (newNode curTail : Addr)
  | checkTail (newNode curTail : Addr) (curTailNext : Option Addr)
  | linkNext (newNode curTail : Addr)
  | addSize (newNode curTail : Addr)
  | swingTail (newNode curTail : Addr)
  | helpTail (newNode curTail curTailNext : Addr)

/-- `new ElementNodeType{}`. -/
def enQueueCall (q : LockFreeQueue ε) (element : ε) : LockFreeQueue ε × EnPc ε :=
  ({ q with unused := q.unused + 1 }, .storeNext q.unused element)

/-- The next access of a call; the last component is the element just linked. -/
def enQueueStep (q : LockFreeQueue ε) : EnPc ε → Option (LockFreeQueue ε × EnPc ε × Option ε)
  | .idle => none
  | .storeNext newNode element => some (q.setNode newNode ⟨none, some element⟩, .loadTail newNode, none)
  | .loadTail newNode => some (q, .loadNext newNode q.mTail, none)
  | .loadNext newNode curTail =>
    some (q, .checkTail newNode curTail (q.nodes curTail).mNext, none)
  | .checkTail newNode curTail curTailNext =>
    if q.mTail = curTail then
      match curTailNext with
      | none => some (q, .linkNext newNode curTail, none)
      | some next => some (q, .helpTail newNode curTail next, none)
    else some (q, .loadTail newNode, none)
  | .linkNext newNode curTail =>
    match (q.nodes curTail).mNext with
    | none => some (q.setNode curTail { q.nodes curTail with mNext := some newNode },
        .addSize newNode curTail, (q.nodes newNode).mElement)
    | some _ => some (q, .loadTail newNode, none)
  | .addSize newNode curTail =>
    some ({ q with mSize := q.mSize + 1 }, .swingTail newNode curTail, none)
  | .swingTail newNode curTail => some (q.casTail curTail newNode, .idle, none)
  | .helpTail newNode curTail next => some (q.casTail curTail next, .loadTail newNode, none)

/-! ### Dequeue -/

inductive DePc (ε : Type) where
  | idle
  | loadHead
  | loadNext (curHead : Addr)
  | loadTail (curHead : Addr) (next : Option Addr)
  | checkHead (curHead : Addr) (next : Option Addr) (curTail : Addr)
  | compareTail (curHead : Addr) (next : Option Addr) (curTail : Addr)
  | helpTail (next curTail : Addr)
  | moveHead (curHead : Addr) (next : Option Addr)
  | subSize (element : Option ε)
  | nullHead
  | nullNext

namespace DePc

/-- The element read by a call that has not returned. -/
def taken : DePc ε → List (Option ε)
  | .subSize element => [element]
  | _ => []

def calling : DePc ε → Prop
  | .idle => False
  | _ => True

end DePc

/-- The next access of a call; the last component is what the call returns, `none`
inside of it for `Element{}`. A call is stuck in `nullHead` when it has loaded a null
`m_head_`, and in `nullNext` when it has stored one and reads the element of `next`. -/
def deQueueStep (q : LockFreeQueue ε) : DePc ε →
    Option (LockFreeQueue ε × DePc ε × Option (Option ε))
  | .idle => none
  | .loadHead =>
    match q.mHead with
    | some curHead => some (q, .loadNext curHead, none)
    | none => some (q, .nullHead, none)
  | .loadNext curHead => some (q, .loadTail curHead (q.nodes curHead).mNext, none)
  | .loadTail curHead next => some (q, .checkHead curHead next q.mTail, none)
  | .checkHead curHead next curTail =>
    some (q, if q.mHead = some curHead then .compareTail curHead next curTail else .loadHead, none)
  | .compareTail curHead next curTail =>
    if some curTail = q.mHead then
      match next with
      | some n => some (q, .helpTail n curTail, none)
      | none => some (q, .idle, some none)
    else some (q, .moveHead curHead next, none)
  | .helpTail next curTail => some (q.casTail curTail next, .loadHead, none)
  | .moveHead curHead next =>
    if q.mHead = some curHead then
      match next with
      | some n => some ({ q with mHead := some n }, .subSize (q.nodes n).mElement, none)
      | none => some ({ q with mHead := none }, .nullNext, none)
    else some (q, .loadHead, none)
  | .subSize element => some ({ q with mSize := q.mSize - 1 }, .idle, some element)
  | .nullHead => none
  | .nullNext => none

/-! ### Producers and the consumer of Scheduler::Start -/

/-- `enqueued` lists the elements in the order of their links, `dequeued` what the
calls of Dequeue have returned. -/
structure QueueState (ι ε : Type) where
  queue : LockFreeQueue ε := .new
  producers : ι → EnPc ε := fun _ => .idle
  consumer : DePc ε := .idle
  enqueued : List ε := []
  dequeued : List (Option ε) := []

inductive QueueAct (ι ε : Type) where
  | enQueue (i : ι) (element : ε)
  | producer (i : ι)
  | consumer

variable {ι : Type} [DecidableEq ι]

/-- The consumer reads Size() and calls Dequeue when it is positive. -/
def queueStep (s : QueueState ι ε) : QueueAct ι ε → Option (QueueState ι ε)
  | .enQueue i element =>
    match s.producers i with
    | .idle =>
      let r := enQueueCall s.queue element
      some { s with queue := r.1, producers := Function.update s.producers i r.2 }
    | _ => none
  | .producer i =>
    (enQueueStep s.queue (s.producers i)).map fun r =>
      { s with
        queue := r.1, producers := Function.update s.producers i r.2.1,
        enqueued := s.enqueued ++ r.2.2.toList }
  | .consumer =>
    match s.consumer with
    | .idle => some { s with consumer := if 0 < s.queue.size then .loadHead else .idle }
    | _ => (deQueueStep s.queue s.consumer).map fun r =>
      { s with queue := r.1, consumer := r.2.1, dequeued := s.dequeued ++ r.2.2.toList }

theorem queueStep_enQueue {s s' : QueueState ι ε} {i : ι} {element : ε}
    (h : queueStep s (.enQueue i element) = some s') :
    s.producers i = .idle ∧ s' = { s with
      queue := (enQueueCall s.queue element).1,
      producers := Function.update s.producers i (enQueueCall s.queue element).2 } := by
  cases hpc : s.producers i with
  | idle =>
    simp only [queueStep, hpc, Option.some.injEq] at h
    exact ⟨rfl, h.symm⟩
  | storeNext _ _ | loadTail _ | loadNext _ _ | checkTail _ _ _ | linkNext _ _ | addSize _ _
  | swingTail _ _ | helpTail _ _ _ =>
    simp only [queueStep, hpc] at h
    cases h

end DeftRpc.Concurrent
