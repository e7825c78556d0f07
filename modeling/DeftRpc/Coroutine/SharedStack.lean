import DeftRpc.Foundation.Bytes
import DeftRpc.Foundation.Memory
import DeftRpc.Foundation.Ring

/-!
# Contexts on a shared stack (CoroutineContext.h, CoroutineContext.cpp)

Addresses are naturals, `0` is the null pointer. Of the registers a context
keeps, the stack pointer and the return address are modelled: the others hold
nothing that the code copies. The main coroutine has no shared stack and its
context is not modelled.
-/

namespace DeftRpc.Coroutine
open DeftRpc.Foundation

/-- What the constructor of SharedStack maps: at least one page. -/
structure StackRegion where
  mStack : ℕ
  mStackSize : ℕ
  mapped : 0 < mStack
  page : 4096 ≤ mStackSize
  space : mStack + mStackSize < 18446744073709551616

structure Coctx where
  kRSP : ℕ := 0
  kRETAddr : ℕ := 0
  deriving DecidableEq

def Coctx.empty (ctx : Coctx) : Bool := ctx.kRSP == 0 && ctx.kRETAddr == 0

structure StStackMem where
  mSavedStack : Option (List Byte) := none
  mValidSize : ℕ := 0
  mSaveStackSize : ℕ := 0
  mStackSize : ℕ := 0
  mStackBp : ℕ := 0
  mStackBuffer : ℕ := 0
  mShareStack : Bool := false

def StStackMem.empty (mem : StStackMem) : Bool := mem.mSavedStack.isNone && mem.mStackBuffer == 0

def growLoop (validSize : ℕ) : ℕ → ℕ → Exec ℕ
  | 0, _ => .error .diverge
  | turns + 1, size =>
    if validSize ≥ 2 * size then growLoop validSize turns (2 * size) else .ok (2 * size)

/-- The buffer for the saved bytes; a shift of a `size_t` by more than 64 bits is
never reached. -/
def growSaved (mem : StStackMem) (validSize : ℕ) : Exec StStackMem :=
  if validSize ≥ mem.mSaveStackSize then do
    let size := if mem.mSaveStackSize = 0 then 2 else mem.mSaveStackSize
    let size ← growLoop validSize 64 size
    pure { mem with
      mValidSize := validSize, mSaveStackSize := size, mSavedStack := some (List.replicate size 0) }
  else pure { mem with mValidSize := validSize }

structure CoroutineContext where
  mFunc : ℕ
  mCtx : Coctx := {}
  mMem : StStackMem := {}

/-- The shared stack with its owner, the memory, and the contexts of all
coroutines; `running` is `none` while the main coroutine runs. -/
structure World (ι : Type) where
  region : StackRegion
  mOwner : Option ι := none
  memory : ℕ → Byte
  ctxs : ι → CoroutineContext
  running : Option ι := none

namespace World
variable {ι : Type} [DecidableEq ι]

def setCtx (w : World ι) (c : ι) (ctx : CoroutineContext) : World ι :=
  { w with ctxs := Function.update w.ctxs c ctx }

/-- A copy from or to the range stays inside the stack. -/
def inStack (w : World ι) (addr len : ℕ) : Bool :=
  decide (w.region.mStack ≤ addr) && decide (addr + len ≤ w.region.mStack + w.region.mStackSize)

/-- SharedStack::SaveStack. -/
def saveStack (w : World ι) (stack : List Byte) (size : ℕ) : Exec (List Byte) :=
  if w.inStack w.region.mStack size then writeAt stack 0 (load w.memory w.region.mStack size)
  else .error .outOfRange

/-- SharedStack::LoadStack. -/
def loadStack (w : World ι) (stack : List Byte) (size : ℕ) : Exec (World ι) := do
  let data ← readAt stack 0 size
  if w.inStack w.region.mStack size then
    pure { w with memory := store w.memory w.region.mStack data }
  else .error .outOfRange

/- A stack pointer above m_stack_bp_ gives a size with which the copy leaves the
stack. -/
def saveSharedStack (w : World ι) (c : ι) : Exec (World ι) :=
  let ctx := w.ctxs c
  if ctx.mMem.mStackBp < ctx.mCtx.kRSP then .error .outOfRange
  else do
    let mem ← growSaved ctx.mMem (ctx.mMem.mStackBp - ctx.mCtx.kRSP)
    match mem.mSavedStack with
    | none => .error .badPointer
    | some saved => do
      let saved ← w.saveStack saved mem.mValidSize
      pure { w.setCtx c { ctx with mMem := { mem with mSavedStack := some saved } } with
        mOwner := none }

def saveOwnerStack (w : World ι) (c : ι) : Exec (World ι) :=
  match w.mOwner with
  | none => .ok w
  | some owner => if owner = c then .ok w else w.saveSharedStack owner

/-- MakeMem of a context with a shared stack. -/
def makeMem (w : World ι) (c : ι) : World ι :=
  let ctx := w.ctxs c
  w.setCtx c { ctx with mMem := { ctx.mMem with
    mStackBuffer := w.region.mStack, mStackSize := w.region.mStackSize,
    mStackBp := w.region.mStack + w.region.mStackSize, mShareStack := true } }

def makeCtx (w : World ι) (c : ι) : Exec (World ι) := do
  let w ← w.saveOwnerStack c
  let w := { w with mOwner := some c }
  let ctx := w.ctxs c
  let sp := (ctx.mMem.mStackBp - 8) / 16 * 16
  if w.inStack sp 8 then
    pure { w.setCtx c { ctx with mCtx := ⟨sp, ctx.mFunc⟩ } with
      memory := store w.memory sp (leBytes 8 ctx.mFunc) }
  else .error .outOfRange

def loadSharedStack (w : World ι) (c : ι) : Exec (World ι) :=
  match (w.ctxs c).mMem.mSavedStack with
  | none => .error .badPointer
  | some saved => w.loadStack saved (w.ctxs c).mMem.mValidSize

/-- CoctxSwap into `c`: the return address is pushed where the stack pointer of
the context points. -/
def coctxSwapIn (w : World ι) (c : ι) : Exec (World ι) :=
  let ctx := (w.ctxs c).mCtx
  if w.inStack ctx.kRSP 8 then
    .ok { w with memory := store w.memory ctx.kRSP (leBytes 8 ctx.kRETAddr), running := some c }
  else .error .outOfRange

/-- SwapCtx of the context of `c`, called by the main coroutine. -/
def swapCtx (w : World ι) (c : ι) : Exec (World ι) := do
  let w ← w.saveOwnerStack c
  let w := if (w.ctxs c).mMem.empty then w.makeMem c else w
  let w ← if (w.ctxs c).mCtx.empty then w.makeCtx c else pure w
  let w ← if (w.ctxs c).mMem.mValidSize ≠ 0 ∧ w.mOwner ≠ some c then w.loadSharedStack c
    else pure w
  w.coctxSwapIn c

/-- CoctxSwap out of `c` with stack pointer `sp`, called by SwapCtx of the main context. -/
def coctxSwapOut (w : World ι) (c : ι) (sp : ℕ) : World ι :=
  { w.setCtx c { w.ctxs c with mCtx := ⟨sp, leVal (load w.memory sp 8)⟩ } with running := none }

/-- `[kRSP, m_stack_bp_)`. -/
def liveRegion (w : World ι) (c : ι) : List Byte :=
  load w.memory (w.ctxs c).mCtx.kRSP ((w.ctxs c).mMem.mStackBp - (w.ctxs c).mCtx.kRSP)

end World

/-! ### Runs -/

inductive SwapOp (ι : Type) where
  | swapIn (c : ι)
  | write (addr : ℕ) (byte : Byte)
  | yield (sp : ℕ)

inductive SwapOut where
  | entered
  | resumed (live : List Byte)
  | written
  | yielded (live : List Byte)
  deriving DecidableEq

section
variable {ι : Type} [DecidableEq ι]

/-- The main coroutine swaps in, the running coroutine writes or yields. -/
def swapStep (w : World ι) : SwapOp ι → Exec (SwapOut × World ι)
  | .swapIn c =>
    match w.running with
    | some _ => .error .badPointer
    | none => do
      let w' ← w.swapCtx c
      pure (if (w.ctxs c).mCtx.empty then .entered else .resumed (w'.liveRegion c), w')
  | .write addr byte =>
    if w.running.isSome && w.inStack addr 1 then
      .ok (.written, { w with memory := store w.memory addr [byte] })
    else .error .outOfRange
  | .yield sp =>
    match w.running with
    | none => .error .badPointer
    | some c => .ok (.yielded ((w.coctxSwapOut c sp).liveRegion c), w.coctxSwapOut c sp)

def World.start (region : StackRegion) (mFunc : ι → ℕ) (memory : ℕ → Byte) : World ι :=
  { region := region, memory := memory, ctxs := fun c => { mFunc := mFunc c } }

end

end DeftRpc.Coroutine
