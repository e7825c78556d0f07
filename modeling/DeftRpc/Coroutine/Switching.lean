import DeftRpc.Coroutine.CoctxSwap
import DeftRpc.Foundation.Alignment
import DeftRpc.Foundation.Exec

/-!
# Switching between coroutines (CoroutineContext.cpp, Coroutine.cpp, Scheduler.cpp)

One thread, and coroutines with stacks of their own. What the running coroutine does,
up to the call of CoctxSwap, is a sequence of changes of a register or of a byte.
-/

namespace DeftRpc.Coroutine
open DeftRpc.Foundation

def defaultStackSize : ℕ := 131072

/-- Where the contexts and the stacks lie, and what MakeCtx starts a coroutine with. -/
structure Layout (ι : Type) where
  main : ι
  mCtx : ι → UInt64
  mStackBuffer : ι → UInt64
  mFunc : ι → UInt64
  mArg : ι → UInt64
  ctx_pos : ∀ c, mCtx c ≠ 0
  ctx_fits : ∀ c, (mCtx c).toNat + coctxSize ≤ 2 ^ 64
  ctx_apart : ∀ c c', c ≠ c' → Apart (mCtx c).toNat coctxSize (mCtx c').toNat coctxSize
  stack_fits : ∀ c, c ≠ main → (mStackBuffer c).toNat + defaultStackSize < 2 ^ 64
  stack_apart : ∀ c c', c ≠ main →
    Apart (mStackBuffer c).toNat defaultStackSize (mCtx c').toNat coctxSize

section
variable {ι : Type} (p : Layout ι)

/-- Coctx::Empty. -/
def Layout.empty (memory : ℕ → Byte) (c : ι) : Bool :=
  (List.range 14).all fun i => readWord memory ((p.mCtx c).toNat + 8 * i) == 0

/-- Coctx::Clear. -/
def Layout.clear (memory : ℕ → Byte) (c : ι) : ℕ → Byte := fill memory (p.mCtx c).toNat coctxSize 0

/-- The stack pointer that MakeCtx computes. -/
def Layout.stackTop (c : ι) : UInt64 := (p.mStackBuffer c + UInt64.ofNat defaultStackSize - 8) &&& -16

/-- MakeCtx of a context without a shared stack. -/
def Layout.makeCtx (memory : ℕ → Byte) (c : ι) : ℕ → Byte :=
  let memory := p.clear memory c
  let sp := p.stackTop c
  let memory := writeWord memory sp.toNat (p.mFunc c)
  let memory := writeWord memory ((p.mCtx c).toNat + 104) sp
  let memory := writeWord memory ((p.mCtx c).toNat + 72) (p.mFunc c)
  writeWord memory ((p.mCtx c).toNat + 56) (p.mArg c)

/-- `mCoroutinesList` begins with the back; `made` says whose `m_mem_` is not empty. -/
structure Cpu (ι : Type) where
  machine : Machine Reg
  pc : UInt64
  mCoroutinesList : List ι
  made : ι → Bool

namespace Cpu
variable [DecidableEq ι]

/-- MakeMem of a context without a shared stack. -/
def makeMem (s : Cpu ι) (c : ι) : Cpu ι :=
  { s with
    machine := { s.machine with memory := fill s.machine.memory (p.mStackBuffer c).toNat defaultStackSize 0 }
    made := Function.update s.made c true }

/-- SwapCtx up to the call. -/
def prepare (s : Cpu ι) (c : ι) : Cpu ι :=
  if c = p.main then s
  else
    let s := if s.made c then s else s.makeMem p c
    if p.empty s.machine.memory c then
      { s with machine := { s.machine with memory := p.makeCtx s.machine.memory c } }
    else s

/-- SwapCtx of the context of `next`; the call of CoctxSwap returns to `ret`. -/
def swapCtx (s : Cpu ι) (cur next : ι) (ret : UInt64) : Cpu ι :=
  let s := s.prepare p next
  let m := (s.machine.setReg .rdi (p.mCtx cur)).setReg .rsi (p.mCtx next)
  let r := coctxSwap (m.call .rsp ret)
  { s with pc := r.1, machine := r.2 }

end Cpu

inductive SwitchOp (ι : Type) where
  | setReg (r : Reg) (w : UInt64)
  | write (addr : ℕ) (byte : Byte)
  | swapIn (c : ι) (ret : UInt64)
  | yield (ret : UInt64)
  | terminal (ret : UInt64)
  | reset (c : ι)
  deriving DecidableEq

/-- Yield and Terminal leave different states behind, and nothing else. -/
def Cpu.swapOut [DecidableEq ι] (s : Cpu ι) (ret : UInt64) : Exec (Unit × Cpu ι) :=
  match s.mCoroutinesList with
  | cur :: prev :: rest => .ok ((), { s with mCoroutinesList := prev :: rest }.swapCtx p cur prev ret)
  | _ => .error .badPointer

def switchStep [DecidableEq ι] (s : Cpu ι) : SwitchOp ι → Exec (Unit × Cpu ι)
  | .setReg r w => .ok ((), { s with machine := s.machine.setReg r w })
  | .write addr byte => .ok ((), { s with machine := { s.machine with
      memory := store s.machine.memory addr [byte] } })
  | .swapIn c ret =>
    match s.mCoroutinesList with
    | cur :: rest => .ok ((), { s with mCoroutinesList := c :: cur :: rest }.swapCtx p cur c ret)
    | [] => .error .badPointer
  | .yield ret => s.swapOut p ret
  | .terminal ret => s.swapOut p ret
  | .reset c => .ok ((), { s with machine := { s.machine with memory := p.clear s.machine.memory c } })

/-- The main coroutine runs; no other has a stack yet. -/
def Cpu.start (machine : Machine Reg) (pc : UInt64) : Cpu ι :=
  ⟨machine, pc, [p.main], fun _ => false⟩

/-! ### The conditions on a step -/

def Layout.OffContexts (addr len : ℕ) : Prop := ∀ c, Apart addr len (p.mCtx c).toNat coctxSize

instance [Fintype ι] (addr len : ℕ) : Decidable (p.OffContexts addr len) := Fintype.decidableForallFintype

/-- No write, and no call of CoctxSwap, reaches a context; Yield has a coroutine to go
back to; Reset is not called on the main coroutine or the running one. -/
def SwitchOk (s : Cpu ι) : SwitchOp ι → Prop
  | .setReg _ _ => True
  | .write addr _ => p.OffContexts addr 1
  | .swapIn _ _ => p.OffContexts (s.machine.regs .rsp - 8).toNat 8
  | .yield _ => p.OffContexts (s.machine.regs .rsp - 8).toNat 8 ∧ 2 ≤ s.mCoroutinesList.length
  | .terminal _ => p.OffContexts (s.machine.regs .rsp - 8).toNat 8 ∧ 2 ≤ s.mCoroutinesList.length
  | .reset c => c ≠ p.main ∧ s.mCoroutinesList.head? ≠ some c

instance [Fintype ι] [DecidableEq ι] (s : Cpu ι) (op : SwitchOp ι) : Decidable (SwitchOk p s op) :=
  match op with
  | .setReg _ _ => .isTrue trivial
  | .write addr _ => inferInstanceAs (Decidable (p.OffContexts addr 1))
  | .swapIn _ _ => inferInstanceAs (Decidable (p.OffContexts _ 8))
  | .yield _ => inferInstanceAs (Decidable (p.OffContexts _ 8 ∧ _))
  | .terminal _ => inferInstanceAs (Decidable (p.OffContexts _ 8 ∧ _))
  | .reset c => inferInstanceAs (Decidable (c ≠ p.main ∧ _))

/-! ### Coroutines that run in turn -/

/-- Where a coroutine goes on, and with what registers. -/
structure Frame where
  pc : UInt64
  regs : Reg → UInt64

/-- The coroutines of one thread, without contexts: `left` is how each was left last. -/
structure Threads (ι : Type) where
  listed : List ι
  pc : UInt64
  regs : Reg → UInt64
  memory : ℕ → Byte
  left : ι → Option Frame

def keptRegs : List Reg := [.rbx, .rcx, .rdx, .rbp, .rsp, .r8, .r9, .r12, .r13, .r14, .r15]

/-- The word that a call writes above its stack pointer. -/
def OffCall (regs : Reg → UInt64) (a : ℕ) : Prop :=
  a < (regs .rsp - 8).toNat ∨ (regs .rsp - 8).toNat + 8 ≤ a

/-- It goes on after its own call, with its own registers. -/
structure Resumes (t : Threads ι) (f : Frame) (t' : Threads ι) : Prop where
  pc : t'.pc = f.pc
  regs : ∀ r ∈ keptRegs, t'.regs r = f.regs r
  memory : ∀ a, OffCall t.regs a → OffCall f.regs a → t'.memory a = t.memory a

/-- It begins its function on an aligned stack of its own. -/
structure Enters (t : Threads ι) (c : ι) (t' : Threads ι) : Prop where
  pc : t'.pc = p.mFunc c
  arg : t'.regs .rdi = p.mArg c
  aligned : 16 ∣ (t'.regs .rsp).toNat + 8
  low : (p.mStackBuffer c).toNat ≤ (t'.regs .rsp).toNat
  high : (t'.regs .rsp).toNat ≤ (p.mStackBuffer c).toNat + defaultStackSize
  memory : ∀ a, OffCall t.regs a → a < (p.mStackBuffer c).toNat ∨
    (p.mStackBuffer c).toNat + defaultStackSize ≤ a → t'.memory a = t.memory a

structure Switches [DecidableEq ι] (t : Threads ι) (cur next : ι) (ret : UInt64) (listed : List ι)
    (t' : Threads ι) : Prop where
  listed : t'.listed = listed
  left : t'.left = Function.update t.left cur (some ⟨ret, t.regs⟩)
  resumed : ∀ f, t'.left next = some f → Resumes t f t'
  entered : t'.left next = none → Enters p t next t'

inductive ThreadStep [DecidableEq ι] : Threads ι → SwitchOp ι → Unit → Threads ι → Prop
  | setReg {t : Threads ι} {r : Reg} {w : UInt64} :
      ThreadStep t (.setReg r w) () { t with regs := Function.update t.regs r w }
  | write {t : Threads ι} {addr : ℕ} {byte : Byte} :
      ThreadStep t (.write addr byte) () { t with memory := store t.memory addr [byte] }
  | swapIn {t t' : Threads ι} {cur c : ι} {rest : List ι} {ret : UInt64} :
      t.listed = cur :: rest → Switches p t cur c ret (c :: cur :: rest) t' →
      ThreadStep t (.swapIn c ret) () t'
  | yield {t t' : Threads ι} {cur prev : ι} {rest : List ι} {ret : UInt64} :
      t.listed = cur :: prev :: rest → Switches p t cur prev ret (prev :: rest) t' →
      ThreadStep t (.yield ret) () t'
  | terminal {t t' : Threads ι} {cur prev : ι} {rest : List ι} {ret : UInt64} :
      t.listed = cur :: prev :: rest → Switches p t cur prev ret (prev :: rest) t' →
      ThreadStep t (.terminal ret) () t'
  | reset {t : Threads ι} {c : ι} :
      ThreadStep t (.reset c) () { t with left := Function.update t.left c none }

def Threads.start (machine : Machine Reg) (pc : UInt64) : Threads ι :=
  ⟨[p.main], pc, machine.regs, machine.memory, fun _ => none⟩

/-! ### What the contexts hold -/

/-- The context of a coroutine that was left: the stack pointer is that of the call. -/
structure Suspended (memory : ℕ → Byte) (c : ι) (f : Frame) : Prop where
  held : ∃ regs, Holds memory (p.mCtx c).toNat regs f.pc ∧ regs .rsp = f.regs .rsp - 8 ∧
    regs .rdi ≠ 0 ∧ ∀ r ∈ keptRegs, r ≠ .rsp → regs r = f.regs r
  slot : p.OffContexts (f.regs .rsp - 8).toNat 8

structure Tracks [DecidableEq ι] (s : Cpu ι) (t : Threads ι) : Prop where
  listed : t.listed = s.mCoroutinesList
  nonempty : s.mCoroutinesList ≠ []
  pc : t.pc = s.pc
  regs : t.regs = s.machine.regs
  memory : ∀ a, p.OffContexts a 1 → t.memory a = s.machine.memory a
  suspended : ∀ c f, s.mCoroutinesList.head? ≠ some c → t.left c = some f →
    Suspended p s.machine.memory c f
  fresh : ∀ c, s.mCoroutinesList.head? ≠ some c → t.left c = none →
    c ≠ p.main ∧ p.empty s.machine.memory c = true
  running : ∀ c, s.mCoroutinesList.head? = some c → c ≠ p.main → p.empty s.machine.memory c = false
  made : ∀ c, c ≠ p.main → s.mCoroutinesList.head? = some c ∨ t.left c ≠ none → s.made c = true

/-! ### Contexts -/

section Contexts
variable {p} {memory memory' : ℕ → Byte} {c : ι}

theorem Layout.empty_congr (h : ∀ a, (p.mCtx c).toNat ≤ a → a < (p.mCtx c).toNat + coctxSize →
    memory' a = memory a) : p.empty memory' c = p.empty memory c := by
  have hword : ∀ i ∈ List.range 14, readWord memory' ((p.mCtx c).toNat + 8 * i)
      = readWord memory ((p.mCtx c).toNat + 8 * i) := by
    intro i hi
    have hlt := List.mem_range.mp hi
    have hsize : coctxSize = 112 := rfl
    apply readWord_congr
    intro a hle hlt'
    exact h a (by omega) (by omega)
  rw [Layout.empty, Layout.empty, Bool.eq_iff_iff, List.all_eq_true, List.all_eq_true]
  exact forall₂_congr fun i hi => by rw [hword i hi]

theorem Layout.empty_clear (memory : ℕ → Byte) (c : ι) : p.empty (p.clear memory c) c = true := by
  rw [Layout.empty, List.all_eq_true]
  intro i hi
  have hlt := List.mem_range.mp hi
  have hsize : coctxSize = 112 := rfl
  rw [Layout.clear, readWord_fill_zero (by omega) (by omega)]
  rfl

theorem Layout.clear_outside {a : ℕ} (h : a < (p.mCtx c).toNat ∨ (p.mCtx c).toNat + coctxSize ≤ a) :
    p.clear memory c a = memory a := fill_outside h

theorem rdi_mem_slots : ((.rdi, 56) : Reg × UInt64) ∈ slots := by
  decide

/-- A context that holds a register other than zero is not empty. -/
theorem Layout.empty_of_holds {regs : Reg → UInt64} {pc : UInt64} {slot : Reg × UInt64}
    (h : Holds memory (p.mCtx c).toNat regs pc) (hslot : slot ∈ slots) (hne : regs slot.1 ≠ 0) :
    p.empty memory c = false := by
  have hindex : ∀ s ∈ slots, s.2.toNat = 8 * (s.2.toNat / 8) ∧ s.2.toNat / 8 < 14 := by decide
  obtain ⟨hdiv, hlt⟩ := hindex slot hslot
  have hword := h.regs slot hslot
  rw [hdiv] at hword
  rw [Layout.empty, List.all_eq_false]
  refine ⟨slot.2.toNat / 8, List.mem_range.mpr hlt, ?_⟩
  rw [hword, beq_iff_eq]
  exact hne

theorem Layout.stackTop_toNat (hc : c ≠ p.main) :
    (p.stackTop c).toNat = alignDown 16 ((p.mStackBuffer c).toNat + 131064) := by
  have hfit := p.stack_fits c hc
  have hsize : defaultStackSize = 131072 := rfl
  have hmask : (-16 : UInt64).toNat = 2 ^ 64 - 2 ^ 4 := rfl
  have hlen : (UInt64.ofNat defaultStackSize).toNat = 131072 := rfl
  have h8 : (8 : UInt64).toNat = 8 := rfl
  have hsum : (p.mStackBuffer c + UInt64.ofNat defaultStackSize).toNat
      = (p.mStackBuffer c).toNat + 131072 := by
    rw [UInt64.toNat_add, hlen]
    exact Nat.mod_eq_of_lt (by omega)
  have hle : (8 : UInt64) ≤ p.mStackBuffer c + UInt64.ofNat defaultStackSize := by
    rw [UInt64.le_iff_toNat_le, hsum, h8]
    omega
  rw [Layout.stackTop, UInt64.toNat_and, hmask, UInt64.toNat_sub_of_le _ _ hle, hsum, h8,
    and_two_pow_sub_two_pow (by omega) (by omega)]
  rfl

/-- The return slot lies in the upper half of the stack. -/
theorem Layout.stackTop_inside (hc : c ≠ p.main) :
    (p.mStackBuffer c).toNat + 65536 ≤ (p.stackTop c).toNat ∧
      (p.stackTop c).toNat + 8 ≤ (p.mStackBuffer c).toNat + defaultStackSize := by
  have hle := alignDown_le 16 ((p.mStackBuffer c).toNat + 131064)
  have hlt := Nat.lt_div_mul_add (a := (p.mStackBuffer c).toNat + 131064) (b := 16) (by omega)
  have hsize : defaultStackSize = 131072 := rfl
  rw [p.stackTop_toNat hc]
  rw [alignDown] at hle ⊢
  omega

def Layout.enterRegs (p : Layout ι) (c : ι) : Reg → UInt64 :=
  Function.update (Function.update (fun _ => 0) .rdi (p.mArg c)) .rsp (p.stackTop c)

theorem Layout.makeCtx_holds (hc : c ≠ p.main) (memory : ℕ → Byte) :
    Holds (p.makeCtx memory c) (p.mCtx c).toNat (p.enterRegs c) (p.mFunc c) := by
  have hsize : coctxSize = 112 := rfl
  obtain ⟨hlow, hhigh⟩ := p.stackTop_inside hc
  have hslot : Apart (p.stackTop c).toNat 8 (p.mCtx c).toNat coctxSize := by
    rcases p.stack_apart c c hc with h | h
    · exact Or.inl (by omega)
    · exact Or.inr (by omega)
  rw [Layout.makeCtx]
  refine ⟨?_, ?_⟩
  · intro s hs
    have hin := slots_inside hs
    have hcases : ∀ s ∈ slots, s = (.rsp, 104) ∨ s = (.rdi, 56) ∨
        (s.1 ≠ .rsp ∧ s.1 ≠ .rdi) ∧ (s.2.toNat + 8 ≤ 56 ∨ 64 ≤ s.2.toNat ∧ s.2.toNat + 8 ≤ 72 ∨
          80 ≤ s.2.toNat ∧ s.2.toNat + 8 ≤ 104) := by decide
    rcases hcases s hs with rfl | rfl | ⟨⟨hsp, hdi⟩, hoff⟩
    · have h104 : (104 : UInt64).toNat = 104 := rfl
      rw [h104, readWord_writeWord_of_apart (by omega), readWord_writeWord_of_apart (by omega),
        readWord_writeWord]
      rfl
    · exact readWord_writeWord _ _ _
    · have hzero : p.enterRegs c s.1 = 0 := by
        rw [Layout.enterRegs, Function.update_of_ne hsp, Function.update_of_ne hdi]
      rw [hzero, readWord_writeWord_of_apart (by omega), readWord_writeWord_of_apart (by omega),
        readWord_writeWord_of_apart (by omega), readWord_writeWord_of_apart (by rcases hslot with h | h <;> omega)]
      exact readWord_fill_zero (by omega) (by omega)
  · rw [readWord_writeWord_of_apart (by omega), readWord_writeWord]

theorem Layout.makeCtx_outside {a : ℕ} (hc : c ≠ p.main)
    (hctx : a < (p.mCtx c).toNat ∨ (p.mCtx c).toNat + coctxSize ≤ a)
    (hstack : a < (p.mStackBuffer c).toNat ∨ (p.mStackBuffer c).toNat + defaultStackSize ≤ a) :
    p.makeCtx memory c a = memory a := by
  have hsize : coctxSize = 112 := rfl
  obtain ⟨hlow, hhigh⟩ := p.stackTop_inside hc
  rw [Layout.makeCtx, writeWord_outside (by omega), writeWord_outside (by omega), writeWord_outside (by omega),
    writeWord_outside (by omega), p.clear_outside hctx]

end Contexts

/-! ### One switch -/

section Switch
variable [DecidableEq ι] {p} {s : Cpu ι} {c cur next : ι} {ret pc : UInt64}

theorem Cpu.prepare_known (h : c = p.main ∨ s.made c = true ∧ p.empty s.machine.memory c = false) :
    s.prepare p c = s := by
  rw [Cpu.prepare]
  by_cases hc : c = p.main
  · rw [if_pos hc]
  · obtain ⟨hmade, hfull⟩ := h.resolve_left hc
    simp [hc, hmade, hfull]

@[simp] theorem Cpu.prepare_list : (s.prepare p c).mCoroutinesList = s.mCoroutinesList := by
  unfold Cpu.prepare Cpu.makeMem
  grind

@[simp] theorem Cpu.prepare_regs : (s.prepare p c).machine.regs = s.machine.regs := by
  unfold Cpu.prepare Cpu.makeMem
  grind

theorem Cpu.prepare_made {c' : ι} (h : s.made c' = true ∨ c' = c ∧ c ≠ p.main) :
    (s.prepare p c).made c' = true := by
  by_cases hc : c = p.main
  · rw [Cpu.prepare, if_pos hc]
    exact h.resolve_right fun h' => h'.2 hc
  · have hmade : (s.prepare p c).made = (if s.made c = true then s else s.makeMem p c).made := by
      unfold Cpu.prepare
      grind
    rw [hmade]
    by_cases hc' : c' = c
    · rw [hc']
      by_cases hm : s.made c = true
      · rw [if_pos hm, hm]
      · rw [if_neg hm]
        exact Function.update_self c true s.made
    · have hold := h.resolve_right fun h' => hc' h'.1
      by_cases hm : s.made c = true
      · rw [if_pos hm, hold]
      · rw [if_neg hm, ← hold]
        exact Function.update_of_ne hc' true s.made

/-- A coroutine that has no context is set up, and nothing off its stack changes. -/
theorem Cpu.prepare_fresh (hc : c ≠ p.main) (hempty : p.empty s.machine.memory c = true) :
    Holds (s.prepare p c).machine.memory (p.mCtx c).toNat (p.enterRegs c) (p.mFunc c) ∧
      ∀ a, a < (p.mCtx c).toNat ∨ (p.mCtx c).toNat + coctxSize ≤ a →
        a < (p.mStackBuffer c).toNat ∨ (p.mStackBuffer c).toNat + defaultStackSize ≤ a →
        (s.prepare p c).machine.memory a = s.machine.memory a := by
  -- MakeMem fills the stack; the context stays empty
  obtain ⟨memory, hmem, hframe⟩ : ∃ memory, (s.prepare p c).machine.memory = p.makeCtx memory c ∧
      ∀ a, a < (p.mStackBuffer c).toNat ∨ (p.mStackBuffer c).toNat + defaultStackSize ≤ a →
        memory a = s.machine.memory a := by
    by_cases hmade : s.made c = true
    · refine ⟨s.machine.memory, ?_, fun a _ => rfl⟩
      simp [Cpu.prepare, hc, hmade, hempty]
    · have hfilled : p.empty (s.makeMem p c).machine.memory c = true := by
        rw [← hempty]
        apply p.empty_congr
        intro a hle hlt
        apply fill_outside
        rcases p.stack_apart c c hc with h | h <;> omega
      refine ⟨(s.makeMem p c).machine.memory, ?_, fun a ha => fill_outside ha⟩
      simp [Cpu.prepare, hc, hmade, hfilled]
  rw [hmem]
  refine ⟨p.makeCtx_holds hc memory, ?_⟩
  intro a hctx hstack
  rw [p.makeCtx_outside hc hctx hstack, hframe a hstack]

/-- The registers that CoctxSwap saves. -/
def Cpu.callRegs (p : Layout ι) (s : Cpu ι) (cur next : ι) : Reg → UInt64 :=
  Function.update (Function.update (Function.update s.machine.regs .rdi (p.mCtx cur))
    .rsi (p.mCtx next)) .rsp (s.machine.regs .rsp - 8)

omit [DecidableEq ι] in
theorem Cpu.callRegs_kept {r : Reg} (hr : r ∈ keptRegs) (hne : r ≠ .rsp) :
    s.callRegs p cur next r = s.machine.regs r := by
  have hkept : ∀ r ∈ keptRegs, r ≠ .rdi ∧ r ≠ .rsi := by decide
  obtain ⟨hdi, hsi⟩ := hkept r hr
  rw [Cpu.callRegs, Function.update_of_ne hne, Function.update_of_ne hsi, Function.update_of_ne hdi]

theorem Cpu.swapCtx_run {regs : Reg → UInt64} (hslot : p.OffContexts (s.machine.regs .rsp - 8).toNat 8)
    (hslot' : p.OffContexts (regs .rsp).toNat 8)
    (hother : next ≠ cur → Holds (s.prepare p next).machine.memory (p.mCtx next).toNat regs pc)
    (hsame : next = cur → regs = s.callRegs p cur next ∧ pc = ret) :
    ∃ m, s.swapCtx p cur next ret = ⟨m, pc, s.mCoroutinesList, (s.prepare p next).made⟩ ∧
      m.regs .rsp = regs .rsp + 8 ∧ (∀ r ∈ slots, r.1 ≠ .rsp → m.regs r.1 = regs r.1) ∧
      Holds m.memory (p.mCtx cur).toNat (s.callRegs p cur next) ret ∧
      ∀ a, a < (p.mCtx cur).toNat ∨ (p.mCtx cur).toNat + coctxSize ≤ a → OffCall s.machine.regs a →
        a < (regs .rsp).toNat ∨ (regs .rsp).toNat + 8 ≤ a →
        m.memory a = (s.prepare p next).machine.memory a := by
  obtain ⟨m0, hm0⟩ : ∃ m0, m0 = (((s.prepare p next).machine.setReg .rdi (p.mCtx cur)).setReg .rsi
      (p.mCtx next)).call .rsp ret := ⟨_, rfl⟩
  have hregs : m0.regs = s.callRegs p cur next := by
    rw [hm0, Cpu.callRegs]
    simp [Machine.call, Machine.setReg]
  have hrdi : m0.regs .rdi = p.mCtx cur := by
    rw [hregs]
    rfl
  have hrsi : m0.regs .rsi = p.mCtx next := by
    rw [hregs]
    rfl
  have hrsp : m0.regs .rsp = s.machine.regs .rsp - 8 := by
    rw [hregs]
    rfl
  have hmem : m0.memory
      = writeWord (s.prepare p next).machine.memory (s.machine.regs .rsp - 8).toNat ret := by
    rw [hm0]
    simp [Machine.call, Machine.setReg]
  have hret : readWord m0.memory (m0.regs .rsp).toNat = ret := by
    rw [hmem, hrsp]
    exact readWord_writeWord _ _ _
  have hnext : ∀ memory, Holds memory (m0.regs .rdi).toNat m0.regs (readWord m0.memory (m0.regs .rsp).toNat) →
      (∀ a, a < (m0.regs .rdi).toNat ∨ (m0.regs .rdi).toNat + coctxSize ≤ a → memory a = m0.memory a) →
      Holds memory (m0.regs .rsi).toNat regs pc := by
    intro memory hholds hframe
    rw [hret, hregs] at hholds
    rw [hrsi]
    rw [hrdi] at hframe
    by_cases he : next = cur
    · obtain ⟨rfl, rfl⟩ := hsame he
      rw [he] at hholds ⊢
      exact hholds
    · refine (hother he).congr fun a hle hlt => ?_
      rw [hframe a, hmem, writeWord_outside]
      · rcases hslot next with h | h <;> omega
      · rcases p.ctx_apart next cur he with h | h <;> omega
  have htop : Apart (m0.regs .rsp).toNat 8 (m0.regs .rdi).toNat coctxSize := by
    rw [hrsp, hrdi]
    exact hslot cur
  obtain ⟨saved, m, hrun, hheld, hsaved, hmemory, hsp, hother'⟩ := coctxSwap_spec
    (by rw [hrdi]; exact p.ctx_fits cur) (by rw [hrsi]; exact p.ctx_fits next) htop
    (by rw [hrsi]; exact hslot' next) hnext
  rw [hret, hrdi, hregs] at hheld
  rw [hrdi] at hsaved
  refine ⟨m, ?_, hsp, hother', ?_, ?_⟩
  · rw [Cpu.swapCtx, ← hm0, hrun, Cpu.prepare_list]
  · refine hheld.congr fun a hle hlt => ?_
    rw [hmemory, writeWord_outside]
    rcases hslot' cur with h | h <;> omega
  · intro a hctx hcall hpush
    rw [hmemory, writeWord_outside hpush, hsaved a hctx, hmem, writeWord_outside hcall]

/-- What a switch finds in the context of `next`; `frame` is how it was left. -/
structure Arrival (p : Layout ι) (s : Cpu ι) (frame : Option Frame) (cur next : ι) (ret : UInt64)
    (regs : Reg → UInt64) (pc : UInt64) : Prop where
  slot : p.OffContexts (regs .rsp).toNat 8
  other : next ≠ cur → Holds (s.prepare p next).machine.memory (p.mCtx next).toNat regs pc
  same : next = cur → regs = s.callRegs p cur next ∧ pc = ret
  nonzero : ∃ r ∈ slots, regs r.1 ≠ 0
  outside : ∀ a, a < (p.mCtx next).toNat ∨ (p.mCtx next).toNat + coctxSize ≤ a →
    frame ≠ none ∨ (a < (p.mStackBuffer next).toNat ∨ (p.mStackBuffer next).toNat + defaultStackSize ≤ a) →
    (s.prepare p next).machine.memory a = s.machine.memory a
  resumed : ∀ f, frame = some f → pc = f.pc ∧ regs .rsp = f.regs .rsp - 8 ∧
    ∀ r ∈ keptRegs, r ≠ .rsp → regs r = f.regs r
  entered : frame = none → next ≠ p.main ∧ pc = p.mFunc next ∧ regs = p.enterRegs next

theorem Arrival.self (hslot : p.OffContexts (s.machine.regs .rsp - 8).toNat 8)
    (hknown : cur = p.main ∨ s.made cur = true ∧ p.empty s.machine.memory cur = false) :
    Arrival p s (some ⟨ret, s.machine.regs⟩) cur cur ret (s.callRegs p cur cur) ret where
  slot := hslot
  other hne := absurd rfl hne
  same _ := ⟨rfl, rfl⟩
  nonzero := ⟨(.rdi, 56), by decide, p.ctx_pos cur⟩
  outside a _ _ := by rw [Cpu.prepare_known hknown]
  resumed f hf := by
    cases hf
    exact ⟨rfl, rfl, fun r hr hne => Cpu.callRegs_kept hr hne⟩
  entered hnone := by cases hnone

theorem Suspended.arrival {f : Frame} (hne : next ≠ cur) (h : Suspended p s.machine.memory next f)
    (hmade : next ≠ p.main → s.made next = true) : ∃ regs, Arrival p s (some f) cur next ret regs f.pc := by
  obtain ⟨regs, hholds, hsp, hdi, hkept⟩ := h.held
  have hfull : p.empty s.machine.memory next = false :=
    Layout.empty_of_holds hholds rdi_mem_slots hdi
  have hknown : s.prepare p next = s := by
    apply Cpu.prepare_known
    by_cases hmain : next = p.main
    · exact Or.inl hmain
    · exact Or.inr ⟨hmade hmain, hfull⟩
  exact ⟨regs, {
    slot := by rw [hsp]; exact h.slot
    other := fun _ => by rw [hknown]; exact hholds
    same := fun he => absurd he hne
    nonzero := ⟨(.rdi, 56), by decide, hdi⟩
    outside := fun a _ _ => by rw [hknown]
    resumed := fun f' hf => by
      cases hf
      exact ⟨rfl, hsp, hkept⟩
    entered := fun hnone => by cases hnone }⟩

theorem Arrival.fresh (hne : next ≠ cur) (hmain : next ≠ p.main)
    (hempty : p.empty s.machine.memory next = true) :
    Arrival p s none cur next ret (p.enterRegs next) (p.mFunc next) := by
  obtain ⟨hholds, hframe⟩ := Cpu.prepare_fresh hmain hempty
  obtain ⟨hlow, hhigh⟩ := Layout.stackTop_inside hmain
  exact {
    slot := fun c => by
      show Apart (p.stackTop next).toNat 8 _ _
      rcases p.stack_apart next c hmain with h | h
      · exact Or.inl (by omega)
      · exact Or.inr (by omega)
    other := fun _ => hholds
    same := fun he => absurd he hne
    nonzero := ⟨(.rsp, 104), by decide, fun h0 => by
      have h0' : p.stackTop next = 0 := h0
      rw [h0', UInt64.toNat_zero] at hlow
      omega⟩
    outside := fun a hctx ha => hframe a hctx (ha.resolve_left fun h => h rfl)
    resumed := fun f hf => by cases hf
    entered := fun _ => ⟨hmain, rfl, rfl⟩ }

theorem keptRegs_slots {r : Reg} (hr : r ∈ keptRegs) : ∃ slot ∈ slots, slot.1 = r := by
  have hall : ∀ r ∈ keptRegs, ∃ slot ∈ slots, slot.1 = r := by decide
  exact hall r hr

omit [DecidableEq ι] in
theorem Suspended.congr {memory memory' : ℕ → Byte} {f : Frame} (h : Suspended p memory c f)
    (hsame : ∀ a, (p.mCtx c).toNat ≤ a → a < (p.mCtx c).toNat + coctxSize → memory' a = memory a) :
    Suspended p memory' c f := by
  obtain ⟨regs, hholds, hrest⟩ := h.held
  exact ⟨⟨regs, hholds.congr hsame, hrest⟩, h.slot⟩

/-- What is known of the machine after a switch. -/
structure Landed (p : Layout ι) (s : Cpu ι) (frame : Option Frame) (cur next : ι) (ret : UInt64)
    (regs : Reg → UInt64) (pc : UInt64) (m : Machine Reg) : Prop where
  sp : m.regs .rsp = regs .rsp + 8
  restored : ∀ r ∈ slots, r.1 ≠ .rsp → m.regs r.1 = regs r.1
  left : Holds m.memory (p.mCtx cur).toNat (s.callRegs p cur next) ret
  arrived : next ≠ cur → Holds m.memory (p.mCtx next).toNat regs pc
  others : ∀ c, c ≠ cur → c ≠ next → ∀ a, (p.mCtx c).toNat ≤ a → a < (p.mCtx c).toNat + coctxSize →
    m.memory a = s.machine.memory a
  memory : ∀ a, p.OffContexts a 1 → OffCall s.machine.regs a →
    a < (regs .rsp).toNat ∨ (regs .rsp).toNat + 8 ≤ a →
    frame ≠ none ∨ (a < (p.mStackBuffer next).toNat ∨ (p.mStackBuffer next).toNat + defaultStackSize ≤ a) →
    m.memory a = s.machine.memory a

theorem Arrival.landed {frame : Option Frame} {regs : Reg → UInt64}
    (hslot : p.OffContexts (s.machine.regs .rsp - 8).toNat 8) (h : Arrival p s frame cur next ret regs pc) :
    ∃ m, s.swapCtx p cur next ret = ⟨m, pc, s.mCoroutinesList, (s.prepare p next).made⟩ ∧
      Landed p s frame cur next ret regs pc m := by
  obtain ⟨m, hrun, hsp, hregs, hheld, hframe⟩ := Cpu.swapCtx_run hslot h.slot h.other h.same
  refine ⟨m, hrun, hsp, hregs, hheld, ?_, ?_, ?_⟩
  · intro hne
    refine (h.other hne).congr fun a hle hlt => hframe a ?_ ?_ ?_
    · rcases p.ctx_apart next cur hne with hap | hap <;> omega
    · rw [OffCall]
      rcases hslot next with hap | hap <;> omega
    · rcases h.slot next with hap | hap <;> omega
  · intro c hcur hnext a hle hlt
    have hctx : a < (p.mCtx next).toNat ∨ (p.mCtx next).toNat + coctxSize ≤ a := by
      rcases p.ctx_apart c next hnext with hap | hap <;> omega
    have hstack : frame ≠ none ∨ (a < (p.mStackBuffer next).toNat ∨
        (p.mStackBuffer next).toNat + defaultStackSize ≤ a) := by
      by_cases hnone : frame = none
      · rcases p.stack_apart next c (h.entered hnone).1 with hap | hap <;> omega
      · exact Or.inl hnone
    rw [hframe a, h.outside a hctx hstack]
    · rcases p.ctx_apart c cur hcur with hap | hap <;> omega
    · rw [OffCall]
      rcases hslot c with hap | hap <;> omega
    · rcases h.slot c with hap | hap <;> omega
  · intro a hoff hcall hpush hstack
    have hout : ∀ c, a < (p.mCtx c).toNat ∨ (p.mCtx c).toNat + coctxSize ≤ a := by
      intro c
      rcases hoff c with hap | hap <;> omega
    rw [hframe a (hout cur) hcall hpush, h.outside a (hout next) hstack]

/-- With the contexts left out, a switch is one of the threads. -/
theorem Landed.switches {t : Threads ι} (t' : Threads ι) {frame : Option Frame} {regs : Reg → UInt64} {m : Machine Reg}
    (h : Landed p s frame cur next ret regs pc m) (harr : Arrival p s frame cur next ret regs pc)
    (hregs : t.regs = s.machine.regs) (hmemory : ∀ a, p.OffContexts a 1 → t.memory a = s.machine.memory a)
    (hleft : t'.left = Function.update t.left cur (some ⟨ret, t.regs⟩)) (hframe : t'.left next = frame)
    (hpc' : t'.pc = pc) (hregs' : t'.regs = m.regs)
    (hoff : ∀ a, p.OffContexts a 1 → t'.memory a = m.memory a)
    (hin : ∀ a, ¬ p.OffContexts a 1 → t'.memory a = t.memory a) :
    Switches p t cur next ret t'.listed t' := by
  have hsame : ∀ a, OffCall t.regs a → a < (regs .rsp).toNat ∨ (regs .rsp).toNat + 8 ≤ a →
      frame ≠ none ∨ (a < (p.mStackBuffer next).toNat ∨
        (p.mStackBuffer next).toNat + defaultStackSize ≤ a) → t'.memory a = t.memory a := by
    intro a hcall hpush hstack
    by_cases ha : p.OffContexts a 1
    · rw [hregs] at hcall
      rw [hoff a ha, hmemory a ha, h.memory a ha hcall hpush hstack]
    · exact hin a ha
  refine ⟨rfl, hleft, ?_, ?_⟩
  · intro f hf
    rw [hframe] at hf
    obtain ⟨hpc, hsp, hkept⟩ := harr.resumed f hf
    refine ⟨hpc'.trans hpc, ?_, ?_⟩
    · intro r hr
      rw [hregs']
      by_cases hrsp : r = .rsp
      · rw [hrsp, h.sp, hsp, UInt64.sub_add_cancel]
      · obtain ⟨slot, hslot, rfl⟩ := keptRegs_slots hr
        rw [h.restored slot hslot hrsp, hkept slot.1 hr hrsp]
    · intro a hcall hcall'
      rw [OffCall, ← hsp] at hcall'
      exact hsame a hcall hcall' (Or.inl (hf ▸ Option.some_ne_none f))
  · intro hnone
    rw [hframe] at hnone
    obtain ⟨hmain, hpc, he⟩ := harr.entered hnone
    obtain ⟨hlow, hhigh⟩ := Layout.stackTop_inside hmain
    have hfit := p.stack_fits next hmain
    have hsp : (t'.regs .rsp).toNat = (p.stackTop next).toNat + 8 := by
      have htop : regs .rsp = p.stackTop next := congrFun he .rsp
      have h8 : (8 : UInt64).toNat = 8 := rfl
      rw [hregs', h.sp, htop, UInt64.toNat_add, h8]
      exact Nat.mod_eq_of_lt (by omega)
    refine ⟨hpc'.trans hpc, ?_, ?_, ?_, ?_, ?_⟩
    · rw [hregs', h.restored (.rdi, 56) (by decide) (by decide), he]
      rfl
    · have hdvd := dvd_alignDown 16 ((p.mStackBuffer next).toNat + 131064)
      rw [hsp, Layout.stackTop_toNat hmain]
      omega
    · omega
    · omega
    · intro a hcall hstack
      have htop : regs .rsp = p.stackTop next := congrFun he .rsp
      apply hsame a hcall _ (Or.inr hstack)
      rw [htop]
      omega

theorem Landed.tracks {t t' : Threads ι} {s0 : Cpu ι} {frame : Option Frame} {regs : Reg → UInt64}
    {m : Machine Reg} (h : Landed p s frame cur next ret regs pc m)
    (harr : Arrival p s frame cur next ret regs pc) (hslot : p.OffContexts (s.machine.regs .rsp - 8).toNat 8)
    (htracks : Tracks p s0 t) (hmachine : s.machine = s0.machine) (hmade : s.made = s0.made)
    (hcur : s0.mCoroutinesList.head? = some cur) (hnext : s.mCoroutinesList.head? = some next)
    (hleft : t'.left = Function.update t.left cur (some ⟨ret, t.regs⟩)) (hlisted : t'.listed = s.mCoroutinesList)
    (hpc' : t'.pc = pc) (hregs' : t'.regs = m.regs)
    (hoff : ∀ a, p.OffContexts a 1 → t'.memory a = m.memory a) :
    Tracks p ⟨m, pc, s.mCoroutinesList, (s.prepare p next).made⟩ t' := by
  have hhead : ∀ c, c ≠ cur → s0.mCoroutinesList.head? ≠ some c := by
    intro c hc he
    rw [hcur] at he
    exact hc (Option.some.inj he).symm
  have hnot : ∀ c, s.mCoroutinesList.head? ≠ some c → c ≠ next := by
    intro c hc he
    rw [he] at hc
    exact hc hnext
  have hnonempty : s.mCoroutinesList ≠ [] := by
    intro hnil
    rw [hnil] at hnext
    cases hnext
  refine ⟨hlisted, hnonempty, hpc', hregs', hoff, ?_, ?_, ?_, ?_⟩
  · intro c f hc hf
    rw [hleft] at hf
    by_cases he : c = cur
    · rw [he, Function.update_self] at hf
      cases hf
      rw [he]
      refine ⟨⟨s.callRegs p cur next, h.left, ?_, p.ctx_pos cur, ?_⟩, ?_⟩
      · show s.machine.regs .rsp - 8 = t.regs .rsp - 8
        rw [htracks.regs, hmachine]
      · intro r hr hne
        rw [Cpu.callRegs_kept hr hne, htracks.regs, hmachine]
      · rw [htracks.regs, ← hmachine]
        exact hslot
    · rw [Function.update_of_ne he] at hf
      refine (htracks.suspended c f (hhead c he) hf).congr fun a hle hlt => ?_
      rw [h.others c he (hnot c hc) a hle hlt, hmachine]
  · intro c hc hnone
    rw [hleft] at hnone
    by_cases he : c = cur
    · rw [he, Function.update_self] at hnone
      cases hnone
    · rw [Function.update_of_ne he] at hnone
      obtain ⟨hmain, hempty⟩ := htracks.fresh c (hhead c he) hnone
      refine ⟨hmain, ?_⟩
      rw [← hempty, ← hmachine]
      exact p.empty_congr fun a hle hlt => h.others c he (hnot c hc) a hle hlt
  · intro c hc _
    have hc' : c = next := Option.some.inj (hc.symm.trans hnext)
    rw [hc']
    by_cases he : next = cur
    · have hleft' := h.left
      rw [← he] at hleft'
      exact Layout.empty_of_holds hleft' rdi_mem_slots (p.ctx_pos next)
    · obtain ⟨slot, hslot, hne⟩ := harr.nonzero
      exact Layout.empty_of_holds (h.arrived he) hslot hne
  · intro c hmain hc
    apply Cpu.prepare_made
    by_cases he : c = next
    · exact Or.inr ⟨he, he ▸ hmain⟩
    · left
      rw [hmade]
      apply htracks.made c hmain
      rcases hc with hc | hc
      · exact absurd (Option.some.inj (hc.symm.trans hnext)) he
      · rw [hleft] at hc
        by_cases hcur' : c = cur
        · exact Or.inl (hcur' ▸ hcur)
        · rw [Function.update_of_ne hcur'] at hc
          exact Or.inr hc

theorem Tracks.arrival {t : Threads ι} (listed : List ι) (next : ι) (ret : UInt64) (h : Tracks p s t)
    (hcur : s.mCoroutinesList.head? = some cur) (hslot : p.OffContexts (s.machine.regs .rsp - 8).toNat 8) :
    ∃ regs pc, Arrival p { s with mCoroutinesList := listed }
      (Function.update t.left cur (some ⟨ret, t.regs⟩) next) cur next ret regs pc := by
  by_cases he : next = cur
  · rw [he, Function.update_self, h.regs]
    refine ⟨_, ret, Arrival.self hslot ?_⟩
    by_cases hmain : cur = p.main
    · exact Or.inl hmain
    · exact Or.inr ⟨h.made cur hmain (Or.inl hcur), h.running cur hcur hmain⟩
  · have hhead : s.mCoroutinesList.head? ≠ some next := by
      rw [hcur]
      exact fun h => he (Option.some.inj h).symm
    rw [Function.update_of_ne he]
    cases hleft : t.left next with
    | none =>
      obtain ⟨hmain, hempty⟩ := h.fresh next hhead hleft
      exact ⟨_, _, Arrival.fresh he hmain hempty⟩
    | some f =>
      have hmade : next ≠ p.main → s.made next = true := by
        intro hmain
        apply h.made next hmain
        rw [hleft]
        exact Or.inr (Option.some_ne_none f)
      obtain ⟨regs, harr⟩ := Suspended.arrival (s := { s with mCoroutinesList := listed }) he
        (h.suspended next f hhead hleft) hmade
      exact ⟨regs, f.pc, harr⟩

theorem Tracks.switch {t : Threads ι} (listed : List ι) (ret : UInt64) (h : Tracks p s t)
    (hcur : s.mCoroutinesList.head? = some cur) (hslot : p.OffContexts (s.machine.regs .rsp - 8).toNat 8)
    (hnext : listed.head? = some next) :
    ∃ t', Switches p t cur next ret listed t' ∧
      Tracks p ({ s with mCoroutinesList := listed }.swapCtx p cur next ret) t' := by
  obtain ⟨regs, pc, harr⟩ := h.arrival listed next ret hcur hslot
  obtain ⟨m, hrun, hland⟩ := harr.landed (s := { s with mCoroutinesList := listed }) hslot
  obtain ⟨memory, hoff, hin⟩ : ∃ memory : ℕ → Byte, (∀ a, p.OffContexts a 1 → memory a = m.memory a) ∧
      ∀ a, ¬ p.OffContexts a 1 → memory a = t.memory a := by
    classical
    exact ⟨fun a => if p.OffContexts a 1 then m.memory a else t.memory a, fun a ha => if_pos ha,
      fun a ha => if_neg ha⟩
  refine ⟨⟨listed, pc, m.regs, memory, Function.update t.left cur (some ⟨ret, t.regs⟩)⟩, ?_, ?_⟩
  · exact hland.switches ⟨listed, pc, m.regs, memory, _⟩ harr h.regs h.memory rfl rfl rfl rfl hoff hin
  · rw [hrun]
    exact hland.tracks harr hslot h rfl rfl hcur hnext rfl rfl rfl rfl hoff

/-- A step of the running coroutine that touches no context. -/
theorem Tracks.local {t : Threads ι} {regs : Reg → UInt64} {memory memory' : ℕ → Byte}
    (h : Tracks p s t)
    (hctx : ∀ c a, (p.mCtx c).toNat ≤ a → a < (p.mCtx c).toNat + coctxSize → memory a = s.machine.memory a)
    (hoff : ∀ a, p.OffContexts a 1 → memory' a = memory a) :
    Tracks p { s with machine := ⟨regs, memory⟩ } { t with regs := regs, memory := memory' } :=
  ⟨h.listed, h.nonempty, h.pc, rfl, hoff,
    fun c f hc hf => (h.suspended c f hc hf).congr (hctx c),
    fun c hc hnone => ⟨(h.fresh c hc hnone).1, by
      rw [← (h.fresh c hc hnone).2]
      exact p.empty_congr (hctx c)⟩,
    fun c hc hmain => by
      rw [← h.running c hc hmain]
      exact p.empty_congr (hctx c),
    h.made⟩

theorem Tracks.reset {t : Threads ι} (h : Tracks p s t) (hmain : c ≠ p.main)
    (hrun : s.mCoroutinesList.head? ≠ some c) :
    Tracks p { s with machine := { s.machine with memory := p.clear s.machine.memory c } }
      { t with left := Function.update t.left c none } := by
  have hctx : ∀ c', c' ≠ c → ∀ a, (p.mCtx c').toNat ≤ a → a < (p.mCtx c').toNat + coctxSize →
      p.clear s.machine.memory c a = s.machine.memory a := by
    intro c' hne a hle hlt
    apply p.clear_outside
    rcases p.ctx_apart c' c hne with hap | hap <;> omega
  refine ⟨h.listed, h.nonempty, h.pc, h.regs, ?_, ?_, ?_, ?_, ?_⟩
  · intro a ha
    rw [h.memory a ha]
    exact (p.clear_outside (by rcases ha c with hap | hap <;> omega)).symm
  · intro c' f hc' hf
    dsimp only at hf
    by_cases he : c' = c
    · rw [he, Function.update_self] at hf
      cases hf
    · rw [Function.update_of_ne he] at hf
      exact (h.suspended c' f hc' hf).congr (hctx c' he)
  · intro c' hc' hnone
    dsimp only at hnone
    by_cases he : c' = c
    · rw [he]
      exact ⟨hmain, p.empty_clear _ c⟩
    · rw [Function.update_of_ne he] at hnone
      obtain ⟨hne, hempty⟩ := h.fresh c' hc' hnone
      refine ⟨hne, ?_⟩
      rw [← hempty]
      exact p.empty_congr (hctx c' he)
  · intro c' hc' hne
    have he : c' ≠ c := fun he => hrun (he ▸ hc')
    rw [← h.running c' hc' hne]
    exact p.empty_congr (hctx c' he)
  · intro c' hne hc'
    apply h.made c' hne
    dsimp only at hc'
    rcases hc' with hc' | hc'
    · exact Or.inl hc'
    · by_cases he : c' = c
      · rw [he, Function.update_self] at hc'
        exact absurd rfl hc'
      · rw [Function.update_of_ne he] at hc'
        exact Or.inr hc'

theorem Tracks.swapOut {t : Threads ι} (ret : UInt64) (h : Tracks p s t)
    (hslot : p.OffContexts (s.machine.regs .rsp - 8).toNat 8) (htwo : 2 ≤ s.mCoroutinesList.length) :
    ∃ s' t', s.swapOut p ret = .ok ((), s') ∧
      (∃ cur prev rest, t.listed = cur :: prev :: rest ∧ Switches p t cur prev ret (prev :: rest) t') ∧
      Tracks p s' t' := by
  obtain ⟨cur, prev, rest, hlist⟩ : ∃ cur prev rest, s.mCoroutinesList = cur :: prev :: rest := by
    cases hlist : s.mCoroutinesList with
    | nil =>
      rw [hlist] at htwo
      exact absurd htwo (by simp)
    | cons cur rest =>
      cases rest with
      | nil =>
        rw [hlist] at htwo
        exact absurd htwo (by simp)
      | cons prev rest => exact ⟨cur, prev, rest, rfl⟩
  obtain ⟨t', hsw, htr⟩ := h.switch (prev :: rest) ret
    (by rw [hlist]; rfl) hslot rfl
  refine ⟨_, t', ?_, ⟨cur, prev, rest, h.listed.trans hlist, hsw⟩, htr⟩
  rw [Cpu.swapOut, hlist]

theorem switchStep_simulates {t : Threads ι} {op : SwitchOp ι} (h : Tracks p s t) (hok : SwitchOk p s op) :
    ∃ o s' t', switchStep p s op = .ok (o, s') ∧ ThreadStep p t op o t' ∧ Tracks p s' t' := by
  cases op with
  | setReg r w =>
    refine ⟨(), _, _, rfl, .setReg, ?_⟩
    rw [h.regs]
    exact h.local (fun _ _ _ _ => rfl) h.memory
  | write addr byte =>
    have hoff : p.OffContexts addr 1 := hok
    have hregs : { t with memory := store t.memory addr [byte] }
        = { t with regs := s.machine.regs, memory := store t.memory addr [byte] } := by
      rw [← h.regs]
    refine ⟨(), _, _, rfl, .write, ?_⟩
    rw [hregs]
    apply h.local
    · intro c a hle hlt
      apply store_outside
      rw [List.length_singleton]
      rcases hoff c with hap | hap <;> omega
    · intro a ha
      by_cases he : a = addr
      · rw [he, store, store]
        simp
      · have hout : a < addr ∨ addr + [byte].length ≤ a := by
          rw [List.length_singleton]
          omega
        rw [store_outside hout, store_outside hout]
        exact h.memory a ha
  | swapIn c ret =>
    cases hlist : s.mCoroutinesList with
    | nil => exact absurd hlist h.nonempty
    | cons cur rest =>
      obtain ⟨t', hsw, htr⟩ := h.switch (c :: cur :: rest) ret
        (by rw [hlist]; rfl) hok rfl
      refine ⟨(), _, t', ?_, .swapIn (h.listed.trans hlist) hsw, htr⟩
      simp only [switchStep, hlist]
  | yield ret =>
    obtain ⟨hslot, htwo⟩ := hok
    obtain ⟨s', t', hstep, ⟨cur, prev, rest, hlist, hsw⟩, htr⟩ := h.swapOut ret hslot htwo
    exact ⟨(), s', t', hstep, .yield hlist hsw, htr⟩
  | terminal ret =>
    obtain ⟨hslot, htwo⟩ := hok
    obtain ⟨s', t', hstep, ⟨cur, prev, rest, hlist, hsw⟩, htr⟩ := h.swapOut ret hslot htwo
    exact ⟨(), s', t', hstep, .terminal hlist hsw, htr⟩
  | reset c =>
    obtain ⟨hmain, hrun⟩ := hok
    exact ⟨(), _, _, rfl, .reset, h.reset hmain hrun⟩

theorem Tracks.start (p : Layout ι) {machine : Machine Reg} {pc : UInt64}
    (h : ∀ c, c ≠ p.main → p.empty machine.memory c = true) :
    Tracks p (Cpu.start p machine pc) (Threads.start p machine pc) := by
  have hhead : ∀ c, (Cpu.start p machine pc).mCoroutinesList.head? = some c → c = p.main := by
    intro c hc
    exact (Option.some.inj hc).symm
  refine ⟨rfl, List.cons_ne_nil _ _, rfl, rfl, fun _ _ => rfl, ?_, ?_, ?_, ?_⟩
  · intro c f _ hf
    cases hf
  · intro c hc _
    have hmain : c ≠ p.main := fun he => hc (he ▸ rfl)
    exact ⟨hmain, h c hmain⟩
  · intro c hc hmain
    exact absurd (hhead c hc) hmain
  · intro c hmain hc
    rcases hc with hc | hc
    · exact absurd (hhead c hc) hmain
    · exact absurd rfl hc

end Switch

/-! ### Whole runs -/

section Runs
variable [DecidableEq ι] {p} {s s' : Cpu ι} {t t' : Threads ι} {cur : ι} {rest : List ι}

theorem switches_refine {machine : Machine Reg} {pc : UInt64} {ops : List (SwitchOp ι)}
    (hnew : ∀ c, c ≠ p.main → p.empty machine.memory c = true)
    (hok : StepsOk (switchStep p) (SwitchOk p) (Cpu.start p machine pc) ops) :
    ∃ os s' t', runOps (switchStep p) (Cpu.start p machine pc) ops = .ok (os, s') ∧
      Trace (ThreadStep p) (Threads.start p machine pc) ops os t' ∧ Tracks p s' t' := by
  have hsim : ∀ s t op, Tracks p s t → SwitchOk p s op →
      ∃ o s' t', switchStep p s op = .ok (o, s') ∧ ThreadStep p t op o t' ∧ Tracks p s' t' :=
    fun _ _ _ htracks hop => switchStep_simulates htracks hop
  exact run_simulates hsim ops _ _ (Tracks.start p hnew) hok

/-- The main coroutine and one other. -/
def pairLayout : Layout Bool where
  main := false
  mCtx c := if c then 4096 else 8192
  mStackBuffer _ := 65536
  mFunc _ := 4198400
  mArg c := if c then 12288 else 16384
  ctx_pos := by decide
  ctx_fits := by decide
  ctx_apart := by decide
  stack_fits := by decide
  stack_apart := by decide

def pairMachine : Machine Reg := ⟨fun _ => 1048576, fun _ => 0⟩

theorem switches_refine_pair : ∃ os s' t',
    runOps (switchStep pairLayout) (Cpu.start pairLayout pairMachine 4200000)
        [.swapIn true 4200100, .yield 4300000] = .ok (os, s') ∧
      Trace (ThreadStep pairLayout) (Threads.start pairLayout pairMachine 4200000)
        [.swapIn true 4200100, .yield 4300000] os t' ∧ Tracks pairLayout s' t' :=
  switches_refine (by decide +kernel) (by decide +kernel)

/-- `cur` waits in the list for what it swapped in. -/
structure Waits (cur : ι) (rest : List ι) (f : Frame) (t : Threads ι) : Prop where
  listed : ∃ pre, pre ≠ [] ∧ cur ∉ pre ∧ t.listed = pre ++ cur :: rest
  left : t.left cur = some f

structure Returned (cur : ι) (rest : List ι) (f : Frame) (t : Threads ι) : Prop where
  listed : t.listed = cur :: rest
  pc : t.pc = f.pc
  regs : ∀ r ∈ keptRegs, t.regs r = f.regs r

/-- Nobody swaps `cur` in or resets it, as long as more than `depth` coroutines are listed. -/
def Away (p : Layout ι) (cur : ι) (depth : ℕ) (s : Cpu ι) (op : SwitchOp ι) : Prop :=
  SwitchOk p s op ∧ depth < s.mCoroutinesList.length ∧ op ≠ .reset cur ∧ ∀ ret, op ≠ .swapIn cur ret

theorem Waits.swapIn {f : Frame} {c head : ι} {tail : List ι} {ret : UInt64} (h : Waits cur rest f t)
    (hc : c ≠ cur) (hlist : t.listed = head :: tail)
    (hsw : Switches p t head c ret (c :: head :: tail) t') : Waits cur rest f t' := by
  obtain ⟨pre, hpre, hnot, hlisted⟩ := h.listed
  obtain ⟨first, pre, rfl⟩ := List.exists_cons_of_ne_nil hpre
  have hhead : head ≠ cur := by
    rw [hlisted] at hlist
    injection hlist with hfirst _
    rw [← hfirst]
    exact fun he => hnot (he ▸ List.mem_cons_self)
  refine ⟨⟨c :: first :: pre, List.cons_ne_nil _ _, ?_, ?_⟩, ?_⟩
  · rw [List.mem_cons, not_or]
    exact ⟨Ne.symm hc, hnot⟩
  · rw [hsw.listed, ← hlist, hlisted]
    rfl
  · rw [hsw.left, Function.update_of_ne (Ne.symm hhead)]
    exact h.left

theorem Waits.swapOut {f : Frame} {head prev : ι} {tail : List ι} {ret : UInt64}
    (h : Waits cur rest f t) (hlist : t.listed = head :: prev :: tail)
    (hsw : Switches p t head prev ret (prev :: tail) t') : Waits cur rest f t' ∨ Returned cur rest f t' := by
  obtain ⟨pre, hpre, hnot, hlisted⟩ := h.listed
  obtain ⟨first, pre, rfl⟩ := List.exists_cons_of_ne_nil hpre
  rw [hlisted, List.cons_append] at hlist
  injection hlist with hfirst htail
  have hhead : head ≠ cur := by
    rw [← hfirst]
    exact fun he => hnot (he ▸ List.mem_cons_self)
  have hleft : t'.left cur = some f := by
    rw [hsw.left, Function.update_of_ne (Ne.symm hhead)]
    exact h.left
  cases pre with
  | nil =>
    right
    have hlisted' : t'.listed = cur :: rest := by
      rw [hsw.listed, ← htail]
      rfl
    have hprev : prev = cur := by
      injection htail with hprev _
      exact hprev.symm
    have hres := hsw.resumed f (by rw [hprev]; exact hleft)
    exact ⟨hlisted', hres.pc, hres.regs⟩
  | cons second pre =>
    left
    refine ⟨⟨second :: pre, List.cons_ne_nil _ _, ?_, ?_⟩, hleft⟩
    · exact fun hmem => hnot (List.mem_cons_of_mem first hmem)
    · rw [hsw.listed, ← htail]

theorem Waits.step {f : Frame} {op : SwitchOp ι} {o : Unit} (h : Waits cur rest f t)
    (hreset : op ≠ .reset cur) (hswap : ∀ ret, op ≠ .swapIn cur ret) (hstep : ThreadStep p t op o t') :
    Waits cur rest f t' ∨ Returned cur rest f t' := by
  cases hstep with
  | setReg => exact Or.inl ⟨h.listed, h.left⟩
  | write => exact Or.inl ⟨h.listed, h.left⟩
  | swapIn hlist hsw => exact Or.inl (h.swapIn (fun he => hswap _ (by rw [he])) hlist hsw)
  | yield hlist hsw => exact h.swapOut hlist hsw
  | terminal hlist hsw => exact h.swapOut hlist hsw
  | reset =>
    refine Or.inl ⟨h.listed, ?_⟩
    rw [← h.left]
    exact Function.update_of_ne (fun he => hreset (by rw [he])) _ _

theorem Waits.of_swapIn {c : ι} {ret : UInt64} {o : Unit} (hc : c ≠ cur) (hlist : t.listed = cur :: rest)
    (hstep : ThreadStep p t (.swapIn c ret) o t') : Waits cur rest ⟨ret, t.regs⟩ t' := by
  cases hstep with
  | swapIn hlist' hsw =>
    rw [hlist] at hlist'
    injection hlist' with hcur hrest
    rw [← hcur, ← hrest] at hsw
    refine ⟨⟨[c], List.cons_ne_nil _ _, ?_, hsw.listed⟩, ?_⟩
    · rw [List.mem_singleton]
      exact Ne.symm hc
    · rw [hsw.left]
      exact Function.update_self cur _ t.left

/-- SwapIn is like any call to the coroutine that makes it: when it comes back, it comes
back behind the call, with the registers that a call keeps. -/
theorem swapIn_returns {machine : Machine Reg} {pc ret : UInt64} {c : ι} {s1 : Cpu ι}
    {ops during : List (SwitchOp ι)} {os os' : List Unit} {o : Unit}
    (hnew : ∀ c, c ≠ p.main → p.empty machine.memory c = true)
    (hok : StepsOk (switchStep p) (SwitchOk p) (Cpu.start p machine pc) ops)
    (hrun : runOps (switchStep p) (Cpu.start p machine pc) ops = .ok (os, s))
    (hlist : s.mCoroutinesList = cur :: rest) (hc : c ≠ cur) (hswap : SwitchOk p s (.swapIn c ret))
    (hstep : switchStep p s (.swapIn c ret) = .ok (o, s1))
    (haway : StepsOk (switchStep p) (Away p cur (rest.length + 1)) s1 during)
    (hduring : runOps (switchStep p) s1 during = .ok (os', s'))
    (hback : s'.mCoroutinesList.length = rest.length + 1) :
    s'.mCoroutinesList = cur :: rest ∧ s'.pc = ret ∧
      ∀ r ∈ keptRegs, s'.machine.regs r = s.machine.regs r := by
  obtain ⟨os0, s0, t0, hrun0, -, htr0⟩ := switches_refine hnew hok
  cases hrun.symm.trans hrun0
  obtain ⟨o1, s2, t1, hstep', hspec, htr1⟩ := switchStep_simulates htr0 hswap
  cases hstep.symm.trans hstep'
  have hwait : Waits cur rest ⟨ret, s.machine.regs⟩ t1 := by
    rw [← htr0.regs]
    exact .of_swapIn hc (htr0.listed.trans hlist) hspec
  have hend : ∃ t, Tracks p s' t ∧
      (Waits cur rest ⟨ret, s.machine.regs⟩ t ∨ Returned cur rest ⟨ret, s.machine.regs⟩ t) := by
    refine run_keeps (I := fun s' => ∃ t, Tracks p s' t ∧ (Waits cur rest ⟨ret, s.machine.regs⟩ t ∨
      Returned cur rest ⟨ret, s.machine.regs⟩ t)) ?_ ⟨t1, htr1, Or.inl hwait⟩ haway hduring
    intro u op o u' hu hop hstep
    obtain ⟨v, htr, hv⟩ := hu
    obtain ⟨hswitch, hdepth, hreset, hswap⟩ := hop
    obtain ⟨o', u'', v', hstep', hspec, htr'⟩ := switchStep_simulates htr hswitch
    cases hstep.symm.trans hstep'
    rcases hv with hv | hv
    · exact ⟨v', htr', hv.step hreset hswap hspec⟩
    · -- it has not come back yet
      rw [← htr.listed, hv.listed, List.length_cons] at hdepth
      omega
  obtain ⟨t, htr, hwait | hret⟩ := hend
  · obtain ⟨pre, hpre, -, hlisted⟩ := hwait.listed
    rw [← htr.listed, hlisted, List.length_append, List.length_cons] at hback
    have hpos := List.length_pos_iff.mpr hpre
    omega
  · refine ⟨htr.listed.symm.trans hret.listed, htr.pc.symm.trans hret.pc, ?_⟩
    rw [← htr.regs]
    exact hret.regs

/-- The other coroutine has been swapped in. -/
def pairEntered : Cpu Bool :=
  { Cpu.start pairLayout pairMachine 4200000 with mCoroutinesList := [true, false] }.swapCtx pairLayout
    false true 4200100

theorem swapIn_returns_pair : ∃ os s',
    runOps (switchStep pairLayout) pairEntered [.setReg .rbx 7, .yield 4300000] = .ok (os, s') ∧
      s'.mCoroutinesList = [false] ∧ s'.pc = 4200100 ∧ ∀ r ∈ keptRegs, s'.machine.regs r = 1048576 := by
  have haway : StepsOk (switchStep pairLayout) (Away pairLayout false 1) pairEntered
      [.setReg .rbx 7, .yield 4300000] := by
    refine (stepsOk_cons_iff rfl).mpr ⟨⟨trivial, by decide, by decide, fun ret => by simp⟩, ?_⟩
    refine (stepsOk_cons_iff rfl).mpr ⟨⟨?_, by decide, by decide, fun ret => by simp⟩, trivial⟩
    decide +kernel
  have hnew : ∀ c, c ≠ pairLayout.main → pairLayout.empty pairMachine.memory c = true := by
    decide +kernel
  have hok : StepsOk (switchStep pairLayout) (SwitchOk pairLayout)
      (Cpu.start pairLayout pairMachine 4200000) [] := trivial
  have hrun : runOps (switchStep pairLayout) (Cpu.start pairLayout pairMachine 4200000) []
      = .ok ([], Cpu.start pairLayout pairMachine 4200000) := rfl
  have hswap : SwitchOk pairLayout (Cpu.start pairLayout pairMachine 4200000) (.swapIn true 4200100) := by
    decide +kernel
  refine ⟨_, _, rfl, ?_⟩
  exact swapIn_returns hnew hok hrun rfl (by decide) hswap rfl haway rfl rfl

end Runs

end

end DeftRpc.Coroutine
