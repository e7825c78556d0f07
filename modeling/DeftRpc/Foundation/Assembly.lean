import DeftRpc.Foundation.Bytes
import DeftRpc.Foundation.Memory

/-!
# Straight-line code on 64-bit registers

The registers are of any type `ρ`. A word in memory is eight bytes, the lowest
first; addresses are naturals, computed on 64 bits. The rules are about blocks of
stores and of loads with one base register, such as save and restore a context.
-/

namespace DeftRpc.Foundation

def readWord (memory : ℕ → Byte) (addr : ℕ) : UInt64 := UInt64.ofNat (leVal (load memory addr 8))

def writeWord (memory : ℕ → Byte) (addr : ℕ) (w : UInt64) : ℕ → Byte :=
  store memory addr (leBytes 8 w.toNat)

theorem readWord_writeWord (memory : ℕ → Byte) (addr : ℕ) (w : UInt64) :
    readWord (writeWord memory addr w) addr = w := by
  have hload := load_store memory addr (leBytes 8 w.toNat)
  rw [leBytes_length] at hload
  rw [readWord, writeWord, hload, leVal_leBytes w.toNat_lt, UInt64.ofNat_toNat]

theorem writeWord_outside {memory : ℕ → Byte} {addr a : ℕ} {w : UInt64} (h : a < addr ∨ addr + 8 ≤ a) :
    writeWord memory addr w a = memory a := by
  apply store_outside
  rwa [leBytes_length]

theorem readWord_congr {memory memory' : ℕ → Byte} {addr : ℕ}
    (h : ∀ a, addr ≤ a → a < addr + 8 → memory a = memory' a) :
    readWord memory addr = readWord memory' addr := by
  rw [readWord, readWord, load_congr h]

theorem readWord_writeWord_of_apart {memory : ℕ → Byte} {addr addr' : ℕ} {w : UInt64}
    (h : addr + 8 ≤ addr' ∨ addr' + 8 ≤ addr) :
    readWord (writeWord memory addr w) addr' = readWord memory addr' :=
  readWord_congr fun _ hle hlt => writeWord_outside (by omega)

theorem readWord_fill_zero {memory : ℕ → Byte} {addr len a : ℕ} (h : addr ≤ a) (h' : a + 8 ≤ addr + len) :
    readWord (fill memory addr len 0) a = 0 := by
  have hzero : readWord (fill memory addr len 0) a = readWord (fun _ => 0) a := by
    apply readWord_congr
    intro b hle hlt
    exact fill_inside (by omega) (by omega)
  rw [hzero]
  rfl

/-! ### Instructions -/

structure Machine (ρ : Type) where
  regs : ρ → UInt64
  memory : ℕ → Byte

/-- Operands in the order of the AT&T syntax. -/
inductive Instr (ρ : Type) where
  | load (disp : UInt64) (base dst : ρ)
  | store (src : ρ) (disp : UInt64) (base : ρ)
  | lea (disp : UInt64) (base dst : ρ)
  | xor (src dst : ρ)
  | push (disp : UInt64) (base : ρ)
  deriving DecidableEq

section
variable {ρ : Type} [DecidableEq ρ]

namespace Machine

def setReg (m : Machine ρ) (r : ρ) (w : UInt64) : Machine ρ := { m with regs := Function.update m.regs r w }

def address (m : Machine ρ) (disp : UInt64) (base : ρ) : ℕ := (m.regs base + disp).toNat

/-- `sp` is the stack pointer. -/
def exec (sp : ρ) (m : Machine ρ) : Instr ρ → Machine ρ
  | .load disp base dst => m.setReg dst (readWord m.memory (m.address disp base))
  | .store src disp base => { m with memory := writeWord m.memory (m.address disp base) (m.regs src) }
  | .lea disp base dst => m.setReg dst (m.regs base + disp)
  | .xor src dst => m.setReg dst (m.regs dst ^^^ m.regs src)
  | .push disp base =>
    { m.setReg sp (m.regs sp - 8) with
      memory := writeWord m.memory (m.regs sp - 8).toNat (readWord m.memory (m.address disp base)) }

def run (sp : ρ) (m : Machine ρ) (code : List (Instr ρ)) : Machine ρ := code.foldl (exec sp) m

/-- `call`: the return address is on top of the stack when the code begins. -/
def call (sp : ρ) (m : Machine ρ) (ret : UInt64) : Machine ρ :=
  { m.setReg sp (m.regs sp - 8) with memory := writeWord m.memory (m.regs sp - 8).toNat ret }

/-- `ret`: where the code continues. -/
def ret (sp : ρ) (m : Machine ρ) : UInt64 × Machine ρ :=
  (readWord m.memory (m.regs sp).toNat, m.setReg sp (m.regs sp + 8))

theorem run_append (sp : ρ) (m : Machine ρ) (code code' : List (Instr ρ)) :
    m.run sp (code ++ code') = (m.run sp code).run sp code' := List.foldl_append

@[simp] theorem run_cons (sp : ρ) (m : Machine ρ) (i : Instr ρ) (code : List (Instr ρ)) :
    m.run sp (i :: code) = (m.exec sp i).run sp code := rfl

@[simp] theorem run_nil (sp : ρ) (m : Machine ρ) : m.run sp [] = m := rfl

@[simp] theorem setReg_self (m : Machine ρ) (r : ρ) (w : UInt64) : (m.setReg r w).regs r = w := by
  simp [setReg]

theorem setReg_of_ne (m : Machine ρ) {r r' : ρ} (w : UInt64) (h : r' ≠ r) :
    (m.setReg r w).regs r' = m.regs r' := by
  simp [setReg, h]

@[simp] theorem setReg_memory (m : Machine ρ) (r : ρ) (w : UInt64) : (m.setReg r w).memory = m.memory := rfl

end Machine

/-! ### Blocks -/

/-- Stores of registers into the slots of a block. -/
def saves (base : ρ) (slots : List (ρ × UInt64)) : List (Instr ρ) :=
  slots.map fun s => .store s.1 s.2 base

def loads (base : ρ) (slots : List (ρ × UInt64)) : List (Instr ρ) :=
  slots.map fun s => .load s.2 base s.1

/-- The slots lie in a block of `len` bytes and do not overlap. -/
structure Slots (len : ℕ) (slots : List (ρ × UInt64)) : Prop where
  inside : ∀ s ∈ slots, s.2.toNat + 8 ≤ len
  apart : slots.Pairwise fun s s' => s.2.toNat + 8 ≤ s'.2.toNat ∨ s'.2.toNat + 8 ≤ s.2.toNat

theorem toNat_add_slot {base disp : UInt64} {len : ℕ} (hfit : base.toNat + len ≤ 2 ^ 64)
    (hin : disp.toNat + 8 ≤ len) : (base + disp).toNat = base.toNat + disp.toNat := by
  rw [UInt64.toNat_add]
  exact Nat.mod_eq_of_lt (by omega)

/-- After the stores each slot holds its register, and nothing else has changed. -/
theorem run_saves (sp : ρ) {base : ρ} {len : ℕ} {slots : List (ρ × UInt64)} (hslots : Slots len slots)
    (m : Machine ρ) (hfit : (m.regs base).toNat + len ≤ 2 ^ 64) :
    (m.run sp (saves base slots)).regs = m.regs ∧
      (∀ s ∈ slots, readWord (m.run sp (saves base slots)).memory ((m.regs base).toNat + s.2.toNat)
        = m.regs s.1) ∧
      ∀ a, (∀ s ∈ slots, a < (m.regs base).toNat + s.2.toNat ∨ (m.regs base).toNat + s.2.toNat + 8 ≤ a) →
        (m.run sp (saves base slots)).memory a = m.memory a := by
  induction slots generalizing m with
  | nil => exact ⟨rfl, fun s hs => absurd hs List.not_mem_nil, fun a _ => rfl⟩
  | cons s slots ih =>
    obtain ⟨hapart, hrest⟩ := List.pairwise_cons.mp hslots.apart
    have hin := hslots.inside s List.mem_cons_self
    have haddr : m.address s.2 base = (m.regs base).toNat + s.2.toNat := toNat_add_slot hfit hin
    have hslots' : Slots len slots := ⟨fun s' hs' => hslots.inside s' (List.mem_cons_of_mem s hs'), hrest⟩
    obtain ⟨hregs, hread, hframe⟩ := ih hslots' (m.exec sp (.store s.1 s.2 base)) hfit
    refine ⟨hregs, ?_, ?_⟩
    · intro s' hs'
      rcases List.mem_cons.mp hs' with rfl | hs'
      · -- The later stores do not reach this slot.
        have hkeep : readWord (m.run sp (saves base (s' :: slots))).memory
            ((m.regs base).toNat + s'.2.toNat)
            = readWord (m.exec sp (.store s'.1 s'.2 base)).memory ((m.regs base).toNat + s'.2.toNat) := by
          apply readWord_congr
          intro a hle hlt
          apply hframe
          intro t ht
          have hap := hapart t ht
          show a < (m.regs base).toNat + t.2.toNat ∨ (m.regs base).toNat + t.2.toNat + 8 ≤ a
          omega
        rw [hkeep]
        simp only [Machine.exec, haddr]
        exact readWord_writeWord _ _ _
      · exact hread s' hs'
    · intro a ha
      have hout := ha s List.mem_cons_self
      have hfirst : (m.exec sp (.store s.1 s.2 base)).memory a = m.memory a := by
        simp only [Machine.exec, haddr]
        exact writeWord_outside hout
      exact (hframe a fun t ht => ha t (List.mem_cons_of_mem s ht)).trans hfirst

/-- After the loads each register holds its slot. -/
theorem run_loads (sp : ρ) {base : ρ} {slots : List (ρ × UInt64)} (hnodup : (slots.map Prod.fst).Nodup)
    (hbase : base ∉ slots.map Prod.fst) (m : Machine ρ) :
    (m.run sp (loads base slots)).memory = m.memory ∧
      (∀ s ∈ slots, (m.run sp (loads base slots)).regs s.1 = readWord m.memory (m.address s.2 base)) ∧
      ∀ r, r ∉ slots.map Prod.fst → (m.run sp (loads base slots)).regs r = m.regs r := by
  induction slots generalizing m with
  | nil => exact ⟨rfl, fun s hs => absurd hs List.not_mem_nil, fun r _ => rfl⟩
  | cons s slots ih =>
    rw [List.map_cons] at hnodup hbase
    obtain ⟨hnot, hnodup⟩ := List.nodup_cons.mp hnodup
    obtain ⟨hne, hbase⟩ := List.ne_and_not_mem_of_not_mem_cons hbase
    obtain ⟨hmem, hload, hother⟩ := ih hnodup hbase (m.exec sp (.load s.2 base s.1))
    have haddr : ∀ disp, (m.exec sp (.load s.2 base s.1)).address disp base = m.address disp base := by
      intro disp
      rw [Machine.address, Machine.exec, Machine.setReg_of_ne m _ hne, Machine.address]
    refine ⟨hmem, ?_, ?_⟩
    · intro s' hs'
      rcases List.mem_cons.mp hs' with rfl | hs'
      · exact (hother s'.1 hnot).trans (Machine.setReg_self m _ _)
      · rw [← haddr]
        exact hload s' hs'
    · intro r hr
      rw [List.map_cons] at hr
      obtain ⟨hrs, hr⟩ := List.ne_and_not_mem_of_not_mem_cons hr
      exact (hother r hr).trans (Machine.setReg_of_ne m _ hrs)

end

end DeftRpc.Foundation
