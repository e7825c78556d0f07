import DeftRpc.Foundation.Assembly

/-!
# CoctxSwap (coctx_swap.S)

The x86-64 code with the first context in rdi and the second in rsi. The return
address of the call is kept in the context and pushed again, so that `ret` takes
the one of the other coroutine.
-/

namespace DeftRpc.Coroutine
open DeftRpc.Foundation

inductive Reg where
  | rax | rbx | rcx | rdx | rsi | rdi | rbp | rsp
  | r8 | r9 | r10 | r11 | r12 | r13 | r14 | r15
  deriving DecidableEq

/-- `sizeof(Coctx)`. -/
def coctxSize : ℕ := 112

def coctxSave : List (Instr Reg) :=
  [.lea 0 .rsp .rax,
    .store .rax 104 .rdi,
    .store .rbx 96 .rdi,
    .store .rcx 88 .rdi,
    .store .rdx 80 .rdi,
    .load 0 .rax .rax,
    .store .rax 72 .rdi,
    .store .rsi 64 .rdi,
    .store .rdi 56 .rdi,
    .store .rbp 48 .rdi,
    .store .r8 40 .rdi,
    .store .r9 32 .rdi,
    .store .r12 24 .rdi,
    .store .r13 16 .rdi,
    .store .r14 8 .rdi,
    .store .r15 0 .rdi,
    .xor .rax .rax]

def coctxRestore : List (Instr Reg) :=
  [.load 48 .rsi .rbp,
    .load 104 .rsi .rsp,
    .load 0 .rsi .r15,
    .load 8 .rsi .r14,
    .load 16 .rsi .r13,
    .load 24 .rsi .r12,
    .load 32 .rsi .r9,
    .load 40 .rsi .r8,
    .load 56 .rsi .rdi,
    .load 80 .rsi .rdx,
    .load 88 .rsi .rcx,
    .load 96 .rsi .rbx,
    .lea 8 .rsp .rsp,
    .push 72 .rsi,
    .load 64 .rsi .rsi]

/-- From the entry to `ret`. -/
def coctxSwap (m : Machine Reg) : UInt64 × Machine Reg :=
  ((m.run .rsp coctxSave).run .rsp coctxRestore).ret .rsp

/-! ### What a context holds -/

/-- The slots of `m_regs_` that hold registers; the return address is in slot 9. -/
def slots : List (Reg × UInt64) :=
  [(.r15, 0), (.r14, 8), (.r13, 16), (.r12, 24), (.r9, 32), (.r8, 40), (.rbp, 48), (.rdi, 56),
    (.rsi, 64), (.rdx, 80), (.rcx, 88), (.rbx, 96), (.rsp, 104)]

structure Holds (memory : ℕ → Byte) (ctx : ℕ) (regs : Reg → UInt64) (ret : UInt64) : Prop where
  regs : ∀ s ∈ slots, readWord memory (ctx + s.2.toNat) = regs s.1
  ret : readWord memory (ctx + 72) = ret

/-- Two ranges without a common address. -/
def Apart (a n b k : ℕ) : Prop := a + n ≤ b ∨ b + k ≤ a

instance (a n b k : ℕ) : Decidable (Apart a n b k) := instDecidableOr

theorem slots_inside {s : Reg × UInt64} (h : s ∈ slots) : s.2.toNat + 8 ≤ coctxSize := by
  have hall : ∀ s ∈ slots, s.2.toNat + 8 ≤ coctxSize := by decide
  exact hall s h

theorem Holds.congr {memory memory' : ℕ → Byte} {ctx : ℕ} {regs : Reg → UInt64} {ret : UInt64}
    (h : Holds memory ctx regs ret)
    (hsame : ∀ a, ctx ≤ a → a < ctx + coctxSize → memory' a = memory a) :
    Holds memory' ctx regs ret := by
  have hword : ∀ off, off + 8 ≤ coctxSize →
      readWord memory' (ctx + off) = readWord memory (ctx + off) := by
    intro off hoff
    apply readWord_congr
    intro a hle hlt
    exact hsame a (by omega) (by omega)
  refine ⟨?_, ?_⟩
  · intro s hs
    rw [hword _ (slots_inside hs)]
    exact h.regs s hs
  · rw [hword 72 (by decide)]
    exact h.ret

/-! ### Saving -/

def firstSlots : List (Reg × UInt64) := [(.rax, 104), (.rbx, 96), (.rcx, 88), (.rdx, 80)]

def laterSlots : List (Reg × UInt64) :=
  [(.rax, 72), (.rsi, 64), (.rdi, 56), (.rbp, 48), (.r8, 40), (.r9, 32), (.r12, 24), (.r13, 16),
    (.r14, 8), (.r15, 0)]

theorem coctxSave_blocks : coctxSave = .lea 0 .rsp .rax :: (saves .rdi firstSlots ++
    .load 0 .rax .rax :: (saves .rdi laterSlots ++ [.xor .rax .rax])) := rfl

theorem firstSlots_ok : Slots coctxSize firstSlots := ⟨by decide, by decide⟩

theorem laterSlots_ok : Slots coctxSize laterSlots := ⟨by decide, by decide⟩

theorem coctxSave_spec {m : Machine Reg} (hfit : (m.regs .rdi).toNat + coctxSize ≤ 2 ^ 64)
    (htop : Apart (m.regs .rsp).toNat 8 (m.regs .rdi).toNat coctxSize) :
    Holds (m.run .rsp coctxSave).memory (m.regs .rdi).toNat m.regs
        (readWord m.memory (m.regs .rsp).toNat) ∧
      (∀ r, r ≠ .rax → (m.run .rsp coctxSave).regs r = m.regs r) ∧
      ∀ a, a < (m.regs .rdi).toNat ∨ (m.regs .rdi).toNat + coctxSize ≤ a →
        (m.run .rsp coctxSave).memory a = m.memory a := by
  rw [coctxSave_blocks, Machine.run_cons, Machine.run_append, Machine.run_cons, Machine.run_append]
  -- rax holds the stack pointer
  obtain ⟨m1, hm1⟩ : ∃ m1, m1 = m.exec .rsp (.lea 0 .rsp .rax) := ⟨_, rfl⟩
  have hkeep1 : ∀ r, r ≠ .rax → m1.regs r = m.regs r := by
    intro r hr
    rw [hm1]
    exact Machine.setReg_of_ne m _ hr
  have hrax1 : m1.regs .rax = m.regs .rsp := by
    rw [hm1, Machine.exec, Machine.setReg_self, UInt64.add_zero]
  have hrdi1 := hkeep1 .rdi (by decide)
  obtain ⟨hregs2, hread2, hframe2⟩ := run_saves .rsp firstSlots_ok m1 (by rw [hrdi1]; exact hfit)
  rw [← hm1]
  obtain ⟨m2, hm2⟩ : ∃ m2, m2 = m1.run .rsp (saves .rdi firstSlots) := ⟨_, rfl⟩
  rw [← hm2] at hregs2 hread2 hframe2 ⊢
  rw [hrdi1] at hread2 hframe2
  -- then the return address
  obtain ⟨m3, hm3⟩ : ∃ m3, m3 = m2.exec .rsp (.load 0 .rax .rax) := ⟨_, rfl⟩
  have hkeep3 : ∀ r, r ≠ .rax → m3.regs r = m.regs r := by
    intro r hr
    rw [hm3, Machine.exec, Machine.setReg_of_ne m2 _ hr, hregs2, hkeep1 r hr]
  have hrax3 : m3.regs .rax = readWord m.memory (m.regs .rsp).toNat := by
    rw [hm3, Machine.exec, Machine.setReg_self, Machine.address, hregs2, hrax1, UInt64.add_zero]
    apply readWord_congr
    intro a hle hlt
    have hout : m2.memory a = m1.memory a := by
      apply hframe2
      intro s hs
      have hin := firstSlots_ok.inside s hs
      rcases htop with h | h <;> omega
    rw [hout, hm1]
    rfl
  have hrdi3 := hkeep3 .rdi (by decide)
  obtain ⟨hregs4, hread4, hframe4⟩ := run_saves .rsp laterSlots_ok m3 (by rw [hrdi3]; exact hfit)
  rw [← hm3]
  obtain ⟨m4, hm4⟩ : ∃ m4, m4 = m3.run .rsp (saves .rdi laterSlots) := ⟨_, rfl⟩
  rw [← hm4] at hregs4 hread4 hframe4 ⊢
  rw [hrdi3] at hread4 hframe4
  have hmem3 : m3.memory = m2.memory := by
    rw [hm3]
    rfl
  have hfirst : ∀ s ∈ firstSlots, readWord m4.memory ((m.regs .rdi).toNat + s.2.toNat) = m1.regs s.1 := by
    intro s hs
    have hapart : ∀ s ∈ firstSlots, ∀ t ∈ laterSlots, t.2.toNat + 8 ≤ s.2.toNat := by decide
    rw [← hread2 s hs, ← hmem3]
    apply readWord_congr
    intro a hle hlt
    apply hframe4
    intro t ht
    have hap := hapart s hs t ht
    omega
  have hlater : ∀ s ∈ laterSlots, s.1 ≠ .rax →
      readWord m4.memory ((m.regs .rdi).toNat + s.2.toNat) = m.regs s.1 := by
    intro s hs hne
    rw [hread4 s hs, hkeep3 s.1 hne]
  have hmemory : ((m4.run .rsp [.xor .rax .rax]).memory) = m4.memory := rfl
  refine ⟨⟨?_, ?_⟩, ?_, ?_⟩
  · rw [hmemory]
    intro s hs
    have hcover : ∀ s ∈ slots, s = (.rsp, 104) ∨ (s ∈ firstSlots ∨ s ∈ laterSlots) ∧ s.1 ≠ .rax := by
      decide
    rcases hcover s hs with rfl | ⟨hs' | hs', hne⟩
    · exact (hfirst (.rax, 104) (by decide)).trans hrax1
    · rw [hfirst s hs', hkeep1 s.1 hne]
    · exact hlater s hs' hne
  · rw [hmemory, ← hrax3]
    exact hread4 (.rax, 72) (by decide)
  · intro r hr
    rw [Machine.run_cons, Machine.run_nil, Machine.exec, Machine.setReg_of_ne m4 _ hr, hregs4, hkeep3 r hr]
  · intro a ha
    have hm1mem : m1.memory a = m.memory a := by
      rw [hm1]
      rfl
    rw [hmemory, hframe4 a, hmem3, hframe2 a, hm1mem]
    · intro s hs
      have hin := firstSlots_ok.inside s hs
      omega
    · intro s hs
      have hin := laterSlots_ok.inside s hs
      omega

/-! ### Restoring -/

def loadedSlots : List (Reg × UInt64) :=
  [(.rbp, 48), (.rsp, 104), (.r15, 0), (.r14, 8), (.r13, 16), (.r12, 24), (.r9, 32), (.r8, 40),
    (.rdi, 56), (.rdx, 80), (.rcx, 88), (.rbx, 96)]

theorem coctxRestore_blocks : coctxRestore = loads .rsi loadedSlots ++
    [.lea 8 .rsp .rsp, .push 72 .rsi, .load 64 .rsi .rsi] := rfl

/-- The stack pointer comes back as it was before the call. -/
theorem coctxRestore_spec {m : Machine Reg} {regs : Reg → UInt64} {ret : UInt64}
    (hholds : Holds m.memory (m.regs .rsi).toNat regs ret)
    (hfit : (m.regs .rsi).toNat + coctxSize ≤ 2 ^ 64)
    (htop : Apart (regs .rsp).toNat 8 (m.regs .rsi).toNat coctxSize) :
    ∃ m', (m.run .rsp coctxRestore).ret .rsp = (ret, m') ∧
      m'.memory = writeWord m.memory (regs .rsp).toNat ret ∧ m'.regs .rsp = regs .rsp + 8 ∧
      ∀ s ∈ slots, s.1 ≠ .rsp → m'.regs s.1 = regs s.1 := by
  rw [coctxRestore_blocks, Machine.run_append]
  have hnodup : (loadedSlots.map Prod.fst).Nodup := by decide
  have hbase : Reg.rsi ∉ loadedSlots.map Prod.fst := by decide
  obtain ⟨hmem1, hload1, hother1⟩ := run_loads .rsp hnodup hbase m
  obtain ⟨m1, hm1⟩ : ∃ m1, m1 = m.run .rsp (loads .rsi loadedSlots) := ⟨_, rfl⟩
  rw [← hm1] at hmem1 hload1 hother1 ⊢
  have hrsi1 := hother1 .rsi (by decide)
  have haddr : ∀ off : UInt64, off.toNat + 8 ≤ coctxSize →
      m.address off .rsi = (m.regs .rsi).toNat + off.toNat := fun off hoff => toNat_add_slot hfit hoff
  have hloaded : ∀ s ∈ loadedSlots, m1.regs s.1 = regs s.1 := by
    have hsub : ∀ s ∈ loadedSlots, s ∈ slots := by decide
    intro s hs
    rw [hload1 s hs, haddr _ (slots_inside (hsub s hs))]
    exact hholds.regs s (hsub s hs)
  have hrsp1 : m1.regs .rsp = regs .rsp := hloaded (.rsp, 104) (by decide)
  obtain ⟨m2, hm2⟩ : ∃ m2, m2 = (m1.exec .rsp (.lea 8 .rsp .rsp)).exec .rsp (.push 72 .rsi) := ⟨_, rfl⟩
  have hkeep2 : ∀ r, r ≠ .rsp → m2.regs r = m1.regs r := by
    intro r hr
    rw [hm2]
    simp only [Machine.exec, Machine.setReg_of_ne _ _ hr]
  have hrsp2 : m2.regs .rsp = regs .rsp := by
    rw [hm2]
    simp only [Machine.exec, Machine.setReg_self, hrsp1, UInt64.add_sub_cancel]
  have hret : readWord m.memory (m.address 72 .rsi) = ret := by
    rw [haddr 72 (by decide)]
    exact hholds.ret
  have hmem2 : m2.memory = writeWord m.memory (regs .rsp).toNat ret := by
    have hbase : (m1.exec .rsp (.lea 8 .rsp .rsp)).address 72 .rsi = m.address 72 .rsi := by
      simp only [Machine.exec, Machine.address]
      rw [Machine.setReg_of_ne m1 _ (by decide), hrsi1]
    rw [hm2]
    simp only [Machine.exec] at hbase ⊢
    rw [hbase]
    simp only [Machine.setReg_self, Machine.setReg_memory, hrsp1, UInt64.add_sub_cancel, hmem1, hret]
  have hrun : m1.run .rsp [.lea 8 .rsp .rsp, .push 72 .rsi, .load 64 .rsi .rsi]
      = m2.exec .rsp (.load 64 .rsi .rsi) := by
    rw [hm2]
    rfl
  have hrsi : readWord m2.memory (m2.address 64 .rsi) = regs .rsi := by
    have hslot : m2.address 64 .rsi = (m.regs .rsi).toNat + 64 := by
      rw [Machine.address, hkeep2 .rsi (by decide), hrsi1]
      exact haddr 64 (by decide)
    rw [hslot, hmem2, readWord_writeWord_of_apart]
    · exact hholds.regs (.rsi, 64) (by decide)
    · have hsize : coctxSize = 112 := rfl
      rcases htop with h | h
      · exact Or.inl (by omega)
      · exact Or.inr (by omega)
  rw [hrun, Machine.ret]
  simp only [Machine.exec, Machine.setReg_memory, hrsi]
  have hrsp3 : (m2.setReg .rsi (regs .rsi)).regs .rsp = regs .rsp := by
    rw [Machine.setReg_of_ne m2 _ (by decide), hrsp2]
  refine ⟨(m2.setReg .rsi (regs .rsi)).setReg .rsp (regs .rsp + 8), ?_, hmem2, Machine.setReg_self _ _ _, ?_⟩
  · rw [hrsp3, hmem2, readWord_writeWord]
  · intro s hs hne
    rw [Machine.setReg_of_ne _ _ hne]
    by_cases hrs : s.1 = .rsi
    · rw [hrs, Machine.setReg_self]
    · have hcover : ∀ s ∈ slots, s.1 ≠ .rsi → s ∈ loadedSlots := by decide
      rw [Machine.setReg_of_ne _ _ hrs, hkeep2 s.1 hne, hloaded s (hcover s hs hrs)]

/-! ### The swap -/

/-- The two contexts may be one and the same. -/
theorem coctxSwap_spec {m : Machine Reg} {regs : Reg → UInt64} {ret : UInt64}
    (hfrom : (m.regs .rdi).toNat + coctxSize ≤ 2 ^ 64) (hto : (m.regs .rsi).toNat + coctxSize ≤ 2 ^ 64)
    (htop : Apart (m.regs .rsp).toNat 8 (m.regs .rdi).toNat coctxSize)
    (htop' : Apart (regs .rsp).toNat 8 (m.regs .rsi).toNat coctxSize)
    (hnext : ∀ memory, Holds memory (m.regs .rdi).toNat m.regs (readWord m.memory (m.regs .rsp).toNat) →
      (∀ a, a < (m.regs .rdi).toNat ∨ (m.regs .rdi).toNat + coctxSize ≤ a → memory a = m.memory a) →
      Holds memory (m.regs .rsi).toNat regs ret) :
    ∃ (saved : ℕ → Byte) (m' : Machine Reg), coctxSwap m = (ret, m') ∧
      Holds saved (m.regs .rdi).toNat m.regs (readWord m.memory (m.regs .rsp).toNat) ∧
      (∀ a, a < (m.regs .rdi).toNat ∨ (m.regs .rdi).toNat + coctxSize ≤ a → saved a = m.memory a) ∧
      m'.memory = writeWord saved (regs .rsp).toNat ret ∧ m'.regs .rsp = regs .rsp + 8 ∧
      ∀ s ∈ slots, s.1 ≠ .rsp → m'.regs s.1 = regs s.1 := by
  obtain ⟨hholds, hregs, hframe⟩ := coctxSave_spec hfrom htop
  obtain ⟨m1, hm1⟩ : ∃ m1, m1 = m.run .rsp coctxSave := ⟨_, rfl⟩
  rw [← hm1] at hholds hregs hframe
  have hrsi := hregs .rsi (by decide)
  have hnext' := hnext m1.memory hholds hframe
  rw [← hrsi] at hnext' hto htop'
  obtain ⟨m', hrun, hmem, hrsp, hother⟩ := coctxRestore_spec hnext' hto htop'
  exact ⟨m1.memory, m', by rw [coctxSwap, ← hm1, hrun], hholds, hframe, hmem, hrsp, hother⟩

end DeftRpc.Coroutine
