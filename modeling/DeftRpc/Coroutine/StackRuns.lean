import DeftRpc.Coroutine.SharedStack

/-!
# What a resumed coroutine finds on the shared stack

The bytes are intact as long as every resumed coroutine still owns the stack.
A coroutine that lost it is saved and loaded by offset from the low end, where
its frames are not.
-/

namespace DeftRpc.Coroutine
open DeftRpc.Foundation
variable {ι : Type}

/-! ### The contexts -/

/-- The context points into the stack. -/
structure Entered (region : StackRegion) (ctx : CoroutineContext) : Prop where
  bp : ctx.mMem.mStackBp = region.mStack + region.mStackSize
  buffer : ctx.mMem.mStackBuffer = region.mStack
  low : region.mStack ≤ ctx.mCtx.kRSP
  high : ctx.mCtx.kRSP + 8 ≤ region.mStack + region.mStackSize

def Fresh (ctx : CoroutineContext) : Prop := ctx.mCtx = {} ∧ ctx.mMem = {}

/-- The buffer for the saved bytes has the size that goes with it. -/
def SavedOk (mem : StStackMem) : Prop :=
  match mem.mSavedStack with
  | none => mem.mSaveStackSize = 0
  | some saved => saved.length = mem.mSaveStackSize

theorem Entered.not_empty {region : StackRegion} {ctx : CoroutineContext} (h : Entered region ctx) :
    ctx.mCtx.empty = false := by
  have hlow := h.low
  have hpos := region.mapped
  have hne : (ctx.mCtx.kRSP == 0) = false := by
    rw [beq_eq_false_iff_ne]
    omega
  rw [Coctx.empty, hne, Bool.false_and]

theorem Entered.mem_not_empty {region : StackRegion} {ctx : CoroutineContext}
    (h : Entered region ctx) : ctx.mMem.empty = false := by
  have hpos := region.mapped
  have hne : (ctx.mMem.mStackBuffer == 0) = false := by
    rw [beq_eq_false_iff_ne, h.buffer]
    omega
  rw [StStackMem.empty, hne, Bool.and_false]

theorem Entered.congr {region : StackRegion} {ctx ctx' : CoroutineContext} (h : Entered region ctx)
    (hctx : ctx'.mCtx = ctx.mCtx) (hbp : ctx'.mMem.mStackBp = ctx.mMem.mStackBp)
    (hbuffer : ctx'.mMem.mStackBuffer = ctx.mMem.mStackBuffer) : Entered region ctx' := by
  refine ⟨hbp.trans h.bp, hbuffer.trans h.buffer, ?_, ?_⟩
  · rw [hctx]
    exact h.low
  · rw [hctx]
    exact h.high

/-! ### Saving -/

theorem growLoop_ok (validSize turns size : ℕ) (h : validSize < size * 2 ^ turns)
    (hs : 0 < turns) :
    ∃ size', growLoop validSize turns size = .ok size' ∧ validSize < size' := by
  induction turns generalizing size with
  | zero => omega
  | succ turns ih =>
    rw [growLoop]
    by_cases hv : validSize ≥ 2 * size
    · have hlt : validSize < 2 * size * 2 ^ turns := by
        rw [Nat.pow_succ] at h
        rw [Nat.mul_comm 2 size, Nat.mul_assoc, Nat.mul_comm 2]
        exact h
      have hpos : 0 < turns := by
        by_contra h0
        have hz : turns = 0 := by omega
        rw [hz, Nat.pow_zero, Nat.mul_one] at hlt
        omega
      rw [if_pos hv]
      exact ih (2 * size) hlt hpos
    · rw [if_neg hv]
      exact ⟨2 * size, rfl, by omega⟩

theorem growSaved_spec {mem : StStackMem} (validSize : ℕ) (h : SavedOk mem)
    (hv : validSize < 18446744073709551616) :
    ∃ mem' saved, growSaved mem validSize = .ok mem' ∧ mem'.mSavedStack = some saved ∧
      validSize ≤ saved.length ∧ saved.length = mem'.mSaveStackSize ∧
      mem'.mValidSize = validSize ∧ mem'.mStackBp = mem.mStackBp ∧
      mem'.mStackBuffer = mem.mStackBuffer := by
  unfold growSaved
  by_cases hgrow : validSize ≥ mem.mSaveStackSize
  · rw [if_pos hgrow]
    obtain ⟨start, hstart⟩ : ∃ start, (if mem.mSaveStackSize = 0 then 2 else mem.mSaveStackSize) = start :=
      ⟨_, rfl⟩
    have hpos : 1 ≤ start := by
      rw [← hstart]
      split <;> omega
    have hlt : validSize < start * 2 ^ 64 := by
      have hle : 1 * 2 ^ 64 ≤ start * 2 ^ 64 := Nat.mul_le_mul_right _ hpos
      omega
    obtain ⟨size, hsize, hvs⟩ := growLoop_ok validSize 64 start hlt (by omega)
    dsimp only
    rw [hstart, hsize, Exec.ok_bind]
    refine ⟨_, List.replicate size 0, rfl, rfl, ?_, List.length_replicate, rfl, rfl, rfl⟩
    rw [List.length_replicate]
    exact le_of_lt hvs
  · rw [if_neg hgrow]
    unfold SavedOk at h
    cases hsaved : mem.mSavedStack with
    | none =>
      rw [hsaved] at h
      dsimp only at h
      omega
    | some saved =>
      rw [hsaved] at h
      dsimp only at h
      exact ⟨_, saved, rfl, rfl, by omega, h, rfl, rfl, rfl⟩

/-! ### The main coroutine's view -/

theorem inStack_iff (w : World ι) (addr len : ℕ) : w.inStack addr len = true ↔
    w.region.mStack ≤ addr ∧ addr + len ≤ w.region.mStack + w.region.mStackSize := by
  rw [World.inStack, Bool.and_eq_true, decide_eq_true_eq, decide_eq_true_eq]

theorem coctxSwapIn_spec {w : World ι} {c : ι} (hin : w.inStack (w.ctxs c).mCtx.kRSP 8 = true) :
    w.coctxSwapIn c = .ok { w with
      memory := store w.memory (w.ctxs c).mCtx.kRSP (leBytes 8 (w.ctxs c).mCtx.kRETAddr),
      running := some c } := by
  rw [World.coctxSwapIn]
  exact if_pos hin

/-- Which coroutine runs, and what each left on the stack when it last swapped out. -/
structure Left (ι : Type) where
  running : Option ι := none
  left : ι → Option (List Byte) := fun _ => none

structure Consistent (w : World ι) (t : Left ι) : Prop where
  running : t.running = w.running
  saved : ∀ c, SavedOk (w.ctxs c).mMem
  known : ∀ c, Entered w.region (w.ctxs c) ∨ (Fresh (w.ctxs c) ∧ t.left c = none)
  owner : ∀ c, w.mOwner = some c → Entered w.region (w.ctxs c)
  runs : ∀ c, w.running = some c → w.mOwner = some c
  away : ∀ c, Entered w.region (w.ctxs c) → w.running ≠ some c → ∃ live, t.left c = some live
  intact : w.running = none → ∀ c live, w.mOwner = some c → t.left c = some live →
    w.liveRegion c = live ∧
      (w.ctxs c).mCtx.kRETAddr = leVal (load w.memory (w.ctxs c).mCtx.kRSP 8)

theorem start_consistent (region : StackRegion) (mFunc : ι → ℕ) (memory : ℕ → Byte) :
    Consistent (World.start region mFunc memory) {} where
  running := rfl
  saved _ := rfl
  known _ := Or.inr ⟨⟨rfl, rfl⟩, rfl⟩
  owner c h := by cases h
  runs c h := by cases h
  away c h _ := by
    have hlow := h.low
    have hpos := region.mapped
    have hz : (World.start region mFunc memory).region.mStack ≤ 0 := hlow
    have hr : (World.start region mFunc memory).region = region := rfl
    rw [hr] at hz
    omega
  intact _ c live h _ := by cases h

/-! ### Swapping -/

variable [DecidableEq ι]

/-- A resumed coroutine finds what it left. -/
inductive SwapSpec : Left ι → SwapOp ι → SwapOut → Left ι → Prop
  | enter {t : Left ι} {c : ι} (hr : t.running = none) (hl : t.left c = none) :
      SwapSpec t (.swapIn c) .entered { t with running := some c }
  | resume {t : Left ι} {c : ι} {live : List Byte} (hr : t.running = none)
      (hl : t.left c = some live) :
      SwapSpec t (.swapIn c) (.resumed live) { t with running := some c }
  | write (t : Left ι) (addr : ℕ) (byte : Byte) : SwapSpec t (.write addr byte) .written t
  | yield {t : Left ι} {c : ι} (sp : ℕ) (live : List Byte) (hr : t.running = some c) :
      SwapSpec t (.yield sp) (.yielded live)
        { running := none, left := Function.update t.left c (some live) }

/-- A swap enters a new coroutine or resumes the owner of the stack; a coroutine
writes and yields inside the stack. -/
def SwapOk (w : World ι) : SwapOp ι → Prop
  | .swapIn c => w.running = none ∧ ((w.ctxs c).mCtx.empty = true ∨ w.mOwner = some c)
  | .write addr _ => w.running.isSome = true ∧ w.inStack addr 1 = true
  | .yield sp => w.running.isSome = true ∧ w.inStack sp 8 = true

instance (w : World ι) : ∀ op, Decidable (SwapOk w op)
  | .swapIn _ => instDecidableAnd
  | .write _ _ => instDecidableAnd
  | .yield _ => instDecidableAnd

/-- Saving the owner touches its own saved bytes and gives up the stack. -/
theorem saveSharedStack_spec {w : World ι} {c : ι} (he : Entered w.region (w.ctxs c))
    (hs : SavedOk (w.ctxs c).mMem) :
    ∃ mem, w.saveSharedStack c
        = .ok { w.setCtx c { w.ctxs c with mMem := mem } with mOwner := none } ∧
      SavedOk mem ∧ mem.mStackBp = (w.ctxs c).mMem.mStackBp ∧
      mem.mStackBuffer = (w.ctxs c).mMem.mStackBuffer := by
  have hbp := he.bp
  have hlow := he.low
  have hhigh := he.high
  have hspace := w.region.space
  obtain ⟨mem, saved, hgrow, hsome, hle, hlen, hvalid, hmbp, hmbuf⟩ :=
    growSaved_spec ((w.ctxs c).mMem.mStackBp - (w.ctxs c).mCtx.kRSP) hs (by omega)
  have hin : w.inStack w.region.mStack mem.mValidSize = true := by
    rw [inStack_iff, hvalid]
    omega
  have hfit : 0 + (load w.memory w.region.mStack mem.mValidSize).length ≤ saved.length := by
    rw [load_length, hvalid]
    omega
  have hpl := paste_length saved 0 (load w.memory w.region.mStack mem.mValidSize) hfit
  refine ⟨{ mem with
    mSavedStack := some (paste saved 0 (load w.memory w.region.mStack mem.mValidSize)) },
    ?_, ?_, hmbp, hmbuf⟩
  · unfold World.saveSharedStack
    dsimp only
    rw [if_neg (by omega), hgrow, Exec.ok_bind, hsome]
    dsimp only
    rw [World.saveStack, if_pos hin, writeAt_ok hfit]
    rfl
  · exact hpl.trans hlen

/-- Entering saves the owner, if there is one, and gives the stack to `c`. -/
theorem saveOwnerStack_spec {w : World ι} {t : Left ι} {c : ι} (h : Consistent w t)
    (hne : w.mOwner ≠ some c) :
    ∃ w', w.saveOwnerStack c = .ok w' ∧ w'.mOwner = none ∧ w'.region = w.region ∧
      w'.running = w.running ∧ w'.memory = w.memory ∧ w'.ctxs c = w.ctxs c ∧
      (∀ x, SavedOk (w'.ctxs x).mMem) ∧
      ∀ x, (Entered w.region (w.ctxs x) ∧ Entered w.region (w'.ctxs x)) ∨
        w'.ctxs x = w.ctxs x := by
  cases howner : w.mOwner with
  | none =>
    refine ⟨w, ?_, howner, rfl, rfl, rfl, rfl, h.saved, fun x => Or.inr rfl⟩
    rw [World.saveOwnerStack, howner]
  | some o =>
    have hoc : o ≠ c := by
      intro he
      rw [howner, he] at hne
      exact hne rfl
    have he := h.owner o howner
    obtain ⟨mem, hsave, hsaved, hbp, hbuf⟩ := saveSharedStack_spec he (h.saved o)
    refine ⟨{ w.setCtx o { w.ctxs o with mMem := mem } with mOwner := none }, ?_, rfl, rfl, rfl, rfl,
      ?_, ?_, ?_⟩
    · rw [World.saveOwnerStack, howner]
      dsimp only
      rw [if_neg hoc, hsave]
    · exact Function.update_of_ne hoc.symm _ _
    · intro x
      by_cases hx : x = o
      · rw [hx]
        simp only [World.setCtx, Function.update_self]
        exact hsaved
      · simp only [World.setCtx, Function.update_of_ne hx]
        exact h.saved x
    · intro x
      by_cases hx : x = o
      · rw [hx]
        simp only [World.setCtx, Function.update_self]
        exact Or.inl ⟨he, he.congr rfl hbp hbuf⟩
      · simp only [World.setCtx, Function.update_of_ne hx]
        exact Or.inr trivial

theorem makeCtx_spec {w : World ι} {c : ι} (hnone : w.mOwner = none)
    (hbp : (w.ctxs c).mMem.mStackBp = w.region.mStack + w.region.mStackSize) :
    ∃ sp, w.inStack sp 8 = true ∧ w.makeCtx c
      = .ok { w.setCtx c { w.ctxs c with mCtx := ⟨sp, (w.ctxs c).mFunc⟩ } with
          mOwner := some c, memory := store w.memory sp (leBytes 8 (w.ctxs c).mFunc) } := by
  have hpage := w.region.page
  have hin : w.inStack (((w.ctxs c).mMem.mStackBp - 8) / 16 * 16) 8 = true := by
    rw [inStack_iff, hbp]
    omega
  have hown : w.saveOwnerStack c = .ok w := by
    rw [World.saveOwnerStack, hnone]
  refine ⟨_, hin, ?_⟩
  unfold World.makeCtx
  rw [hown, Exec.ok_bind]
  exact if_pos hin

theorem makeMem_makeCtx_spec {w : World ι} {c : ι} (hnone : w.mOwner = none)
    (hf : Fresh (w.ctxs c)) :
    ((w.makeMem c).ctxs c).mCtx.empty = true ∧ ∃ w', (w.makeMem c).makeCtx c = .ok w' ∧
      w'.region = w.region ∧ w'.mOwner = some c ∧ Entered w.region (w'.ctxs c) ∧
      SavedOk (w'.ctxs c).mMem ∧ ∀ x, x ≠ c → w'.ctxs x = w.ctxs x := by
  obtain ⟨hfctx, hfmem⟩ := hf
  have hmade : (w.makeMem c).ctxs c = { w.ctxs c with mMem := { (w.ctxs c).mMem with
      mStackBuffer := w.region.mStack, mStackSize := w.region.mStackSize,
      mStackBp := w.region.mStack + w.region.mStackSize, mShareStack := true } } :=
    Function.update_self _ _ _
  have hbp : ((w.makeMem c).ctxs c).mMem.mStackBp = w.region.mStack + w.region.mStackSize := by
    rw [hmade]
  obtain ⟨sp, hin, hmake⟩ := makeCtx_spec (w := w.makeMem c) hnone hbp
  obtain ⟨hlow, hhigh⟩ := (inStack_iff (w.makeMem c) sp 8).mp hin
  refine ⟨by rw [hmade, hfctx]; rfl, _, hmake, rfl, rfl, ?_, ?_, ?_⟩
  · simp only [World.setCtx, Function.update_self, hmade]
    exact ⟨rfl, rfl, hlow, hhigh⟩
  · simp only [World.setCtx, Function.update_self, hmade, hfmem]
    exact rfl
  · intro x hx
    simp only [World.setCtx, World.makeMem, Function.update_of_ne hx]

theorem swapCtx_enter {w : World ι} {t : Left ι} {c : ι} (h : Consistent w t)
    (hf : Fresh (w.ctxs c)) (hne : w.mOwner ≠ some c) :
    ∃ w', w.swapCtx c = .ok w' ∧ w'.region = w.region ∧ w'.running = some c ∧
      w'.mOwner = some c ∧ Entered w.region (w'.ctxs c) ∧ (∀ x, SavedOk (w'.ctxs x).mMem) ∧
      ∀ x, x ≠ c → (Entered w.region (w.ctxs x) ∧ Entered w.region (w'.ctxs x)) ∨
        w'.ctxs x = w.ctxs x := by
  obtain ⟨w1, hsave, hnone, hregion, -, -, hctx, hsaved, hothers⟩ := saveOwnerStack_spec h hne
  have hmem : (w1.ctxs c).mMem.empty = true := by
    rw [hctx, hf.2]
    rfl
  obtain ⟨hempty, w2, hmake, hreg, howner, hentered, hsaved2, hkept⟩ :=
    makeMem_makeCtx_spec hnone (hctx ▸ hf)
  rw [hregion] at hreg hentered
  have hin : w2.inStack (w2.ctxs c).mCtx.kRSP 8 = true := by
    rw [inStack_iff, hreg]
    exact ⟨hentered.low, hentered.high⟩
  have hload : ¬ ((w2.ctxs c).mMem.mValidSize ≠ 0 ∧ w2.mOwner ≠ some c) := fun hv => hv.2 howner
  refine ⟨{ w2 with
      memory := store w2.memory (w2.ctxs c).mCtx.kRSP (leBytes 8 (w2.ctxs c).mCtx.kRETAddr),
      running := some c }, ?_, hreg, rfl, howner, hentered, ?_, ?_⟩
  · unfold World.swapCtx
    rw [hsave, Exec.ok_bind]
    dsimp only
    rw [if_pos hmem, if_pos hempty, hmake, Exec.ok_bind, if_neg hload, Exec.pure_eq_ok, Exec.ok_bind]
    exact coctxSwapIn_spec hin
  · intro x
    dsimp only
    by_cases hx : x = c
    · rw [hx]
      exact hsaved2
    · rw [hkept x hx]
      exact hsaved x
  · intro x hx
    dsimp only
    rw [hkept x hx]
    exact hothers x

/-- The owner is resumed where it stands: only its return address is pushed again. -/
theorem swapCtx_resume {w : World ι} {t : Left ι} {c : ι} {live : List Byte} (h : Consistent w t)
    (hr : w.running = none) (howner : w.mOwner = some c) (hl : t.left c = some live) :
    w.swapCtx c = .ok { w with running := some c } ∧ w.liveRegion c = live := by
  have he := h.owner c howner
  obtain ⟨hlive, hret⟩ := h.intact hr c live howner hl
  refine ⟨?_, hlive⟩
  have hsave : w.saveOwnerStack c = .ok w := by
    rw [World.saveOwnerStack, howner]
    dsimp only
    rw [if_pos rfl]
  have hmem : ¬ (w.ctxs c).mMem.empty = true := by
    rw [he.mem_not_empty]
    exact Bool.false_ne_true
  have hctx : ¬ (w.ctxs c).mCtx.empty = true := by
    rw [he.not_empty]
    exact Bool.false_ne_true
  have hin : w.inStack (w.ctxs c).mCtx.kRSP 8 = true := by
    rw [inStack_iff]
    exact ⟨he.low, he.high⟩
  have hbytes : leBytes 8 (w.ctxs c).mCtx.kRETAddr = load w.memory (w.ctxs c).mCtx.kRSP 8 := by
    have hb := leBytes_leVal (load w.memory (w.ctxs c).mCtx.kRSP 8)
    rwa [load_length, ← hret] at hb
  unfold World.swapCtx
  rw [hsave, Exec.ok_bind]
  dsimp only
  rw [if_neg hmem, if_neg hctx, Exec.pure_eq_ok, Exec.ok_bind, if_neg (fun hv => hv.2 howner),
    Exec.pure_eq_ok, Exec.ok_bind, coctxSwapIn_spec hin, hbytes, store_load]

/-! ### Runs -/

theorem swapIn_step {w : World ι} {t : Left ι} {c : ι} (h : Consistent w t)
    (hok : SwapOk w (.swapIn c)) :
    ∃ o w' t', swapStep w (.swapIn c) = .ok (o, w') ∧ SwapSpec t (.swapIn c) o t' ∧
      Consistent w' t' := by
  obtain ⟨hr, hcase⟩ := hok
  have htr : t.running = none := h.running.trans hr
  rcases h.known c with he | ⟨hf, hleft⟩
  · -- An entered context is not empty, so `c` owns the stack.
    have howner : w.mOwner = some c := by
      rcases hcase with hempty | howner
      · rw [he.not_empty] at hempty
        exact absurd hempty Bool.false_ne_true
      · exact howner
    have haway : w.running ≠ some c := by
      rw [hr]
      exact (Option.some_ne_none c).symm
    obtain ⟨live, hl⟩ := h.away c he haway
    obtain ⟨hswap, hlive⟩ := swapCtx_resume h hr howner hl
    refine ⟨.resumed live, { w with running := some c }, { t with running := some c }, ?_,
      .resume htr hl, rfl, h.saved, h.known, h.owner, ?_, ?_, ?_⟩
    · have hlive' : ({ w with running := some c } : World ι).liveRegion c = live := hlive
      rw [swapStep, hr]
      dsimp only
      rw [hswap, Exec.ok_bind, hlive', he.not_empty]
      rfl
    · intro x hx
      cases hx
      exact howner
    · intro x hx _
      have hx' : w.running ≠ some x := by
        rw [hr]
        exact (Option.some_ne_none x).symm
      exact h.away x hx hx'
    · intro hnone
      cases hnone
  · have hne : w.mOwner ≠ some c := by
      intro howner
      have he := (h.owner c howner).not_empty
      rw [hf.1] at he
      exact absurd he.symm Bool.false_ne_true
    have hempty : (w.ctxs c).mCtx.empty = true := by
      rw [hf.1]
      rfl
    obtain ⟨w', hswap, hregion, hrun, howner, hec, hsaved, hothers⟩ := swapCtx_enter h hf hne
    refine ⟨.entered, w', { t with running := some c }, ?_, .enter htr hleft, hrun.symm, hsaved,
      ?_, ?_, ?_, ?_, ?_⟩
    · rw [swapStep, hr]
      dsimp only
      rw [hswap, Exec.ok_bind, hempty]
      rfl
    · intro x
      rw [hregion]
      by_cases hx : x = c
      · rw [hx]
        exact Or.inl hec
      · rcases hothers x hx with ⟨-, hex⟩ | hsame
        · exact Or.inl hex
        · rw [hsame]
          exact h.known x
    · intro x hx
      rw [howner] at hx
      cases hx
      rw [hregion]
      exact hec
    · intro x hx
      rw [hrun] at hx
      rw [howner, hx]
    · intro x hex hx
      rw [hrun] at hx
      have hxc : x ≠ c := fun he => hx (by rw [he])
      have hx' : w.running ≠ some x := by
        rw [hr]
        exact (Option.some_ne_none x).symm
      rcases hothers x hxc with ⟨hold, -⟩ | hsame
      · exact h.away x hold hx'
      · rw [hregion, hsame] at hex
        exact h.away x hex hx'
    · intro hnone
      rw [hrun] at hnone
      cases hnone

theorem write_step {w : World ι} {t : Left ι} {addr : ℕ} {byte : Byte} (h : Consistent w t)
    (hok : SwapOk w (.write addr byte)) :
    ∃ o w' t', swapStep w (.write addr byte) = .ok (o, w') ∧ SwapSpec t (.write addr byte) o t' ∧
      Consistent w' t' := by
  obtain ⟨hr, hin⟩ := hok
  refine ⟨.written, { w with memory := store w.memory addr [byte] }, t, ?_, .write t addr byte,
    h.running, h.saved, h.known, h.owner, h.runs, h.away, ?_⟩
  · rw [swapStep, hr, hin]
    rfl
  · intro hnone
    have hnone' : w.running = none := hnone
    rw [hnone'] at hr
    cases hr

/-- What the coroutine that yields leaves behind is what its context remembers. -/
theorem yield_step {w : World ι} {t : Left ι} {sp : ℕ} (h : Consistent w t)
    (hok : SwapOk w (.yield sp)) :
    ∃ o w' t', swapStep w (.yield sp) = .ok (o, w') ∧ SwapSpec t (.yield sp) o t' ∧
      Consistent w' t' := by
  obtain ⟨hr, hin⟩ := hok
  obtain ⟨c, hc⟩ := Option.isSome_iff_exists.mp hr
  have howner := h.runs c hc
  have he := h.owner c howner
  rw [inStack_iff] at hin
  obtain ⟨w', hw'⟩ : ∃ w', w' = w.coctxSwapOut c sp := ⟨_, rfl⟩
  have hself : w'.ctxs c = { w.ctxs c with mCtx := ⟨sp, leVal (load w.memory sp 8)⟩ } := by
    rw [hw']
    exact Function.update_self _ _ _
  have hother : ∀ x, x ≠ c → w'.ctxs x = w.ctxs x := by
    intro x hx
    rw [hw']
    exact Function.update_of_ne hx _ _
  have hregion : w'.region = w.region := by
    rw [hw']
    rfl
  have howner' : w'.mOwner = some c := by
    rw [hw']
    exact howner
  have hmemory : w'.memory = w.memory := by
    rw [hw']
    rfl
  have hrunning : w'.running = none := by
    rw [hw']
    rfl
  have hec : Entered w'.region (w'.ctxs c) := by
    rw [hself, hregion]
    exact ⟨he.bp, he.buffer, hin.1, hin.2⟩
  refine ⟨.yielded (w'.liveRegion c), w',
    { running := none, left := Function.update t.left c (some (w'.liveRegion c)) }, ?_,
    .yield sp _ (h.running.trans hc), hrunning.symm, ?_, ?_, ?_, ?_, ?_, ?_⟩
  · rw [swapStep, hc, hw']
  · intro x
    by_cases hx : x = c
    · rw [hx, hself]
      exact h.saved c
    · rw [hother x hx]
      exact h.saved x
  · intro x
    by_cases hx : x = c
    · rw [hx]
      exact Or.inl hec
    · rw [hother x hx, hregion]
      dsimp only
      rw [Function.update_of_ne hx]
      exact h.known x
  · intro x hx
    rw [howner'] at hx
    cases hx
    exact hec
  · intro x hx
    rw [hrunning] at hx
    cases hx
  · intro x hex _
    dsimp only
    by_cases hx : x = c
    · rw [hx, Function.update_self]
      exact ⟨_, rfl⟩
    · rw [Function.update_of_ne hx]
      rw [hother x hx, hregion] at hex
      refine h.away x hex ?_
      rw [hc]
      exact fun hs => hx (Option.some.inj hs).symm
  · intro _ x live hx hl
    rw [howner'] at hx
    cases hx
    dsimp only at hl
    rw [Function.update_self] at hl
    refine ⟨Option.some.inj hl, ?_⟩
    rw [hself, hmemory]

/-- In every run in which each resumed coroutine still owns the stack, it finds
the bytes it left, and no copy leaves the stack or the saved bytes. -/
theorem resumed_as_left (region : StackRegion) (mFunc : ι → ℕ) (memory : ℕ → Byte)
    (ops : List (SwapOp ι)) (h : StepsOk swapStep SwapOk (World.start region mFunc memory) ops) :
    ∃ outs w t, runOps swapStep (World.start region mFunc memory) ops = .ok (outs, w) ∧
      Trace SwapSpec {} ops outs t ∧ t.running = w.running := by
  have sim : ∀ (w : World ι) (t : Left ι) (op : SwapOp ι), Consistent w t → SwapOk w op →
      ∃ o w' t', swapStep w op = .ok (o, w') ∧ SwapSpec t op o t' ∧ Consistent w' t' := by
    intro w t op hc hok
    cases op with
    | swapIn c => exact swapIn_step hc hok
    | write addr byte => exact write_step hc hok
    | yield sp => exact yield_step hc hok
  obtain ⟨outs, w, t, hrun, htrace, hc⟩ := run_simulates sim ops (World.start region mFunc memory) {}
    (start_consistent region mFunc memory) h
  exact ⟨outs, w, t, hrun, htrace, hc.running⟩

def twoPages : StackRegion := ⟨4096, 8192, by decide, by decide, by decide⟩

/-- A coroutine that yields twice and is resumed twice while a second one waits to
be entered. -/
theorem resumed_as_left_alone :
    ∃ outs w t, runOps swapStep (World.start twoPages (fun _ : Bool => 4198400) fun _ => 0)
        [.swapIn true, .write 12264 7, .yield 12256, .swapIn true, .write 12256 5, .yield 12240,
          .swapIn true, .yield 12240, .swapIn false] = .ok (outs, w) ∧
      Trace SwapSpec {} [.swapIn true, .write 12264 7, .yield 12256, .swapIn true,
        .write 12256 5, .yield 12240, .swapIn true, .yield 12240, .swapIn false] outs t ∧
      t.running = w.running :=
  resumed_as_left twoPages _ _ _ (by decide +kernel)

/-- The first coroutine leaves a 7, the second writes a 9 in its place, and the
first finds the 9 when it is resumed. -/
theorem resumed_with_other_bytes :
    (runOps swapStep (World.start twoPages (fun _ : Bool => 4198400) fun _ => 0)
        [.swapIn true, .write 12280 7, .yield 12272, .swapIn false, .write 12280 9, .yield 12272,
          .swapIn true]).map Prod.fst
      = .ok [.entered, .written, .yielded [0, 16, 64, 0, 0, 0, 0, 0, 7, 0, 0, 0, 0, 0, 0, 0],
          .entered, .written, .yielded [0, 16, 64, 0, 0, 0, 0, 0, 9, 0, 0, 0, 0, 0, 0, 0],
          .resumed [0, 16, 64, 0, 0, 0, 0, 0, 9, 0, 0, 0, 0, 0, 0, 0]] := by
  decide +kernel

end DeftRpc.Coroutine
