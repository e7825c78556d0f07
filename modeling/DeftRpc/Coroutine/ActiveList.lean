import DeftRpc.Coroutine.PollerMirror
import DeftRpc.Foundation.Interleave

/-!
# The pointers of one batch (Poller.cpp:18-37, Scheduler.cpp:141-157)

`m_active_runnable_` points into the table of the poller. A larger table is another
block of memory: the capacity of the vector is always used up, so every resize moves
the entries.
-/

namespace DeftRpc.Coroutine
open DeftRpc.Foundation

/-- A callback slot in the table that was in `block`. -/
structure RunnablePtr where
  block : ℕ
  fd : ℤ
  direction : Direction

/-- `active` are the pointers of the batch that the loop has not come to yet. -/
structure Batch where
  poller : Poller := {}
  block : ℕ := 0
  active : List RunnablePtr := []

/-- `call` is what the callbacks do, `dispatch` the next turn of the loop over the batch. -/
inductive BatchAct where
  | epollWait (events : List (ℤ × ℕ))
  | dispatch
  | call (c : Poller.Call)

namespace Batch

def step (s : Batch) : BatchAct → Option Batch
  | .epollWait events =>
    if s.active.isEmpty then
      some { s with active := (s.poller.epollWait events).map fun slot => ⟨s.block, slot.1, slot.2⟩ }
    else none
  | .dispatch =>
    match s.active with
    | [] => none
    | _ :: rest => some { s with active := rest }
  | .call c =>
    let poller := (s.poller.call c).2
    some { s with
      poller := poller, block := if poller.size = s.poller.size then s.block else s.block + 1 }

/-- Every pointer that the loop will dereference points to an entry of the table that is there
now. -/
def Valid (s : Batch) : Prop := ∀ p ∈ s.active, p.block = s.block ∧ p.fd.toNat < s.poller.size

/-- While pointers are left, no fd is registered that lies behind the table. -/
def CallFits (s : Batch) : BatchAct → Prop
  | .call (.registerRead fd _ _) | .call (.registerWrite fd _ _) =>
    s.active = [] ∨ fd < 0 ∨ fd < int32 s.poller.size
  | _ => True

/-! ### When the table moves -/

theorem resizeLoop_grows (fd turns : ℕ) (table : List RunnableContext) :
    table.length ≤ (Poller.resizeLoop fd turns table).length ∧
      (0 < turns → 0 < table.length → table.length < (Poller.resizeLoop fd turns table).length) := by
  induction turns generalizing table with
  | zero => exact ⟨le_refl _, fun h => absurd h (lt_irrefl 0)⟩
  | succ turns ih =>
    have hlen : (table ++ List.replicate table.length ({} : RunnableContext)).length
        = table.length + table.length := by
      simp
    have hmore := (ih (table ++ List.replicate table.length ({} : RunnableContext))).1
    simp only [Poller.resizeLoop]
    split
    · exact ⟨by omega, fun _ _ => by omega⟩
    · exact ⟨by omega, fun _ _ => by omega⟩

theorem resized_grows {p : Poller} (hp : 0 < p.size) (fd : ℤ) :
    p.size ≤ (p.resized fd).size ∧ ((p.resized fd).size = p.size ↔ ¬int32 p.size ≤ fd) := by
  obtain ⟨hle, hlt⟩ := resizeLoop_grows fd.toNat (fd.toNat + 1) p.mRunnableContext
  have hlt' := hlt (Nat.succ_pos _) hp
  unfold Poller.resized Poller.size
  split
  · next hfd =>
    refine ⟨hle, iff_of_false (by dsimp only; omega) ?_⟩
    exact not_not.mpr hfd
  · next hfd => exact ⟨le_refl _, iff_of_true rfl hfd⟩

@[simp] theorem setContext_size (p : Poller) (fd : ℤ) (c : RunnableContext) :
    (p.setContext fd c).size = p.size := by
  simp [Poller.setContext, Poller.size]

@[simp] theorem epollCtl_size (p : Poller) (fd : ℤ) (op : EpollOp) (event : ℕ) (mayWork : Bool) :
    (p.epollCtl fd op event mayWork).2.size = p.size := by
  cases op <;> simp only [Poller.epollCtl] <;> split <;> rfl

theorem registerFd_size (p : Poller) (runnable : RunnableContext) (mayWork : Bool) :
    (p.registerFd runnable mayWork).2.size =
      if runnable.mFd < 0 then p.size else (p.resized runnable.mFd).size := by
  by_cases hneg : runnable.mFd < 0
  · rw [Poller.registerFd, if_pos hneg, if_pos hneg]
  · rw [if_neg hneg]
    simp only [Poller.registerFd, if_neg hneg, apply_ite Prod.snd, ite_self, epollCtl_size,
      setContext_size]

theorem cancelRegister_size (p : Poller) (fd : ℤ) (mayWork : Bool) :
    (p.cancelRegister fd mayWork).2.size = p.size := by
  unfold Poller.cancelRegister
  split
  · rfl
  · split
    · simp only [apply_ite Prod.snd, ite_self, epollCtl_size, setContext_size]
    · rfl

theorem register_size {p : Poller} (hp : 0 < p.size) (fd : ℤ) (runnable : RunnableContext)
    {q : Poller} (hfd : runnable.mFd = fd) (mayWork : Bool)
    (hq : q = p ∧ int32 p.size > fd ∨ q = p ∧ fd < 0 ∨ q = (p.registerFd runnable mayWork).2) :
    p.size ≤ q.size ∧ (q.size = p.size ↔ fd < 0 ∨ fd < int32 p.size) := by
  obtain ⟨hle, hiff⟩ := resized_grows hp fd
  rcases hq with ⟨rfl, hlt⟩ | ⟨rfl, hneg⟩ | rfl
  · exact ⟨le_refl _, iff_of_true rfl (Or.inr hlt)⟩
  · exact ⟨le_refl _, iff_of_true rfl (Or.inl hneg)⟩
  · rw [registerFd_size, hfd]
    split
    · next hneg => exact ⟨le_refl _, iff_of_true rfl (Or.inl hneg)⟩
    · next hnot =>
      refine ⟨hle, hiff.trans ?_⟩
      omega

theorem registerRead_size {p : Poller} (hp : 0 < p.size) (fd : ℤ) (t : TaskOrCoroutine)
    (mayWork : Bool) : p.size ≤ (p.registerRead fd t mayWork).2.size ∧
      ((p.registerRead fd t mayWork).2.size = p.size ↔ fd < 0 ∨ fd < int32 p.size) := by
  apply register_size hp fd { mFd := fd, mReadCallback := t.runnable, mEvent := epollIn } rfl mayWork
  unfold Poller.registerRead
  split
  · next hneg => exact Or.inr (Or.inl ⟨rfl, hneg⟩)
  · split
    · exact Or.inr (Or.inr rfl)
    · next htwice => exact Or.inl ⟨rfl, by omega⟩

theorem registerWrite_size {p : Poller} (hp : 0 < p.size) (fd : ℤ) (t : TaskOrCoroutine)
    (mayWork : Bool) : p.size ≤ (p.registerWrite fd t mayWork).2.size ∧
      ((p.registerWrite fd t mayWork).2.size = p.size ↔ fd < 0 ∨ fd < int32 p.size) := by
  apply register_size hp fd { mFd := fd, mWriteCallback := t.runnable, mEvent := epollOut } rfl mayWork
  unfold Poller.registerWrite
  split
  · exact Or.inr (Or.inr rfl)
  · next htwice => exact Or.inl ⟨rfl, by omega⟩

theorem call_size {s : Batch} (hp : 0 < s.poller.size) (c : Poller.Call) :
    s.poller.size ≤ (s.poller.call c).2.size ∧
      (s.CallFits (.call c) ↔ s.active = [] ∨ (s.poller.call c).2.size = s.poller.size) := by
  cases c with
  | registerRead fd t mayWork =>
    obtain ⟨hle, hiff⟩ := registerRead_size hp fd t mayWork
    exact ⟨hle, or_congr Iff.rfl hiff.symm⟩
  | registerWrite fd t mayWork =>
    obtain ⟨hle, hiff⟩ := registerWrite_size hp fd t mayWork
    exact ⟨hle, or_congr Iff.rfl hiff.symm⟩
  | cancelRegister fd mayWork =>
    have hsame := cancelRegister_size s.poller fd mayWork
    exact ⟨hsame.ge, iff_of_true trivial (Or.inr hsame)⟩

theorem epollWait_lt {p : Poller} {events : List (ℤ × ℕ)} {slot : ℤ × Direction}
    (h : slot ∈ p.epollWait events) : slot.1.toNat < p.size := by
  obtain ⟨event, -, hslot⟩ := List.mem_flatMap.mp h
  by_contra hout
  have hfd : slot.1 = event.1 := by
    rcases List.mem_append.mp hslot with hslot | hslot
    · split at hslot <;> simp_all
    · split at hslot <;> simp_all
  have hempty : p.context event.1 = {} := by
    apply List.getD_eq_default
    rw [← hfd]
    exact not_lt.mp hout
  rw [hempty] at hslot
  simp [RunnableContext.isWriting, RunnableContext.isReading] at hslot

/-! ### Every batch -/

theorem size_pos_step (s : Batch) (a : BatchAct) (s' : Batch) (hp : 0 < s.poller.size)
    (h : s.step a = some s') : 0 < s'.poller.size := by
  cases a with
  | epollWait events =>
    obtain ⟨-, h⟩ := Option.ite_none_right_eq_some.mp h
    cases h
    exact hp
  | dispatch =>
    simp only [step] at h
    split at h
    · cases h
    · cases h
      exact hp
  | call c =>
    cases h
    exact hp.trans_le (call_size hp c).1

theorem valid_step {s : Batch} {a : BatchAct} {s' : Batch} (hp : 0 < s.poller.size) (hv : s.Valid)
    (h : s.step a = some s') : s'.Valid ↔ s.CallFits a := by
  cases a with
  | epollWait events =>
    obtain ⟨-, h⟩ := Option.ite_none_right_eq_some.mp h
    cases h
    refine iff_of_true ?_ trivial
    intro p hmem
    obtain ⟨slot, hslot, rfl⟩ := List.mem_map.mp hmem
    exact ⟨rfl, epollWait_lt hslot⟩
  | dispatch =>
    simp only [step] at h
    split at h
    · cases h
    · next p rest hactive =>
      cases h
      refine iff_of_true ?_ trivial
      intro q hmem
      apply hv
      rw [hactive]
      exact List.mem_cons_of_mem p hmem
  | call c =>
    obtain ⟨hle, hfits⟩ := call_size hp c
    rw [hfits]
    cases h
    simp only [Valid]
    by_cases hsize : (s.poller.call c).2.size = s.poller.size
    · simp only [hsize, if_true, or_true, iff_true]
      exact hv
    · simp only [hsize, if_false, or_false]
      constructor
      · intro hnew
        apply List.eq_nil_iff_forall_not_mem.mpr
        intro p hmem
        have hold := (hv p hmem).1
        have hnext := (hnew p hmem).1
        omega
      · intro hnil p hmem
        rw [hnil] at hmem
        cases hmem

theorem start_valid : 0 < ({} : Batch).poller.size ∧ ({} : Batch).Valid := by
  refine ⟨Poller.fresh_mirrorInv.pos, ?_⟩
  intro p hmem
  cases hmem

/-- In a run of batches and callbacks the loop only ever has valid pointers left exactly when no
callback registers an fd behind the table while pointers are left. -/
theorem valid_iff_callFits (as : List BatchAct) (s : Batch) (h : interleave step {} as = some s) :
    (∀ before, before <+: as → ∀ t, interleave step {} before = some t → t.Valid) ↔
      GoodSteps step CallFits {} as := by
  constructor
  · intro hvalid
    exact goodSteps_of_states (I := fun s => 0 < s.poller.size) size_pos_step
      (fun s a s' hp hv hstep hv' => (valid_step hp hv hstep).mp hv') as {} s start_valid.1 h hvalid
  · intro hok before hpre t ht
    have keep : ∀ s a s', 0 < s.poller.size ∧ s.Valid → CallFits s a → step s a = some s' →
        0 < s'.poller.size ∧ s'.Valid := by
      intro s a s' hs hfits hstep
      exact ⟨size_pos_step s a s' hs.1 hstep, (valid_step hs.1 hs.2 hstep).mpr hfits⟩
    exact (goodSteps_invariant keep before {} t start_valid (goodSteps_take hpre hok) ht).2

/-- A registration behind the table by the last callback of a batch. -/
def lastGrows : List BatchAct :=
  [.call (.registerRead 5 (.coroutine 7) true), .epollWait [(5, 1)], .dispatch,
    .call (.registerRead 2000 (.coroutine 7) true)]

theorem valid_iff_callFits_last :
    ∃ s, interleave step {} lastGrows = some s ∧ s.block = 1 ∧
      ((∀ before, before <+: lastGrows → ∀ t, interleave step {} before = some t → t.Valid) ↔
        GoodSteps step CallFits {} lastGrows) := by
  have hrun : (interleave step {} lastGrows).map (fun s => s.block) = some 1 := by decide +kernel
  obtain ⟨s, hs, he⟩ := Option.map_eq_some_iff.mp hrun
  exact ⟨s, hs, he, valid_iff_callFits lastGrows s hs⟩

/-- Two events in one batch: the callback of the first one registers fd 2000, and the pointer of
the second one stays in the old block. -/
theorem pointer_into_old_table :
    (interleave step {} [.call (.registerRead 5 (.coroutine 7) true),
        .call (.registerRead 6 (.coroutine 8) true), .epollWait [(5, 1), (6, 1)], .dispatch,
        .call (.registerRead 2000 (.coroutine 7) true)]).map
      (fun s => (s.active.map fun p => (p.block, p.fd), s.block)) = some ([(0, 6)], 1) := by
  decide +kernel

end Batch

end DeftRpc.Coroutine
