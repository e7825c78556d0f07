import DeftRpc.Foundation.Interleave

/-!
# ReentrantMutex over a SpanMutex (mutex.h, SpanMutex.h)

The owner is a thread id beside the spin flag, without a count of the nested calls.
A spurious failure of `compare_exchange_weak` leaves everything as it is, so it is no
step of its own.
-/

namespace DeftRpc.Concurrent
open DeftRpc.Foundation

variable {ι : Type}

/-- The next access of a call; `storeId` ends Lock and a successful TryLock. -/
inductive MutexPc where
  | idle
  | lockLoad
  | lockBase
  | tryLoad
  | tryBase
  | storeId
  | unLockStore
  | unLockBase
  deriving DecidableEq

/-- `depth` counts the returned calls of Lock, and of TryLock with the result true, whose UnLock has
not started. -/
structure MutexThread where
  pc : MutexPc := .idle
  depth : ℕ := 0
  deriving DecidableEq

/-- `none` is the thread id -1. -/
structure ReentrantMutex (ι : Type) where
  mThreadId : Option ι := none
  mMutex : Bool := false
  threads : ι → MutexThread := fun _ => {}

inductive MutexAct (ι : Type) where
  | lock (i : ι)
  | tryLock (i : ι)
  | unLock (i : ι)
  | step (i : ι)

variable [DecidableEq ι]

namespace ReentrantMutex

def goTo (s : ReentrantMutex ι) (i : ι) (pc : MutexPc) (depth : ℕ) : ReentrantMutex ι :=
  { s with threads := Function.update s.threads i ⟨pc, depth⟩ }

/-- The next access of thread `i`, whose calls are nested `depth` times. -/
def access (s : ReentrantMutex ι) (i : ι) (depth : ℕ) : MutexPc → Option (ReentrantMutex ι)
  | .idle => none
  | .lockLoad =>
    if s.mThreadId = some i then some (s.goTo i .idle (depth + 1))
    else if s.mThreadId = none then some (s.goTo i .lockBase depth)
    -- The id of another thread: Lock returns.
    else some (s.goTo i .idle (depth + 1))
  | .lockBase =>
    if s.mMutex then some s else some (({ s with mMutex := true } : ReentrantMutex ι).goTo i .storeId depth)
  | .tryLoad =>
    if s.mThreadId = some i then some (s.goTo i .idle (depth + 1))
    else if s.mThreadId = none then some (s.goTo i .tryBase depth)
    else some (s.goTo i .idle depth)
  | .tryBase =>
    if s.mMutex then some (s.goTo i .idle depth)
    else some (({ s with mMutex := true } : ReentrantMutex ι).goTo i .storeId depth)
  | .storeId => some (({ s with mThreadId := some i } : ReentrantMutex ι).goTo i .idle (depth + 1))
  | .unLockStore => some (({ s with mThreadId := none } : ReentrantMutex ι).goTo i .unLockBase depth)
  | .unLockBase => some (({ s with mMutex := false } : ReentrantMutex ι).goTo i .idle depth)

/-- A thread calls UnLock only for a Lock of its own. -/
def step (s : ReentrantMutex ι) : MutexAct ι → Option (ReentrantMutex ι)
  | .lock i => if (s.threads i).pc = .idle then some (s.goTo i .lockLoad (s.threads i).depth) else none
  | .tryLock i => if (s.threads i).pc = .idle then some (s.goTo i .tryLoad (s.threads i).depth) else none
  | .unLock i =>
    if (s.threads i).pc = .idle ∧ 0 < (s.threads i).depth then
      some (s.goTo i .unLockStore ((s.threads i).depth - 1))
    else none
  | .step i => s.access i (s.threads i).depth (s.threads i).pc

/-- UnLock is called for an outermost Lock, and Lock does not find the id of another thread. -/
def CallOk (s : ReentrantMutex ι) : MutexAct ι → Prop
  | .unLock i => (s.threads i).depth = 1
  | .step i => (s.threads i).pc = .lockLoad → s.mThreadId = none ∨ s.mThreadId = some i
  | .lock _ => True
  | .tryLock _ => True

instance (s : ReentrantMutex ι) : ∀ a, Decidable (s.CallOk a)
  | .unLock i => inferInstanceAs (Decidable ((s.threads i).depth = 1))
  | .step i => inferInstanceAs
      (Decidable ((s.threads i).pc = .lockLoad → s.mThreadId = none ∨ s.mThreadId = some i))
  | .lock _ | .tryLock _ => .isTrue trivial

/-! ### The holder of the flag -/

end ReentrantMutex

/-- The flag is the thread's between a compare-exchange that succeeds and the store of false. -/
def MutexPc.holds : MutexPc → Bool
  | .storeId | .unLockStore | .unLockBase => true
  | _ => false

def MutexThread.Inside (t : MutexThread) : Prop := 0 < t.depth ∨ t.pc.holds = true

namespace ReentrantMutex

structure LockInv (s : ReentrantMutex ι) : Prop where
  taken : ∀ i, (s.threads i).Inside → s.mMutex = true
  alone : ∀ i j, (s.threads i).Inside → (s.threads j).Inside → i = j
  owner : ∀ i, s.mThreadId = some i → 0 < (s.threads i).depth ∨ (s.threads i).pc = .unLockStore
  named : ∀ i, 0 < (s.threads i).depth → s.mThreadId = some i
  flat : ∀ i, (s.threads i).pc.holds = true → (s.threads i).depth = 0

omit [DecidableEq ι] in
theorem lockInv_start : LockInv ({} : ReentrantMutex ι) where
  taken i h := by simp [MutexThread.Inside, MutexPc.holds] at h
  alone i j h := by simp [MutexThread.Inside, MutexPc.holds] at h
  owner i h := by cases h
  named i h := by cases h
  flat i h := by cases h

variable {s : ReentrantMutex ι}

theorem threads_goTo (s : ReentrantMutex ι) (i j : ι) (pc : MutexPc) (depth : ℕ) :
    (s.goTo i pc depth).threads j = if j = i then ⟨pc, depth⟩ else s.threads j :=
  Function.update_apply s.threads i _ j

omit [DecidableEq ι] in
theorem LockInv.idle_depth (hi : LockInv s) {i : ι} (hfree : s.mMutex = false) :
    (s.threads i).depth = 0 := by
  by_contra hne
  have htaken := hi.taken i (Or.inl (by omega))
  rw [hfree] at htaken
  cases htaken

theorem LockInv.quiet (hi : LockInv s) {i : ι} {pc : MutexPc} {depth : ℕ}
    (hbefore : (s.threads i).pc.holds = false) (hpc : pc.holds = false)
    (hdepth : 0 < depth ↔ 0 < (s.threads i).depth) : LockInv (s.goTo i pc depth) := by
  have hinside : ∀ j, ((s.goTo i pc depth).threads j).Inside → (s.threads j).Inside := by
    intro j hj
    rw [threads_goTo] at hj
    split at hj
    · next he =>
      subst he
      simp only [MutexThread.Inside, hpc, hdepth] at hj
      exact hj.imp_right fun hf => by cases hf
    · exact hj
  refine ⟨?_, ?_, ?_, ?_, ?_⟩
  · intro j hj
    exact hi.taken j (hinside j hj)
  · intro j k hj hk
    exact hi.alone j k (hinside j hj) (hinside k hk)
  · intro j hj
    rw [threads_goTo]
    split
    · next he =>
      subst he
      rcases hi.owner j hj with hd | hu
      · exact Or.inl (hdepth.mpr hd)
      · rw [hu] at hbefore
        cases hbefore
    · exact hi.owner j hj
  · intro j hj
    rw [threads_goTo] at hj
    split at hj
    · next he =>
      subst he
      exact hi.named j (hdepth.mp hj)
    · exact hi.named j hj
  · intro j hj
    rw [threads_goTo] at hj ⊢
    split at hj
    · rw [hpc] at hj
      cases hj
    · next hne =>
      rw [if_neg hne]
      exact hi.flat j hj

theorem LockInv.acquire (hi : LockInv s) (i : ι) (hfree : s.mMutex = false) :
    LockInv (({ s with mMutex := true } : ReentrantMutex ι).goTo i .storeId (s.threads i).depth) := by
  have hout : ∀ j, ¬(s.threads j).Inside := by
    intro j hj
    have htaken := hi.taken j hj
    rw [hfree] at htaken
    cases htaken
  have hdepth := hi.idle_depth (i := i) hfree
  have honly : ∀ j, ((({ s with mMutex := true } : ReentrantMutex ι).goTo i .storeId
      (s.threads i).depth).threads j).Inside → j = i := by
    intro j hj
    rw [threads_goTo] at hj
    split at hj
    · assumption
    · exact absurd hj (hout j)
  refine ⟨fun _ _ => rfl, ?_, ?_, ?_, ?_⟩
  · intro j k hj hk
    rw [honly j hj, honly k hk]
  · intro j hj
    rcases hi.owner j hj with hd | hu
    · exact absurd (Or.inl hd) (hout j)
    · exact absurd (Or.inr (by rw [hu]; rfl)) (hout j)
  · intro j hj
    rw [threads_goTo] at hj
    split at hj
    · next he =>
      rw [hdepth] at hj
      cases hj
    · exact absurd (Or.inl hj) (hout j)
  · intro j hj
    rw [threads_goTo] at hj ⊢
    split at hj
    · next he => rw [if_pos he, hdepth]
    · exact absurd (Or.inr hj) (hout j)

theorem LockInv.hold (hi : LockInv s) {i : ι} (hin : (s.threads i).Inside) (id : Option ι)
    {pc : MutexPc} {depth : ℕ} (howner : ∀ j, id = some j → j = i ∧ (0 < depth ∨ pc = .unLockStore))
    (hnamed : 0 < depth → id = some i) (hflat : pc.holds = true → depth = 0) :
    LockInv (({ s with mThreadId := id } : ReentrantMutex ι).goTo i pc depth) := by
  have honly : ∀ j, ((({ s with mThreadId := id } : ReentrantMutex ι).goTo i pc depth).threads j).Inside →
      j = i := by
    intro j hj
    rw [threads_goTo] at hj
    split at hj
    · assumption
    · exact hi.alone j i hj hin
  refine ⟨fun _ _ => hi.taken i hin, ?_, ?_, ?_, ?_⟩
  · intro j k hj hk
    rw [honly j hj, honly k hk]
  · intro j hj
    obtain ⟨rfl, hstate⟩ := howner j hj
    rw [threads_goTo, if_pos rfl]
    exact hstate
  · intro j hj
    have he := honly j (Or.inl hj)
    subst he
    rw [threads_goTo, if_pos rfl] at hj
    exact hnamed hj
  · intro j hj
    have he := honly j (Or.inr hj)
    subst he
    rw [threads_goTo, if_pos rfl] at hj ⊢
    exact hflat hj

theorem LockInv.release (hi : LockInv s) {i : ι} (hpc : (s.threads i).pc = .unLockBase) :
    LockInv (({ s with mMutex := false } : ReentrantMutex ι).goTo i .idle (s.threads i).depth) := by
  have hin : (s.threads i).Inside := Or.inr (by rw [hpc]; rfl)
  have hdepth : (s.threads i).depth = 0 := hi.flat i (by rw [hpc]; rfl)
  have hout : ∀ j, ¬((({ s with mMutex := false } : ReentrantMutex ι).goTo i .idle
      (s.threads i).depth).threads j).Inside := by
    intro j hj
    rw [threads_goTo] at hj
    split at hj
    · rcases hj with hd | hp
      · rw [hdepth] at hd
        cases hd
      · cases hp
    · next hne => exact hne (hi.alone j i hj hin)
  refine ⟨?_, ?_, ?_, ?_, ?_⟩
  · intro j hj
    exact absurd hj (hout j)
  · intro j k hj
    exact absurd hj (hout j)
  · intro j hj
    have hjd := hi.owner j hj
    have he : j = i := by
      apply hi.alone j i ?_ hin
      rcases hjd with hd | hu
      · exact Or.inl hd
      · exact Or.inr (by rw [hu]; rfl)
    subst he
    rw [hdepth, hpc] at hjd
    rcases hjd with hd | hu
    · cases hd
    · cases hu
  · intro j hj
    exact absurd (Or.inl hj) (hout j)
  · intro j hj
    exact absurd (Or.inr hj) (hout j)

theorem LockInv.access (hi : LockInv s) {i : ι} {s' : ReentrantMutex ι}
    (hok : (s.threads i).pc = .lockLoad → s.mThreadId = none ∨ s.mThreadId = some i)
    (h : s.access i (s.threads i).depth (s.threads i).pc = some s') : LockInv s' := by
  have howned : (s.threads i).pc.holds = false → s.mThreadId = some i → 0 < (s.threads i).depth := by
    intro hp hid
    rcases hi.owner i hid with hd | hu
    · exact hd
    · rw [hu] at hp
      cases hp
  cases hpc : (s.threads i).pc with
  | idle =>
    rw [hpc] at h
    cases h
  | lockLoad =>
    rw [hpc] at h
    have hout : (s.threads i).pc.holds = false := by rw [hpc]; rfl
    rcases hok hpc with hid | hid
    · simp only [ReentrantMutex.access, hid, reduceCtorEq, if_false, if_true, Option.some.injEq] at h
      subst h
      exact hi.quiet hout rfl Iff.rfl
    · simp only [ReentrantMutex.access, hid, if_true, Option.some.injEq] at h
      subst h
      have hd := howned hout hid
      exact hi.quiet hout rfl ⟨fun _ => hd, fun _ => Nat.succ_pos _⟩
  | lockBase =>
    rw [hpc] at h
    simp only [ReentrantMutex.access] at h
    split at h
    · cases h
      exact hi
    · next hfree =>
      cases h
      exact hi.acquire i (by simpa using hfree)
  | tryLoad =>
    rw [hpc] at h
    have hout : (s.threads i).pc.holds = false := by rw [hpc]; rfl
    simp only [ReentrantMutex.access] at h
    split at h
    · next hid =>
      cases h
      have hd := howned hout hid
      exact hi.quiet hout rfl ⟨fun _ => hd, fun _ => Nat.succ_pos _⟩
    · split at h
      · cases h
        exact hi.quiet hout rfl Iff.rfl
      · cases h
        exact hi.quiet hout rfl Iff.rfl
  | tryBase =>
    rw [hpc] at h
    simp only [ReentrantMutex.access] at h
    split at h
    · cases h
      exact hi.quiet (by rw [hpc]; rfl) rfl Iff.rfl
    · next hfree =>
      cases h
      exact hi.acquire i (by simpa using hfree)
  | storeId =>
    rw [hpc] at h
    cases h
    have hin : (s.threads i).Inside := Or.inr (by rw [hpc]; rfl)
    apply hi.hold hin (some i)
    · intro j hj
      cases hj
      exact ⟨rfl, Or.inl (Nat.succ_pos _)⟩
    · exact fun _ => rfl
    · intro hp
      cases hp
  | unLockStore =>
    rw [hpc] at h
    cases h
    have hin : (s.threads i).Inside := Or.inr (by rw [hpc]; rfl)
    have hdepth : (s.threads i).depth = 0 := hi.flat i (by rw [hpc]; rfl)
    apply hi.hold hin none
    · intro j hj
      cases hj
    · intro hd
      rw [hdepth] at hd
      cases hd
    · exact fun _ => hdepth
  | unLockBase =>
    rw [hpc] at h
    cases h
    exact hi.release hpc

theorem lockInv_step (s : ReentrantMutex ι) (a : MutexAct ι) (s' : ReentrantMutex ι) (hi : LockInv s)
    (hok : s.CallOk a) (h : s.step a = some s') : LockInv s' := by
  cases a with
  | lock i | tryLock i =>
    obtain ⟨hidle, h⟩ := Option.ite_none_right_eq_some.mp h
    cases h
    exact hi.quiet (by rw [hidle]; rfl) rfl Iff.rfl
  | unLock i =>
    obtain ⟨⟨hidle, hpos⟩, h⟩ := Option.ite_none_right_eq_some.mp h
    cases h
    have hone : (s.threads i).depth = 1 := hok
    have hid := hi.named i hpos
    rw [hone]
    apply hi.hold (Or.inl hpos) s.mThreadId
    · intro j hj
      rw [hid] at hj
      cases hj
      exact ⟨rfl, Or.inr rfl⟩
    · intro hd
      cases hd
    · exact fun _ => rfl
  | step i => exact hi.access hok h

/-- In an interleaving in which no UnLock is nested and no Lock meets the id of another thread, at
most one thread is between its Lock and its UnLock. -/
theorem sections_exclude (as : List (MutexAct ι)) (s : ReentrantMutex ι)
    (hok : GoodSteps step CallOk {} as) (h : interleave step {} as = some s) :
    ∀ i j, 0 < (s.threads i).depth → 0 < (s.threads j).depth → i = j := by
  have hinv := goodSteps_invariant lockInv_step as {} s lockInv_start hok h
  intro i j hi hj
  exact hinv.alone i j (Or.inl hi) (Or.inl hj)

/-- Thread 1 waits for the flag, and takes it behind the UnLock of thread 0. -/
def handOver : List (MutexAct ℕ) := [.lock 0, .lock 1, .step 1, .step 0, .step 0, .step 0, .step 1,
  .unLock 0, .step 0, .step 0, .step 1, .step 1]

theorem sections_exclude_two :
    ∃ s : ReentrantMutex ℕ, interleave step {} handOver = some s ∧
      ((s.threads 0).depth, (s.threads 1).depth) = (0, 1) ∧
      ∀ i j, 0 < (s.threads i).depth → 0 < (s.threads j).depth → i = j := by
  have hrun : (interleave step {} handOver).map
      (fun s => ((s.threads 0).depth, (s.threads 1).depth)) = some (0, 1) := by decide +kernel
  obtain ⟨s, hs, he⟩ := Option.map_eq_some_iff.mp hrun
  exact ⟨s, hs, he, sections_exclude handOver s (by decide +kernel) hs⟩

/-- Lock returns to thread 1 while thread 0 has the flag; and a nested UnLock of thread 0 gives the
flag to thread 1. -/
theorem sections_overlap :
    (interleave step {} [.lock 0, .step 0, .step 0, .step 0, .lock 1, .step 1]).map
        (fun s => ((s.threads (0 : ℕ)).depth, (s.threads 1).depth)) = some (1, 1) ∧
      (interleave step {} [.lock 0, .step 0, .step 0, .step 0, .lock 0, .step 0, .unLock 0, .step 0,
          .step 0, .lock 1, .step 1, .step 1, .step 1]).map
        (fun s => ((s.threads (0 : ℕ)).depth, (s.threads 1).depth)) = some (1, 1) := by
  decide +kernel

end ReentrantMutex

end DeftRpc.Concurrent
