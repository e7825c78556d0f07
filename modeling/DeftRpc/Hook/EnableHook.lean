import DeftRpc.Foundation.Interleave

/-!
# EnableHook (Hook.cpp:14-61, 76-272)

Any number of threads switch the hook on and off and call hooked functions, which go through the
originals that InitHook looks up. The mutex is locked and never unlocked. A thread whose `lock()` waits
does not move.
-/

namespace DeftRpc.Hook
open DeftRpc.Foundation

/-- HOOK_RECOVER_SUMMERY -/
def hookFunctions : List String :=
  ["socket", "connect", "accept", "accept4", "close", "read", "write", "readv", "writev", "sleep",
    "usleep", "nanosleep"]

/-- The pointers that a call of a hooked function goes through: accept calls accept4, and what writev_t
leaves of a part (`cut`) is written by write. With the hook on, a thread sleeps in its scheduler. -/
def calledOriginals (enableHook cut : Bool) (funcName : String) : List String :=
  if funcName = "accept" then ["accept4"]
  else if funcName = "writev" then if cut then ["writev", "write"] else ["writev"]
  else if funcName ∈ ["sleep", "usleep", "nanosleep"] then if enableHook then [] else [funcName]
  else [funcName]

theorem calledOriginals_hooked {enableHook cut : Bool} {funcName : String} (h : funcName ∈ hookFunctions) :
    ∀ name ∈ calledOriginals enableHook cut funcName, name ∈ hookFunctions := by
  have hall : ∀ funcName ∈ hookFunctions, ∀ enableHook cut : Bool,
      ∀ name ∈ calledOriginals enableHook cut funcName, name ∈ hookFunctions := by
    decide
  exact hall funcName h enableHook cut

/-- What EnableHook does next; `initHook` has the functions still to look up. -/
inductive EnablePc where
  | idle
  | check
  | lock
  | recheck
  | getInstance
  | initHook (funcNames : List String)
  | set
  deriving DecidableEq

/-- `p` is whether the pointer is not null, `originals` the functions whose `FuncName_t` is not null.
`inits` counts the calls of InitHook, `initialized` says that one has returned. -/
structure HookState (ι : Type) where
  p : Bool := false
  mutex : Option ι := none
  originals : List String := []
  enableHook : ι → Bool := fun _ => false
  threads : ι → EnablePc := fun _ => .idle
  inits : ℕ := 0
  initialized : Bool := false
  crash : Bool := false

inductive HookAct (ι : Type) where
  | enable (i : ι)
  | step (i : ι)
  | disable (i : ι)
  | call (i : ι) (funcName : String) (cut : Bool)

variable {ι : Type} [DecidableEq ι]

namespace HookState

def goTo (s : HookState ι) (i : ι) (pc : EnablePc) : HookState ι :=
  { s with threads := fun j => if j = i then pc else s.threads j }

def setEnableHook (s : HookState ι) (i : ι) (enabled : Bool) : HookState ι :=
  { s with enableHook := fun j => if j = i then enabled else s.enableHook j }

/-- RECOVER_UNISTD_FUNC; `dlsym` says which functions are found. -/
def recover (dlsym : String → Bool) (s : HookState ι) (funcName : String) : HookState ι :=
  { s with originals := if dlsym funcName then funcName :: s.originals else s.originals }

/-- The next step of thread `i`, which is at the given place of EnableHook. -/
def access (dlsym : String → Bool) (s : HookState ι) (i : ι) : EnablePc → Option (HookState ι)
  | .idle => none
  | .check => some (s.goTo i (if s.p then .set else .lock))
  | .lock => if s.mutex = none then some (({ s with mutex := some i } : HookState ι).goTo i .recheck) else none
  | .recheck => some (s.goTo i (if s.p then .set else .getInstance))
  | .getInstance =>
    some (({ s with p := true, inits := s.inits + 1 } : HookState ι).goTo i (.initHook hookFunctions))
  | .initHook (funcName :: funcNames) => some ((s.recover dlsym funcName).goTo i (.initHook funcNames))
  | .initHook [] => some (({ s with initialized := true } : HookState ι).goTo i .set)
  | .set => some ((s.setEnableHook i true).goTo i .idle)

/-- Thread `i` calls a hooked function. It ends with a `FuncName_t` that is null. -/
def call (s : HookState ι) (i : ι) (funcName : String) (cut : Bool) : HookState ι :=
  if ∀ name ∈ calledOriginals (s.enableHook i) cut funcName, name ∈ s.originals then s
  else { s with crash := true }

def step (dlsym : String → Bool) (s : HookState ι) (a : HookAct ι) : Option (HookState ι) :=
  if s.crash then none
  else
    match a with
    | .enable i => if s.threads i = .idle then some (s.goTo i .check) else none
    | .step i => s.access dlsym i (s.threads i)
    | .disable i => if s.threads i = .idle then some (s.setEnableHook i false) else none
    | .call i funcName cut =>
      if s.threads i = .idle ∧ funcName ∈ hookFunctions then some (s.call i funcName cut) else none

/-! ### What a step can do -/

section Steps
variable {dlsym : String → Bool} {s s' : HookState ι}

inductive Moves (dlsym : String → Bool) (s : HookState ι) : HookAct ι → HookState ι → Prop
  | starts {i : ι} : s.threads i = .idle → Moves dlsym s (.enable i) (s.goTo i .check)
  | checks {i : ι} : s.threads i = .check → Moves dlsym s (.step i) (s.goTo i (if s.p then .set else .lock))
  | locks {i : ι} : s.threads i = .lock → s.mutex = none →
      Moves dlsym s (.step i) (({ s with mutex := some i } : HookState ι).goTo i .recheck)
  | rechecks {i : ι} : s.threads i = .recheck →
      Moves dlsym s (.step i) (s.goTo i (if s.p then .set else .getInstance))
  | begins {i : ι} : s.threads i = .getInstance → Moves dlsym s (.step i)
      (({ s with p := true, inits := s.inits + 1 } : HookState ι).goTo i (.initHook hookFunctions))
  | recovers {i : ι} {funcName : String} {funcNames : List String} :
      s.threads i = .initHook (funcName :: funcNames) →
      Moves dlsym s (.step i) ((s.recover dlsym funcName).goTo i (.initHook funcNames))
  | ends {i : ι} : s.threads i = .initHook [] →
      Moves dlsym s (.step i) (({ s with initialized := true } : HookState ι).goTo i .set)
  | sets {i : ι} : s.threads i = .set → Moves dlsym s (.step i) ((s.setEnableHook i true).goTo i .idle)
  | disables {i : ι} : s.threads i = .idle → Moves dlsym s (.disable i) (s.setEnableHook i false)
  | calls {i : ι} {funcName : String} {cut : Bool} : s.threads i = .idle → funcName ∈ hookFunctions →
      Moves dlsym s (.call i funcName cut) (s.call i funcName cut)

theorem step_moves {a : HookAct ι} (h : step dlsym s a = some s') : Moves dlsym s a s' := by
  unfold step at h
  split at h
  · cases h
  cases a with
  | enable i =>
    by_cases hidle : s.threads i = .idle
    · simp only [hidle, if_true, Option.some.injEq] at h
      exact h ▸ .starts hidle
    · simp only [hidle, if_false] at h
      cases h
  | step i =>
    cases hpc : s.threads i with
    | idle =>
      simp only [hpc, access] at h
      cases h
    | check =>
      simp only [hpc, access, Option.some.injEq] at h
      exact h ▸ .checks hpc
    | lock =>
      by_cases hfree : s.mutex = none
      · simp only [hpc, access, hfree, if_true, Option.some.injEq] at h
        exact h ▸ .locks hpc hfree
      · simp only [hpc, access, hfree, if_false] at h
        cases h
    | recheck =>
      simp only [hpc, access, Option.some.injEq] at h
      exact h ▸ .rechecks hpc
    | getInstance =>
      simp only [hpc, access, Option.some.injEq] at h
      exact h ▸ .begins hpc
    | initHook funcNames =>
      cases funcNames with
      | nil =>
        simp only [hpc, access, Option.some.injEq] at h
        exact h ▸ .ends hpc
      | cons funcName funcNames =>
        simp only [hpc, access, Option.some.injEq] at h
        exact h ▸ .recovers hpc
    | set =>
      simp only [hpc, access, Option.some.injEq] at h
      exact h ▸ .sets hpc
  | disable i =>
    by_cases hidle : s.threads i = .idle
    · simp only [hidle, if_true, Option.some.injEq] at h
      exact h ▸ .disables hidle
    · simp only [hidle, if_false] at h
      cases h
  | call i funcName cut =>
    by_cases hcall : s.threads i = .idle ∧ funcName ∈ hookFunctions
    · simp only [hcall, and_self, if_true, Option.some.injEq] at h
      exact h ▸ .calls hcall.1 hcall.2
    · simp only [hcall, if_false] at h
      cases h

theorem goTo_other {i j : ι} {pc : EnablePc} (hne : j ≠ i) : (s.goTo i pc).threads j = s.threads j :=
  if_neg hne

theorem enabled_of_disabled {i j : ι} (h : (s.setEnableHook i false).enableHook j = true) :
    s.enableHook j = true := by
  change (if j = i then false else s.enableHook j) = true at h
  split at h
  · exact absurd h Bool.false_ne_true
  · exact h

/-! ### One initialisation -/

/-- What `p` and the mutex are when thread `i` is at the given place of EnableHook. -/
def Placed (p : Bool) (mutex : Option ι) (i : ι) : EnablePc → Prop
  | .idle => mutex = some i → p = true
  | .check => mutex = some i → p = true
  | .lock => mutex ≠ some i
  | .recheck => mutex = some i ∧ p = false
  | .getInstance => mutex = some i ∧ p = false
  | .initHook _ => mutex = some i ∧ p = true
  | .set => p = true

structure OneInit (s : HookState ι) : Prop where
  inits : s.inits = if s.p then 1 else 0
  free : s.mutex = none → s.p = false
  placed : ∀ i, Placed s.p s.mutex i (s.threads i)
  enabled : ∀ i, s.enableHook i = true → s.p = true

omit [DecidableEq ι] in
/-- `i` locks the mutex. -/
theorem Placed.locked {i j : ι} {pc : EnablePc} (h : Placed false none j pc) (hne : j ≠ i) :
    Placed false (some i) j pc := by
  have hother : some i ≠ some j := fun heq => hne (Option.some.inj heq).symm
  cases pc with
  | idle => exact fun heq => absurd heq hother
  | check => exact fun heq => absurd heq hother
  | lock => exact hother
  | recheck => exact absurd h.1 (Option.some_ne_none j).symm
  | getInstance => exact absurd h.1 (Option.some_ne_none j).symm
  | initHook funcNames => exact absurd h.1 (Option.some_ne_none j).symm
  | set => exact h

omit [DecidableEq ι] in
/-- `i`, which has locked the mutex, sets `p`. -/
theorem Placed.found {i j : ι} {pc : EnablePc} (h : Placed false (some i) j pc) (hne : j ≠ i) :
    Placed true (some i) j pc := by
  have hother : some i ≠ some j := fun heq => hne (Option.some.inj heq).symm
  cases pc with
  | idle => exact fun _ => rfl
  | check => exact fun _ => rfl
  | lock => exact hother
  | recheck => exact absurd h.1 hother
  | getInstance => exact absurd h.1 hother
  | initHook funcNames => exact ⟨h.1, rfl⟩
  | set => rfl

omit [DecidableEq ι] in
theorem OneInit.at {i : ι} {pc : EnablePc} (h : OneInit s) (hpc : s.threads i = pc) : Placed s.p s.mutex i pc :=
  hpc ▸ h.placed i

omit [DecidableEq ι] in
theorem oneInit_start : OneInit ({} : HookState ι) := by
  constructor <;> simp [Placed]

/-- `i` goes on, and the other threads are where they were. -/
theorem OneInit.goTo {i : ι} {pc : EnablePc} (inits : s.inits = if s.p then 1 else 0)
    (free : s.mutex = none → s.p = false) (others : ∀ j, j ≠ i → Placed s.p s.mutex j (s.threads j))
    (place : Placed s.p s.mutex i pc) (enabled : ∀ j, s.enableHook j = true → s.p = true) :
    OneInit (s.goTo i pc) := by
  refine ⟨inits, free, fun j => ?_, enabled⟩
  change Placed s.p s.mutex j (if j = i then pc else s.threads j)
  by_cases hj : j = i
  · rw [if_pos hj, hj]
    exact place
  · rw [if_neg hj]
    exact others j hj

theorem OneInit.moves {a : HookAct ι} (h : OneInit s) (hmoves : Moves dlsym s a s') : OneInit s' := by
  cases hmoves with
  | @starts i hidle =>
    have hplaced := h.at hidle
    exact OneInit.goTo h.inits h.free (fun j _ => h.placed j) hplaced h.enabled
  | @checks i hpc =>
    have hplaced := h.at hpc
    refine OneInit.goTo h.inits h.free (fun j _ => h.placed j) ?_ h.enabled
    split
    · next hp => exact hp
    · next hp => exact fun hlocked => hp (hplaced hlocked)
  | @locks i hpc hfree =>
    have hp : s.p = false := h.free hfree
    refine OneInit.goTo h.inits (fun hnone => absurd hnone (Option.some_ne_none i)) (fun j hj => ?_)
      ⟨rfl, hp⟩ h.enabled
    have hplaced := h.placed j
    rw [hp, hfree] at hplaced
    change Placed s.p (some i) j (s.threads j)
    rw [hp]
    exact hplaced.locked hj
  | @rechecks i hpc =>
    have hplaced := h.at hpc
    refine OneInit.goTo h.inits h.free (fun j _ => h.placed j) ?_ h.enabled
    rw [if_neg (by rw [hplaced.2]; exact Bool.false_ne_true)]
    exact hplaced
  | @begins i hpc =>
    have hplaced := h.at hpc
    have hinits : s.inits = 0 := by rw [h.inits, hplaced.2]; rfl
    refine OneInit.goTo (congrArg (· + 1) hinits)
      (fun hnone => absurd (hplaced.1.symm.trans hnone) (Option.some_ne_none i)) (fun j hj => ?_)
      ⟨hplaced.1, rfl⟩ (fun _ _ => rfl)
    have hother := h.placed j
    rw [hplaced.1, hplaced.2] at hother
    change Placed true s.mutex j (s.threads j)
    rw [hplaced.1]
    exact hother.found hj
  | @recovers i funcName funcNames hpc =>
    have hplaced := h.at hpc
    exact OneInit.goTo h.inits h.free (fun j _ => h.placed j) hplaced h.enabled
  | @ends i hpc =>
    have hplaced := h.at hpc
    exact OneInit.goTo h.inits h.free (fun j _ => h.placed j) hplaced.2 h.enabled
  | @sets i hpc =>
    have hp : s.p = true := h.at hpc
    exact OneInit.goTo h.inits h.free (fun j _ => h.placed j) (fun _ => hp) (fun _ _ => hp)
  | @disables i hidle =>
    exact ⟨h.inits, h.free, h.placed, fun j henabled => h.enabled j (enabled_of_disabled henabled)⟩
  | calls hidle hname =>
    unfold HookState.call
    split
    · exact h
    · exact ⟨h.inits, h.free, h.placed, h.enabled⟩

/-- Thread `i` waits for the mutex, which another thread has locked. -/
structure Waits (i : ι) (enabled : Bool) (s : HookState ι) : Prop where
  lock : s.threads i = .lock
  locked : s.mutex ≠ none
  enableHook : s.enableHook i = enabled

theorem Waits.moves {i : ι} {enabled : Bool} {a : HookAct ι} (h : Waits i enabled s)
    (hmoves : Moves dlsym s a s') : Waits i enabled s' := by
  have hother : ∀ j, s.threads j ≠ .lock → i ≠ j := fun j hj heq => hj (heq ▸ h.lock)
  cases hmoves with
  | @starts j hidle =>
    exact ⟨(goTo_other (hother j (by simp [hidle]))).trans h.lock, h.locked, h.enableHook⟩
  | @checks j hpc =>
    exact ⟨(goTo_other (hother j (by simp [hpc]))).trans h.lock, h.locked, h.enableHook⟩
  | locks hpc hfree => exact absurd hfree h.locked
  | @rechecks j hpc =>
    exact ⟨(goTo_other (hother j (by simp [hpc]))).trans h.lock, h.locked, h.enableHook⟩
  | @begins j hpc =>
    exact ⟨(goTo_other (hother j (by simp [hpc]))).trans h.lock, h.locked, h.enableHook⟩
  | @recovers j funcName funcNames hpc =>
    exact ⟨(goTo_other (hother j (by simp [hpc]))).trans h.lock, h.locked, h.enableHook⟩
  | @ends j hpc =>
    exact ⟨(goTo_other (hother j (by simp [hpc]))).trans h.lock, h.locked, h.enableHook⟩
  | @sets j hpc =>
    have hne : i ≠ j := hother j (by simp [hpc])
    exact ⟨(goTo_other hne).trans h.lock, h.locked, (if_neg hne).trans h.enableHook⟩
  | @disables j hidle =>
    have hne : i ≠ j := hother j (by simp [hidle])
    exact ⟨h.lock, h.locked, (if_neg hne).trans h.enableHook⟩
  | calls hidle hname =>
    unfold HookState.call
    split
    · exact h
    · exact ⟨h.lock, h.locked, h.enableHook⟩

/-- In every interleaving InitHook is called once at most. Of the calls that find no `p`, the one that
locks the mutex goes on, and the others never return. -/
theorem enableHook_waits {acts : List (HookAct ι)} (h : interleave (step dlsym) {} acts = some s) :
    s.inits ≤ 1 ∧ (∀ i, s.enableHook i = true → s.inits = 1) ∧
    (∀ i, s.mutex = some i → s.threads i ≠ .lock) ∧
    ∀ i, s.threads i = .lock → s.mutex ≠ none → ∀ later t,
      interleave (step dlsym) s later = some t →
      t.threads i = .lock ∧ t.enableHook i = s.enableHook i := by
  have hinit : OneInit s :=
    interleave_invariant (fun _ _ _ hi hstep => hi.moves (step_moves hstep)) acts {} s oneInit_start h
  refine ⟨?_, ?_, fun i hlocked hlock => ?_, ?_⟩
  · rw [hinit.inits]
    split
    · exact le_refl 1
    · exact Nat.zero_le 1
  · intro i henabled
    rw [hinit.inits, if_pos (hinit.enabled i henabled)]
  · exact hinit.at hlock hlocked
  · intro i hlock hlocked later t hlater
    have hwaits : Waits i (s.enableHook i) t :=
      interleave_invariant (fun _ _ _ hi hstep => hi.moves (step_moves hstep)) later s t
        ⟨hlock, hlocked, rfl⟩ hlater
    exact ⟨hwaits.lock, hwaits.enableHook⟩

/-- The first thread has locked the mutex, the second one waits. -/
theorem enableHook_waits_two : ∃ s : HookState ℕ,
    interleave (step fun _ => true) {} [.enable 0, .enable 1, .step 0, .step 1, .step 0] = some s ∧
    (s.threads 1, s.mutex) = (.lock, some 0) ∧
    s.inits ≤ 1 ∧ (∀ i, s.enableHook i = true → s.inits = 1) ∧
    (∀ i, s.mutex = some i → s.threads i ≠ .lock) ∧
    ∀ i, s.threads i = .lock → s.mutex ≠ none → ∀ later t,
      interleave (step fun _ => true) s later = some t →
      t.threads i = .lock ∧ t.enableHook i = s.enableHook i := by
  have hrun : (interleave (step fun _ => true) {} [.enable 0, .enable 1, .step 0, .step 1, .step 0]).map
      (fun s : HookState ℕ => (s.threads 1, s.mutex)) = some (.lock, some 0) := by
    decide
  obtain ⟨s, hs, hwaits⟩ := Option.map_eq_some_iff.mp hrun
  exact ⟨s, hs, hwaits, enableHook_waits hs⟩

/-! ### One thread first -/

/-- EnableHook is not called beside the call that initialises, and only threads with the hook call. -/
def CallOk (s : HookState ι) : HookAct ι → Prop
  | .enable _ => (∀ j, s.threads j = .idle) ∨ s.initialized = true
  | .call i _ _ => s.enableHook i = true
  | .step _ => True
  | .disable _ => True

instance decidableCallOk [Fintype ι] (s : HookState ι) : ∀ a : HookAct ι, Decidable (CallOk s a)
  | .enable _ => inferInstanceAs (Decidable (_ ∨ _))
  | .call i _ _ => inferInstanceAs (Decidable (s.enableHook i = true))
  | .step _ => .isTrue trivial
  | .disable _ => .isTrue trivial

/-- What holds when a thread is at the given place and has run beside no other. -/
def Ready (dlsym : String → Bool) (s : HookState ι) : EnablePc → Prop
  | .idle => True
  | .check => s.p = true → s.initialized = true
  | .lock => s.initialized = false ∧ s.mutex = none
  | .recheck => True
  | .getInstance => True
  | .initHook funcNames => s.initialized = false ∧
    ∀ funcName ∈ hookFunctions, dlsym funcName = true → funcName ∈ s.originals ∨ funcName ∈ funcNames
  | .set => s.initialized = true

structure Orderly (dlsym : String → Bool) (s : HookState ι) : Prop where
  alone : s.initialized = false → ∀ i j, s.threads i ≠ .idle → j ≠ i → s.threads j = .idle
  initialized : s.initialized = true → s.p = true
  started : s.p = true → s.initialized = true ∨ ∃ i funcNames, s.threads i = .initHook funcNames
  ready : ∀ i, Ready dlsym s (s.threads i)
  enabled : ∀ i, s.enableHook i = true → s.initialized = true
  found : s.initialized = true → ∀ funcName ∈ hookFunctions, dlsym funcName = true → funcName ∈ s.originals
  crash : (∀ funcName ∈ hookFunctions, dlsym funcName = true) → s.crash = false

omit [DecidableEq ι] in
/-- What holds at a place says nothing about the other threads. -/
theorem Ready.same {pc : EnablePc} (h : Ready dlsym s pc) (hp : s'.p = s.p)
    (hinitialized : s'.initialized = s.initialized) (hmutex : s'.mutex = s.mutex)
    (horiginals : s'.originals = s.originals) : Ready dlsym s' pc := by
  cases pc with
  | idle => trivial
  | check => exact fun hset => hinitialized.trans (h (hp.symm.trans hset))
  | lock => exact ⟨hinitialized.trans h.1, hmutex.trans h.2⟩
  | recheck => trivial
  | getInstance => trivial
  | initHook funcNames => exact ⟨hinitialized.trans h.1, horiginals ▸ h.2⟩
  | set => exact hinitialized.trans h

omit [DecidableEq ι] in
theorem ready_idle {pc : EnablePc} (hidle : pc = .idle) : Ready dlsym s pc := by
  rw [hidle]
  trivial

omit [DecidableEq ι] in
theorem Orderly.at {i : ι} {pc : EnablePc} (h : Orderly dlsym s) (hpc : s.threads i = pc) : Ready dlsym s pc :=
  hpc ▸ h.ready i

omit [DecidableEq ι] in
theorem orderly_start : Orderly dlsym ({} : HookState ι) := by
  constructor <;> simp [Ready]

/-- `i` goes on, with the others where they were. -/
theorem alone_goTo {i : ι} {pc : EnablePc} (hothers : s.initialized = false → ∀ j, j ≠ i → s.threads j = .idle) :
    s.initialized = false → ∀ j k, (s.goTo i pc).threads j ≠ .idle → k ≠ j → (s.goTo i pc).threads k = .idle := by
  intro hearly j k hj hk
  have hji : j = i := by
    by_contra hne
    exact hj ((goTo_other hne).trans (hothers hearly j hne))
  have hki : k ≠ i := hji ▸ hk
  exact (goTo_other hki).trans (hothers hearly k hki)

theorem ready_goTo {i : ι} {pc : EnablePc} (hothers : ∀ j, j ≠ i → Ready dlsym s (s.threads j))
    (hpc : Ready dlsym s pc) (j : ι) : Ready dlsym (s.goTo i pc) ((s.goTo i pc).threads j) := by
  change Ready dlsym (s.goTo i pc) (if j = i then pc else s.threads j)
  by_cases hj : j = i
  · rw [if_pos hj]
    exact hpc.same rfl rfl rfl rfl
  · rw [if_neg hj]
    exact (hothers j hj).same rfl rfl rfl rfl

omit [DecidableEq ι] in
/-- Before InitHook has returned, a thread at work is the only one. -/
theorem Orderly.others {i : ι} (h : Orderly dlsym s) (hi : s.threads i ≠ .idle) :
    s.initialized = false → ∀ j, j ≠ i → s.threads j = .idle :=
  fun hearly j hj => h.alone hearly i j hi hj

omit [DecidableEq ι] in
/-- `p` is still null when a thread checks it again. -/
theorem Orderly.early (h : Orderly dlsym s) (hp : s.p = false) : s.initialized = false := by
  cases hinit : s.initialized with
  | false => rfl
  | true => exact absurd (hp.symm.trans (h.initialized hinit)) Bool.false_ne_true

/-- Thread `i` goes from one place outside InitHook to another. -/
theorem Orderly.goTo {i : ι} {pc : EnablePc} (h : Orderly dlsym s)
    (hothers : s.initialized = false → ∀ j, j ≠ i → s.threads j = .idle)
    (hnot : ∀ funcNames, s.threads i ≠ .initHook funcNames) (hpc : Ready dlsym s pc) :
    Orderly dlsym (s.goTo i pc) := by
  refine ⟨alone_goTo hothers, h.initialized, fun hp => ?_, ready_goTo (fun j _ => h.ready j) hpc, h.enabled,
    h.found, h.crash⟩
  refine (h.started hp).imp_right ?_
  rintro ⟨j, funcNames, hj⟩
  have hne : j ≠ i := fun heq => hnot funcNames (heq ▸ hj)
  exact ⟨j, funcNames, (goTo_other hne).trans hj⟩

omit [DecidableEq ι] in
/-- Thread `i`, alone at work, finds no `p`: nobody has locked the mutex. -/
theorem Orderly.unlocked {i : ι} (h : Orderly dlsym s) (hinit : OneInit s) (hpc : s.threads i = .check)
    (hp : s.p = false) : s.mutex = none := by
  by_contra hlocked
  obtain ⟨o, ho⟩ := Option.ne_none_iff_exists'.mp hlocked
  have hplaced := hinit.placed o
  rw [ho, hp] at hplaced
  have hne : o ≠ i := by
    intro heq
    rw [heq, hpc] at hplaced
    exact absurd (hplaced rfl) Bool.false_ne_true
  rw [h.others (by simp [hpc]) (h.early hp) o hne] at hplaced
  exact absurd (hplaced rfl) Bool.false_ne_true

omit [DecidableEq ι] in
/-- What is not recovered yet is still to look up. -/
theorem recovers_originals {funcName : String} {funcNames : List String}
    (h : ∀ name ∈ hookFunctions, dlsym name = true → name ∈ s.originals ∨ name ∈ funcName :: funcNames) :
    ∀ name ∈ hookFunctions, dlsym name = true →
      name ∈ (s.recover dlsym funcName).originals ∨ name ∈ funcNames := by
  intro name hname hfound
  rcases h name hname hfound with hmem | hmem
  · left
    unfold HookState.recover
    split
    · exact List.mem_cons_of_mem _ hmem
    · exact hmem
  · rcases List.mem_cons.mp hmem with rfl | hmem
    · exact Or.inl (by simp [HookState.recover, hfound])
    · exact Or.inr hmem

theorem Orderly.moves {a : HookAct ι} (hinit : OneInit s) (h : Orderly dlsym s) (hok : CallOk s a)
    (hmoves : Moves dlsym s a s') : Orderly dlsym s' := by
  cases hmoves with
  | @starts i hidle =>
    have hall : s.initialized = false → ∀ j, s.threads j = .idle :=
      fun hearly => hok.resolve_right (by rw [hearly]; exact Bool.false_ne_true)
    refine h.goTo (fun hearly j _ => hall hearly j) (by simp [hidle]) (fun hp => ?_)
    by_contra hearly
    obtain ⟨j, funcNames, hj⟩ := (h.started hp).resolve_left hearly
    rw [hall (Bool.eq_false_iff.mpr hearly) j] at hj
    cases hj
  | @checks i hpc =>
    have hready := h.at hpc
    refine h.goTo (h.others (by simp [hpc])) (by simp [hpc]) ?_
    split
    · next hp => exact hready hp
    · next hp =>
      have hp : s.p = false := Bool.eq_false_iff.mpr hp
      exact ⟨h.early hp, h.unlocked hinit hpc hp⟩
  | @locks i hpc hfree =>
    have hready := h.at hpc
    have hothers := h.others (i := i) (by simp [hpc])
    refine ⟨alone_goTo hothers, h.initialized, fun hp => ?_,
      ready_goTo (fun j hj => ready_idle (hothers hready.1 j hj)) trivial, h.enabled, h.found, h.crash⟩
    exact absurd ((hinit.free hfree).symm.trans hp) Bool.false_ne_true
  | @rechecks i hpc =>
    have hplaced := hinit.at hpc
    refine h.goTo (h.others (by simp [hpc])) (by simp [hpc]) ?_
    rw [if_neg (by rw [hplaced.2]; exact Bool.false_ne_true)]
    trivial
  | @begins i hpc =>
    have hplaced := hinit.at hpc
    have hearly := h.early hplaced.2
    have hothers := h.others (i := i) (by simp [hpc])
    exact ⟨alone_goTo hothers, fun _ => rfl, fun _ => Or.inr ⟨i, hookFunctions, if_pos rfl⟩,
      ready_goTo (fun j hj => ready_idle (hothers hearly j hj)) ⟨hearly, fun _ hname _ => Or.inr hname⟩,
      h.enabled, h.found, h.crash⟩
  | @recovers i funcName funcNames hpc =>
    have hready := h.at hpc
    have hothers := h.others (i := i) (by simp [hpc])
    refine ⟨alone_goTo hothers, h.initialized, fun _ => Or.inr ⟨i, funcNames, if_pos rfl⟩,
      ready_goTo (fun j hj => ready_idle (hothers hready.1 j hj)) ⟨hready.1, recovers_originals hready.2⟩,
      h.enabled, fun hlate => ?_, h.crash⟩
    exact absurd (hready.1.symm.trans hlate) Bool.false_ne_true
  | @ends i hpc =>
    have hready := h.at hpc
    have hplaced := hinit.at hpc
    have hothers := h.others (i := i) (by simp [hpc])
    refine ⟨fun hlate => absurd hlate.symm Bool.false_ne_true, fun _ => hplaced.2, fun _ => Or.inl rfl,
      ready_goTo (fun j hj => ready_idle (hothers hready.1 j hj)) rfl, fun _ _ => rfl,
      fun _ name hname hfound => ?_, h.crash⟩
    exact (hready.2 name hname hfound).resolve_right List.not_mem_nil
  | @sets i hpc =>
    have hready : s.initialized = true := h.at hpc
    have hset : Orderly dlsym (s.goTo i .idle) := h.goTo (h.others (by simp [hpc])) (by simp [hpc]) trivial
    exact ⟨hset.alone, hset.initialized, hset.started, fun j => (hset.ready j).same rfl rfl rfl rfl,
      fun _ _ => hready, hset.found, hset.crash⟩
  | @disables i hidle =>
    exact ⟨h.alone, h.initialized, h.started, fun j => (h.ready j).same rfl rfl rfl rfl,
      fun j henabled => h.enabled j (enabled_of_disabled henabled), h.found, h.crash⟩
  | calls hidle hname =>
    unfold HookState.call
    split
    · exact h
    · next hnone =>
      refine ⟨h.alone, h.initialized, h.started, fun j => (h.ready j).same rfl rfl rfl rfl, h.enabled, h.found,
        fun hall => absurd (fun name hcalled => ?_) hnone⟩
      have hhooked := calledOriginals_hooked hname name hcalled
      exact h.found (h.enabled _ hok) name hhooked (hall name hhooked)

/-- When the call that initialises runs beside no other, no thread waits for the mutex in vain, the hook
is on only in threads that have every original there is, and no null pointer is called when all are
found. -/
theorem enableHook_orderly {acts : List (HookAct ι)} (hok : GoodSteps (step dlsym) CallOk {} acts)
    (h : interleave (step dlsym) {} acts = some s) :
    (∀ i, s.threads i = .lock → s.mutex = none) ∧
    (∀ i, s.enableHook i = true →
      ∀ funcName ∈ hookFunctions, dlsym funcName = true → funcName ∈ s.originals) ∧
    ((∀ funcName ∈ hookFunctions, dlsym funcName = true) → s.crash = false) := by
  have hboth : OneInit s ∧ Orderly dlsym s :=
    goodSteps_invariant (I := fun t => OneInit t ∧ Orderly dlsym t)
      (fun t a t' hi ha hstep =>
        ⟨hi.1.moves (step_moves hstep), hi.2.moves hi.1 ha (step_moves hstep)⟩)
      acts {} s ⟨oneInit_start, orderly_start⟩ hok h
  refine ⟨fun i hlock => ?_, fun i henabled => hboth.2.found (hboth.2.enabled i henabled), hboth.2.crash⟩
  exact (hboth.2.at hlock).2

theorem enableHook_orderly_one : ∃ s : HookState (Fin 2),
    interleave (step fun _ => true) {}
      (.enable 0 :: List.replicate 18 (.step 0) ++ [.call 0 "writev" true, .call 0 "sleep" false,
        .enable 1, .step 1]) = some s ∧
    (s.enableHook 0, s.threads 1, s.originals.length) = (true, .set, 12) ∧
    (∀ i, s.threads i = .lock → s.mutex = none) ∧
    (∀ i, s.enableHook i = true → ∀ funcName ∈ hookFunctions, true = true → funcName ∈ s.originals) ∧
    ((∀ funcName ∈ hookFunctions, true = true) → s.crash = false) := by
  have hrun : (interleave (step fun _ => true) {}
      (.enable 0 :: List.replicate 18 (.step 0) ++ [.call 0 "writev" true, .call 0 "sleep" false,
        .enable 1, .step 1])).map
      (fun s : HookState (Fin 2) => (s.enableHook 0, s.threads 1, s.originals.length)) =
      some (true, .set, 12) := by
    decide +kernel
  obtain ⟨s, hs, hend⟩ := Option.map_eq_some_iff.mp hrun
  have hok : GoodSteps (step fun _ => true) CallOk ({} : HookState (Fin 2))
      (.enable 0 :: List.replicate 18 (.step 0) ++ [.call 0 "writev" true, .call 0 "sleep" false,
        .enable 1, .step 1]) := by
    decide +kernel
  exact ⟨s, hs, hend, enableHook_orderly hok hs⟩

/-- A second thread finds `p` while InitHook runs. It can sleep, but accept calls a null pointer. -/
example : (interleave (step fun _ => true) ({} : HookState ℕ)
    [.enable 0, .step 0, .step 0, .step 0, .step 0, .enable 1, .step 1, .step 1, .call 1 "sleep" false,
      .call 1 "accept" false]).map (fun s => (s.enableHook 1, s.crash)) = some (true, true) := by
  decide

end Steps

end HookState

end DeftRpc.Hook
