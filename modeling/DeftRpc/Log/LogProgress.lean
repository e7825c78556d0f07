import DeftRpc.Log.LogLines

/-!
# Which calls of DoLog return (LoggerBase.h:33-53, SpanMutex.h:18-26)

A thread has one appender locked at a time, so no thread waits in vain. An appender that is added
alone comes with a null pointer in front of it, and no call gets past that.
-/

namespace DeftRpc.Log
open DeftRpc.Foundation

variable {ι Tm : Type} [DecidableEq ι] {lib : TimeLib Tm} {loggers : UInt16 → LoggerBase}

/-! ### A null pointer -/

/-- A call of logger `id` has not got past the appender with index `n`. -/
def LogPc.Before (id : UInt16) (n : ℕ) : LogPc → Prop
  | .idle => True
  | .lock id' _ k => id' = id → k ≤ n
  | .valid id' _ k _ => id' = id → k < n
  | .format id' _ k _ _ => id' = id → k < n
  | .unLock id' _ k _ => id' = id → k < n

theorem LogPc.Before.holds_lt {id : UInt16} {n k : ℕ} {pc : LogPc} (h : pc.Before id n)
    (hholds : pc.holds = some (id, k)) : k < n := by
  cases pc with
  | idle => cases hholds
  | lock id' record k' => cases hholds
  | valid id' record k' appender =>
    cases hholds
    exact h rfl
  | format id' record k' appender items =>
    cases hholds
    exact h rfl
  | unLock id' record k' appender =>
    cases hholds
    exact h rfl

def LogPc.calls (id : UInt16) : LogPc → Prop
  | .idle => False
  | .lock id' _ _ => id' = id
  | .valid id' _ _ _ => id' = id
  | .format id' _ _ _ _ => id' = id
  | .unLock id' _ _ _ => id' = id

namespace Logging
variable {s s' : Logging ι}

structure Blocked (loggers : UInt16 → LoggerBase) (id : UInt16) (n : ℕ) (s : Logging ι) : Prop where
  before : ∀ i, (s.threads i).Before id n
  inside : ∀ i, (s.threads i).calls id ∨
    ∀ call ∈ s.logged i, call.1 = id → (loggers id).levelCheck call.2.mLevel = false
  outputs : ∀ k, n ≤ k → s.outputs (.ofStream id k) = []
  chars : ∀ k, n ≤ k → s.chars id k = []

omit [DecidableEq ι] in
theorem blocked_start (id : UInt16) (n : ℕ) : Blocked loggers id n ({} : Logging ι) := by
  exact {
    before := fun i => trivial
    inside := by
      intro i
      refine Or.inr fun call hcall => ?_
      cases hcall
    outputs := fun k hk => rfl
    chars := fun k hk => rfl }

variable {id : UInt16} {n : ℕ}

/-- A thread moves on in its call. -/
theorem Blocked.goTo (h : Blocked loggers id n s) {i : ι} {pc : LogPc}
    (hthreads : s'.threads = (s.goTo i pc).threads) (hlogged : s'.logged = s.logged)
    (houtputs : ∀ k, n ≤ k → s'.outputs (.ofStream id k) = s.outputs (.ofStream id k))
    (hchars : ∀ k, n ≤ k → s'.chars id k = s.chars id k)
    (hbefore : pc.Before id n) (hcalls : (s.threads i).calls id → pc.calls id) : Blocked loggers id n s' := by
  exact {
    before := by
      intro j
      rw [hthreads, goTo_threads]
      split
      · exact hbefore
      · exact h.before j
    inside := by
      intro j
      rw [hthreads, hlogged, goTo_threads]
      split
      · next he =>
        subst he
        exact (h.inside j).imp_left hcalls
      · exact h.inside j
    outputs := fun k hk => (houtputs k hk).trans (h.outputs k hk)
    chars := fun k hk => (hchars k hk).trans (h.chars k hk) }

theorem Blocked.doLog (h : Blocked loggers id n s) {i : ι} (id' : UInt16) (record : LogRecord)
    (hidle : s.threads i = .idle) :
    Blocked loggers id n (s.doLog loggers i id' record) := by
  exact {
    before := by
      intro j
      unfold Logging.doLog
      split
      · rw [goTo_threads]
        split
        · exact fun _ => Nat.zero_le n
        · exact h.before j
      · exact h.before j
    inside := by
      intro j
      have hj := h.inside j
      by_cases he : j = i
      · subst he
        have hold : ∀ call ∈ s.logged j, call.1 = id → (loggers id).levelCheck call.2.mLevel = false := by
          rw [hidle] at hj
          exact hj.resolve_left fun hcalls => hcalls
        cases hlevel : (loggers id').levelCheck record.mLevel with
        | true =>
          simp only [Logging.doLog, Logging.goTo, hlevel, if_true, LogPc.calls]
          by_cases hid : id' = id
          · exact Or.inl hid
          · refine Or.inr fun call hcall he => ?_
            rcases List.mem_append.mp hcall with hcall | hcall
            · exact hold call hcall he
            · cases List.mem_singleton.mp hcall
              exact absurd he hid
        | false =>
          simp only [Logging.doLog, hlevel, Bool.false_eq_true, if_false, if_true]
          refine Or.inr fun call hcall he => ?_
          rcases List.mem_append.mp hcall with hcall | hcall
          · exact hold call hcall he
          · cases List.mem_singleton.mp hcall
            cases he
            exact hlevel
      · unfold Logging.doLog
        split
        · simpa [Logging.goTo, he] using hj
        · simpa [he] using hj
    outputs := by
      intro k hk
      unfold Logging.doLog
      split
      · exact h.outputs k hk
      · exact h.outputs k hk
    chars := by
      intro k hk
      unfold Logging.doLog
      split
      · exact h.chars k hk
      · exact h.chars k hk }

omit [DecidableEq ι] in
/-- What an appender in front writes does not reach the streams behind. -/
theorem outside {id' : UInt16} {k : ℕ} (appender : LogAppender) {text : List Char}
    (hbefore : id' = id → k < n) (k' : ℕ) (hk : n ≤ k') :
    (s.write id' k appender text).outputs (.ofStream id k') = s.outputs (.ofStream id k') ∧
      (s.write id' k appender text).chars id k' = s.chars id k' := by
  constructor
  · refine if_neg fun he => ?_
    unfold LogAppender.stream at he
    split at he
    · cases he
    · cases he
      exact absurd (hbefore rfl) (by omega)
  · refine if_neg ?_
    rintro ⟨rfl, rfl⟩
    exact absurd (hbefore rfl) (by omega)

theorem Blocked.moves (hnull : (loggers id).mAppenders[n]? = some none) (h : Blocked loggers id n s)
    (hmoves : Moves loggers lib s s') : Blocked loggers id n s' := by
  cases hmoves with
  | log id' record hidle => exact h.doLog id' record hidle
  | @returns i id' record k hpc hnone =>
    have hbefore := h.before i
    rw [hpc] at hbefore
    refine h.goTo rfl rfl (fun _ _ => rfl) (fun _ _ => rfl) trivial ?_
    rw [hpc]
    rintro rfl
    have hlt := (List.getElem?_eq_some_iff.mp hnull).1
    have hle := List.getElem?_eq_none_iff.mp hnone
    exact absurd (hbefore rfl) (by omega)
  | null hpc hk => exact ⟨h.before, h.inside, h.outputs, h.chars⟩
  | spins => exact h
  | @locks i id' record k appender hpc hk hfree =>
    have hbefore := h.before i
    rw [hpc] at hbefore
    refine h.goTo rfl rfl (fun _ _ => rfl) (fun _ _ => rfl) ?_
      (by rw [hpc]; exact fun hid => hid)
    rintro rfl
    refine lt_of_le_of_ne (hbefore rfl) ?_
    rintro rfl
    rw [hnull] at hk
    cases hk
  | @accepts i id' record k appender hpc hvalid =>
    have hbefore := h.before i
    rw [hpc] at hbefore
    exact h.goTo rfl rfl (fun _ _ => rfl) (fun _ _ => rfl) hbefore
      (by rw [hpc]; exact fun hid => hid)
  | @skips i id' record k appender hpc hvalid =>
    have hbefore := h.before i
    rw [hpc] at hbefore
    exact h.goTo rfl rfl (fun _ _ => rfl) (fun _ _ => rfl) hbefore
      (by rw [hpc]; exact fun hid => hid)
  | @ends i id' record k appender hpc =>
    have hbefore := h.before i
    rw [hpc] at hbefore
    exact h.goTo rfl rfl (fun k' hk' => (outside appender hbefore k' hk').1)
      (fun k' hk' => (outside appender hbefore k' hk').2) hbefore (by rw [hpc]; exact fun hid => hid)
  | @item i id' record k appender item items text hpc htext =>
    have hbefore := h.before i
    rw [hpc] at hbefore
    exact h.goTo rfl rfl (fun k' hk' => (outside appender hbefore k' hk').1)
      (fun k' hk' => (outside appender hbefore k' hk').2) hbefore (by rw [hpc]; exact fun hid => hid)
  | noTime hpc hfault => exact ⟨h.before, h.inside, h.outputs, h.chars⟩
  | @unLocks i id' record k appender hpc =>
    have hbefore := h.before i
    rw [hpc] at hbefore
    exact h.goTo rfl rfl (fun _ _ => rfl) (fun _ _ => rfl) hbefore
      (by rw [hpc]; exact fun hid => hid)

theorem blocked_run (hnull : (loggers id).mAppenders[n]? = some none) {acts : List (LogAct ι)}
    (h : interleave (step loggers lib) {} acts = some s) : Blocked loggers id n s := by
  refine interleave_invariant ?_ acts {} s (blocked_start id n) h
  intro t a t' hi hstep
  exact hi.moves hnull (step_moves hstep)

/-- No thread ever locks an appender that AddLogAppender adds alone or one added later, so neither writes a
char, to `std::cout` or to a file; and no call that passes the level check of the logger returns. -/
theorem addLogAppender_blocks {logger : LoggerBase} {appender : LogAppender} {rest : List (Option LogAppender)}
    {acts : List (LogAct ι)}
    (hlogger : loggers id = (logger.addLogAppender (some appender)).addLogAppenders rest)
    (h : interleave (step loggers lib) {} acts = some s) :
    (∀ k, logger.mAppenders.length ≤ k → s.chars id k = [] ∧ s.outputs (.ofStream id k) = [] ∧
      ∀ i, (s.threads i).holds ≠ some (id, k)) ∧
    ∀ i, s.threads i = .idle → ∀ call ∈ s.logged i, call.1 = id →
      (loggers id).levelCheck call.2.mLevel = false := by
  have hnull : (loggers id).mAppenders[logger.mAppenders.length]? = some none := by
    rw [hlogger]
    simp [LoggerBase.addLogAppenders, LoggerBase.addLogAppender]
  have hblocked := blocked_run hnull h
  refine ⟨fun k hk => ⟨hblocked.chars k hk, hblocked.outputs k hk, fun i hholds => ?_⟩, ?_⟩
  · have hlt := (hblocked.before i).holds_lt hholds
    omega
  · intro i hidle
    have hinside := hblocked.inside i
    rw [hidle] at hinside
    exact hinside.resolve_left fun hcalls => hcalls

/-- A file appender, the one for the console that AddLogAppender adds behind it, and a file appender behind
that: the first one writes its line. -/
theorem addLogAppender_blocks_one : ∃ (lib : TimeLib Unit) (loggers : UInt16 → LoggerBase)
    (logger : LoggerBase) (appender : LogAppender) (rest : List (Option LogAppender))
    (acts : List (LogAct ℕ)) (s : Logging ℕ),
    loggers 0 = (logger.addLogAppender (some appender)).addLogAppenders rest ∧
    (logger.mAppenders.length, appender.kind, rest.length) = (1, .console, 1) ∧
    interleave (step loggers lib) {} acts = some s ∧
    (s.crash, s.outputs (.ofStream 0 0), s.outputs .cout) = (some .badPointer, ['a', 'b', '\n'], []) ∧
    (∀ k, logger.mAppenders.length ≤ k → s.chars 0 k = [] ∧ s.outputs (.ofStream 0 k) = [] ∧
      ∀ i, (s.threads i).holds ≠ some (0, k)) ∧
    ∀ i, s.threads i = .idle → ∀ call ∈ s.logged i, call.1 = 0 →
      (loggers 0).levelCheck call.2.mLevel = false := by
  have hrun : (interleave
      (step (fun _ => ((LoggerBase.addLogAppenders {} [some ⟨.file true, some [.message], .debug⟩]).addLogAppender
          (some ⟨.console, some [.message], .debug⟩)).addLogAppenders
            [some ⟨.file true, some [.message], .debug⟩])
        (⟨fun _ => (), fun _ _ _ => none⟩ : TimeLib Unit)) {}
      ([.log 0 0 ⟨[], 0, [], 1, .error, 7, ['a', 'b']⟩] ++ List.replicate 6 (.step 0))).map
        (fun s : Logging ℕ => (s.crash, s.outputs (.ofStream 0 0), s.outputs .cout)) =
          some (some .badPointer, ['a', 'b', '\n'], []) := by
    decide
  obtain ⟨s, hs, hcrash⟩ := Option.map_eq_some_iff.mp hrun
  exact ⟨_, _, LoggerBase.addLogAppenders {} [some ⟨.file true, some [.message], .debug⟩], _, _, _, s, rfl,
    rfl, hs, hcrash, addLogAppender_blocks rfl hs⟩

end Logging

/-! ### Every call can return -/

def appendersCost (appenders : List (Option LogAppender)) : ℕ :=
  (appenders.map fun pointer => (pointer.elim [] fun appender => appender.mFormatter.getD []).length + 4).sum

/-- The steps that a thread has still to do, those apart in which it waits. -/
def LogPc.cost (loggers : UInt16 → LoggerBase) : LogPc → ℕ
  | .idle => 0
  | .lock id _ k => 1 + appendersCost ((loggers id).mAppenders.drop k)
  | .valid id _ k appender =>
    (appender.mFormatter.getD []).length + 4 + appendersCost ((loggers id).mAppenders.drop (k + 1))
  | .format id _ k _ items => items.length + 3 + appendersCost ((loggers id).mAppenders.drop (k + 1))
  | .unLock id _ k _ => 2 + appendersCost ((loggers id).mAppenders.drop (k + 1))

theorem appendersCost_drop {appenders : List (Option LogAppender)} {k : ℕ} {appender : LogAppender}
    (h : appenders[k]? = some (some appender)) :
    appendersCost (appenders.drop k) =
      (appender.mFormatter.getD []).length + 4 + appendersCost (appenders.drop (k + 1)) := by
  obtain ⟨hlt, hget⟩ := List.getElem?_eq_some_iff.mp h
  rw [List.drop_eq_getElem_cons hlt, hget]
  rfl

namespace Logging
variable {s s' : Logging ι}

/-- The loggers have no null pointer and no time item without a value. -/
structure Sound (loggers : UInt16 → LoggerBase) (lib : TimeLib Tm) : Prop where
  null : ∀ id, none ∉ (loggers id).mAppenders
  time : ∀ id appender, some appender ∈ (loggers id).mAppenders → ∀ item ∈ appender.mFormatter.getD [],
    ∀ record, ∃ text, item.format lib record = .ok text

/-- What a step of thread `i` brings that does not wait. -/
structure Down (loggers : UInt16 → LoggerBase) (i : ι) (s s' : Logging ι) : Prop where
  crash : s'.crash = none
  cost : (s'.threads i).cost loggers < (s.threads i).cost loggers
  others : ∀ j, j ≠ i → s'.threads j = s.threads j
  holds : ∀ id k, (s.threads i).holds = some (id, k) →
    (s'.threads i).holds = some (id, k) ∨ s'.mMutex id k = false

theorem down_goTo {t : Logging ι} {i : ι} {pc : LogPc} (hcrash : t.crash = none)
    (hthreads : t.threads = s.threads) (hcost : pc.cost loggers < (s.threads i).cost loggers)
    (hholds : ∀ id k, (s.threads i).holds = some (id, k) →
      pc.holds = some (id, k) ∨ t.mMutex id k = false) : Down loggers i s (t.goTo i pc) := by
  exact {
    crash := hcrash
    cost := by rwa [goTo_threads, if_pos rfl]
    others := by
      intro j hj
      rw [goTo_threads, if_neg hj, hthreads]
    holds := by
      intro id k h
      rw [goTo_threads, if_pos rfl]
      exact hholds id k h }

theorem step_down (hsound : Sound loggers lib) (hlocks : Locks loggers s) (hcrash : s.crash = none) {i : ι}
    (hpc : s.threads i ≠ .idle)
    (hfree : ∀ id record k, s.threads i = .lock id record k → s.mMutex id k = false) :
    ∃ s', step loggers lib s (.step i) = some s' ∧ Down loggers i s s' := by
  have hknown := hlocks.known i
  have hstep : step loggers lib s (.step i) = s.access loggers lib i (s.threads i) := by
    simp [step, hcrash]
  rw [hstep]
  cases hi : s.threads i with
  | idle => exact absurd hi hpc
  | lock id record k =>
    cases hk : (loggers id).mAppenders[k]? with
    | none =>
      refine ⟨s.goTo i .idle, by simp [access, hk], down_goTo hcrash rfl ?_ ?_⟩
      · simp [hi, LogPc.cost]
      · simp [hi, LogPc.holds]
    | some pointer =>
      cases pointer with
      | none => exact absurd (List.mem_of_getElem? hk) (hsound.null id)
      | some appender =>
        refine ⟨(s.lock i id k record).goTo i (.valid id record k appender),
          by simp [access, hk, hfree id record k hi], down_goTo hcrash rfl ?_ ?_⟩
        · rw [hi, LogPc.cost, LogPc.cost, appendersCost_drop hk]
          omega
        · simp [hi, LogPc.holds]
  | valid id record k appender =>
    cases hvalid : appender.recordValid record with
    | true =>
      refine ⟨s.goTo i (.format id record k appender (appender.mFormatter.getD [])),
        by simp [access, hvalid], down_goTo hcrash rfl ?_ ?_⟩
      · rw [hi, LogPc.cost, LogPc.cost]
        omega
      · rw [hi]
        exact fun id' k' h => Or.inl h
    | false =>
      refine ⟨s.goTo i (.unLock id record k appender), by simp [access, hvalid], down_goTo hcrash rfl ?_ ?_⟩
      · rw [hi, LogPc.cost, LogPc.cost]
        omega
      · rw [hi]
        exact fun id' k' h => Or.inl h
  | format id record k appender items =>
    cases items with
    | nil =>
      refine ⟨_, rfl, down_goTo hcrash rfl ?_ ?_⟩
      · rw [hi, LogPc.cost, LogPc.cost, List.length_nil]
        omega
      · rw [hi]
        exact fun id' k' h => Or.inl h
    | cons item items =>
      rw [hi] at hknown
      obtain ⟨hk, -, hsuffix⟩ := hknown
      obtain ⟨text, htext⟩ := hsound.time id appender (List.mem_of_getElem? hk) item
        (hsuffix.subset List.mem_cons_self) record
      refine ⟨(s.write id k appender text).goTo i (.format id record k appender items),
        by simp [access, htext], down_goTo hcrash rfl ?_ ?_⟩
      · rw [hi, LogPc.cost, LogPc.cost, List.length_cons]
        omega
      · rw [hi]
        exact fun id' k' h => Or.inl h
  | unLock id record k appender =>
    refine ⟨_, rfl, down_goTo hcrash rfl ?_ ?_⟩
    · rw [hi, LogPc.cost, LogPc.cost]
      omega
    · intro id' k' h
      rw [hi] at h
      cases h
      exact Or.inr (if_pos ⟨rfl, rfl⟩)

/-- The thread that has locked an appender unlocks it when it runs alone. -/
theorem unlocked (hsound : Sound loggers lib) {j : ι} {id : UInt16} {k : ℕ} (hlocks : Locks loggers s)
    (hcrash : s.crash = none) (hj : (s.threads j).holds = some (id, k)) :
    ∃ n s', interleave (step loggers lib) s (List.replicate n (.step j)) = some s' ∧ Locks loggers s' ∧
      s'.crash = none ∧ s'.mMutex id k = false ∧ ∀ i, i ≠ j → s'.threads i = s.threads i := by
  induction hm : (s.threads j).cost loggers using Nat.strong_induction_on generalizing s with
  | _ m ih =>
    have hpc : s.threads j ≠ .idle := by
      intro hidle
      rw [hidle] at hj
      cases hj
    obtain ⟨t, hstep, hdown⟩ := step_down hsound hlocks hcrash hpc (by
      intro id' record k' hlock
      rw [hlock] at hj
      cases hj)
    have ht := hlocks.moves (step_moves hstep)
    rcases hdown.holds id k hj with hstill | hfree
    · obtain ⟨n, s', hrun, hlocks', hcrash', hfree, hothers⟩ :=
        ih _ (hm ▸ hdown.cost) ht hdown.crash hstill rfl
      refine ⟨n + 1, s', ?_, hlocks', hcrash', hfree, fun i hi => (hothers i hi).trans (hdown.others i hi)⟩
      rw [List.replicate_succ, interleave, hstep]
      exact hrun
    · refine ⟨1, t, ?_, ht, hdown.crash, hfree, hdown.others⟩
      rw [List.replicate_one, interleave, hstep]
      rfl

theorem crash_run (hsound : Sound loggers lib) {acts : List (LogAct ι)}
    (h : interleave (step loggers lib) {} acts = some s) : Locks loggers s ∧ s.crash = none := by
  refine interleave_invariant (I := fun t => Locks loggers t ∧ t.crash = none) ?_ acts {} s
    ⟨locks_start, rfl⟩ h
  intro t a t' hi hstep
  have hmoves := step_moves hstep
  refine ⟨hi.1.moves hmoves, ?_⟩
  cases hmoves with
  | log id record hidle =>
    unfold doLog
    split
    · exact hi.2
    · exact hi.2
  | null hpc hk => exact absurd (List.mem_of_getElem? hk) (hsound.null _)
  | @noTime i id record k appender item items hpc hfault =>
    have hknown := hi.1.known i
    rw [hpc] at hknown
    obtain ⟨hk, -, hsuffix⟩ := hknown
    obtain ⟨text, htext⟩ := hsound.time id appender (List.mem_of_getElem? hk) item
      (hsuffix.subset List.mem_cons_self) record
    rw [hfault] at htext
    cases htext
  | _ => exact hi.2

/-- Another thread runs until the thread does not have to wait. -/
theorem freed (hsound : Sound loggers lib) (hlocks : Locks loggers s) (hcrash : s.crash = none) (i : ι) :
    ∃ (js : List ι) (t : Logging ι), interleave (step loggers lib) s (js.map .step) = some t ∧ Locks loggers t ∧ t.crash = none ∧
      t.threads i = s.threads i ∧ ∀ id record k, t.threads i = .lock id record k → t.mMutex id k = false := by
  by_cases hwaits : ∃ id record k, s.threads i = .lock id record k ∧ s.mMutex id k = true
  · obtain ⟨id, record, k, hi, hlocked⟩ := hwaits
    obtain ⟨j, hj⟩ := hlocks.holder id k hlocked
    obtain ⟨n, t, hrun, ht, htcrash, hfree, hothers⟩ := unlocked hsound hlocks hcrash hj
    have hne : i ≠ j := by
      rintro rfl
      rw [hi] at hj
      cases hj
    refine ⟨List.replicate n j, t, ?_, ht, htcrash, hothers i hne, ?_⟩
    · rw [List.map_replicate]
      exact hrun
    · intro id' record' k' hlock
      rw [hothers i hne, hi] at hlock
      cases hlock
      exact hfree
  · refine ⟨[], s, rfl, hlocks, hcrash, rfl, ?_⟩
    intro id record k hlock
    cases hlocked : s.mMutex id k with
    | false => rfl
    | true => exact absurd ⟨id, record, k, hlock, hlocked⟩ hwaits

theorem can_return (hsound : Sound loggers lib) (hlocks : Locks loggers s) (hcrash : s.crash = none) (i : ι) :
    ∃ (js : List ι) (s' : Logging ι), interleave (step loggers lib) s (js.map .step) = some s' ∧ s'.threads i = .idle ∧
      s'.crash = none := by
  induction hm : (s.threads i).cost loggers using Nat.strong_induction_on generalizing s with
  | _ m ih =>
    by_cases hidle : s.threads i = .idle
    · exact ⟨[], s, rfl, hidle, hcrash⟩
    · obtain ⟨before, t, hbefore, ht, htcrash, hsame, hfree⟩ := freed hsound hlocks hcrash i
      obtain ⟨u, hstep, hdown⟩ := step_down hsound ht htcrash (hsame ▸ hidle) hfree
      obtain ⟨after, s', hafter, hend⟩ :=
        ih _ (by rw [← hm, ← hsame]; exact hdown.cost) (ht.moves (step_moves hstep)) hdown.crash rfl
      refine ⟨before ++ i :: after, s', ?_, hend⟩
      rw [List.map_append, List.map_cons]
      refine interleave_append hbefore ?_
      rw [interleave, hstep]
      exact hafter

/-- No thread waits in vain: from each state of each run there are steps that no new call takes, after
which the thread is back from DoLog. -/
theorem doLog_returns (hsound : Sound loggers lib) {acts : List (LogAct ι)}
    (h : interleave (step loggers lib) {} acts = some s) (i : ι) :
    ∃ (js : List ι) (s' : Logging ι), interleave (step loggers lib) s (js.map .step) = some s' ∧ s'.threads i = .idle ∧
      s'.crash = none := by
  obtain ⟨hlocks, hcrash⟩ := crash_run hsound h
  exact can_return hsound hlocks hcrash i

/-- The second thread waits for the first one. -/
theorem doLog_returns_two : ∃ (lib : TimeLib Unit) (loggers : UInt16 → LoggerBase) (acts : List (LogAct ℕ))
    (s : Logging ℕ), Sound loggers lib ∧ interleave (step loggers lib) {} acts = some s ∧
    (s.mMutex 0 0, (s.threads 0).cost loggers, (s.threads 1).cost loggers) = (true, 5, 6) ∧
    ∃ (js : List ℕ) (s' : Logging ℕ), interleave (step loggers lib) s (js.map .step) = some s' ∧
      s'.threads 1 = .idle ∧ s'.crash = none := by
  have hrun : (interleave
      (step (fun _ => LoggerBase.addLogAppenders {} [some ⟨.console, some [.message], .debug⟩])
        (⟨fun _ => (), fun _ _ _ => none⟩ : TimeLib Unit)) {}
      [.log 0 0 ⟨[], 0, [], 1, .error, 7, ['a', 'b']⟩, .log 1 0 ⟨[], 0, [], 2, .info, 8, ['c']⟩,
        .step 0, .step 1]).map (fun s : Logging ℕ => (s.mMutex 0 0,
          (s.threads 0).cost (fun _ => ⟨.none, [some ⟨.console, some [.message], .debug⟩]⟩),
          (s.threads 1).cost (fun _ => ⟨.none, [some ⟨.console, some [.message], .debug⟩]⟩))) =
      some (true, 5, 6) := by
    decide
  obtain ⟨s, hs, hwaits⟩ := Option.map_eq_some_iff.mp hrun
  have hsound : Sound (fun _ => LoggerBase.addLogAppenders {} [some ⟨.console, some [.message], .debug⟩])
      (⟨fun _ => (), fun _ _ _ => none⟩ : TimeLib Unit) := by
    refine ⟨fun id => by decide, ?_⟩
    intro id appender happender item hitem record
    cases List.mem_singleton.mp happender
    cases List.mem_singleton.mp hitem
    exact ⟨_, rfl⟩
  exact ⟨_, _, _, s, hsound, hs, hwaits, doLog_returns hsound hs 1⟩

end Logging

end DeftRpc.Log
