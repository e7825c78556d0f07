import DeftRpc.Log.Logger

/-!
# The lines of a log (LoggerBase.h:49-53, LogAppender.cpp:29-41, LogFormatter.cpp:195-202)

A stream with one appender gets one whole line after the other, in the order in which the threads
lock the appender, and each thread's records in the order of its calls. `std::cout` is such a stream
for a single ConsoleLogAppender only: every appender has a mutex of its own.
-/

namespace DeftRpc.Log
open DeftRpc.Foundation

variable {ι Tm : Type} [DecidableEq ι] {lib : TimeLib Tm} {loggers : UInt16 → LoggerBase}

/-! ### What the items write -/

/-- The text of the items without the end of the line. -/
def formatItems (lib : TimeLib Tm) (record : LogRecord) : List FormatterItem → Exec (List Char)
  | [] => .ok []
  | item :: items => do
    let text ← item.format lib record
    let rest ← formatItems lib record items
    pure (text ++ rest)

theorem formatItems_snoc {record : LogRecord} {done : List FormatterItem} {item : FormatterItem}
    {part text : List Char} (hdone : formatItems lib record done = .ok part)
    (hitem : item.format lib record = .ok text) :
    formatItems lib record (done ++ [item]) = .ok (part ++ text) := by
  induction done generalizing part with
  | nil =>
    cases hdone
    simp [formatItems, hitem]
  | cons first done ih =>
    obtain ⟨u, hu, hrest⟩ := Exec.bind_eq_ok hdone
    obtain ⟨v, hv, hpart⟩ := Exec.bind_eq_ok hrest
    cases hpart
    simp only [List.cons_append, formatItems, hu, Exec.ok_bind, ih hv, Exec.pure_eq_ok, List.append_assoc]

theorem formatRecord_of_items {record : LogRecord} {items : List FormatterItem} {part : List Char}
    (h : formatItems lib record items = .ok part) : formatRecord lib record items = .ok (part ++ ['\n']) := by
  induction items generalizing part with
  | nil =>
    cases h
    rfl
  | cons item items ih =>
    obtain ⟨u, hu, hrest⟩ := Exec.bind_eq_ok h
    obtain ⟨v, hv, hpart⟩ := Exec.bind_eq_ok hrest
    cases hpart
    simp only [formatRecord, hu, Exec.ok_bind, ih hv, Exec.pure_eq_ok, List.append_assoc]

/-! ### The mutexes -/

/-- The appender that a thread has locked. -/
def LogPc.holds : LogPc → Option (UInt16 × ℕ)
  | .idle => none
  | .lock _ _ _ => none
  | .valid id _ k _ => some (id, k)
  | .format id _ k _ _ => some (id, k)
  | .unLock id _ k _ => some (id, k)

/-- The pointer of the thread is the one in `m_appenders_`. -/
def LogPc.Known (loggers : UInt16 → LoggerBase) : LogPc → Prop
  | .idle => True
  | .lock _ _ _ => True
  | .valid id _ k appender => (loggers id).mAppenders[k]? = some (some appender)
  | .format id record k appender items =>
    (loggers id).mAppenders[k]? = some (some appender) ∧ appender.recordValid record = true ∧
      items <:+ appender.mFormatter.getD []
  | .unLock id _ k appender => (loggers id).mAppenders[k]? = some (some appender)

/-- The record that the thread has still to bring to the appender. -/
def LogPc.pending (id : UInt16) (k : ℕ) (appender : LogAppender) : LogPc → List LogRecord
  | .idle => []
  | .lock id' record j => if id' = id ∧ j ≤ k ∧ appender.recordValid record = true then [record] else []
  | .valid id' record j _ => if id' = id ∧ j ≤ k ∧ appender.recordValid record = true then [record] else []
  | .format id' record j _ _ => if id' = id ∧ j ≤ k ∧ appender.recordValid record = true then [record] else []
  | .unLock id' record j _ => if id' = id ∧ j < k ∧ appender.recordValid record = true then [record] else []

/-- The record of a thread that has locked the appender and not written the end of its line. -/
def LogPc.opened (id : UInt16) (k : ℕ) (appender : LogAppender) : LogPc → Option LogRecord
  | .valid id' record k' _ =>
    if id' = id ∧ k' = k ∧ appender.recordValid record = true then some record else none
  | .format id' record k' _ _ => if id' = id ∧ k' = k then some record else none
  | _ => none

theorem LogPc.holds_of_opened {id : UInt16} {k : ℕ} {appender : LogAppender} {pc : LogPc}
    {record : LogRecord} (h : pc.opened id k appender = some record) : pc.holds = some (id, k) := by
  cases pc with
  | idle => cases h
  | lock id' record' k' => cases h
  | valid id' record' k' appender' =>
    rw [opened] at h
    split at h
    · next hsame => rw [holds, hsame.1, hsame.2.1]
    · cases h
  | format id' record' k' appender' items =>
    rw [opened] at h
    split at h
    · next hsame => rw [holds, hsame.1, hsame.2]
    · cases h
  | unLock id' record' k' appender' => cases h

namespace Logging

structure Locks (loggers : UInt16 → LoggerBase) (s : Logging ι) : Prop where
  known : ∀ i, (s.threads i).Known loggers
  locked : ∀ i id k, (s.threads i).holds = some (id, k) → s.mMutex id k = true
  holder : ∀ id k, s.mMutex id k = true → ∃ i, (s.threads i).holds = some (id, k)
  unique : ∀ i j id k, (s.threads i).holds = some (id, k) → (s.threads j).holds = some (id, k) → i = j

omit [DecidableEq ι] in
theorem Locks.at {s : Logging ι} (h : Locks loggers s) {i : ι} {pc : LogPc} (hpc : s.threads i = pc) :
    pc.Known loggers := hpc ▸ h.known i

omit [DecidableEq ι] in
theorem locks_start : Locks loggers ({} : Logging ι) := by
  exact {
    known := fun i => trivial
    locked := by
      intro i id k h
      cases h
    holder := by
      intro id k h
      cases h
    unique := by
      intro i j id k h
      cases h }

section Steps
variable {s s' : Logging ι}

omit [DecidableEq ι] in
theorem Locks.frame (h : Locks loggers s) (hmutex : s'.mMutex = s.mMutex) (hthreads : s'.threads = s.threads) :
    Locks loggers s' := by
  exact {
    known := hthreads ▸ h.known
    locked := hthreads ▸ hmutex ▸ h.locked
    holder := hthreads ▸ hmutex ▸ h.holder
    unique := hthreads ▸ h.unique }

/-- A thread moves on and keeps what it has locked. -/
theorem Locks.goTo (h : Locks loggers s) {i : ι} {pc : LogPc} (hknown : pc.Known loggers)
    (hholds : pc.holds = (s.threads i).holds) : Locks loggers (s.goTo i pc) := by
  have hsame : ∀ j, ((s.goTo i pc).threads j).holds = (s.threads j).holds := by
    intro j
    simp only [goTo_threads]
    split
    · next he => rw [he, hholds]
    · rfl
  exact {
    known := by
      intro j
      simp only [goTo_threads]
      split
      · exact hknown
      · exact h.known j
    locked := by
      intro j id k hj
      exact h.locked j id k (hsame j ▸ hj)
    holder := by
      intro id k hlocked
      obtain ⟨j, hj⟩ := h.holder id k hlocked
      exact ⟨j, (hsame j).trans hj⟩
    unique := by
      intro j j' id k hj hj'
      exact h.unique j j' id k (hsame j ▸ hj) (hsame j' ▸ hj') }

theorem Locks.lock (h : Locks loggers s) {i : ι} {id : UInt16} {k : ℕ} (record : LogRecord) {pc : LogPc}
    (hfree : s.mMutex id k = false) (hnone : (s.threads i).holds = none) (hknown : pc.Known loggers)
    (hholds : pc.holds = some (id, k)) : Locks loggers ((s.lock i id k record).goTo i pc) := by
  exact {
    known := by grind [h.known]
    locked := by grind [h.locked]
    holder := by
      intro id' k' hlocked
      by_cases hk : id' = id ∧ k' = k
      · exact ⟨i, by simp [hholds, hk]⟩
      · simp only [goTo_mMutex, lock_mMutex, hk, if_false] at hlocked
        obtain ⟨j, hj⟩ := h.holder id' k' hlocked
        refine ⟨j, ?_⟩
        grind
    unique := by grind [h.unique, h.locked] }

theorem Locks.unLock (h : Locks loggers s) {i : ι} {id : UInt16} {k : ℕ} {pc : LogPc}
    (hold : (s.threads i).holds = some (id, k)) (hknown : pc.Known loggers) (hholds : pc.holds = none) :
    Locks loggers ((s.setMutex id k false).goTo i pc) := by
  exact {
    known := by grind [h.known]
    locked := by
      intro j id' k' hj
      have hne : j ≠ i := by
        rintro rfl
        simp [hholds] at hj
      simp only [goTo_threads, goTo_mMutex, setMutex_threads, setMutex_mMutex, hne, if_false] at hj ⊢
      rw [if_neg ?_]
      · exact h.locked j id' k' hj
      · rintro ⟨rfl, rfl⟩
        exact hne (h.unique j i id' k' hj hold)
    holder := by
      intro id' k' hlocked
      by_cases hk : id' = id ∧ k' = k
      · simp [hk] at hlocked
      · simp only [goTo_mMutex, setMutex_mMutex, hk, if_false] at hlocked
        obtain ⟨j, hj⟩ := h.holder id' k' hlocked
        refine ⟨j, ?_⟩
        grind
    unique := by
      intro j j' id' k' hj hj'
      have hne : j ≠ i := by
        rintro rfl
        simp [hholds] at hj
      have hne' : j' ≠ i := by
        rintro rfl
        simp [hholds] at hj'
      simp only [goTo_threads, setMutex_threads, hne, hne', if_false] at hj hj'
      exact h.unique j j' id' k' hj hj' }

theorem Locks.moves (h : Locks loggers s) (hmoves : Moves loggers lib s s') : Locks loggers s' := by
  cases hmoves with
  | log id record hidle =>
    unfold doLog
    split
    · exact (h.goTo (show LogPc.Known loggers (.lock id record 0) from trivial) (by rw [hidle]; rfl)).frame
        rfl rfl
    · exact h.frame rfl rfl
  | returns hpc hk => exact h.goTo trivial (by rw [hpc]; rfl)
  | null hpc hk => exact h.frame rfl rfl
  | spins => exact h
  | @locks i id record k appender hpc hk hfree => exact h.lock record hfree (by rw [hpc]; rfl) hk rfl
  | @accepts i id record k appender hpc hvalid =>
    have hknown := h.at hpc
    exact h.goTo ⟨hknown, hvalid, List.suffix_refl _⟩ (by rw [hpc]; rfl)
  | @skips i id record k appender hpc hvalid =>
    have hknown := h.at hpc
    exact h.goTo hknown (by rw [hpc]; rfl)
  | @ends i id record k appender hpc =>
    have hknown := h.at hpc
    have hlocks : Locks loggers (s.goTo i (.unLock id record k appender)) :=
      h.goTo hknown.1 (by rw [hpc]; rfl)
    exact hlocks.frame rfl rfl
  | @item i id record k appender item items text hpc htext =>
    have hknown := h.at hpc
    have hlocks : Locks loggers (s.goTo i (.format id record k appender items)) :=
      h.goTo ⟨hknown.1, hknown.2.1, (List.suffix_cons item items).trans hknown.2.2⟩ (by rw [hpc]; rfl)
    exact hlocks.frame rfl rfl
  | noTime hpc hfault => exact h.frame rfl rfl
  | unLocks hpc => exact h.unLock (by rw [hpc]; rfl) trivial rfl

/-! ### The text of a stream -/

/-- No other appender writes to the stream. -/
def Own (loggers : UInt16 → LoggerBase) (id : UInt16) (k : ℕ) (appender : LogAppender) : Prop :=
  ∀ id' k' appender', (loggers id').mAppenders[k']? = some (some appender') →
    appender'.stream id' k' = appender.stream id k → id' = id ∧ k' = k

/-- Whole lines, behind them what the thread inside Format has written of its line. -/
def Lines (lib : TimeLib Tm) (id : UInt16) (k : ℕ) (appender : LogAppender) (s : Logging ι) : Prop :=
  ∃ lines part,
    List.Forall₂ (fun entry line => formatRecord lib entry.2 (appender.mFormatter.getD []) = .ok line)
      (s.written id k) lines ∧
    s.outputs (appender.stream id k) = lines.flatten ++ part ∧
    (∀ i record rest, s.threads i = .format id record k appender rest →
      ∃ done, appender.mFormatter.getD [] = done ++ rest ∧ formatItems lib record done = .ok part) ∧
    ((∀ i record rest, s.threads i ≠ .format id record k appender rest) → part = [])

variable {id : UInt16} {k : ℕ} {appender : LogAppender}

omit [DecidableEq ι] in
theorem lines_start : Lines lib id k appender ({} : Logging ι) := by
  refine ⟨[], [], .nil, rfl, ?_, fun _ => rfl⟩
  intro i record rest h
  cases h

omit [DecidableEq ι] in
theorem Lines.frame (h : Lines lib id k appender s) (hwritten : s'.written id k = s.written id k)
    (houtputs : s'.outputs (appender.stream id k) = s.outputs (appender.stream id k))
    (hthreads : ∀ i record rest, s'.threads i = .format id record k appender rest ↔
      s.threads i = .format id record k appender rest) : Lines lib id k appender s' := by
  obtain ⟨lines, part, hlines, htext, hinside, houtside⟩ := h
  refine ⟨lines, part, hwritten ▸ hlines, houtputs ▸ htext, ?_, ?_⟩
  · intro i record rest hi
    exact hinside i record rest ((hthreads i record rest).mp hi)
  · intro hnone
    exact houtside fun i record rest hi => hnone i record rest ((hthreads i record rest).mpr hi)

/-- A thread moves on outside Format of this appender. -/
theorem Lines.goTo (h : Lines lib id k appender s) {i : ι} {pc : LogPc}
    (hthreads : s'.threads = (s.goTo i pc).threads) (hwritten : s'.written id k = s.written id k)
    (houtputs : s'.outputs (appender.stream id k) = s.outputs (appender.stream id k))
    (hold : ∀ record rest, s.threads i ≠ .format id record k appender rest)
    (hpc : ∀ record rest, pc ≠ .format id record k appender rest) : Lines lib id k appender s' := by
  refine h.frame hwritten houtputs fun j record rest => ?_
  rw [hthreads, goTo_threads]
  split
  · next he =>
    subst he
    exact ⟨fun hj => absurd hj (hpc record rest), fun hj => absurd hj (hold record rest)⟩
  · rfl

/-- The first thread inside Format begins a new line. -/
theorem Lines.accepts (h : Lines lib id k appender s) {i : ι} {record : LogRecord}
    (hnone : ∀ j record rest, s.threads j ≠ .format id record k appender rest) :
    Lines lib id k appender (s.goTo i (.format id record k appender (appender.mFormatter.getD []))) := by
  obtain ⟨lines, part, hlines, htext, -, houtside⟩ := h
  have hpart := houtside hnone
  refine ⟨lines, part, hlines, htext, ?_, fun _ => hpart⟩
  intro j record' rest hj
  rw [goTo_threads] at hj
  split at hj
  · cases hj
    exact ⟨[], rfl, hpart ▸ rfl⟩
  · exact absurd hj (hnone j record' rest)

theorem Lines.item (h : Lines lib id k appender s) {i : ι} {record : LogRecord} {item : FormatterItem}
    {items : List FormatterItem} {text : List Char}
    (hpc : s.threads i = .format id record k appender (item :: items))
    (hothers : ∀ j record rest, s.threads j = .format id record k appender rest → j = i)
    (htext : item.format lib record = .ok text) :
    Lines lib id k appender
      ((s.write id k appender text).goTo i (.format id record k appender items)) := by
  obtain ⟨lines, part, hlines, houtput, hinside, -⟩ := h
  obtain ⟨done, hitems, hdone⟩ := hinside i record _ hpc
  refine ⟨lines, part ++ text, hlines, ?_, ?_, ?_⟩
  · simp only [Logging.goTo, write, if_true, houtput, List.append_assoc]
  · intro j record' rest hj
    have he : j = i := by
      by_contra hne
      rw [goTo_threads, if_neg hne] at hj
      exact hne (hothers j record' rest hj)
    rw [he, goTo_threads, if_pos rfl] at hj
    cases hj
    exact ⟨done ++ [item], by rw [hitems, List.append_assoc]; rfl, formatItems_snoc hdone htext⟩
  · intro hnone
    exact absurd (by rw [goTo_threads, if_pos rfl]) (hnone i record items)

theorem Lines.ends (h : Lines lib id k appender s) {i : ι} {record : LogRecord}
    (hpc : s.threads i = .format id record k appender [])
    (hothers : ∀ j record rest, s.threads j = .format id record k appender rest → j = i) :
    Lines lib id k appender
      (((s.write id k appender ['\n']).record i id k record).goTo i
        (.unLock id record k appender)) := by
  obtain ⟨lines, part, hlines, houtput, hinside, -⟩ := h
  obtain ⟨done, hitems, hdone⟩ := hinside i record _ hpc
  rw [List.append_nil] at hitems
  have hline : formatRecord lib record (appender.mFormatter.getD []) = .ok (part ++ ['\n']) := by
    rw [hitems]
    exact formatRecord_of_items hdone
  refine ⟨lines ++ [part ++ ['\n']], [], ?_, ?_, ?_, fun _ => rfl⟩
  · simp only [Logging.goTo, Logging.record, write, and_self, if_true]
    exact List.rel_append hlines (.cons hline .nil)
  · simp only [Logging.goTo, Logging.record, write, if_true, houtput, List.flatten_append,
      List.flatten_cons, List.flatten_nil, List.append_nil, List.append_assoc]
  · intro j record' rest hj
    rw [goTo_threads] at hj
    split at hj
    · cases hj
    · next hne => exact absurd (hothers j record' rest hj) hne

theorem same_appender {appender' : LogAppender} (h' : (loggers id).mAppenders[k]? = some (some appender'))
    (h : (loggers id).mAppenders[k]? = some (some appender)) : appender' = appender := by
  rw [h] at h'
  exact (Option.some.inj (Option.some.inj h')).symm

theorem Lines.moves (hlocks : Locks loggers s) (hown : Own loggers id k appender)
    (hk : (loggers id).mAppenders[k]? = some (some appender)) (h : Lines lib id k appender s)
    (hmoves : Moves loggers lib s s') : Lines lib id k appender s' := by
  have hothers : ∀ i j record rest, (s.threads i).holds = some (id, k) →
      s.threads j = .format id record k appender rest → j = i := by
    intro i j record rest hi hj
    exact hlocks.unique j i id k (by rw [hj]; rfl) hi
  have hstream : ∀ id' k' appender', (loggers id').mAppenders[k']? = some (some appender') →
      ¬(id' = id ∧ k' = k) → appender.stream id k ≠ appender'.stream id' k' := by
    intro id' k' appender' hk' hne he
    exact hne (hown id' k' appender' hk' he.symm)
  cases hmoves with
  | log id' record hidle =>
    unfold doLog
    split
    · exact h.goTo rfl rfl rfl (by simp [hidle]) (by simp)
    · exact h.frame rfl rfl fun _ _ _ => Iff.rfl
  | returns hpc hnone => exact h.goTo rfl rfl rfl (by simp [hpc]) (by simp)
  | null hpc hnull => exact h.frame rfl rfl fun _ _ _ => Iff.rfl
  | spins => exact h
  | locks hpc hk' hfree => exact h.goTo rfl rfl rfl (by simp [hpc]) (by simp)
  | @accepts i id' record k' appender' hpc hvalid =>
    by_cases hsame : id' = id ∧ k' = k
    · obtain ⟨rfl, rfl⟩ := hsame
      have hknown := hlocks.at hpc
      obtain rfl := same_appender hknown hk
      refine h.accepts fun j record' rest hj => ?_
      have he := hothers i j record' rest (by rw [hpc]; rfl) hj
      rw [he, hpc] at hj
      cases hj
    · refine h.goTo rfl rfl rfl (by simp [hpc]) ?_
      rintro record' rest he
      cases he
      exact hsame ⟨rfl, rfl⟩
  | skips hpc hvalid => exact h.goTo rfl rfl rfl (by simp [hpc]) (by simp)
  | @ends i id' record k' appender' hpc =>
    have hknown := hlocks.at hpc
    by_cases hsame : id' = id ∧ k' = k
    · obtain ⟨rfl, rfl⟩ := hsame
      obtain rfl := same_appender hknown.1 hk
      exact h.ends hpc fun j record' rest hj => hothers i j record' rest (by rw [hpc]; rfl) hj
    · refine h.goTo rfl ?_ ?_ ?_ (by simp)
      · exact if_neg fun he => hsame ⟨he.1.symm, he.2.symm⟩
      · exact if_neg (hstream id' k' appender' hknown.1 hsame)
      · rintro record' rest he
        rw [hpc] at he
        cases he
        exact hsame ⟨rfl, rfl⟩
  | @item i id' record k' appender' item items text hpc htext =>
    have hknown := hlocks.at hpc
    by_cases hsame : id' = id ∧ k' = k
    · obtain ⟨rfl, rfl⟩ := hsame
      obtain rfl := same_appender hknown.1 hk
      exact h.item hpc (fun j record' rest hj => hothers i j record' rest (by rw [hpc]; rfl) hj) htext
    · refine h.goTo rfl rfl ?_ ?_ ?_
      · exact if_neg (hstream id' k' appender' hknown.1 hsame)
      · rintro record' rest he
        rw [hpc] at he
        cases he
        exact hsame ⟨rfl, rfl⟩
      · rintro record' rest he
        cases he
        exact hsame ⟨rfl, rfl⟩
  | noTime hpc hfault => exact h.frame rfl rfl fun _ _ _ => Iff.rfl
  | unLocks hpc => exact h.goTo rfl rfl rfl (by simp [hpc]) (by simp)

/-! ### The order of the records -/

/-- The records of the calls that pass both level checks. -/
def due (loggers : UInt16 → LoggerBase) (id : UInt16) (appender : LogAppender)
    (calls : List (UInt16 × LogRecord)) : List LogRecord :=
  (calls.filter fun call =>
    call.1 = id ∧ (loggers id).levelCheck call.2.mLevel = true ∧ appender.recordValid call.2 = true).map Prod.snd

def writtenBy (s : Logging ι) (i : ι) (id : UInt16) (k : ℕ) : List LogRecord :=
  ((s.written id k).filter fun entry => entry.1 = i).map Prod.snd

def Order (loggers : UInt16 → LoggerBase) (id : UInt16) (k : ℕ) (appender : LogAppender)
    (s : Logging ι) : Prop :=
  ∀ i, s.writtenBy i id k ++ (s.threads i).pending id k appender = due loggers id appender (s.logged i)

theorem Order.goTo (h : Order loggers id k appender s) {i : ι} {pc : LogPc}
    (hpc : pc.pending id k appender = (s.threads i).pending id k appender) :
    Order loggers id k appender (s.goTo i pc) := by
  intro j
  rw [goTo_threads]
  split
  · next he =>
    rw [he, hpc]
    exact h i
  · exact h j

theorem Order.doLog (h : Order loggers id k appender s) {i : ι} (id' : UInt16) (record : LogRecord)
    (hidle : s.threads i = .idle) : Order loggers id k appender (s.doLog loggers i id' record) := by
  have hi := h i
  simp only [hidle, LogPc.pending, List.append_nil] at hi
  intro j
  have hj := h j
  by_cases he : j = i
  · subst he
    by_cases hlevel : (loggers id').levelCheck record.mLevel = true
    · simp only [Logging.doLog, hlevel, if_true, goTo_threads, LogPc.pending, Nat.zero_le, true_and]
      simp only [writtenBy, Logging.goTo] at hi ⊢
      grind [due]
    · simp only [Logging.doLog, hlevel, Bool.false_eq_true, if_false, hidle, LogPc.pending, List.append_nil]
      simp only [writtenBy] at hi ⊢
      grind [due]
  · unfold Logging.doLog
    split
    · simpa [Logging.goTo, writtenBy, he] using hj
    · simpa [writtenBy, he] using hj

theorem Order.ends (h : Order loggers id k appender s) {i : ι} {record : LogRecord}
    (hpc : s.threads i = .format id record k appender []) (hvalid : appender.recordValid record = true)
    (text : List Char) : Order loggers id k appender
      (((s.write id k appender text).record i id k record).goTo i (.unLock id record k appender)) := by
  have hi := h i
  simp only [hpc, LogPc.pending, le_refl, hvalid, and_self, if_true] at hi
  intro j
  have hj := h j
  by_cases he : j = i
  · subst he
    simpa [writtenBy, Logging.goTo, Logging.record, write, LogPc.pending] using hi
  · have hne : i ≠ j := fun heq => he heq.symm
    simpa [writtenBy, Logging.goTo, Logging.record, write, he, hne] using hj

theorem Order.moves (hlocks : Locks loggers s) (hk : (loggers id).mAppenders[k]? = some (some appender))
    (h : Order loggers id k appender s) (hmoves : Moves loggers lib s s') :
    Order loggers id k appender s' := by
  cases hmoves with
  | log id' record hidle => exact h.doLog id' record hidle
  | @returns i id' record j hpc hnone =>
    refine h.goTo ?_
    rw [hpc, LogPc.pending, LogPc.pending, if_neg ?_]
    rintro ⟨rfl, hle, -⟩
    have hlt := (List.getElem?_eq_some_iff.mp hk).1
    exact absurd (List.getElem?_eq_none_iff.mp hnone) (by omega)
  | null hpc hnull => exact h
  | spins => exact h
  | locks hpc hk' hfree =>
    exact Order.goTo (s := s.lock _ _ _ _) h (by rw [lock_threads, hpc]; rfl)
  | accepts hpc hvalid => exact h.goTo (by rw [hpc]; rfl)
  | @skips i id' record j appender' hpc hvalid =>
    have hknown := hlocks.at hpc
    refine h.goTo ?_
    rw [hpc, LogPc.pending, LogPc.pending]
    refine if_congr ?_ rfl rfl
    constructor
    · rintro ⟨rfl, hlt, hok⟩
      exact ⟨rfl, hlt.le, hok⟩
    · rintro ⟨rfl, hle, hok⟩
      refine ⟨rfl, lt_of_le_of_ne hle ?_, hok⟩
      rintro rfl
      rw [same_appender hknown hk, hok] at hvalid
      cases hvalid
  | @ends i id' record j appender' hpc =>
    have hknown := hlocks.at hpc
    by_cases hsame : id' = id ∧ j = k
    · obtain ⟨rfl, rfl⟩ := hsame
      obtain rfl := same_appender hknown.1 hk
      exact h.ends hpc hknown.2.1 _
    · refine Order.goTo ?_ ?_
      · intro i'
        have hwritten : ((s.write id' j appender' ['\n']).record i id' j record).written id k =
            s.written id k := if_neg fun he => hsame ⟨he.1.symm, he.2.symm⟩
        rw [writtenBy, hwritten]
        exact h i'
      · change _ = (s.threads i).pending id k appender
        rw [hpc, LogPc.pending, LogPc.pending]
        grind
  | item hpc htext =>
    refine Order.goTo (s := s.write _ _ _ _) h ?_
    change _ = (s.threads _).pending id k appender
    rw [hpc]
    rfl
  | noTime hpc hfault => exact h
  | unLocks hpc =>
    refine Order.goTo (s := s.setMutex _ _ false) h ?_
    rw [setMutex_threads, hpc]
    rfl

/-! ### The order of the locks -/

/-- The records that the appender takes, in the order in which it was locked with them. -/
def accepted (s : Logging ι) (id : UInt16) (k : ℕ) (appender : LogAppender) : List (ι × LogRecord) :=
  (s.locked id k).filter fun entry => appender.recordValid entry.2

/-- Their lines are written in that order; the last one may still be open. -/
structure LockOrder (id : UInt16) (k : ℕ) (appender : LogAppender) (s : Logging ι) : Prop where
  opened : ∀ i record, (s.threads i).opened id k appender = some record →
    s.accepted id k appender = s.written id k ++ [(i, record)]
  closed : (∀ i, (s.threads i).opened id k appender = none) → s.accepted id k appender = s.written id k

theorem LockOrder.goTo (h : LockOrder id k appender s) {i : ι} {pc : LogPc}
    (hthreads : s'.threads = (s.goTo i pc).threads) (hlocked : s'.locked id k = s.locked id k)
    (hwritten : s'.written id k = s.written id k)
    (hpc : pc.opened id k appender = (s.threads i).opened id k appender) :
    LockOrder id k appender s' := by
  have hsame : ∀ j, (s'.threads j).opened id k appender = (s.threads j).opened id k appender := by
    intro j
    rw [hthreads, goTo_threads]
    split
    · next he => rw [he, hpc]
    · rfl
  have haccepted : s'.accepted id k appender = s.accepted id k appender := by
    rw [accepted, accepted, hlocked]
  refine ⟨fun j record hj => ?_, fun hnone => ?_⟩
  · rw [haccepted, hwritten]
    exact h.opened j record ((hsame j).symm.trans hj)
  · rw [haccepted, hwritten]
    exact h.closed fun j => (hsame j).symm.trans (hnone j)

/-- The appender was free, so nothing was open. -/
theorem LockOrder.lock (hlocks : Locks loggers s) (h : LockOrder id k appender s) {i : ι}
    {record : LogRecord} (hfree : s.mMutex id k = false) :
    LockOrder id k appender ((s.lock i id k record).goTo i (.valid id record k appender)) := by
  have hnone : ∀ j, (s.threads j).opened id k appender = none := by
    intro j
    cases hj : (s.threads j).opened id k appender with
    | none => rfl
    | some record' =>
      have hlocked := hlocks.locked j id k (LogPc.holds_of_opened hj)
      rw [hfree] at hlocked
      cases hlocked
  have hall := h.closed hnone
  have hother : ∀ j, j ≠ i → (((s.lock i id k record).goTo i (.valid id record k appender)).threads j).opened
      id k appender = none := by
    intro j hj
    rw [goTo_threads, if_neg hj]
    exact hnone j
  have haccepted : ((s.lock i id k record).goTo i (.valid id record k appender)).accepted id k appender =
      s.written id k ++ if appender.recordValid record = true then [(i, record)] else [] := by
    have hlocked : ((s.lock i id k record).goTo i (.valid id record k appender)).locked id k =
        s.locked id k ++ [(i, record)] := if_pos ⟨rfl, rfl⟩
    rw [← hall, accepted, hlocked, List.filter_append]
    cases hvalid : appender.recordValid record <;> simp [accepted, hvalid]
  refine ⟨fun j record' hj => ?_, fun hclosed => ?_⟩
  · by_cases hji : j = i
    · rw [hji, goTo_threads, if_pos rfl, LogPc.opened] at hj
      split at hj
      · next hvalid =>
        cases hj
        rw [haccepted, if_pos hvalid.2.2, hji]
        rfl
      · cases hj
    · rw [hother j hji] at hj
      cases hj
  · have hi := hclosed i
    rw [goTo_threads, if_pos rfl, LogPc.opened] at hi
    split at hi
    · cases hi
    · next hvalid =>
      rw [haccepted, if_neg fun hv => hvalid ⟨rfl, rfl, hv⟩, List.append_nil]
      rfl

/-- The end of the line. -/
theorem LockOrder.ends (hlocks : Locks loggers s) (h : LockOrder id k appender s) {i : ι}
    {record : LogRecord} (hpc : s.threads i = .format id record k appender []) (text : List Char) :
    LockOrder id k appender
      (((s.write id k appender text).record i id k record).goTo i (.unLock id record k appender)) := by
  have hopened : (s.threads i).opened id k appender = some record := by
    rw [hpc]
    exact if_pos ⟨rfl, rfl⟩
  have hnone : ∀ j, j ≠ i → (s.threads j).opened id k appender = none := by
    intro j hj
    cases hopen : (s.threads j).opened id k appender with
    | none => rfl
    | some record' => exact absurd (hlocks.unique j i id k (LogPc.holds_of_opened hopen)
        (LogPc.holds_of_opened hopened)) hj
  have hwritten : (((s.write id k appender text).record i id k record).goTo i
      (.unLock id record k appender)).written id k = s.written id k ++ [(i, record)] := if_pos ⟨rfl, rfl⟩
  refine ⟨fun j record' hj => ?_, fun _ => ?_⟩
  · rw [goTo_threads] at hj
    split at hj
    · cases hj
    · next hne =>
      have hj' : (s.threads j).opened id k appender = some record' := hj
      rw [hnone j hne] at hj'
      cases hj'
  · rw [hwritten]
    exact h.opened i record hopened

theorem LockOrder.moves (hlocks : Locks loggers s) (hk : (loggers id).mAppenders[k]? = some (some appender))
    (h : LockOrder id k appender s) (hmoves : Moves loggers lib s s') : LockOrder id k appender s' := by
  cases hmoves with
  | log id' record hidle =>
    unfold doLog
    split
    · exact h.goTo rfl rfl rfl (by rw [hidle]; rfl)
    · exact ⟨h.opened, h.closed⟩
  | returns hpc hnone => exact h.goTo rfl rfl rfl (by rw [hpc]; rfl)
  | null hpc hnull => exact ⟨h.opened, h.closed⟩
  | spins => exact h
  | @locks i id' record k' appender' hpc hk' hfree =>
    by_cases hsame : id' = id ∧ k' = k
    · obtain ⟨rfl, rfl⟩ := hsame
      obtain rfl := same_appender hk' hk
      exact h.lock hlocks hfree
    · refine h.goTo rfl (if_neg fun he => hsame ⟨he.1.symm, he.2.symm⟩) rfl ?_
      rw [hpc]
      exact if_neg fun he => hsame ⟨he.1, he.2.1⟩
  | @accepts i id' record k' appender' hpc hvalid =>
    have hknown := hlocks.at hpc
    refine h.goTo rfl rfl rfl ?_
    rw [hpc, LogPc.opened, LogPc.opened]
    refine if_congr ⟨fun he => ⟨he.1, he.2, ?_⟩, fun he => ⟨he.1, he.2.1⟩⟩ rfl rfl
    obtain ⟨rfl, rfl⟩ := he
    rw [← same_appender hknown hk]
    exact hvalid
  | @skips i id' record k' appender' hpc hvalid =>
    have hknown := hlocks.at hpc
    refine h.goTo rfl rfl rfl ?_
    rw [hpc]
    refine (if_neg ?_).symm
    rintro ⟨rfl, rfl, hok⟩
    rw [← same_appender hknown hk, hvalid] at hok
    cases hok
  | @ends i id' record k' appender' hpc =>
    have hknown := hlocks.at hpc
    by_cases hsame : id' = id ∧ k' = k
    · obtain ⟨rfl, rfl⟩ := hsame
      obtain rfl := same_appender hknown.1 hk
      exact h.ends hlocks hpc _
    · refine h.goTo rfl rfl (if_neg fun he => hsame ⟨he.1.symm, he.2.symm⟩) ?_
      rw [hpc]
      exact (if_neg hsame).symm
  | item hpc htext => exact h.goTo rfl rfl rfl (by rw [hpc]; rfl)
  | noTime hpc hfault => exact ⟨h.opened, h.closed⟩
  | unLocks hpc => exact h.goTo rfl rfl rfl (by rw [hpc]; rfl)

/-! ### Runs -/

theorem lines_run {acts : List (LogAct ι)} (hk : (loggers id).mAppenders[k]? = some (some appender))
    (hown : Own loggers id k appender) (h : interleave (step loggers lib) {} acts = some s) :
    Lines lib id k appender s := by
  have hboth : Locks loggers s ∧ Lines lib id k appender s :=
    interleave_invariant (I := fun t => Locks loggers t ∧ Lines lib id k appender t)
      (fun t a t' hi hstep =>
        ⟨hi.1.moves (step_moves hstep), Lines.moves hi.1 hown hk hi.2 (step_moves hstep)⟩)
      acts {} s ⟨locks_start, lines_start⟩ h
  exact hboth.2

theorem order_run {acts : List (LogAct ι)} (hk : (loggers id).mAppenders[k]? = some (some appender))
    (h : interleave (step loggers lib) {} acts = some s) : Order loggers id k appender s := by
  have hboth : Locks loggers s ∧ Order loggers id k appender s :=
    interleave_invariant (I := fun t => Locks loggers t ∧ Order loggers id k appender t)
      (fun t a t' hi hstep =>
        ⟨hi.1.moves (step_moves hstep), Order.moves hi.1 hk hi.2 (step_moves hstep)⟩)
      acts {} s ⟨locks_start, fun i => rfl⟩ h
  exact hboth.2

theorem lockOrder_run {acts : List (LogAct ι)} (hk : (loggers id).mAppenders[k]? = some (some appender))
    (h : interleave (step loggers lib) {} acts = some s) : LockOrder id k appender s := by
  have hboth : Locks loggers s ∧ LockOrder id k appender s :=
    interleave_invariant (I := fun t => Locks loggers t ∧ LockOrder id k appender t)
      (fun t a t' hi hstep =>
        ⟨hi.1.moves (step_moves hstep), LockOrder.moves hi.1 hk hi.2 (step_moves hstep)⟩)
      acts {} s ⟨locks_start, ⟨fun i record hi => (by cases hi), fun _ => rfl⟩⟩ h
  exact hboth.2

/-- In every interleaving, the stream of an appender holds whole lines, behind them the beginning
of at most one. The lines are those of the records that the appender takes, in the order in which it
was locked with them (the last may still be open), and of each thread in the order of its calls; behind
a call that has returned no line is missing. -/
theorem log_lines {acts : List (LogAct ι)} (hk : (loggers id).mAppenders[k]? = some (some appender))
    (hown : Own loggers id k appender) (h : interleave (step loggers lib) {} acts = some s) :
    (∃ lines part,
      List.Forall₂ (fun entry line => formatRecord lib entry.2 (appender.mFormatter.getD []) = .ok line)
        (s.written id k) lines ∧
      s.outputs (appender.stream id k) = lines.flatten ++ part ∧
      (part ≠ [] → ∃ i record done rest, s.threads i = .format id record k appender rest ∧
        appender.mFormatter.getD [] = done ++ rest ∧ formatItems lib record done = .ok part)) ∧
    (s.accepted id k appender = s.written id k ∨ ∃ i record, (s.threads i).holds = some (id, k) ∧
      s.accepted id k appender = s.written id k ++ [(i, record)]) ∧
    ∀ i, s.writtenBy i id k <+: due loggers id appender (s.logged i) ∧
      (s.threads i = .idle → s.writtenBy i id k = due loggers id appender (s.logged i)) := by
  obtain ⟨lines, part, hlines, houtput, hinside, houtside⟩ := lines_run hk hown h
  have horder := order_run hk h
  have hlockOrder := lockOrder_run hk h
  refine ⟨⟨lines, part, hlines, houtput, ?_⟩, ?_, ?_⟩
  · intro hpart
    by_contra hnone
    refine hpart (houtside fun i record rest hi => hnone ?_)
    obtain ⟨done, hitems, hdone⟩ := hinside i record rest hi
    exact ⟨i, record, done, rest, hi, hitems, hdone⟩
  · by_cases hnone : ∀ i, (s.threads i).opened id k appender = none
    · exact Or.inl (hlockOrder.closed hnone)
    · obtain ⟨i, hi⟩ := not_forall.mp hnone
      obtain ⟨record, hopened⟩ := Option.ne_none_iff_exists'.mp hi
      exact Or.inr ⟨i, record, LogPc.holds_of_opened hopened, hlockOrder.opened i record hopened⟩
  · intro i
    refine ⟨⟨_, horder i⟩, ?_⟩
    intro hidle
    have hi := horder i
    rw [hidle, LogPc.pending, List.append_nil] at hi
    exact hi

/-- The second thread waits for the first one, and has not ended its line. -/
theorem log_lines_two : ∃ (lib : TimeLib Unit) (loggers : UInt16 → LoggerBase) (appender : LogAppender)
    (acts : List (LogAct ℕ)) (s : Logging ℕ),
    (loggers 0).mAppenders = [some appender] ∧ interleave (step loggers lib) {} acts = some s ∧
    (s.outputs (appender.stream 0 0), (s.locked 0 0).map Prod.fst, (s.written 0 0).map Prod.fst) =
      (['a', 'b', '\n', 'c'], [0, 1], [0]) ∧
    (∃ lines part,
      List.Forall₂ (fun entry line => formatRecord lib entry.2 (appender.mFormatter.getD []) = .ok line)
        (s.written 0 0) lines ∧
      s.outputs (appender.stream 0 0) = lines.flatten ++ part ∧
      (part ≠ [] → ∃ i record done rest, s.threads i = .format 0 record 0 appender rest ∧
        appender.mFormatter.getD [] = done ++ rest ∧ formatItems lib record done = .ok part)) ∧
    (s.accepted 0 0 appender = s.written 0 0 ∨ ∃ i record, (s.threads i).holds = some (0, 0) ∧
      s.accepted 0 0 appender = s.written 0 0 ++ [(i, record)]) ∧
    ∀ i, s.writtenBy i 0 0 <+: due loggers 0 appender (s.logged i) ∧
      (s.threads i = .idle → s.writtenBy i 0 0 = due loggers 0 appender (s.logged i)) := by
  have hrun : (interleave
      (step (fun _ => LoggerBase.addLogAppenders {} [some ⟨.file true, some [.message], .debug⟩])
        (⟨fun _ => (), fun _ _ _ => none⟩ : TimeLib Unit)) {}
      [.log 0 0 ⟨[], 0, [], 1, .error, 7, ['a', 'b']⟩, .log 1 0 ⟨[], 0, [], 2, .info, 8, ['c']⟩,
        .step 0, .step 1, .step 0, .step 0, .step 0, .step 1, .step 0, .step 1, .step 1,
        .step 1]).map (fun s : Logging ℕ => (s.outputs (.ofStream 0 0), (s.locked 0 0).map Prod.fst,
          (s.written 0 0).map Prod.fst)) = some (['a', 'b', '\n', 'c'], [0, 1], [0]) := by
    decide
  obtain ⟨s, hs, houtput⟩ := Option.map_eq_some_iff.mp hrun
  refine ⟨_, _, ⟨.file true, some [.message], .debug⟩, _, s, rfl, hs, houtput, log_lines rfl ?_ hs⟩
  intro id' k' appender' hk' hstream
  cases k' with
  | zero =>
    cases hk'
    cases hstream
    exact ⟨rfl, rfl⟩
  | succ k' => cases hk'

end Steps

end Logging

end DeftRpc.Log
