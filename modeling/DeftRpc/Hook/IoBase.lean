import Mathlib.Tactic

/-!
# IOBase (Hook.cpp:147-171)

A script lists what the calls of the underlying system function return, one
entry a call. A call that waits for an entry that never comes does not return.
-/

namespace DeftRpc.Hook

inductive Errno where
  | eintr
  | eagain
  | other (code : ℕ)
  deriving DecidableEq

/-- `-1` with an errno, or the non-negative result. -/
abbrev SysResult := Except Errno ℕ

inductive KEvent where
  | read
  | write
  | error
  deriving DecidableEq

inductive IoEvent where
  | called (result : SysResult)
  | registered (event : KEvent)
  | yielded
  | cancelled

structure IoRun where
  result : SysResult
  events : List IoEvent
  rest : List SysResult

/-- `while ((n = originFunc(fd, args...)) == -1 && errno == EINTR) {}` -/
def retryInterrupted : List SysResult → Option IoRun
  | [] => none
  | .error .eintr :: script => do
    let r ← retryInterrupted script
    pure { r with events := .called (.error .eintr) :: r.events }
  | result :: script => some ⟨result, [.called result], script⟩

/-- `do { Yield(); n = originFunc(fd, args...); } while (n == -1 && (EINTR || EAGAIN))` -/
def retryBlocked : List SysResult → Option IoRun
  | [] => none
  | .error .eintr :: script => do
    let r ← retryBlocked script
    pure { r with events := .yielded :: .called (.error .eintr) :: r.events }
  | .error .eagain :: script => do
    let r ← retryBlocked script
    pure { r with events := .yielded :: .called (.error .eagain) :: r.events }
  | result :: script => some ⟨result, [.yielded, .called result], script⟩

/-- `hooked` is `enable_hook && IsSocket(fd)`. -/
def ioBase (hooked : Bool) (event : KEvent) (script : List SysResult) : Option IoRun :=
  if !hooked then
    match script with
    | [] => none
    | result :: rest => some ⟨result, [.called result], rest⟩
  else do
    let first ← retryInterrupted script
    match first.result with
    | .error .eagain => do
      let second ← retryBlocked first.rest
      let cancel := match second.result with
        | .ok _ => [.cancelled]
        | .error _ => []
      let registered := if event = .read then KEvent.read else KEvent.write
      pure ⟨second.result, first.events ++ [.registered registered] ++ second.events ++ cancel,
        second.rest⟩
    | _ => pure first

/-! ### What a call consumes -/

def Consumes (script : List SysResult) (r : IoRun) : Prop :=
  ∃ refused : List Errno, script = refused.map Except.error ++ r.result :: r.rest

theorem consumes_head (result : SysResult) (script : List SysResult) (events : List IoEvent) :
    Consumes (result :: script) ⟨result, events, script⟩ := ⟨[], rfl⟩

theorem Consumes.cons {script : List SysResult} {r : IoRun} (h : Consumes script r) (e : Errno)
    (events : List IoEvent) : Consumes (.error e :: script) { r with events := events } := by
  obtain ⟨refused, rfl⟩ := h
  exact ⟨e :: refused, rfl⟩

theorem Consumes.trans {script : List SysResult} {first second : IoRun} {e : Errno}
    (h1 : Consumes script first) (he : first.result = .error e) (h2 : Consumes first.rest second)
    (events : List IoEvent) : Consumes script { second with events := events } := by
  obtain ⟨refused1, rfl⟩ := h1
  obtain ⟨refused2, hrest⟩ := h2
  refine ⟨refused1 ++ e :: refused2, ?_⟩
  rw [he, hrest, List.map_append, List.map_cons, List.append_assoc, List.cons_append]

theorem Consumes.rest_lt {script : List SysResult} {r : IoRun} (h : Consumes script r) :
    r.rest.length < script.length := by
  obtain ⟨refused, rfl⟩ := h
  rw [List.length_append, List.length_cons]
  omega

theorem retryInterrupted_cons {result : SysResult} {script : List SysResult} {r : IoRun}
    (h : retryInterrupted (result :: script) = some r) :
    (result = .error .eintr ∧ ∃ r', retryInterrupted script = some r' ∧
        r = { r' with events := .called result :: r'.events }) ∨
      r = ⟨result, [.called result], script⟩ := by
  match result with
  | .ok n => exact Or.inr (Option.some.inj h).symm
  | .error .eagain => exact Or.inr (Option.some.inj h).symm
  | .error (.other code) => exact Or.inr (Option.some.inj h).symm
  | .error .eintr =>
    obtain ⟨r', hr', he⟩ := Option.bind_eq_some_iff.mp h
    exact Or.inl ⟨rfl, r', hr', (Option.some.inj he).symm⟩

theorem retryBlocked_cons {result : SysResult} {script : List SysResult} {r : IoRun}
    (h : retryBlocked (result :: script) = some r) :
    (∃ e, result = .error e ∧ ∃ r', retryBlocked script = some r' ∧
        r = { r' with events := .yielded :: .called result :: r'.events }) ∨
      r = ⟨result, [.yielded, .called result], script⟩ := by
  match result with
  | .ok n => exact Or.inr (Option.some.inj h).symm
  | .error (.other code) => exact Or.inr (Option.some.inj h).symm
  | .error .eintr =>
    obtain ⟨r', hr', he⟩ := Option.bind_eq_some_iff.mp h
    exact Or.inl ⟨.eintr, rfl, r', hr', (Option.some.inj he).symm⟩
  | .error .eagain =>
    obtain ⟨r', hr', he⟩ := Option.bind_eq_some_iff.mp h
    exact Or.inl ⟨.eagain, rfl, r', hr', (Option.some.inj he).symm⟩

theorem retryInterrupted_consumes {script : List SysResult} {r : IoRun}
    (h : retryInterrupted script = some r) : Consumes script r := by
  induction script generalizing r with
  | nil => cases h
  | cons result script ih =>
    obtain ⟨rfl, r', hr', rfl⟩ | rfl := retryInterrupted_cons h
    · exact (ih hr').cons _ _
    · exact consumes_head _ _ _

theorem retryBlocked_consumes {script : List SysResult} {r : IoRun}
    (h : retryBlocked script = some r) : Consumes script r := by
  induction script generalizing r with
  | nil => cases h
  | cons result script ih =>
    obtain ⟨e, rfl, r', hr', rfl⟩ | rfl := retryBlocked_cons h
    · exact (ih hr').cons _ _
    · exact consumes_head _ _ _

theorem ioBase_consumes {hooked : Bool} {event : KEvent} {script : List SysResult} {r : IoRun}
    (h : ioBase hooked event script = some r) : Consumes script r := by
  cases hooked with
  | false =>
    cases script with
    | nil => cases h
    | cons result script =>
      cases h
      exact consumes_head _ _ _
  | true =>
    obtain ⟨first, hfirst, h2⟩ := Option.bind_eq_some_iff.mp h
    have hc := retryInterrupted_consumes hfirst
    split at h2
    · next he =>
      obtain ⟨second, hsecond, h3⟩ := Option.bind_eq_some_iff.mp h2
      cases h3
      exact hc.trans he (retryBlocked_consumes hsecond) _
    · cases h2
      exact hc

/-! ### Scripts with enough answers -/

/-- The entries that are results and not refusals. -/
@[simp] def answers : List SysResult → ℕ
  | [] => 0
  | .ok _ :: script => answers script + 1
  | .error _ :: script => answers script

theorem answers_refused (refused : List Errno) (script : List SysResult) :
    answers (refused.map Except.error ++ script) = answers script := by
  induction refused with
  | nil => rfl
  | cons e refused ih => rw [List.map_cons, List.cons_append, answers, ih]

theorem Consumes.answers_le {script : List SysResult} {r : IoRun} (h : Consumes script r) :
    answers script ≤ answers r.rest + 1 := by
  obtain ⟨refused, rfl⟩ := h
  rw [answers_refused]
  cases r.result <;> simp

theorem Consumes.answers_eq {script : List SysResult} {r : IoRun} {e : Errno}
    (h : Consumes script r) (he : r.result = .error e) : answers r.rest = answers script := by
  obtain ⟨refused, rfl⟩ := h
  rw [answers_refused, he, answers]

theorem retryInterrupted_answered {script : List SysResult} (h : 0 < answers script) :
    ∃ r, retryInterrupted script = some r := by
  induction script with
  | nil => simp [answers] at h
  | cons result script ih =>
    match result with
    | .ok n => exact ⟨_, rfl⟩
    | .error .eagain => exact ⟨_, rfl⟩
    | .error (.other code) => exact ⟨_, rfl⟩
    | .error .eintr =>
      obtain ⟨r, hr⟩ := ih (by simpa using h)
      exact ⟨_, Option.bind_eq_some_iff.mpr ⟨r, hr, rfl⟩⟩

theorem retryBlocked_answered {script : List SysResult} (h : 0 < answers script) :
    ∃ r, retryBlocked script = some r := by
  induction script with
  | nil => simp [answers] at h
  | cons result script ih =>
    match result with
    | .ok n => exact ⟨_, rfl⟩
    | .error (.other code) => exact ⟨_, rfl⟩
    | .error .eintr =>
      obtain ⟨r, hr⟩ := ih (by simpa using h)
      exact ⟨_, Option.bind_eq_some_iff.mpr ⟨r, hr, rfl⟩⟩
    | .error .eagain =>
      obtain ⟨r, hr⟩ := ih (by simpa using h)
      exact ⟨_, Option.bind_eq_some_iff.mpr ⟨r, hr, rfl⟩⟩

theorem ioBase_answered {hooked : Bool} {event : KEvent} {script : List SysResult}
    (h : 0 < answers script) : ∃ r, ioBase hooked event script = some r := by
  cases hooked with
  | false =>
    cases script with
    | nil => simp [answers] at h
    | cons result script => exact ⟨_, rfl⟩
  | true =>
    obtain ⟨first, hfirst⟩ := retryInterrupted_answered h
    simp only [ioBase, Bool.not_true, Bool.false_eq_true, if_false, hfirst, Option.bind_eq_bind,
      Option.bind_some]
    split
    · next he =>
      have heq := (retryInterrupted_consumes hfirst).answers_eq he
      obtain ⟨second, hsecond⟩ := retryBlocked_answered (show 0 < answers first.rest by omega)
      rw [hsecond]
      exact ⟨_, rfl⟩
    · exact ⟨_, rfl⟩

end DeftRpc.Hook
