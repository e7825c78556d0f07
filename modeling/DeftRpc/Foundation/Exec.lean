import Mathlib.Tactic

/-!
# Fallible execution and runs of a state machine

A step of a modelled program either ends in a new state or hits a fault: an
index outside its array, a pointer that is null or already freed, a loop that
never ends. A run is a list of operations executed in order; it stops at the
first fault. The rules below lift what one step does to what a whole run does.
-/

namespace DeftRpc.Foundation

inductive Fault
  | outOfRange
  | badPointer
  | diverge
  deriving DecidableEq, Repr

abbrev Exec (α : Type) := Except Fault α

namespace Exec

@[simp] theorem ok_bind {ε α β : Type} (a : α) (f : α → Except ε β) :
    ((Except.ok a : Except ε α) >>= f) = f a := rfl

@[simp] theorem error_bind {ε α β : Type} (e : ε) (f : α → Except ε β) :
    ((Except.error e : Except ε α) >>= f) = .error e := rfl

@[simp] theorem pure_eq_ok {α : Type} (a : α) : (pure a : Exec α) = .ok a := rfl

theorem bind_eq_ok {ε α β : Type} {x : Except ε α} {f : α → Except ε β} {b : β}
    (h : (x >>= f) = .ok b) : ∃ a, x = .ok a ∧ f a = .ok b := by
  cases x with
  | error e => cases h
  | ok a => exact ⟨a, rfl, h⟩

end Exec

/-- `for (i = lo + n - 1; i >= lo; --i)` -/
def forDown {σ : Type} (body : ℕ → σ → Exec σ) (lo : ℕ) : ℕ → σ → Exec σ
  | 0, s => .ok s
  | n + 1, s => do
    let s ← body (lo + n) s
    forDown body lo n s

theorem forDown_invariant {σ : Type} {body : ℕ → σ → Exec σ} {I : σ → Prop} {lo n : ℕ}
    (keep : ∀ i s s', I s → body i s = .ok s' → I s') {s s' : σ} (h : I s)
    (hloop : forDown body lo n s = .ok s') : I s' := by
  induction n generalizing s with
  | zero =>
    cases hloop
    exact h
  | succ n ih =>
    obtain ⟨s1, hturn, hrest⟩ := Exec.bind_eq_ok hloop
    exact ih (keep _ s s1 h hturn) hrest

theorem forDown_last {σ : Type} (body : ℕ → σ → Exec σ) (lo n : ℕ) (s : σ) :
    forDown body lo (n + 1) s = forDown body (lo + 1) n s >>= body lo := by
  induction n generalizing s with
  | zero =>
    simp only [forDown, Nat.add_zero, Exec.ok_bind]
    cases body lo s <;> rfl
  | succ n ih =>
    have hindex : lo + (n + 1) = lo + 1 + n := by omega
    rw [forDown, forDown, hindex]
    cases body (lo + 1 + n) s with
    | error e => rfl
    | ok s1 => exact ih s1

/-! ### Runs -/

section Runs
variable {σ τ α ω : Type}

/-- Operations in order; the outputs are collected, the first fault ends the run. -/
def runOps (step : σ → α → Exec (ω × σ)) : σ → List α → Exec (List ω × σ)
  | s, [] => .ok ([], s)
  | s, a :: as => do
    let r ← step s a
    let rest ← runOps step r.2 as
    pure (r.1 :: rest.1, rest.2)

/-- `ok` holds of the state before each step that the run takes. -/
def StepsOk (step : σ → α → Exec (ω × σ)) (ok : σ → α → Prop) : σ → List α → Prop
  | _, [] => True
  | s, a :: as => ok s a ∧ match step s a with
    | .ok r => StepsOk step ok r.2 as
    | .error _ => True

instance decidableStepsOk (step : σ → α → Exec (ω × σ)) (ok : σ → α → Prop)
    [d : ∀ s a, Decidable (ok s a)] : ∀ (s : σ) (as : List α), Decidable (StepsOk step ok s as)
  | _, [] => .isTrue trivial
  | s, a :: as =>
    have : Decidable (match step s a with
        | .ok r => StepsOk step ok r.2 as
        | .error _ => True) :=
      match step s a with
      | .ok r => decidableStepsOk step ok r.2 as
      | .error _ => .isTrue trivial
    instDecidableAnd

/-- A run of an abstract machine given by a relation between state, operation,
output and next state. -/
inductive Trace (spec : τ → α → ω → τ → Prop) : τ → List α → List ω → τ → Prop
  | nil (t : τ) : Trace spec t [] [] t
  | cons {t t' t'' : τ} {a : α} {as : List α} {o : ω} {os : List ω} :
      spec t a o t' → Trace spec t' as os t'' → Trace spec t (a :: as) (o :: os) t''

@[simp] theorem runOps_nil (step : σ → α → Exec (ω × σ)) (s : σ) :
    runOps step s [] = .ok ([], s) := rfl

theorem runOps_cons_ok {step : σ → α → Exec (ω × σ)} {s s' s'' : σ} {a : α} {as : List α}
    {o : ω} {os : List ω} (h : step s a = .ok (o, s')) (hr : runOps step s' as = .ok (os, s'')) :
    runOps step s (a :: as) = .ok (o :: os, s'') := by
  simp only [runOps, h, Exec.ok_bind, hr, Exec.pure_eq_ok]

theorem runOps_cons_inv {step : σ → α → Exec (ω × σ)} {s s'' : σ} {a : α} {as : List α}
    {os : List ω} (h : runOps step s (a :: as) = .ok (os, s'')) :
    ∃ o s' rest, step s a = .ok (o, s') ∧ runOps step s' as = .ok (rest, s'') ∧ os = o :: rest := by
  obtain ⟨⟨o, s'⟩, h1, h2⟩ := Exec.bind_eq_ok h
  obtain ⟨⟨rest, t⟩, h3, h4⟩ := Exec.bind_eq_ok h2
  have he : (o :: rest, t) = (os, s'') := Except.ok.inj h4
  cases he
  exact ⟨o, s', rest, h1, h3, rfl⟩

theorem runOps_append_ok {step : σ → α → Exec (ω × σ)} {s s' s'' : σ} {as bs : List α}
    {os os' : List ω} (h : runOps step s as = .ok (os, s')) (hr : runOps step s' bs = .ok (os', s'')) :
    runOps step s (as ++ bs) = .ok (os ++ os', s'') := by
  induction as generalizing s os with
  | nil =>
    cases h
    exact hr
  | cons a as ih =>
    obtain ⟨o, s1, rest, hstep, hrest, rfl⟩ := runOps_cons_inv h
    exact runOps_cons_ok hstep (ih hrest)

theorem stepsOk_cons_iff {step : σ → α → Exec (ω × σ)} {ok : σ → α → Prop} {s s' : σ} {a : α}
    {as : List α} {o : ω} (h : step s a = .ok (o, s')) :
    StepsOk step ok s (a :: as) ↔ ok s a ∧ StepsOk step ok s' as := by
  rw [StepsOk, h]

theorem stepsOk_head {step : σ → α → Exec (ω × σ)} {ok : σ → α → Prop} {s : σ} {a : α}
    {as : List α} (h : StepsOk step ok s (a :: as)) : ok s a := h.1

theorem stepsOk_tail {step : σ → α → Exec (ω × σ)} {ok : σ → α → Prop} {s s' : σ} {a : α}
    {as : List α} {o : ω} (h : step s a = .ok (o, s')) (hs : StepsOk step ok s (a :: as)) :
    StepsOk step ok s' as :=
  ((stepsOk_cons_iff h).mp hs).2

theorem stepsOk_append {step : σ → α → Exec (ω × σ)} {ok : σ → α → Prop} {s : σ} {as bs : List α}
    (h : StepsOk step ok s (as ++ bs)) : StepsOk step ok s as ∧
      ∀ os s', runOps step s as = .ok (os, s') → StepsOk step ok s' bs := by
  induction as generalizing s with
  | nil =>
    refine ⟨trivial, fun os s' hrun => ?_⟩
    cases hrun
    exact h
  | cons a as ih =>
    constructor
    · refine ⟨h.1, ?_⟩
      have hrest := h.2
      cases hstep : step s a with
      | error e => trivial
      | ok r =>
        rw [hstep] at hrest
        exact (ih hrest).1
    · intro os s' hrun
      obtain ⟨o, s1, rest, hstep, hrest, -⟩ := runOps_cons_inv hrun
      exact (ih (stepsOk_tail hstep h)).2 rest s' hrest

theorem stepsOk_of_invariant {step : σ → α → Exec (ω × σ)} {ok ok' : σ → α → Prop} {I : σ → Prop}
    (keep : ∀ s a o s', I s → step s a = .ok (o, s') → I s')
    (imp : ∀ s a, I s → ok s a → ok' s a) :
    ∀ (as : List α) (s : σ), I s → StepsOk step ok s as → StepsOk step ok' s as := by
  intro as
  induction as with
  | nil => intro s _ _; trivial
  | cons a as ih =>
    intro s hi h
    refine ⟨imp s a hi h.1, ?_⟩
    have h2 := h.2
    cases hstep : step s a with
    | error e => trivial
    | ok r =>
      rw [hstep] at h2
      exact ih r.2 (keep s a r.1 r.2 hi hstep) h2

/-- On a run in `dom`, two conditions that agree on the states of an invariant, which holds
as long as they do. -/
theorem stepsOk_iff_of_invariant {step : σ → α → Exec (ω × σ)} {dom ok ok' : σ → α → Prop} {I : σ → Prop}
    (same : ∀ s a, I s → dom s a → (ok s a ↔ ok' s a))
    (keep : ∀ s a o s', I s → dom s a → ok s a → step s a = .ok (o, s') → I s') :
    ∀ (as : List α) (s : σ), I s → StepsOk step dom s as →
      (StepsOk step ok s as ↔ StepsOk step ok' s as) := by
  intro as
  induction as with
  | nil => intro s _ _; exact Iff.rfl
  | cons a as ih =>
    intro s hi ⟨hdom, hrest⟩
    rw [StepsOk, StepsOk, same s a hi hdom]
    refine and_congr_right fun hok' => ?_
    have hok := (same s a hi hdom).mpr hok'
    cases hstep : step s a with
    | error e => exact Iff.rfl
    | ok r =>
      rw [hstep] at hrest
      exact ih r.2 (keep s a r.1 r.2 hi hdom hok hstep) hrest

theorem stepsOk_of_forall {step : σ → α → Exec (ω × σ)} {p : α → Prop} {s : σ} {as : List α}
    (h : ∀ a ∈ as, p a) : StepsOk step (fun _ => p) s as := by
  induction as generalizing s with
  | nil => trivial
  | cons a as ih =>
    refine ⟨h a List.mem_cons_self, ?_⟩
    cases step s a with
    | error e => trivial
    | ok r => exact ih fun x hx => h x (List.mem_cons_of_mem a hx)

theorem stepsOk_true {step : σ → α → Exec (ω × σ)} (s : σ) (as : List α) :
    StepsOk step (fun _ _ => True) s as := stepsOk_of_forall fun _ _ => trivial

/-- Simulation: what one good step does with a related abstract state, a run of
good steps does as a whole, and no fault is met. -/
theorem run_simulates {step : σ → α → Exec (ω × σ)} {ok : σ → α → Prop}
    {spec : τ → α → ω → τ → Prop} {R : σ → τ → Prop}
    (sim : ∀ s t a, R s t → ok s a → ∃ o s' t', step s a = .ok (o, s') ∧ spec t a o t' ∧ R s' t') :
    ∀ (as : List α) (s : σ) (t : τ), R s t → StepsOk step ok s as →
      ∃ os s' t', runOps step s as = .ok (os, s') ∧ Trace spec t as os t' ∧ R s' t' := by
  intro as
  induction as with
  | nil => intro s t hr _; exact ⟨[], s, t, rfl, .nil t, hr⟩
  | cons a as ih =>
    intro s t hr hs
    obtain ⟨o, s1, t1, hstep, hspec, hr1⟩ := sim s t a hr hs.1
    obtain ⟨os, s2, t2, hrun, htrace, hr2⟩ := ih s1 t1 hr1 (stepsOk_tail hstep hs)
    exact ⟨o :: os, s2, t2, runOps_cons_ok hstep hrun, .cons hspec htrace, hr2⟩

/-- Invariant rule: an invariant that every good step keeps holds after a run of
good steps, and no fault is met. -/
theorem run_invariant {step : σ → α → Exec (ω × σ)} {ok : σ → α → Prop} {I : σ → Prop}
    (keep : ∀ s a, I s → ok s a → ∃ o s', step s a = .ok (o, s') ∧ I s') (as : List α) (s : σ)
    (hi : I s) (hs : StepsOk step ok s as) :
    ∃ os s', runOps step s as = .ok (os, s') ∧ I s' := by
  have sim : ∀ s (t : Unit) a, I s → ok s a → ∃ o s' t', step s a = .ok (o, s') ∧
      (fun _ _ _ _ => True : Unit → α → ω → Unit → Prop) t a o t' ∧ I s' := by
    intro s t a h hok
    obtain ⟨o, s', h1, h2⟩ := keep s a h hok
    exact ⟨o, s', (), h1, trivial, h2⟩
  obtain ⟨os, s', _, h1, _, h2⟩ := run_simulates (R := fun s _ => I s) sim as s () hi hs
  exact ⟨os, s', h1, h2⟩

/-- What good steps that end keep, a run of good steps that ends keeps. -/
theorem run_keeps {step : σ → α → Exec (ω × σ)} {ok : σ → α → Prop} {I : σ → Prop}
    (keep : ∀ s a o s', I s → ok s a → step s a = .ok (o, s') → I s') {as : List α} {s s' : σ}
    {os : List ω} (hi : I s) (hs : StepsOk step ok s as) (hrun : runOps step s as = .ok (os, s')) :
    I s' := by
  induction as generalizing s os with
  | nil =>
    cases hrun
    exact hi
  | cons a as ih =>
    obtain ⟨o, s1, rest, hstep, hrest, -⟩ := runOps_cons_inv hrun
    exact ih (keep s a o s1 hi hs.1 hstep) (stepsOk_tail hstep hs) hrest

end Runs

end DeftRpc.Foundation
