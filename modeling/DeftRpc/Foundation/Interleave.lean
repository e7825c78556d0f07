import Mathlib.Tactic

/-!
# Interleavings of atomic steps

An action names the thread that moves. `step s a` is `none` when that thread
cannot move. A schedule is any finite list of actions each of which is enabled
when its turn comes.
-/

namespace DeftRpc.Foundation

section Interleave
variable {σ α : Type}

def interleave (step : σ → α → Option σ) : σ → List α → Option σ
  | s, [] => some s
  | s, a :: as => (step s a).bind fun s' => interleave step s' as

theorem interleave_cons {step : σ → α → Option σ} {s s' : σ} {a : α} {as : List α}
    (h : interleave step s (a :: as) = some s') :
    ∃ t, step s a = some t ∧ interleave step t as = some s' :=
  Option.bind_eq_some_iff.mp h

theorem interleave_append {step : σ → α → Option σ} {s t u : σ} {before after : List α}
    (hbefore : interleave step s before = some t) (hafter : interleave step t after = some u) :
    interleave step s (before ++ after) = some u := by
  induction before generalizing s with
  | nil =>
    cases hbefore
    exact hafter
  | cons a before ih =>
    obtain ⟨s1, hstep, hrest⟩ := interleave_cons hbefore
    rw [List.cons_append, interleave, hstep]
    exact ih hrest

theorem interleave_invariant {step : σ → α → Option σ} {I : σ → Prop}
    (keep : ∀ s a s', I s → step s a = some s' → I s') (as : List α) (s s' : σ) (hi : I s)
    (h : interleave step s as = some s') : I s' := by
  induction as generalizing s with
  | nil => exact Option.some.inj h ▸ hi
  | cons a as ih =>
    obtain ⟨t, hstep, hrest⟩ := interleave_cons h
    exact ih t (keep s a t hi hstep) hrest

/-- An invariant that also speaks of the steps that were made. -/
theorem interleave_history {step : σ → α → Option σ} {I : List α → σ → Prop}
    (keep : ∀ past s a s', I past s → step s a = some s' → I (past ++ [a]) s') (as : List α)
    {past : List α} {s s' : σ} (hi : I past s) (h : interleave step s as = some s') :
    I (past ++ as) s' := by
  induction as generalizing past s with
  | nil =>
    cases h
    rw [List.append_nil]
    exact hi
  | cons a as ih =>
    obtain ⟨t, hstep, hrest⟩ := interleave_cons h
    have hlater := ih (keep past s a t hi hstep) hrest
    rwa [List.append_assoc] at hlater

/-- `ok` holds of the state before each step of the schedule. -/
def GoodSteps (step : σ → α → Option σ) (ok : σ → α → Prop) : σ → List α → Prop
  | _, [] => True
  | s, a :: as => ok s a ∧ match step s a with
    | some s' => GoodSteps step ok s' as
    | none => True

instance decidableGoodSteps (step : σ → α → Option σ) (ok : σ → α → Prop)
    [d : ∀ s a, Decidable (ok s a)] : ∀ (s : σ) (as : List α), Decidable (GoodSteps step ok s as)
  | _, [] => .isTrue trivial
  | s, a :: as =>
    have : Decidable (match step s a with
        | some s' => GoodSteps step ok s' as
        | none => True) :=
      match step s a with
      | some s' => decidableGoodSteps step ok s' as
      | none => .isTrue trivial
    instDecidableAnd

theorem goodSteps_cons {step : σ → α → Option σ} {ok : σ → α → Prop} {s s' : σ} {a : α} {as : List α}
    (ha : ok s a) (hstep : step s a = some s') (has : GoodSteps step ok s' as) :
    GoodSteps step ok s (a :: as) := by
  refine ⟨ha, ?_⟩
  rw [hstep]
  exact has

theorem goodSteps_one {step : σ → α → Option σ} {ok : σ → α → Prop} {s : σ} {a : α} (ha : ok s a) :
    GoodSteps step ok s [a] := by
  refine ⟨ha, ?_⟩
  cases step s a with
  | none => trivial
  | some s' => trivial

theorem goodSteps_invariant {step : σ → α → Option σ} {ok : σ → α → Prop} {I : σ → Prop}
    (keep : ∀ s a s', I s → ok s a → step s a = some s' → I s') (as : List α) (s s' : σ) (hi : I s)
    (hok : GoodSteps step ok s as) (h : interleave step s as = some s') : I s' := by
  induction as generalizing s with
  | nil => exact Option.some.inj h ▸ hi
  | cons a as ih =>
    obtain ⟨t, hstep, hrest⟩ := interleave_cons h
    obtain ⟨ha, has⟩ := hok
    rw [hstep] at has
    exact ih t (keep s a t hi ha hstep) has hrest

/-- Where a bad step always shows in the state behind it, the schedules through good states have
good steps only. -/
theorem goodSteps_of_states {step : σ → α → Option σ} {ok : σ → α → Prop} {I good : σ → Prop}
    (keep : ∀ s a s', I s → step s a = some s' → I s')
    (shows : ∀ s a s', I s → good s → step s a = some s' → good s' → ok s a) (as : List α) (s s' : σ)
    (hi : I s) (h : interleave step s as = some s')
    (hgood : ∀ before, before <+: as → ∀ t, interleave step s before = some t → good t) :
    GoodSteps step ok s as := by
  induction as generalizing s with
  | nil => trivial
  | cons a as ih =>
    obtain ⟨t, hstep, hrest⟩ := interleave_cons h
    have hs : good s := hgood [] (List.nil_prefix) s rfl
    have ht : good t := hgood [a] ⟨as, rfl⟩ t (by simp [interleave, hstep])
    refine ⟨shows s a t hi hs hstep ht, ?_⟩
    rw [hstep]
    apply ih t (keep s a t hi hstep) hrest
    intro before hpre u hu
    apply hgood (a :: before) ((List.prefix_cons_inj a).mpr hpre) u
    simp only [interleave, hstep, Option.bind_some, hu]

theorem goodSteps_mono {step : σ → α → Option σ} {ok ok' : σ → α → Prop}
    (imp : ∀ s a, ok s a → ok' s a) (as : List α) (s : σ) (h : GoodSteps step ok s as) :
    GoodSteps step ok' s as := by
  induction as generalizing s with
  | nil => trivial
  | cons a as ih =>
    refine ⟨imp s a h.1, ?_⟩
    have hrest := h.2
    cases hstep : step s a with
    | none => trivial
    | some t =>
      rw [hstep] at hrest
      exact ih t hrest

theorem goodSteps_take {step : σ → α → Option σ} {ok : σ → α → Prop} {before as : List α}
    (hpre : before <+: as) {s : σ} (h : GoodSteps step ok s as) : GoodSteps step ok s before := by
  obtain ⟨after, rfl⟩ := hpre
  induction before generalizing s with
  | nil => trivial
  | cons a before ih =>
    refine ⟨h.1, ?_⟩
    have hrest := h.2
    cases hstep : step s a with
    | none => trivial
    | some t =>
      simp only [List.append_eq, hstep] at hrest
      exact ih hrest

/-- What holds until an event either still holds at the end, or the event is a step of the
schedule. -/
theorem goodSteps_until {step : σ → α → Option σ} {ok Q : σ → α → Prop} {I P : σ → Prop}
    (keep : ∀ s a s', I s → ok s a → step s a = some s' → I s')
    (until_ : ∀ s a s', I s → P s → step s a = some s' → Q s a ∨ P s') (as : List α) (s s' : σ)
    (hi : I s) (hp : P s) (hok : GoodSteps step ok s as) (h : interleave step s as = some s') :
    P s' ∨ ∃ before a after t, as = before ++ a :: after ∧ interleave step s before = some t ∧ Q t a := by
  induction as generalizing s with
  | nil => exact Or.inl (Option.some.inj h ▸ hp)
  | cons a as ih =>
    obtain ⟨t, hstep, hrest⟩ := interleave_cons h
    obtain ⟨ha, has⟩ := hok
    rw [hstep] at has
    rcases until_ s a t hi hp hstep with hq | hpt
    · exact Or.inr ⟨[], a, as, s, rfl, rfl, hq⟩
    · rcases ih t (keep s a t hi ha hstep) hpt has hrest with hend | ⟨before, b, after, u, hsplit, hrun, hq⟩
      · exact Or.inl hend
      · refine Or.inr ⟨a :: before, b, after, u, by rw [hsplit, List.cons_append], ?_, hq⟩
        simp only [interleave, hstep, Option.bind_some, hrun]

/-- Amortised cost: each step that counts is paid for from what is left over, from the work
that was done, or from what a new call brings in. -/
theorem interleave_amortised {step : σ → α → Option σ} {I : σ → Prop} {left work : σ → ℕ}
    {counts calls : α → Bool} {budget : ℕ}
    (keep : ∀ s a s', I s → step s a = some s' → I s' ∧ left s' + (if counts a then 1 else 0) + work s
      ≤ left s + work s' + (if calls a then budget else 0))
    (as : List α) (s s' : σ) (hi : I s) (h : interleave step s as = some s') :
    left s' + as.countP counts + work s ≤ left s + work s' + budget * as.countP calls := by
  induction as generalizing s with
  | nil =>
    cases h
    simp
  | cons a as ih =>
    obtain ⟨t, hstep, hrest⟩ := interleave_cons h
    obtain ⟨ht, hpay⟩ := keep s a t hi hstep
    have hlater := ih t ht hrest
    rw [List.countP_cons, List.countP_cons, Nat.mul_add, mul_ite, Nat.mul_one,
      Nat.mul_zero]
    omega

/-- A schedule of an abstract machine given by a relation. -/
inductive Follows {τ : Type} (spec : τ → α → τ → Prop) : τ → List α → τ → Prop
  | nil (t : τ) : Follows spec t [] t
  | cons {t t' t'' : τ} {a : α} {as : List α} :
      spec t a t' → Follows spec t' as t'' → Follows spec t (a :: as) t''

/-- What each step does with a related abstract state, a schedule does as a whole. -/
theorem interleave_follows {τ : Type} {step : σ → α → Option σ} {spec : τ → α → τ → Prop}
    {R : σ → τ → Prop}
    (sim : ∀ s t a s', R s t → step s a = some s' → ∃ t', spec t a t' ∧ R s' t')
    (as : List α) (s s' : σ) (t : τ) (hr : R s t) (h : interleave step s as = some s') :
    ∃ t', Follows spec t as t' ∧ R s' t' := by
  induction as generalizing s t with
  | nil =>
    cases h
    exact ⟨t, .nil t, hr⟩
  | cons a as ih =>
    obtain ⟨s1, hstep, hrest⟩ := interleave_cons h
    obtain ⟨t1, hspec, hr1⟩ := sim s t a s1 hr hstep
    obtain ⟨t2, hfollows, hr2⟩ := ih s1 t1 hr1 hrest
    exact ⟨t2, .cons hspec hfollows, hr2⟩

theorem follows_invariant {τ : Type} {spec : τ → α → τ → Prop} {I : τ → Prop} {ok : α → Prop}
    (keep : ∀ t a t', I t → ok a → spec t a t' → I t') {as : List α} {t t' : τ} (hi : I t)
    (hok : ∀ a ∈ as, ok a) (h : Follows spec t as t') : I t' := by
  induction h with
  | nil t => exact hi
  | cons hspec _ ih =>
    exact ih (keep _ _ _ hi (hok _ List.mem_cons_self) hspec)
      fun a ha => hok a (List.mem_cons_of_mem _ ha)

end Interleave

/-! ### The threads of a state -/

section Threads
variable {ι π : Type} [DecidableEq ι]

/-- A property of every thread, when one thread moves and the others keep theirs. -/
theorem forall_update {P Q : ι → π → Prop} {pcs : ι → π} {i : ι} {pc : π}
    (hi : Q i pc) (hrest : ∀ j, j ≠ i → P j (pcs j) → Q j (pcs j)) (h : ∀ j, P j (pcs j)) :
    ∀ j, Q j (Function.update pcs i pc j) := by
  intro j
  by_cases hj : j = i
  · subst hj
    simpa using hi
  · rw [Function.update_of_ne hj]
    exact hrest j hj (h j)

end Threads

end DeftRpc.Foundation
