import DeftRpc.Foundation.Exec

/-!
# Two executions in step

Two fallible executions are related when both end, in related results, or both meet
the same fault. The rules lift this along a bind and along a run.
-/

namespace DeftRpc.Foundation

inductive Related {α β : Type} (R : α → β → Prop) : Exec α → Exec β → Prop
  | ok {a : α} {b : β} : R a b → Related R (.ok a) (.ok b)
  | error (e : Fault) : Related R (.error e) (.error e)

namespace Related
variable {α β γ δ : Type} {R : α → β → Prop} {S : γ → δ → Prop} {x : Exec α} {y : Exec β}

theorem bind {f : α → Exec γ} {g : β → Exec δ} (h : Related R x y)
    (hf : ∀ a b, R a b → Related S (f a) (g b)) : Related S (x >>= f) (y >>= g) := by
  cases h with
  | ok hab => exact hf _ _ hab
  | error e => exact .error e

theorem mono {R' : α → β → Prop} (h : Related R x y) (himp : ∀ a b, R a b → R' a b) : Related R' x y := by
  cases h with
  | ok hab => exact .ok (himp _ _ hab)
  | error e => exact .error e

theorem of_ok_left {a : α} (h : Related R x y) (hx : x = .ok a) : ∃ b, y = .ok b ∧ R a b := by
  cases h with
  | ok hab =>
    cases hx
    exact ⟨_, rfl, hab⟩
  | error e => cases hx

theorem ite {c c' : Prop} [Decidable c] [Decidable c'] {x' : Exec α} {y' : Exec β} (hc : c ↔ c')
    (hthen : c' → Related R x y) (helse : ¬c' → Related R x' y') :
    Related R (if c then x else x') (if c' then y else y') := by
  by_cases h : c'
  · rw [if_pos (hc.mpr h), if_pos h]
    exact hthen h
  · rw [if_neg fun hin => h (hc.mp hin), if_neg h]
    exact helse h

theorem and_right {Q : β → Prop} (h : Related R x y) (hq : ∀ b, y = .ok b → Q b) :
    Related (fun a b => R a b ∧ Q b) x y := by
  cases h with
  | ok hab => exact .ok ⟨hab, hq _ rfl⟩
  | error e => exact .error e

end Related

section Runs
variable {σ τ α ω ω' : Type} {step : σ → α → Exec (ω × σ)} {step' : τ → α → Exec (ω' × τ)}
  {ok : σ → α → Prop} {R : σ → τ → Prop} {O : ω → ω' → Prop}

/-- What good steps do in step, a run of good steps does in step. -/
theorem runOps_related
    (sim : ∀ s t a, R s t → ok s a → Related (fun r r' => O r.1 r'.1 ∧ R r.2 r'.2) (step s a) (step' t a))
    (as : List α) {s : σ} {t : τ} (hr : R s t) (hs : StepsOk step ok s as) :
    Related (fun r r' => List.Forall₂ O r.1 r'.1 ∧ R r.2 r'.2) (runOps step s as) (runOps step' t as) := by
  induction as generalizing s t with
  | nil => exact .ok ⟨.nil, hr⟩
  | cons a as ih =>
    have hhead := sim s t a hr (stepsOk_head hs)
    rw [runOps, runOps]
    cases hstep : step s a with
    | error e =>
      rw [hstep] at hhead
      generalize step' t a = y at hhead
      cases hhead
      exact .error e
    | ok r =>
      obtain ⟨r', hstep', hout, hr'⟩ := hhead.of_ok_left hstep
      rw [hstep']
      have hrest := ih hr' (stepsOk_tail hstep hs)
      exact hrest.bind fun rest rest' h => .ok ⟨.cons hout h.1, h.2⟩

end Runs

end DeftRpc.Foundation
