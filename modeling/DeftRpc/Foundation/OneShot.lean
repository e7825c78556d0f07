import Mathlib.Order.Basic
import Mathlib.Tactic

/-!
# One shot and its deadline

A history lists clock readings in the order they were taken, each with whether the shot was
fired at it. A shot set for `expiry` is fired at the first reading that reaches it; whether it
comes on time is judged by another rule, `due`, of the same readings.
-/

namespace DeftRpc.Foundation
variable {τ : Type}

/-- Not fired before it is due, and fired by the end of every reading at which it is. -/
def OnTime (due : τ → Prop) : Bool → List (τ × Bool) → Prop
  | _, [] => True
  | done, (now, fired) :: rest =>
    (¬ due now → fired = false) ∧ (due now → (done || fired) = true) ∧ OnTime due (done || fired) rest

instance decidableOnTime (due : τ → Prop) [DecidablePred due] :
    ∀ (done : Bool) (history : List (τ × Bool)), Decidable (OnTime due done history)
  | _, [] => .isTrue trivial
  | done, (_, fired) :: rest =>
    have := decidableOnTime due (done || fired) rest
    instDecidableAnd

/-- Readings at which nothing is fired may come first. -/
theorem onTime_append_unfired {due : τ → Prop} {early late : List (τ × Bool)}
    (hearly : ∀ x ∈ early, x.2 = false) :
    OnTime due false (early ++ late) ↔ (∀ x ∈ early, ¬ due x.1) ∧ OnTime due false late := by
  induction early with
  | nil => simp
  | cons x early ih =>
    obtain ⟨now, fired⟩ := x
    obtain rfl : fired = false := hearly _ List.mem_cons_self
    have hrest := ih fun y hy => hearly y (List.mem_cons_of_mem _ hy)
    rw [List.cons_append, OnTime, Bool.or_false, hrest]
    simp only [List.forall_mem_cons, Bool.false_eq_true]
    constructor
    · rintro ⟨-, hnot, hall, hlate⟩
      exact ⟨⟨hnot, hall⟩, hlate⟩
    · rintro ⟨⟨hnot, hall⟩, hlate⟩
      exact ⟨fun _ => trivial, hnot, hall, hlate⟩

variable [LinearOrder τ]

/-- Fired once, at the first reading at or after `expiry`; `done` tells that it was before. -/
def FiredAt (expiry : τ) : Bool → List (τ × Bool) → Prop
  | _, [] => True
  | done, (now, fired) :: rest =>
    (fired = true ↔ done = false ∧ expiry ≤ now) ∧ FiredAt expiry (done || fired) rest

def Agree (due : τ → Prop) (expiry : τ) : List τ → Prop
  | [] => True
  | now :: rest => (expiry ≤ now ↔ due now) ∧ (now < expiry → Agree due expiry rest)

instance decidableAgree (due : τ → Prop) [DecidablePred due] (expiry : τ) :
    ∀ readings : List τ, Decidable (Agree due expiry readings)
  | [] => .isTrue trivial
  | now :: rest =>
    have := decidableAgree due expiry rest
    have : Decidable (now < expiry → Agree due expiry rest) := inferInstance
    instDecidableAnd

theorem FiredAt.onTime_done {due : τ → Prop} {expiry : τ} {history : List (τ × Bool)}
    (h : FiredAt expiry true history) : OnTime due true history := by
  induction history with
  | nil => trivial
  | cons x rest ih =>
    obtain ⟨now, fired⟩ := x
    have hnot : fired = false := by
      rw [← Bool.not_eq_true, h.1]
      simp
    exact ⟨fun _ => hnot, fun _ => by simp, ih h.2⟩

theorem FiredAt.onTime_iff {due : τ → Prop} {expiry : τ} {history : List (τ × Bool)}
    (h : FiredAt expiry false history) :
    OnTime due false history ↔ Agree due expiry (history.map Prod.fst) := by
  induction history with
  | nil => exact Iff.rfl
  | cons x rest ih =>
    obtain ⟨now, fired⟩ := x
    obtain ⟨hfired, hrest⟩ := h
    rw [OnTime, List.map_cons, Agree]
    cases fired with
    | true =>
      have hle : expiry ≤ now := (hfired.mp rfl).2
      have hlater : OnTime due true rest := hrest.onTime_done
      constructor
      · rintro ⟨hearly, -, -⟩
        refine ⟨⟨fun _ => ?_, fun _ => hle⟩, fun hlt => absurd hlt (not_lt.mpr hle)⟩
        by_contra hnot
        cases hearly hnot
      · rintro ⟨hsame, -⟩
        exact ⟨fun hnot => absurd (hsame.mp hle) hnot, fun _ => rfl, hlater⟩
    | false =>
      have hlt : now < expiry := by
        by_contra hle
        cases hfired.mpr ⟨rfl, not_lt.mp hle⟩
      constructor
      · rintro ⟨-, hlate, hontime⟩
        refine ⟨⟨fun hle => absurd hle (not_le.mpr hlt), fun hdue => ?_⟩, fun _ => (ih hrest).mp hontime⟩
        cases hlate hdue
      · rintro ⟨hsame, hagree⟩
        refine ⟨fun _ => rfl, fun hdue => ?_, (ih hrest).mpr (hagree hlt)⟩
        exact absurd (hsame.mpr hdue) (not_le.mpr hlt)

end DeftRpc.Foundation
