/-
Labelled transition systems whose step is a function of the state and the
label, and the states reached by steps that all meet a side condition. The
side condition is how a result is restricted to some runs (clients that
follow a rule, calls that succeed) without a second system: `Reach S C` is
reached by steps of `S` that each meet `C` in the state they start from.
`S.record` keeps a history beside the state, for results that speak of what
happened earlier in a run. `Reach.refine` carries results about one system
over to another whose steps it has.
-/
import Mathlib.Logic.Basic

namespace Lib

variable {σ α : Type}

/-- The label carries whatever the environment chooses. -/
structure System (σ α : Type) where
  init : σ
  enabled : σ → α → Prop
  next : σ → α → σ

/-- Reached from the initial state by enabled steps that all meet `C`. -/
inductive System.Reach (S : System σ α) (C : σ → α → Prop) : σ → Prop
  | init : S.Reach C S.init
  | step {d : σ} {a : α} : S.Reach C d → S.enabled d a → C d a → S.Reach C (S.next d a)

/-- The state after a list of labels. -/
def System.after (S : System σ α) (d : σ) (as : List α) : σ := as.foldl S.next d

/-- The labels are a run from `d`: each is enabled and meets `C` where it is
taken. -/
def System.Run (S : System σ α) (C : σ → α → Prop) : σ → List α → Prop
  | _, [] => True
  | d, a :: as => S.enabled d a ∧ C d a ∧ S.Run C (S.next d a) as

instance System.decidableRun (S : System σ α) (C : σ → α → Prop) [∀ d a, Decidable (S.enabled d a)]
    [∀ d a, Decidable (C d a)] : ∀ d as, Decidable (S.Run C d as)
  | _, [] => inferInstanceAs (Decidable True)
  | d, a :: as => have := decidableRun S C (S.next d a) as; inferInstanceAs (Decidable (_ ∧ _ ∧ _))

/-- The system with a history beside its state: each step writes it, and none
reads it. -/
def System.record {η : Type} (S : System σ α) (h₀ : η) (note : η → σ → α → η) : System (σ × η) α where
  init := (S.init, h₀)
  enabled p a := S.enabled p.1 a
  next p a := (S.next p.1 a, note p.2 p.1 a)

instance System.decidableRecord {η : Type} (S : System σ α) (h₀ : η) (note : η → σ → α → η)
    [∀ d a, Decidable (S.enabled d a)] (p : σ × η) (a : α) : Decidable ((S.record h₀ note).enabled p a) :=
  inferInstanceAs (Decidable (S.enabled p.1 a))

/-- No side condition: every run. -/
abbrev Always : σ → α → Prop := fun _ _ => True

namespace System

variable {S : System σ α} {C C' : σ → α → Prop} {I : σ → Prop} {d : σ} {as : List α}

theorem Reach.invariant (h₀ : I S.init)
    (hs : ∀ d a, S.Reach C d → I d → S.enabled d a → C d a → I (S.next d a)) (h : S.Reach C d) : I d := by
  induction h with
  | init => exact h₀
  | step hr he hc ih => exact hs _ _ hr ih he hc

theorem Reach.mono (hC : ∀ d a, S.Reach C d → S.enabled d a → C d a → C' d a) (h : S.Reach C d) : S.Reach C' d := by
  induction h with
  | init => exact .init
  | step hr he hc ih => exact .step ih he (hC _ _ hr he hc)

theorem Reach.run (h : S.Reach C d) (hr : S.Run C d as) : S.Reach C (S.after d as) := by
  induction as generalizing d with
  | nil => exact h
  | cons a as ih => exact ih (h.step hr.1 hr.2.1) hr.2.2

theorem Run.mono (hC : ∀ a ∈ as, ∀ d, C d a → C' d a) (h : S.Run C d as) : S.Run C' d as := by
  induction as generalizing d with
  | nil => trivial
  | cons a as ih =>
    obtain ⟨he, hc, hr⟩ := h
    exact ⟨he, hC a List.mem_cons_self d hc, ih (fun b hb => hC b (List.mem_cons_of_mem _ hb)) hr⟩

/-- The refinement rule. Each step of `S` is, seen through `abs`, a step of `T`
or none at all; so what `S` reaches is seen as something `T` reaches. -/
theorem Reach.refine {τ β : Type} {T : System τ β} {D : τ → β → Prop} (abs : σ → τ) (h₀ : abs S.init = T.init)
    (hs : ∀ d a, S.Reach C d → S.enabled d a → C d a →
      abs (S.next d a) = abs d ∨ ∃ b, T.enabled (abs d) b ∧ D (abs d) b ∧ abs (S.next d a) = T.next (abs d) b)
    (h : S.Reach C d) : T.Reach D (abs d) := by
  induction h with
  | init => rw [h₀]; exact .init
  | step hr he hc ih =>
    rcases hs _ _ hr he hc with heq | ⟨b, hb, hD, heq⟩
    · rw [heq]; exact ih
    · rw [heq]; exact ih.step hb hD

section Record

variable {η : Type} {h₀ : η} {note : η → σ → α → η} {p : σ × η} {D : σ × η → α → Prop}

theorem Reach.forget (hC : ∀ p a, D p a → C p.1 a) (h : (S.record h₀ note).Reach D p) : S.Reach C p.1 :=
  h.refine Prod.fst rfl fun p a _ he hc => .inr ⟨a, he, hC p a hc, rfl⟩

variable (h₀ note) in
theorem Reach.recorded (h : S.Reach C d) : ∃ b, (S.record h₀ note).Reach (fun p a => C p.1 a) (d, b) := by
  induction h with
  | init => exact ⟨h₀, .init⟩
  | @step d a _ he hc ih =>
    obtain ⟨b, hb⟩ := ih
    exact ⟨note b d a, hb.step he hc⟩

end Record

end System
end Lib
