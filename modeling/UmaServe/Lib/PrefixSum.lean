/-
Running sums. `reach b c ps` is the length of the shortest non-empty prefix
of `ps` whose sum, on top of `c`, reaches `b`; the whole list when none does.
-/
import Mathlib.Algebra.Order.Field.Basic
import Mathlib.Algebra.Order.BigOperators.Group.List

namespace Lib

variable {K : Type} [AddCommMonoid K] [LinearOrder K]

def reach (b : K) : K → List K → Nat
  | _, [] => 0
  | c, p :: ps => if b ≤ c + p then 1 else reach b (c + p) ps + 1

section Reach

variable {b c : K} {ps : List K} {j : Nat}

theorem reach_pos (h : ps ≠ []) : 0 < reach b c ps := by
  cases ps with
  | nil => exact absurd rfl h
  | cons p ps =>
    rw [reach]
    split <;> omega

theorem reach_le_length : reach b c ps ≤ ps.length := by
  induction ps generalizing c with
  | nil => exact Nat.le_refl 0
  | cons p ps ih =>
    rw [reach, List.length_cons]
    split
    · omega
    · exact Nat.succ_le_succ ih

theorem sum_lt_of_lt_reach (hpos : 0 < j) (h : j < reach b c ps) : c + (ps.take j).sum < b := by
  induction ps generalizing c j with
  | nil => exact absurd h (Nat.not_lt_zero j)
  | cons p ps ih =>
    rw [reach] at h
    split at h
    next => omega
    next hp =>
      obtain ⟨j, rfl⟩ : ∃ i, j = i + 1 := ⟨j - 1, by omega⟩
      rw [List.take_succ_cons, List.sum_cons, ← add_assoc]
      cases j with
      | zero => simpa using hp
      | succ j => exact ih (Nat.succ_pos j) (by omega)

theorem le_sum_reach (hne : ps ≠ []) (h : b ≤ c + ps.sum) : b ≤ c + (ps.take (reach b c ps)).sum := by
  induction ps generalizing c with
  | nil => exact absurd rfl hne
  | cons p ps ih =>
    rw [reach]
    split
    next hp => simpa using hp
    next hp =>
      rw [List.take_succ_cons, List.sum_cons, ← add_assoc]
      rw [List.sum_cons, ← add_assoc] at h
      cases ps with
      | nil => exact absurd (by simpa using h) hp
      | cons p' ps => exact ih (by simp) h

theorem reach_eq_one {p : K} (h : b ≤ c + p) : reach b c (p :: ps) = 1 := by
  rw [reach, if_pos h]

end Reach
end Lib
