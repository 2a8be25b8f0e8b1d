/-
A server that takes at most one item each time it looks. `total` counts the
items that have come, after a history of events with the last event first;
`taken` counts those it has taken. They are the least, over the moments of the
history, of what had come by then and one for each look since (`taken_le`,
`exists_taken_eq`).
-/
import Mathlib.Data.List.Basic

namespace Lib

/-- The items taken: one at a look, if there is one. -/
def taken {α : Type} (total : List α → Nat) (look : α → Bool) : List α → Nat
  | [] => 0
  | a :: l => if look a then min (taken total look l + 1) (total (a :: l)) else taken total look l

variable {α : Type} {total : List α → Nat} (look : α → Bool) {a : α} {l : List α}

theorem taken_cons (hle : taken total look l ≤ total (a :: l)) :
    taken total look (a :: l) = min (taken total look l + (look a).toNat) (total (a :: l)) := by
  cases h : look a with
  | true => rw [taken, if_pos h]; rfl
  | false => rw [taken, if_neg (by simp [h]), Bool.toNat_false, Nat.add_zero, Nat.min_eq_left hle]

theorem taken_le_total (hmono : ∀ a l, total l ≤ total (a :: l)) (l : List α) : taken total look l ≤ total l := by
  induction l with
  | nil => exact Nat.zero_le _
  | cons a l ih =>
    rw [taken_cons look (Nat.le_trans ih (hmono a l))]
    exact Nat.min_le_right _ _

/-- No more is taken than had come at an earlier moment and one for each look
since. -/
theorem taken_le (hmono : ∀ a l, total l ≤ total (a :: l)) (late early : List α) :
    taken total look (late ++ early) ≤ total early + late.countP look := by
  induction late with
  | nil => exact taken_le_total look hmono early
  | cons a late ih =>
    rw [List.cons_append, taken_cons look (Nat.le_trans (taken_le_total look hmono _) (hmono a _)), List.countP_cons]
    cases h : look a <;> simp <;> omega

theorem exists_taken_eq (h0 : total [] = 0) (hmono : ∀ a l, total l ≤ total (a :: l)) (l : List α) :
    ∃ late early, l = late ++ early ∧ taken total look l = total early + late.countP look := by
  induction l with
  | nil => exact ⟨[], [], rfl, h0.symm⟩
  | cons a l ih =>
    obtain ⟨late, early, hl, ih⟩ := ih
    have hcons : taken total look (a :: l) = _ := taken_cons look (Nat.le_trans (taken_le_total look hmono l) (hmono a l))
    rcases Nat.le_total (taken total look l + (look a).toNat) (total (a :: l)) with hle | hle
    · refine ⟨a :: late, early, by rw [hl, List.cons_append], ?_⟩
      rw [hcons, Nat.min_eq_left hle, ih, List.countP_cons]
      cases look a <;> rfl
    · exact ⟨[], a :: l, rfl, by rw [hcons, Nat.min_eq_right hle]; rfl⟩

theorem taken_eq_total (hmono : ∀ a l, total l ≤ total (a :: l)) (hone : total (a :: l) ≤ total l + (look a).toNat)
    (h : taken total look l = total l) : taken total look (a :: l) = total (a :: l) := by
  rw [taken_cons look (Nat.le_trans (Nat.le_of_eq h) (hmono a l)), h, Nat.min_eq_right hone]

end Lib
