/-
A budget granted in order, and windows of a rotated list.

`grant b l` gives each entry of `l` what it asks for, in order, until the
budget `b` is spent: what a list of requesters gets depends on the requesters
before it only through the sum they ask for (`grant_append`). So an entry
that gets anything has seen everybody before it served in full
(`grant_before`), and a budget that is not spent has served everybody
(`grant_all`).

A window of `b` entries that moves on by one entry a turn shows each entry
`min b n` times in `n` turns (`sum_count_rotate`).
-/
import Mathlib.Data.List.Rotate
import Mathlib.Algebra.Order.BigOperators.Group.List
import Mathlib.Algebra.Order.Ring.Nat

namespace Lib

variable {ι : Type}

/-- What a list of requesters asks for. -/
def asked (l : List (ι × Nat)) : Nat := (l.map Prod.snd).sum

/-- Each requester in turn gets what it asks for or what is left; those that
get nothing are dropped. -/
def grant : Nat → List (ι × Nat) → List (ι × Nat)
  | _, [] => []
  | b, (i, n) :: l => if min n b = 0 then grant b l else (i, min n b) :: grant (b - n) l

section Grant

variable {b n : Nat} {i : ι} {l l₁ l₂ : List (ι × Nat)}

@[simp] theorem asked_nil : asked ([] : List (ι × Nat)) = 0 := rfl

@[simp] theorem asked_cons : asked ((i, n) :: l) = n + asked l := by simp [asked]

@[simp] theorem asked_append : asked (l₁ ++ l₂) = asked l₁ + asked l₂ := by simp [asked]

@[simp] theorem grant_zero : grant 0 l = [] := by
  induction l with
  | nil => rfl
  | cons p l ih => simp [grant, ih]

theorem grant_append : grant b (l₁ ++ l₂) = grant b l₁ ++ grant (b - asked l₁) l₂ := by
  induction l₁ generalizing b with
  | nil => simp [grant]
  | cons p l₁ ih =>
    obtain ⟨i, n⟩ := p
    rw [List.cons_append, grant, grant, asked_cons]
    by_cases h0 : min n b = 0
    · rw [if_pos h0, if_pos h0, ih]
      by_cases hb : b = 0
      · simp [hb]
      · obtain rfl : n = 0 := by omega
        rw [Nat.zero_add]
    · rw [if_neg h0, if_neg h0, ih, List.cons_append, Nat.sub_sub]

theorem asked_grant : asked (grant b l) = min b (asked l) := by
  induction l generalizing b with
  | nil => simp [grant]
  | cons p l ih =>
    obtain ⟨i, n⟩ := p
    rw [grant, asked_cons]
    split
    next h0 => rw [ih]; omega
    next h0 => rw [asked_cons, ih]; omega

theorem mem_grant (h : (i, n) ∈ grant b l) : 0 < n ∧ ∃ m, (i, m) ∈ l ∧ n ≤ m := by
  induction l generalizing b with
  | nil => cases h
  | cons p l ih =>
    obtain ⟨j, m⟩ := p
    have tail : ∀ b, (i, n) ∈ grant b l → 0 < n ∧ ∃ m', (i, m') ∈ (j, m) :: l ∧ n ≤ m' := by
      intro b h
      obtain ⟨hpos, m', hm', hle⟩ := ih h
      exact ⟨hpos, m', List.mem_cons_of_mem _ hm', hle⟩
    rw [grant] at h
    split at h
    next => exact tail b h
    next h0 =>
      rcases List.mem_cons.mp h with heq | h
      · cases heq
        exact ⟨by omega, m, List.mem_cons_self, by omega⟩
      · exact tail _ h

theorem grant_all (h : asked l ≤ b) (hmem : (i, n) ∈ l) (hn : 0 < n) : (i, n) ∈ grant b l := by
  induction l generalizing b with
  | nil => cases hmem
  | cons p l ih =>
    obtain ⟨j, m⟩ := p
    rw [asked_cons] at h
    rw [grant]
    rcases List.mem_cons.mp hmem with heq | hmem
    · cases heq
      rw [if_neg (by omega), Nat.min_eq_left (by omega)]
      exact List.mem_cons_self
    · split
      next h0 => exact ih (by omega) hmem
      next => exact List.mem_cons_of_mem _ (ih (by omega) hmem)

theorem grant_before (h : grant (b - asked l₁) l₂ ≠ []) : asked l₁ < b := by
  by_contra hle
  rw [Nat.sub_eq_zero_of_le (not_lt.mp hle), grant_zero] at h
  exact h rfl

theorem grant_priority (h : grant (b - asked l₁) l₂ ≠ []) (hmem : (i, n) ∈ l₁) (hn : 0 < n) :
    (i, n) ∈ grant b (l₁ ++ l₂) := by
  rw [grant_append]
  exact List.mem_append_left _ (grant_all (grant_before h).le hmem hn)

theorem le_asked (h : (i, n) ∈ l) : n ≤ asked l :=
  List.single_le_sum (fun _ _ => Nat.zero_le _) n (List.mem_map_of_mem h)

theorem grant_units (l : List ι) : grant b (l.map fun i => (i, 1)) = (l.take b).map fun i => (i, 1) := by
  induction l generalizing b with
  | nil => simp [grant]
  | cons i l ih =>
    rw [List.map_cons, grant]
    cases b with
    | zero => simp
    | succ b =>
      rw [if_neg (by omega), Nat.min_eq_left (by omega), Nat.add_sub_cancel, ih, List.take_succ_cons, List.map_cons]

end Grant

/-! ## Windows -/

section Windows

/-- The entries that stand at one place of the window over a full turn are the
whole list. -/
theorem map_getElem_rotate (l : List ι) (r b : Nat) :
    ((List.range l.length).map fun k => (l.rotate (r + k))[b]?) =
      if b < l.length then (l.rotate (r + b)).map some else List.replicate l.length none := by
  split
  next hb =>
    refine List.ext_getElem (by simp) fun k h₁ h₂ => ?_
    have hk : k < l.length := by simpa using h₁
    simp only [List.getElem_map, List.getElem_range]
    rw [List.getElem?_eq_getElem (by simpa using hb), List.getElem_rotate, List.getElem_rotate]
    congr 3
    omega
  next hb =>
    refine List.ext_getElem (by simp) fun k h₁ h₂ => ?_
    simp only [List.getElem_map, List.getElem_range, List.getElem_replicate]
    rw [List.getElem?_eq_none]
    simpa using hb

variable [DecidableEq ι]

theorem count_take_succ (l : List ι) (b : Nat) (x : ι) :
    (l.take (b + 1)).count x = (l.take b).count x + if l[b]? = some x then 1 else 0 := by
  by_cases hb : b < l.length
  · rw [List.take_succ_eq_append_getElem hb, List.count_append, List.getElem?_eq_getElem hb]
    simp [List.count_singleton]
  · have hle : l.length ≤ b := not_lt.mp hb
    rw [List.take_of_length_le hle, List.take_of_length_le (by omega), List.getElem?_eq_none hle]
    simp

theorem sum_ite_eq_count (l : List ι) (x : ι) : (l.map fun a => if some a = some x then 1 else 0).sum = l.count x := by
  induction l with
  | nil => rfl
  | cons a l ih =>
    rw [List.map_cons, List.sum_cons, ih, List.count_cons]
    simp only [Option.some.injEq, beq_iff_eq]
    omega

/-- **Round robin**: a window of `b` entries, moved on by one entry a turn,
shows an entry `min b n` times in `n` turns, for each time it is listed. -/
theorem sum_count_rotate (l : List ι) (r b : Nat) (x : ι) :
    ((List.range l.length).map fun k => ((l.rotate (r + k)).take b).count x).sum = min b l.length * l.count x := by
  induction b with
  | zero => simp
  | succ b ih =>
    have hsum : ((List.range l.length).map fun k => ((l.rotate (r + k)).take (b + 1)).count x).sum =
        min b l.length * l.count x +
          (((List.range l.length).map fun k => (l.rotate (r + k))[b]?).map fun o =>
            if o = some x then 1 else 0).sum := by
      rw [← ih, List.map_map, ← List.sum_map_add]
      simp only [count_take_succ, Function.comp_def]
    rw [hsum, map_getElem_rotate]
    by_cases hb : b < l.length
    · rw [if_pos hb, List.map_map, Function.comp_def, sum_ite_eq_count, (List.rotate_perm l _).count_eq,
        Nat.min_eq_left (by omega), Nat.min_eq_left (by omega), Nat.succ_mul]
    · rw [if_neg hb, Nat.min_eq_right (by omega), Nat.min_eq_right (by omega)]
      simp

end Windows
end Lib
