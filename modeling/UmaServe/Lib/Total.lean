/-
The total of a quantity over the values of an association list. It is
compared key by key, whatever the order of the entries: a key that is gone
counts for nothing, and one that is new has to (`total_le`, `total_lt`).
-/
import Mathlib.Algebra.Order.BigOperators.Ring.Finset
import UmaServe.Lib.Keyed

namespace AList

variable {α β : Type} [DecidableEq α] {s s' : AList fun _ : α => β} {f : β → Nat} {k : α} {b : β}

def total (f : β → Nat) (s : AList fun _ : α => β) : Nat := (s.entries.map fun e => f e.2).sum

/-- What a key counts for. -/
def worth (f : β → Nat) (s : AList fun _ : α => β) (k : α) : Nat := (s.lookup k).elim 0 f

theorem worth_some (h : s.lookup k = some b) : s.worth f k = f b := by rw [worth, h]; rfl

theorem worth_none (h : s.lookup k = none) : s.worth f k = 0 := by rw [worth, h]; rfl

theorem total_eq (f : β → Nat) (s : AList fun _ : α => β) : s.total f = ∑ k ∈ s.keys.toFinset, s.worth f k := by
  have hworth : s.entries.map (fun e => f e.2) = s.keys.map (s.worth f) := by
    rw [keys, List.keys, List.map_map]
    refine List.map_congr_left fun e he => ?_
    exact (worth_some (mem_entries_iff.mp he)).symm
  rw [total, hworth, ← List.sum_toFinset _ s.keys_nodup]

theorem total_eq_sum {t : Finset α} (h : s.keys.toFinset ⊆ t) : s.total f = ∑ k ∈ t, s.worth f k := by
  rw [total_eq]
  refine Finset.sum_subset h fun k _ hk => worth_none (lookup_eq_none.mpr fun hmem => hk ?_)
  exact List.mem_toFinset.mpr (mem_keys.mp hmem)

theorem total_le (h : ∀ k b, s'.lookup k = some b → f b ≤ s.worth f k) : s'.total f ≤ s.total f := by
  rw [total_eq_sum (t := s.keys.toFinset ∪ s'.keys.toFinset) Finset.subset_union_left,
    total_eq_sum (t := s.keys.toFinset ∪ s'.keys.toFinset) Finset.subset_union_right]
  refine Finset.sum_le_sum fun k _ => ?_
  cases hk : s'.lookup k with
  | none => rw [worth_none hk]; exact Nat.zero_le _
  | some b => rw [worth_some hk]; exact h k b hk

theorem total_lt (h : ∀ k b, s'.lookup k = some b → f b ≤ s.worth f k) (hk : s.lookup k = some b)
    (hlt : s'.worth f k < f b) : s'.total f < s.total f := by
  rw [total_eq_sum (t := s.keys.toFinset ∪ s'.keys.toFinset) Finset.subset_union_left,
    total_eq_sum (t := s.keys.toFinset ∪ s'.keys.toFinset) Finset.subset_union_right]
  have hmem : k ∈ s.keys.toFinset := by
    rw [List.mem_toFinset, ← mem_keys, ← lookup_isSome, hk]
    rfl
  refine Finset.sum_lt_sum (fun j _ => ?_) ⟨k, Finset.mem_union_left _ hmem, by rw [worth_some hk]; exact hlt⟩
  cases hj : s'.lookup j with
  | none => rw [worth_none hj]; exact Nat.zero_le _
  | some b => rw [worth_some hj]; exact h j b hj

theorem le_total (hk : s.lookup k = some b) : f b ≤ s.total f := by
  have hmem : k ∈ s.keys.toFinset := by
    rw [List.mem_toFinset, ← mem_keys, ← lookup_isSome, hk]
    rfl
  rw [total_eq, ← worth_some (f := f) hk]
  exact Finset.single_le_sum (fun _ _ => Nat.zero_le _) hmem

theorem exists_of_total (h : s.total f ≠ 0) : ∃ k b, s.lookup k = some b ∧ f b ≠ 0 := by
  rw [total_eq] at h
  obtain ⟨k, -, hk⟩ := Finset.exists_ne_zero_of_sum_ne_zero h
  cases hl : s.lookup k with
  | none => exact absurd (worth_none hl) hk
  | some b => exact ⟨k, b, hl, by rwa [worth_some hl] at hk⟩

end AList
