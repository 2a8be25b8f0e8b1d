/-
Inverse-CDF sampling. The draws at which the running sum of a list of
probabilities is first reached by its `i`-th summand have that summand as
their measure (`volume_reach`).
-/
import Mathlib.MeasureTheory.Measure.Lebesgue.Basic
import UmaServe.Lib.PrefixSum

namespace Lib

open MeasureTheory

section InverseCdf

variable {ps : List ℝ} {r : ℝ} {i j : Nat}

theorem sum_take_mono (hpos : ∀ p ∈ ps, 0 < p) (h : i ≤ j) : (ps.take i).sum ≤ (ps.take j).sum := by
  obtain ⟨k, rfl⟩ := Nat.exists_eq_add_of_le h
  rw [List.take_add, List.sum_append]
  have hnonneg : 0 ≤ ((ps.drop i).take k).sum :=
    List.sum_nonneg fun p hp => (hpos p (List.mem_of_mem_drop (List.mem_of_mem_take hp))).le
  linarith

theorem sum_take_le (hpos : ∀ p ∈ ps, 0 < p) (h : i ≤ ps.length) : (ps.take i).sum ≤ ps.sum := by
  have hmono := sum_take_mono hpos h
  rwa [List.take_length] at hmono

theorem sum_take_nonneg (hpos : ∀ p ∈ ps, 0 < p) (i : Nat) : 0 ≤ (ps.take i).sum :=
  List.sum_nonneg fun p hp => (hpos p (List.mem_of_mem_take hp)).le

theorem reach_of_between (hi : i < ps.length) (hlow : (ps.take i).sum < r) (hhigh : r ≤ (ps.take (i + 1)).sum)
    (hpos : ∀ p ∈ ps, 0 < p) : reach r 0 ps = i + 1 := by
  have hne : ps ≠ [] := List.ne_nil_of_length_pos (Nat.zero_lt_of_lt hi)
  have hall : r ≤ 0 + ps.sum := by
    rw [zero_add]
    exact hhigh.trans (sum_take_le hpos hi)
  rcases Nat.lt_trichotomy (reach r 0 ps) (i + 1) with hlt | heq | hgt
  · have hreach := le_sum_reach hne hall
    have hmono := sum_take_mono hpos (Nat.lt_succ_iff.mp hlt)
    linarith
  · exact heq
  · have hbefore := sum_lt_of_lt_reach (Nat.succ_pos i) hgt
    linarith

/-- **A summand is drawn as often as it says.** -/
theorem volume_reach (hpos : ∀ p ∈ ps, 0 < p) (hsum : ps.sum = 1) (hi : i < ps.length) :
    volume {r ∈ Set.Ico (0 : ℝ) 1 | reach r 0 ps = i + 1} = ENNReal.ofReal ps[i] := by
  have hne : ps ≠ [] := List.ne_nil_of_length_pos (Nat.zero_lt_of_lt hi)
  have hnext : (ps.take (i + 1)).sum = (ps.take i).sum + ps[i] := by
    rw [List.take_add_one, List.getElem?_eq_getElem hi, List.sum_append]
    simp
  have htop : (ps.take (i + 1)).sum ≤ 1 := (sum_take_le hpos hi).trans_eq hsum
  apply le_antisymm
  · -- Every such draw is between the running sums.
    have hsub : {r ∈ Set.Ico (0 : ℝ) 1 | reach r 0 ps = i + 1} ⊆ Set.Icc (ps.take i).sum (ps.take (i + 1)).sum := by
      intro r ⟨hr, hreach⟩
      have hle := le_sum_reach hne (b := r) (c := 0) (by rw [zero_add, hsum]; exact hr.2.le)
      rw [hreach, zero_add] at hle
      refine ⟨?_, hle⟩
      rcases Nat.eq_zero_or_pos i with rfl | hpos'
      · rw [List.take_zero, List.sum_nil]
        exact hr.1
      · have hlt := sum_lt_of_lt_reach hpos' (show i < reach r 0 ps by omega)
        rw [zero_add] at hlt
        exact hlt.le
    calc volume {r ∈ Set.Ico (0 : ℝ) 1 | reach r 0 ps = i + 1}
        ≤ volume (Set.Icc (ps.take i).sum (ps.take (i + 1)).sum) := measure_mono hsub
      _ = ENNReal.ofReal ps[i] := by rw [Real.volume_Icc, hnext, add_sub_cancel_left]
  · -- Every draw strictly between them is one.
    have hsub : Set.Ioo (ps.take i).sum (ps.take (i + 1)).sum ⊆ {r ∈ Set.Ico (0 : ℝ) 1 | reach r 0 ps = i + 1} := by
      intro r hr
      exact ⟨⟨(sum_take_nonneg hpos i).trans hr.1.le, hr.2.trans_le htop⟩, reach_of_between hi hr.1 hr.2.le hpos⟩
    calc ENNReal.ofReal ps[i]
        = volume (Set.Ioo (ps.take i).sum (ps.take (i + 1)).sum) := by
          rw [Real.volume_Ioo, hnext, add_sub_cancel_left]
      _ ≤ volume {r ∈ Set.Ico (0 : ℝ) 1 | reach r 0 ps = i + 1} := measure_mono hsub

end InverseCdf
end Lib
