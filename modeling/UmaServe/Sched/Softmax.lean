/-
What the sampler draws from. With `exp` for the weight and a draw uniform on
[0, 1), each token it can choose has the probability that the softmax at this
temperature gives it among them (`sampler_softmax`).
-/
import Mathlib.Analysis.SpecialFunctions.Exp
import UmaServe.Lib.InverseCdf
import UmaServe.Sched.Sampler

namespace UmaServe

open MeasureTheory

/-- The tokens the sampler chooses among: the kept prefix of the ranking. -/
noncomputable def candidates (logits : Nat → ℝ) (nVocab : Nat) (temperature topP : ℝ) (topK : Int) (idx : List Nat) :
    List Nat :=
  let kept := idx.take (useN topK nVocab)
  kept.take (cutOf topP (normalised (weights Real.exp logits temperature kept)) (useN topK nVocab))

/-- The softmax of the logits of some tokens. -/
noncomputable def softmax (logits : Nat → ℝ) (temperature : ℝ) (ts : List Nat) (t : Nat) : ℝ :=
  Real.exp (logits t / temperature) / (ts.map fun u => Real.exp (logits u / temperature)).sum

section Softmax

variable {K : Type} [Field K] {vs : List K} {c : K} {logits : Nat → ℝ} {nVocab i t : Nat} {temperature topP r m : ℝ}
  {topK : Int} {idx ts : List Nat}

theorem normalised_div (hc : c ≠ 0) : normalised (vs.map (· / c)) = normalised vs := by
  have hsum : (vs.map (· / c)).sum = vs.sum / c := by
    simp only [div_eq_mul_inv]
    rw [List.sum_map_mul_right, List.map_id']
  rw [normalised, hsum, List.map_map, normalised]
  refine List.map_congr_left fun v _ => ?_
  exact div_div_div_cancel_right₀ hc v vs.sum

theorem normalised_shift : normalised (ts.map fun u => Real.exp (logits u * (1 / temperature) - m)) =
    ts.map (softmax logits temperature ts) := by
  have hshift : (ts.map fun u => Real.exp (logits u * (1 / temperature) - m)) =
      (ts.map fun u => Real.exp (logits u / temperature)).map (· / Real.exp m) := by
    rw [List.map_map]
    refine List.map_congr_left fun u _ => ?_
    rw [Function.comp_apply, mul_one_div, Real.exp_sub]
  rw [hshift, normalised_div (Real.exp_ne_zero m), normalised, List.map_map]
  rfl

/-- The probabilities the sampler draws by. -/
theorem kept_softmax {kept : List Nat} {probs : List ℝ} {cut : Nat} (hkept : kept = idx.take (useN topK nVocab))
    (hprobs : probs = normalised (weights Real.exp logits temperature kept))
    (hcut : cut = cutOf topP probs (useN topK nVocab)) (hne : (weights Real.exp logits temperature kept).sum ≠ 0) :
    let ts := candidates logits nVocab temperature topP topK idx
    normalised (probs.take cut) = ts.map (softmax logits temperature ts) := by
  intro ts
  have hts : ts = kept.take cut := by rw [hcut, hprobs, hkept]; rfl
  have htake : probs.take cut = ((weights Real.exp logits temperature kept).take cut).map
      (· / (weights Real.exp logits temperature kept).sum) := by
    rw [hprobs]
    exact List.map_take.symm
  rw [htake, normalised_div hne, weights, ← List.map_take, ← hts, normalised_shift]

theorem sampleIn_reach (topP : ℝ) (hn : 0 < nVocab) (ht : 0 < temperature)
    (hidx : PartiallySorted logits nVocab (useN topK nVocab) idx) :
    let ts := candidates logits nVocab temperature topP topK idx
    let ps := ts.map (softmax logits temperature ts)
    (∀ p ∈ ps, 0 < p) ∧ ps.sum = 1 ∧ ∀ r, ∃ u, ts[Lib.reach r 0 ps - 1]? = some u ∧
      sampleIn Real.exp logits nVocab temperature topP topK idx r = (u : Token) := by
  intro ts ps
  obtain ⟨kept, hkept⟩ : ∃ kept, kept = idx.take (useN topK nVocab) := ⟨_, rfl⟩
  obtain ⟨probs, hprobs⟩ : ∃ probs, probs = normalised (weights Real.exp logits temperature kept) := ⟨_, rfl⟩
  obtain ⟨cut, hcut⟩ : ∃ cut, cut = cutOf topP probs (useN topK nVocab) := ⟨_, rfl⟩
  have hk : 0 < useN topK nVocab := useN_pos hn
  have hlen : kept.length = useN topK nVocab := by
    rw [hkept, List.length_take, hidx.perm.length_eq, List.length_range, Nat.min_eq_left useN_le]
  have hw : ∀ v ∈ weights Real.exp logits temperature kept, 0 < v := weights_pos Real.exp_pos
  have hwne : weights Real.exp logits temperature kept ≠ [] := by
    rw [weights, ← List.length_pos_iff, List.length_map, hlen]
    exact hk
  have hwsum := sum_pos_of_pos hw hwne
  have hplen : probs.length = useN topK nVocab := by
    rw [hprobs, normalised, weights, List.length_map, List.length_map, hlen]
  have hps : normalised (probs.take cut) = ps := kept_softmax hkept hprobs hcut hwsum.ne'
  have hpos : ∀ q ∈ probs.take cut, 0 < q := by
    intro q hq
    rw [hprobs] at hq
    exact normalised_pos hw q (List.mem_of_mem_take hq)
  have hpne : probs.take cut ≠ [] := by
    have hsum : probs.sum = 1 := by
      rw [hprobs]
      exact normalised_sum hwsum.ne'
    have hcutpos : 0 < cut := hcut ▸ (cutOf_spec hsum (List.length_pos_iff.mp (hk.trans_eq hplen.symm)) hplen).1
    rw [← List.length_pos_iff, List.length_take, hplen]
    omega
  have hne : ps ≠ [] := by
    rw [← hps, normalised, ne_eq, List.map_eq_nil_iff]
    exact hpne
  refine ⟨by rw [← hps]; exact normalised_pos hpos, ?_, fun r => ⟨_, draw_eq (by simp [ps]) hne, ?_⟩⟩
  · rw [← hps]
    exact normalised_sum (sum_pos_of_pos hpos hpne).ne'
  · have hts : ts = kept.take cut := by rw [hcut, hprobs, hkept]; rfl
    rw [sampleIn, if_neg (by omega), if_neg ht.not_ge, nucleusIn, ← hkept, if_neg hwsum.not_ge, ← hprobs]
    dsimp only
    rw [← hcut, hps, hts]

/-- **The sampler draws from the softmax.** Of the draws in [0, 1), those that
give a token are as many as the softmax at this temperature says, among the
tokens that are kept; none gives another. Where neither top-k nor top-p cuts
anything off, these are all the tokens. -/
theorem sampler_softmax (topP : ℝ) (hn : 0 < nVocab) (ht : 0 < temperature)
    (hidx : PartiallySorted logits nVocab (useN topK nVocab) idx) (t : Nat) :
    let ts := candidates logits nVocab temperature topP topK idx
    volume {r ∈ Set.Ico (0 : ℝ) 1 | sampleIn Real.exp logits nVocab temperature topP topK idx r = t} =
        (if t ∈ ts then ENNReal.ofReal (softmax logits temperature ts t) else 0) ∧
      (¬ (0 < topK ∧ topK < nVocab) → 9999 / 10000 ≤ topP → ts.Perm (List.range nVocab)) := by
  intro ts
  obtain ⟨hpos, hsum, hdraw⟩ := sampleIn_reach topP hn ht hidx
  have hnodup : ts.Nodup := by
    have hall : idx.Nodup := hidx.perm.nodup_iff.mpr List.nodup_range
    exact (hall.sublist (List.take_sublist _ _)).sublist (List.take_sublist _ _)
  constructor
  · split
    next hmem =>
      obtain ⟨i, hi, rfl⟩ := List.mem_iff_getElem.mp hmem
      have hvol := Lib.volume_reach hpos hsum (i := i) (by simpa using hi)
      rw [List.getElem_map] at hvol
      rw [← hvol]
      congr 1
      ext r
      refine and_congr_right fun hr => ?_
      obtain ⟨u, hu, hsample⟩ := hdraw r
      have hreach : 0 < Lib.reach r 0 (ts.map (softmax logits temperature ts)) :=
        Lib.reach_pos (List.ne_nil_of_length_pos (by rw [List.length_map]; omega))
      rw [hsample, Nat.cast_inj]
      obtain ⟨hlt, hget⟩ := List.getElem?_eq_some_iff.mp hu
      rw [← hget, hnodup.getElem_inj_iff]
      exact Nat.sub_eq_iff_eq_add hreach
    next hmem =>
      refine measure_mono_null (fun r ⟨_, hr⟩ => ?_) measure_empty
      obtain ⟨u, hu, hsample⟩ := hdraw r
      rw [hsample, Nat.cast_inj] at hr
      exact hmem (hr ▸ List.mem_of_getElem? hu)
  · intro htop hp
    have hcut : ¬ clamped topP < 9999 / 10000 := by
      rw [clamped, not_lt]
      exact le_min (hp.trans (le_max_left _ _)) (by norm_num)
    have huse : useN topK nVocab = nVocab := if_neg htop
    have hlen : idx.length = nVocab := by rw [hidx.perm.length_eq, List.length_range]
    have hts : ts = idx := by
      simp only [ts, candidates, cutOf, if_neg hcut, huse]
      rw [List.take_take, Nat.min_self, List.take_of_length_le hlen.le]
    rw [hts]
    exact hidx.perm

/-- Of two tokens with the same logit, each is drawn half of the time. -/
theorem sampler_softmax_flat :
    volume {r ∈ Set.Ico (0 : ℝ) 1 | sampleIn Real.exp (fun _ => 0) 2 1 1 0 [0, 1] r = 1} = ENNReal.ofReal (1 / 2) := by
  have hsorted : PartiallySorted (fun _ => (0 : ℝ)) 2 (useN 0 2) [0, 1] := ⟨by decide, by simp [useN], by simp⟩
  obtain ⟨hvol, hperm⟩ := sampler_softmax 1 two_pos one_pos hsorted 1
  have hts := hperm (by decide) (by norm_num)
  have hsoft : softmax (fun _ => 0) 1 (candidates (fun _ => 0) 2 1 1 0 [0, 1]) 1 = 1 / 2 := by
    rw [softmax, (hts.map _).sum_eq]
    norm_num [List.range_succ]
  rw [if_pos (hts.mem_iff.mpr (by decide)), hsoft] at hvol
  exact hvol

end Softmax
end UmaServe
