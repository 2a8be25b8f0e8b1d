/-
What the sampler chooses. The token is drawn from the kept prefix of the
ranked indices, and which one is said by running sums of the probabilities
(`sampler_choice`).
-/
import Mathlib.Algebra.BigOperators.Ring.List
import UmaServe.Sched.Sampling

namespace UmaServe

/-! ## The ranking -/

/-- What `std::partial_sort` leaves: the first `k` indices have the greatest
logits, in order. -/
structure PartiallySorted {K : Type} [LinearOrder K] (logits : Nat → K) (nVocab k : Nat) (idx : List Nat) :
    Prop where
  perm : idx.Perm (List.range nVocab)
  sorted : (idx.take k).Pairwise fun a b => logits b ≤ logits a
  rest : ∀ a ∈ idx.take k, ∀ b ∈ idx.drop k, logits b ≤ logits a

section Rank

variable {K : Type} [LinearOrder K] {logits : Nat → K} {nVocab k i t : Nat} {idx : List Nat} {topK : Int}

theorem useN_pos (hn : 0 < nVocab) : 0 < useN topK nVocab := by
  rw [useN]
  split <;> omega

theorem useN_le : useN topK nVocab ≤ nVocab := by
  rw [useN]
  split <;> omega

theorem PartiallySorted.le_of_rank (h : PartiallySorted logits nVocab k idx) (ht : (idx.take k)[i]? = some t) :
    ∀ u ∈ idx.drop i, logits u ≤ logits t := by
  obtain ⟨hi, hget⟩ := List.getElem?_eq_some_iff.mp ht
  have hdrop : idx.drop i = (idx.take k).drop i ++ idx.drop k := by
    rw [← List.drop_append_of_le_length hi.le, List.take_append_drop]
  have hcons : (idx.take k).drop i = t :: (idx.take k).drop (i + 1) := by
    rw [List.drop_eq_getElem_cons hi, hget]
  intro u hu
  rw [hdrop, List.mem_append] at hu
  rcases hu with hu | hu
  · have hsorted := h.sorted.drop (i := i)
    rw [hcons] at hu hsorted
    rcases List.mem_cons.mp hu with rfl | hu
    · exact le_rfl
    · exact (List.pairwise_cons.mp hsorted).1 u hu
  · exact h.rest t (List.mem_of_getElem? ht) u hu

theorem PartiallySorted.count_le (h : PartiallySorted logits nVocab k idx) (ht : (idx.take k)[i]? = some t) :
    ((List.range nVocab).filter fun u => logits t < logits u).length ≤ i := by
  have hnone : (idx.drop i).filter (fun u => logits t < logits u) = [] :=
    List.filter_eq_nil_iff.mpr fun u hu => by simpa using h.le_of_rank ht u hu
  rw [← (h.perm.filter _).length_eq, ← List.take_append_drop i idx, List.filter_append, hnone, List.append_nil]
  exact (List.length_filter_le _ _).trans (List.length_take_le _ _)

theorem PartiallySorted.greatest (h : PartiallySorted logits nVocab k idx) (ht : (idx.take k)[0]? = some t) :
    ∀ u < nVocab, logits u ≤ logits t := by
  intro u hu
  exact h.le_of_rank ht u (h.perm.symm.subset (List.mem_range.mpr hu))

end Rank

/-! ## The probabilities -/

section Probs

variable {K : Type} [Field K] {weight : K → K} {logits : Nat → K} {temperature topP r acc : K} {kept : List Nat}
  {vs ps : List K} {k : Nat}

theorem normalised_take (j : Nat) : ((normalised vs).take j).sum = (vs.take j).sum / vs.sum := by
  simp only [normalised, ← List.map_take, div_eq_mul_inv]
  rw [List.sum_map_mul_right, List.map_id']

theorem normalised_sum (h : vs.sum ≠ 0) : (normalised vs).sum = 1 := by
  have htake : ((normalised vs).take vs.length).sum = _ := normalised_take vs.length
  rwa [List.take_of_length_le (by simp [normalised]), List.take_length, div_self h] at htake

variable [LinearOrder K]

theorem weights_pos (hpos : ∀ x, 0 < weight x) : ∀ v ∈ weights weight logits temperature kept, 0 < v := by
  intro v hv
  obtain ⟨t, -, rfl⟩ := List.mem_map.mp hv
  exact hpos _

theorem draw_eq {ts : List Nat} (hlen : ts.length = ps.length) (hne : ps ≠ []) :
    ts[Lib.reach r acc ps - 1]? = some (draw r acc (ts.zip ps)) := by
  induction ps generalizing ts acc with
  | nil => exact absurd rfl hne
  | cons p ps ih =>
    obtain ⟨t, ts, rfl⟩ : ∃ t ts', ts = t :: ts' := List.exists_cons_of_length_eq_add_one hlen
    have hlen' : ts.length = ps.length := Nat.succ.inj hlen
    cases ps with
    | nil =>
      obtain rfl : ts = [] := List.length_eq_zero_iff.mp hlen'
      simp [Lib.reach, draw]
    | cons p' ps =>
      obtain ⟨t', ts, rfl⟩ : ∃ t ts', ts = t :: ts' := List.exists_cons_of_length_eq_add_one hlen'
      rw [List.zip_cons_cons, List.zip_cons_cons, draw, Lib.reach]
      · split
        · rfl
        · have hpos : 0 < Lib.reach r (acc + p) (p' :: ps) := Lib.reach_pos (by simp)
          rw [Nat.add_sub_cancel, ← Nat.sub_add_cancel hpos, List.getElem?_cons_succ]
          exact ih hlen' (by simp)
      · simp

/-- What is cut off. -/
theorem cutOf_spec (hsum : ps.sum = 1) (hne : ps ≠ []) (hk : ps.length = k) :
    0 < cutOf topP ps k ∧ cutOf topP ps k ≤ k ∧
      (clamped topP < 9999 / 10000 → clamped topP ≤ (ps.take (cutOf topP ps k)).sum ∧
        ∀ j, 0 < j → j < cutOf topP ps k → (ps.take j).sum < clamped topP) ∧
      (¬ clamped topP < 9999 / 10000 → cutOf topP ps k = k) := by
  have hpos : 0 < Lib.reach (clamped topP) 0 ps := Lib.reach_pos hne
  have hle : Lib.reach (clamped topP) 0 ps ≤ ps.length := Lib.reach_le_length
  by_cases h : clamped topP < 9999 / 10000
  · have hcut : cutOf topP ps k = Lib.reach (clamped topP) 0 ps := by
      rw [cutOf, if_pos h]
      omega
    refine ⟨by omega, by omega, fun _ => ⟨?_, fun j hj hlt => ?_⟩, fun hn => absurd h hn⟩
    · have hreach := Lib.le_sum_reach (b := clamped topP) (c := 0) hne (by
        rw [hsum, zero_add]
        exact min_le_right _ _)
      rwa [zero_add, ← hcut] at hreach
    · rw [hcut] at hlt
      simpa using Lib.sum_lt_of_lt_reach hj hlt
  · have hcut : cutOf topP ps k = k := by rw [cutOf, if_neg h]
    have hlen := List.length_pos_iff.mpr hne
    exact ⟨by omega, by omega, fun hc => absurd hc h, fun _ => hcut⟩

variable [IsStrictOrderedRing K]

theorem sum_pos_of_pos (h : ∀ v ∈ vs, 0 < v) (hne : vs ≠ []) : 0 < vs.sum := by
  cases vs with
  | nil => exact absurd rfl hne
  | cons v vs =>
    obtain ⟨hv, h⟩ := List.forall_mem_cons.mp h
    rw [List.sum_cons]
    exact add_pos_of_pos_of_nonneg hv (List.sum_nonneg fun w hw => (h w hw).le)

theorem weights_sorted (hmono : Monotone weight) (ht : 0 < temperature)
    (h : kept.Pairwise fun a b => logits b ≤ logits a) :
    (weights weight logits temperature kept).Pairwise fun a b => b ≤ a := by
  rw [weights, List.pairwise_map]
  refine h.imp fun hab => hmono (sub_le_sub_right ?_ _)
  exact mul_le_mul_of_nonneg_right hab (one_div_pos.mpr ht).le

theorem normalised_pos (h : ∀ v ∈ vs, 0 < v) : ∀ q ∈ normalised vs, 0 < q := by
  intro q hq
  obtain ⟨v, hv, rfl⟩ := List.mem_map.mp hq
  exact div_pos (h v hv) (sum_pos_of_pos h (List.ne_nil_of_mem hv))

theorem normalised_sorted (h : ∀ v ∈ vs, 0 < v) (hs : vs.Pairwise fun a b => b ≤ a) :
    (normalised vs).Pairwise fun a b => b ≤ a := by
  rw [normalised, List.pairwise_map]
  refine hs.imp_of_mem fun ha _ hab => ?_
  exact div_le_div_of_nonneg_right hab (sum_pos_of_pos h (List.ne_nil_of_mem ha)).le

theorem clamped_lt (h : topP < 9999 / 10000) : clamped topP < 9999 / 10000 :=
  min_lt_of_left_lt (max_lt h (by norm_num))

theorem cutOf_eq_one (hpos : ∀ q ∈ ps, 0 < q) (hs : ps.Pairwise fun a b => b ≤ a) (hlow : topP < 9999 / 10000)
    (h : ∃ q ∈ ps, topP ≤ q) : cutOf topP ps k = 1 := by
  obtain ⟨q, hq, hle⟩ := h
  cases ps with
  | nil => cases hq
  | cons p ps =>
    have hqp : q ≤ p := by
      rcases List.mem_cons.mp hq with rfl | hq
      · exact le_rfl
      · exact (List.pairwise_cons.mp hs).1 q hq
    have hp : clamped topP ≤ 0 + p := by
      rw [zero_add]
      exact (min_le_left _ _).trans (max_le (hle.trans hqp) (hpos p List.mem_cons_self).le)
    rw [cutOf, if_pos (clamped_lt hlow), Lib.reach_eq_one hp]
    rfl

/-- The rank that is drawn from a prefix, by the sums of the whole list. -/
theorem draw_rank {cut : Nat} (hpos : ∀ q ∈ ps, 0 < q) (hr : r ≤ 1) (hcut : 0 < cut) (hle : cut ≤ ps.length)
    (hlen : kept.length = ps.length) :
    ∃ i, i < cut ∧ kept[i]? = some (draw r 0 ((kept.take cut).zip (normalised (ps.take cut)))) ∧
      (i = 0 ∨ (ps.take i).sum / (ps.take cut).sum < r) ∧ r ≤ (ps.take (i + 1)).sum / (ps.take cut).sum := by
  have hclen : (normalised (ps.take cut)).length = cut := by
    rw [normalised, List.length_map, List.length_take, Nat.min_eq_left hle]
  have hcne : ps.take cut ≠ [] := List.length_pos_iff.mp (by rw [List.length_take]; omega)
  have hcsum : 0 < (ps.take cut).sum := sum_pos_of_pos (fun q hq => hpos q (List.mem_of_mem_take hq)) hcne
  have hrun : ∀ j ≤ cut, ((normalised (ps.take cut)).take j).sum = (ps.take j).sum / (ps.take cut).sum := by
    intro j hj
    rw [normalised_take, List.take_take, Nat.min_eq_left hj]
  have hne : normalised (ps.take cut) ≠ [] := List.length_pos_iff.mp (by omega)
  have hreach : 0 < Lib.reach r 0 (normalised (ps.take cut)) := Lib.reach_pos hne
  have hreachle : Lib.reach r 0 (normalised (ps.take cut)) ≤ cut := Lib.reach_le_length.trans_eq hclen
  have htotal := Lib.le_sum_reach (b := r) (c := 0) hne (by rw [normalised_sum hcsum.ne', zero_add]; exact hr)
  obtain ⟨i, hi⟩ : ∃ i, Lib.reach r 0 (normalised (ps.take cut)) = i + 1 := ⟨_, (Nat.sub_add_cancel hreach).symm⟩
  have hdraw : (kept.take cut)[Lib.reach r 0 (normalised (ps.take cut)) - 1]? = some _ :=
    draw_eq (by rw [hclen, List.length_take, hlen, Nat.min_eq_left hle]) hne
  rw [hi, Nat.add_sub_cancel, List.getElem?_take_of_lt (by omega)] at hdraw
  refine ⟨i, by omega, hdraw, (Nat.eq_zero_or_pos i).imp_right fun hi0 => ?_, ?_⟩
  · have hlt := Lib.sum_lt_of_lt_reach hi0 (show i < Lib.reach r 0 (normalised (ps.take cut)) by omega)
    rwa [zero_add, hrun i (by omega)] at hlt
  · rwa [zero_add, hi, hrun (i + 1) (by omega)] at htotal

end Probs

/-! ## The choice -/

section Choice

variable {K : Type} [LinearOrder K] {weight : K → K} {logits : Nat → K} {nVocab : Nat} {temperature topP r : K}
  {topK : Int} {idx : List Nat}

theorem foldl_greedyIn (l : List Nat) (b : Nat) :
    ∃ t ∈ b :: l,
      l.foldl (fun best i => if best.2 < logits i then (i, logits i) else best) (b, logits b) = (t, logits t) ∧
      ∀ u ∈ b :: l, logits u ≤ logits t := by
  induction l generalizing b with
  | nil => exact ⟨b, List.mem_cons_self, rfl, by simp⟩
  | cons i l ih =>
    rw [List.foldl_cons]
    dsimp only
    split
    next h =>
      obtain ⟨t, hmem, ht, hmax⟩ := ih i
      exact ⟨t, List.mem_cons_of_mem b hmem, ht,
        List.forall_mem_cons.mpr ⟨h.le.trans (hmax i List.mem_cons_self), hmax⟩⟩
    next h =>
      obtain ⟨t, hmem, ht, hmax⟩ := ih b
      obtain ⟨hb, hl⟩ := List.forall_mem_cons.mp hmax
      refine ⟨t, ?_, ht,
        List.forall_mem_cons.mpr ⟨hb, List.forall_mem_cons.mpr ⟨(not_lt.mp h).trans hb, hl⟩⟩⟩
      exact (List.mem_cons.mp hmem).elim (fun he => he ▸ List.mem_cons_self) fun hl =>
        List.mem_cons_of_mem _ (List.mem_cons_of_mem _ hl)

theorem greedyIn_greatest (hn : 0 < nVocab) :
    greedyIn logits nVocab < nVocab ∧ ∀ u < nVocab, logits u ≤ logits (greedyIn logits nVocab) := by
  have hmem : ∀ u, u ∈ 0 :: List.range' 1 (nVocab - 1) ↔ u < nVocab := by
    intro u
    rw [List.mem_cons, List.mem_range'_1]
    omega
  obtain ⟨t, htmem, ht, hmax⟩ : ∃ t ∈ 0 :: List.range' 1 (nVocab - 1), (List.range' 1 (nVocab - 1)).foldl
      (fun best i => if best.2 < logits i then (i, logits i) else best) (0, logits 0) = (t, logits t) ∧ _ :=
    foldl_greedyIn _ 0
  rw [greedyIn, ht]
  exact ⟨(hmem t).mp htmem, fun u hu => hmax u ((hmem u).mpr hu)⟩

variable [Field K] [IsStrictOrderedRing K]

/-- **Support and choice of the sampler.** The token is the inverse-CDF
choice of the draw among the kept prefix of the ranking; the prefix is that
of the top-k tokens, and of these the shortest that reaches `top_p` where
`top_p` is below 0.9999. Where that is a single token, it has a greatest
logit. -/
theorem sampler_choice (topP : K) (topK : Int) (hpos : ∀ x, 0 < weight x) (hmono : Monotone weight)
    (hn : 0 < nVocab) (ht : 0 < temperature) (hidx : PartiallySorted logits nVocab (useN topK nVocab) idx)
    (hr : r ≤ 1) :
    let kept := idx.take (useN topK nVocab)
    let probs := normalised (weights weight logits temperature kept)
    let cut := cutOf topP probs (useN topK nVocab)
    ∃ t i : Nat, sampleIn weight logits nVocab temperature topP topK idx r = (t : Token) ∧ t < nVocab ∧
      -- The token has rank `i`, and is kept.
      kept[i]? = some t ∧ i < cut ∧ cut ≤ useN topK nVocab ∧
      (0 < topK → topK < nVocab → (((List.range nVocab).filter fun u => logits t < logits u).length : Int) < topK) ∧
      -- The prefix that is kept.
      (clamped topP < 9999 / 10000 → (i = 0 ∨ (probs.take i).sum < clamped topP) ∧
        clamped topP ≤ (probs.take cut).sum ∧ ∀ j, 0 < j → j < cut → (probs.take j).sum < clamped topP) ∧
      (¬ clamped topP < 9999 / 10000 → cut = useN topK nVocab) ∧
      -- The draw.
      (i = 0 ∨ (probs.take i).sum / (probs.take cut).sum < r) ∧
      r ≤ (probs.take (i + 1)).sum / (probs.take cut).sum ∧
      -- One token alone.
      (topK = 1 ∨ topP < 9999 / 10000 ∧ (∃ q ∈ probs, topP ≤ q) →
        (∀ u < nVocab, logits u ≤ logits t) ∧ logits t = logits (greedyIn logits nVocab)) := by
  intro kept probs cut
  have hk : 0 < useN topK nVocab := useN_pos hn
  have hlen : kept.length = useN topK nVocab := by
    rw [List.length_take, hidx.perm.length_eq, List.length_range, Nat.min_eq_left useN_le]
  have hmem : ∀ {t}, t ∈ kept → t < nVocab := fun h => List.mem_range.mp (hidx.perm.subset (List.mem_of_mem_take h))
  have hw : ∀ v ∈ weights weight logits temperature kept, 0 < v := weights_pos hpos
  have hwne : weights weight logits temperature kept ≠ [] := by
    rw [weights, ← List.length_pos_iff, List.length_map, hlen]
    exact hk
  have hwsum := sum_pos_of_pos hw hwne
  have hplen : probs.length = useN topK nVocab := by simp [probs, normalised, weights, hlen]
  have hpne : probs ≠ [] := List.length_pos_iff.mp (by omega)
  have hp : ∀ q ∈ probs, 0 < q := normalised_pos hw
  have hpsort : probs.Pairwise fun a b => b ≤ a := normalised_sorted hw (weights_sorted hmono ht hidx.sorted)
  obtain ⟨hcut, hcutk, hlow, hhigh⟩ : 0 < cut ∧ cut ≤ useN topK nVocab ∧ _ :=
    cutOf_spec (normalised_sum hwsum.ne') hpne hplen
  obtain ⟨i, hi, hdraw, hbefore, hupto⟩ := draw_rank hp hr hcut (hplen.symm ▸ hcutk) (hlen.trans hplen.symm)
  refine ⟨_, i, ?_, ?_, hdraw, hi, hcutk, fun h0 h1 => ?_, fun hc => ⟨?_, hlow hc⟩, hhigh, ?_, ?_, fun hone => ?_⟩
  · rw [sampleIn, if_neg (by omega), if_neg ht.not_ge, nucleusIn, if_neg hwsum.not_ge]
  · exact hmem (List.mem_of_getElem? hdraw)
  · have hcount := hidx.count_le hdraw
    have hkeep : useN topK nVocab = topK.toNat := by rw [useN, if_pos ⟨h0, h1⟩]
    omega
  · exact (Nat.eq_zero_or_pos i).imp_right fun hpos => (hlow hc).2 i hpos (by omega)
  · exact hbefore
  · exact hupto
  · have hzero : i = 0 := by
      rcases hone with h1 | ⟨hlt, hq⟩
      · have hkeep : useN topK nVocab ≤ 1 := by rw [useN]; split <;> omega
        omega
      · have hcut1 : cut = 1 := cutOf_eq_one hp hpsort hlt hq
        omega
    rw [hzero] at hdraw
    have hmax := hidx.greatest hdraw
    obtain ⟨hlt, hgreatest⟩ : greedyIn logits nVocab < nVocab ∧ _ := greedyIn_greatest hn
    exact ⟨hmax, le_antisymm (hgreatest _ (hmem (List.mem_of_getElem? hdraw))) (hmax _ hlt)⟩

/-! ### Two rows -/

/-- A weight that gives most to the greatest logit. -/
def peaked (x : ℚ) : ℚ := if x < 0 then 1 / (20000 * (1 - x)) else 1 + x

theorem peaked_pos (x : ℚ) : 0 < peaked x := by
  rw [peaked]
  split
  next h => exact one_div_pos.mpr (by linarith)
  next h => linarith

theorem peaked_strictMono : StrictMono peaked := by
  intro x y hxy
  simp only [peaked]
  split
  next hx =>
    split
    next hy => exact one_div_lt_one_div_of_lt (by linarith) (by linarith)
    next hy =>
      have hone : 1 / (20000 * (1 - x)) < 1 := (div_lt_one (by linarith)).mpr (by linarith)
      linarith
  next hx =>
    rw [if_neg (by linarith)]
    linarith

/-- A falling row. -/
def falling (u : Nat) : ℚ := -u

theorem falling_sorted (n k : Nat) : PartiallySorted falling n k (List.range n) := by
  have hpair : (List.range n).Pairwise fun a b => falling b ≤ falling a :=
    List.pairwise_lt_range.imp fun hab => neg_le_neg (Nat.cast_le.mpr hab.le)
  refine ⟨List.Perm.refl _, hpair.sublist (List.take_sublist k _), fun a ha b hb => ?_⟩
  have hsplit := List.take_append_drop k (List.range n) ▸ hpair
  exact (List.pairwise_append.mp hsplit).2.2 a ha b hb

/-- A small `top_p` keeps the first of four tokens. -/
theorem sampler_choice_small : ∃ t i : Nat,
    sampleIn peaked falling 4 (4 / 5) (1 / 2) 0 (List.range 4) (2 / 3) = (t : Token) ∧ i < 4 ∧
      (∀ u < 4, falling u ≤ falling t) ∧ falling t = falling (greedyIn falling 4) := by
  obtain ⟨t, i, ht, -, -, hi, hle, -, -, -, -, -, hone⟩ :=
    sampler_choice (1 / 2 : ℚ) 0 peaked_pos peaked_strictMono.monotone (by decide : 0 < 4)
      (by norm_num : (0 : ℚ) < 4 / 5) (falling_sorted 4 (useN 0 4)) (by norm_num : (2 / 3 : ℚ) ≤ 1)
  exact ⟨t, i, ht, lt_of_lt_of_le hi hle, hone (.inr ⟨by norm_num, by decide +kernel⟩)⟩

/-- At 0.9999 nothing is cut off, and the second of two tokens is drawn
although the first alone reaches `top_p`. -/
theorem sampler_choice_flat : (∀ x, 0 < peaked x) ∧ StrictMono peaked ∧
    PartiallySorted falling 2 (useN 0 2) (List.range 2) ∧
    (∃ q ∈ normalised (weights peaked falling 1 (List.range 2)), 9999 / 10000 ≤ q) ∧
    sampleIn peaked falling 2 1 (9999 / 10000) 0 (List.range 2) (99999 / 100000) = 1 ∧ falling 1 < falling 0 :=
  ⟨peaked_pos, peaked_strictMono, falling_sorted 2 _, by decide +kernel, by decide +kernel, by decide +kernel⟩

end Choice
end UmaServe
