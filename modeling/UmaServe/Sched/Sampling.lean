/-
`sched/sampling.cpp` in exact arithmetic. The numbers are those of any ordered
field, so that the weight, which stands for `std::exp`, may be any function;
the scheduler's are rational (`sample`). `idx` is the order in which
`std::partial_sort` leaves the indices (ties and what lies past the sorted
part are its own choice), and `r` the draw of
`std::uniform_real_distribution`. A logits row is read by index, as the source
reads it through a pointer.
-/
import Mathlib.Data.List.MinMax
import UmaServe.Lib.PrefixSum
import UmaServe.Runtime.Llama
import UmaServe.Util.Double

namespace UmaServe

/-! ## The greedy choice -/

section Greedy

variable {K : Type} [LinearOrder K]

/-- The greedy loop. -/
def greedyIn (logits : Nat → K) (nVocab : Nat) : Nat :=
  ((List.range' 1 (nVocab - 1)).foldl
    (fun best i => if best.2 < logits i then (i, logits i) else best) (0, logits 0)).1

theorem foldl_greedy (logits : Nat → K) (l : List Nat) (b : Nat) :
    l.foldl (List.argAux fun i best => logits best < logits i) (some b) =
      some (l.foldl (fun best i => if best.2 < logits i then (i, logits i) else best) (b, logits b)).1 := by
  induction l generalizing b with
  | nil => rfl
  | cons i l ih =>
    simp only [List.foldl_cons, List.argAux]
    by_cases h : logits b < logits i
    · simp only [h, if_true]; exact ih i
    · simp only [h, if_false]; exact ih b

theorem greedy_eq_argmax (logits : Nat → K) (nVocab : Nat) :
    greedyIn logits nVocab = ((List.range nVocab).argmax logits).getD 0 := by
  cases nVocab with
  | zero => rfl
  | succ n =>
    have hcons : List.range (n + 1) = 0 :: List.range' 1 n := by
      rw [List.range_eq_range', List.range'_succ]
    rw [hcons, List.argmax, List.foldl_cons]
    simp only [List.argAux]
    rw [foldl_greedy]
    rfl

end Greedy

/-! ## The sampler -/

section Sampler

variable {K : Type} [Field K] [LinearOrder K]

/-- `use_n`. -/
def useN (topK : Int) (nVocab : Nat) : Nat := if 0 < topK ∧ topK < nVocab then topK.toNat else nVocab

/-- The weights of the kept indices, before they are normalised. -/
def weights (weight : K → K) (logits : Nat → K) (temperature : K) (kept : List Nat) : List K :=
  let invT := 1 / temperature
  let maxLogit := (kept.map fun t => logits t * invT).max?.getD 0
  kept.map fun t => weight (logits t * invT - maxLogit)

/-- `probs`, once divided by their sum. -/
def normalised (vs : List K) : List K := vs.map (· / vs.sum)

/-- `top_p`, clamped. -/
def clamped (topP : K) : K := min (max topP 0) 1

/-- `cut`. -/
def cutOf (topP : K) (probs : List K) (useN : Nat) : Nat :=
  if clamped topP < 9999 / 10000 then max (Lib.reach (clamped topP) 0 probs) 1 else useN

/-- The draw. -/
def draw (r : K) : K → List (Nat × K) → Nat
  | _, [] => 0
  | _, [(t, _)] => t
  | acc, (t, p) :: rest => if r ≤ acc + p then t else draw r (acc + p) rest

/-- The temperature, top-k and top-p branch. -/
def nucleusIn (weight : K → K) (logits : Nat → K) (nVocab : Nat) (temperature topP : K) (topK : Int)
    (idx : List Nat) (r : K) : Nat :=
  let useN := useN topK nVocab
  let kept := idx.take useN
  let vs := weights weight logits temperature kept
  if vs.sum ≤ 0 then idx.headD 0
  else
    let probs := normalised vs
    let cut := cutOf topP probs useN
    draw r 0 ((kept.take cut).zip (normalised (probs.take cut)))

/-- `TopPSampler::sample`. -/
def sampleIn (weight : K → K) (logits : Nat → K) (nVocab : Nat) (temperature topP : K) (topK : Int)
    (idx : List Nat) (r : K) : Token :=
  if nVocab = 0 then 0
  else if temperature ≤ 0 then greedyIn logits nVocab
  else nucleusIn weight logits nVocab temperature topP topK idx r

end Sampler

/-! ## The scheduler's -/

/-- A parameter is a `double` here; the conversion to `float` is not modelled. -/
structure SamplingParams where
  temperature : Double := .ofScientific false 8 (-1)
  topP : Double := .ofScientific false 95 (-2)
  topK : Int := 0

/-- `top_p`, clamped, of a `double`. A NaN is above the limit, as one is. -/
def Double.clamped : Double → ℚ
  | .finite neg q => UmaServe.clamped (signed neg q)
  | .inf neg => if neg then 0 else 1
  | .nan _ => 1

/-- `TopPSampler::sample`. An infinite temperature makes all logits zero, and
a NaN the sum of the weights one. -/
def sample (weight : ℚ → ℚ) (logits : Nat → ℚ) (nVocab : Nat) (p : SamplingParams) (idx : List Nat) (r : ℚ) :
    Token :=
  if nVocab = 0 then 0
  else if p.temperature ≤ 0 then greedyIn logits nVocab
  else
    match p.temperature with
    | .finite neg t => nucleusIn weight logits nVocab (Double.signed neg t) p.topP.clamped p.topK idx r
    | .inf _ => nucleusIn weight (fun _ => 0) nVocab 1 p.topP.clamped p.topK idx r
    | .nan _ => idx.headD 0

theorem sample_eq_argmax {weight : ℚ → ℚ} {logits : Nat → ℚ} {nVocab : Nat} {p : SamplingParams} {idx : List Nat}
    {r : ℚ} (h : p.temperature ≤ 0) :
    sample weight logits nVocab p idx r = ((List.range nVocab).argmax logits).getD 0 := by
  unfold sample
  split
  next h0 => rw [h0]; rfl
  next => rw [greedy_eq_argmax]

theorem clamped_clamped (x : ℚ) : clamped (clamped x) = clamped x := by
  have h₀ : 0 ≤ clamped x := le_min (le_max_right _ _) zero_le_one
  have h₁ : clamped x ≤ 1 := min_le_right _ _
  rw [clamped, max_eq_left h₀, min_eq_left h₁]

/-- On finite parameters the scheduler's sampler is the one at the rationals. -/
theorem sample_eq {weight : ℚ → ℚ} {logits : Nat → ℚ} {nVocab : Nat} {idx : List Nat} {r : ℚ} {m n : Bool}
    {t q : ℚ≥0} (topK : Int) :
    sample weight logits nVocab ⟨.finite m t, .finite n q, topK⟩ idx r =
      sampleIn weight logits nVocab (Double.signed m t) (Double.signed n q) topK idx r := by
  have hle : Double.finite m t ≤ 0 ↔ Double.signed m t ≤ 0 := by
    show decide (Double.signed m t ≤ Double.signed false 0) = true ↔ _
    rw [decide_eq_true_eq]
    exact Iff.rfl
  have hcut : ∀ (ps : List ℚ) (k : Nat), cutOf (clamped (Double.signed n q)) ps k = cutOf (Double.signed n q) ps k := by
    intro ps k
    rw [cutOf, clamped_clamped, cutOf]
  simp only [sample, sampleIn, hle, nucleusIn, Double.clamped, hcut]

end UmaServe
