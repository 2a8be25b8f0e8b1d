/-
Exponential smoothing, and a control loop behind it. `smooth` moves an
average towards each input by a fixed part of the way; it stays where the
inputs are (`smoothed_between`), and comes there from anywhere
(`smoothed_below`, `smoothed_above`). A `Controller` sets a level by where the average is; as
long as the inputs are on one side, it ends up doing nothing but the one
adjustment (`Controller.falls`, `Controller.rises`).
-/
import Mathlib.Algebra.Order.Archimedean.Basic
import Mathlib.Algebra.Order.Field.Basic
import Mathlib.Logic.Function.Iterate
import Mathlib.Tactic.Linarith
import Mathlib.Tactic.Ring

namespace Lib

section Smooth

variable {K : Type} [Field K] {gain x u b c : K} {us : List K}

/-- The average after an input. -/
def smooth (gain x u : K) : K := (1 - gain) * x + gain * u

theorem smooth_neg : smooth gain (-x) (-u) = -smooth gain x u := by
  rw [smooth, smooth]
  ring

theorem foldl_smooth_neg : (us.map (-·)).foldl (smooth gain) (-x) = -us.foldl (smooth gain) x := by
  induction us generalizing x with
  | nil => rfl
  | cons u us ih => rw [List.map_cons, List.foldl_cons, smooth_neg, ih, List.foldl_cons]

variable [LinearOrder K] [IsStrictOrderedRing K]

theorem smooth_le (h0 : 0 ≤ gain) (h1 : gain ≤ 1) (hx : x ≤ b) (hu : u ≤ b) : smooth gain x u ≤ b := by
  have hx' := mul_le_mul_of_nonneg_left hx (sub_nonneg.mpr h1)
  have hu' := mul_le_mul_of_nonneg_left hu h0
  rw [smooth]
  linarith

theorem le_smooth (h0 : 0 ≤ gain) (h1 : gain ≤ 1) (hx : b ≤ x) (hu : b ≤ u) : b ≤ smooth gain x u := by
  have hx' := mul_le_mul_of_nonneg_left hx (sub_nonneg.mpr h1)
  have hu' := mul_le_mul_of_nonneg_left hu h0
  rw [smooth]
  linarith

theorem smoothed_between (h0 : 0 ≤ gain) (h1 : gain ≤ 1) (hx : b ≤ x ∧ x ≤ c) (hus : ∀ u ∈ us, b ≤ u ∧ u ≤ c) :
    b ≤ us.foldl (smooth gain) x ∧ us.foldl (smooth gain) x ≤ c := by
  induction us generalizing x with
  | nil => exact hx
  | cons u us ih =>
    obtain ⟨hbu, huc⟩ := hus u List.mem_cons_self
    exact ih ⟨le_smooth h0 h1 hx.1 hbu, smooth_le h0 h1 hx.2 huc⟩ fun v hv => hus v (List.mem_cons_of_mem u hv)

theorem smoothed_le (h0 : 0 ≤ gain) (h1 : gain ≤ 1) (hus : ∀ u ∈ us, u ≤ b) :
    us.foldl (smooth gain) x ≤ b + (1 - gain) ^ us.length * (x - b) := by
  induction us generalizing x with
  | nil => simp
  | cons u us ih =>
    have hpow : 0 ≤ (1 - gain) ^ us.length := pow_nonneg (sub_nonneg.mpr h1) _
    have hu := mul_le_mul_of_nonneg_left (hus u List.mem_cons_self) h0
    have hstep : smooth gain x u - b ≤ (1 - gain) * (x - b) := by
      rw [smooth]
      linarith
    calc (u :: us).foldl (smooth gain) x
        ≤ b + (1 - gain) ^ us.length * (smooth gain x u - b) := ih fun v hv => hus v (List.mem_cons_of_mem u hv)
      _ ≤ b + (1 - gain) ^ us.length * ((1 - gain) * (x - b)) :=
        add_le_add_right (mul_le_mul_of_nonneg_left hstep hpow) b
      _ = b + (1 - gain) ^ (u :: us).length * (x - b) := by
        rw [List.length_cons]
        ring

/-- **Inputs below a bound** bring the average below any greater one, and how
many it takes depends on where it starts only. -/
theorem smoothed_below [Archimedean K] (h0 : 0 < gain) (h1 : gain ≤ 1) (hbc : b < c) (x : K) :
    ∃ N, ∀ us : List K, (∀ u ∈ us, u ≤ b) → N ≤ us.length → us.foldl (smooth gain) x < c := by
  rcases le_or_gt x b with hx | hx
  · refine ⟨0, fun us hus _ => ?_⟩
    have hle := smoothed_le (x := x) h0.le h1 hus
    have hpow : 0 ≤ (1 - gain) ^ us.length := pow_nonneg (sub_nonneg.mpr h1) _
    have hneg := mul_nonpos_of_nonneg_of_nonpos hpow (sub_nonpos.mpr hx)
    linarith
  · have hdist : 0 < x - b := sub_pos.mpr hx
    obtain ⟨N, hN⟩ := exists_pow_lt_of_lt_one (div_pos (sub_pos.mpr hbc) hdist) (sub_lt_self 1 h0)
    refine ⟨N, fun us hus hlen => ?_⟩
    have hle := smoothed_le (x := x) h0.le h1 hus
    have hpow : (1 - gain) ^ us.length ≤ (1 - gain) ^ N :=
      pow_le_pow_of_le_one (sub_nonneg.mpr h1) (sub_le_self 1 h0.le) hlen
    have hlt : (1 - gain) ^ us.length * (x - b) < c - b := (lt_div_iff₀ hdist).mp (hpow.trans_lt hN)
    linarith

/-- **Inputs above a bound.** -/
theorem smoothed_above [Archimedean K] (h0 : 0 < gain) (h1 : gain ≤ 1) (hcb : c < b) (x : K) :
    ∃ N, ∀ us : List K, (∀ u ∈ us, b ≤ u) → N ≤ us.length → c < us.foldl (smooth gain) x := by
  obtain ⟨N, hN⟩ := smoothed_below h0 h1 (neg_lt_neg hcb) (-x)
  refine ⟨N, fun us hus hlen => ?_⟩
  have hlt := hN (us.map (-·)) (List.forall_mem_map.mpr fun u hu => neg_le_neg (hus u hu)) (by simpa using hlen)
  rw [foldl_smooth_neg] at hlt
  exact neg_lt_neg_iff.mp hlt

end Smooth

/-! ## A controller -/

/-- A level that is turned down while the average is above one threshold, and
up while it is below another. -/
structure Controller (K τ : Type) where
  gain : K
  low : K
  high : K
  up : τ → τ
  down : τ → τ

namespace Controller

variable {K τ : Type} [Field K] [LinearOrder K] {C : Controller K τ} {s : K × τ} {b : K} {us vs : List K}

def adjust (C : Controller K τ) (x : K) (t : τ) : τ :=
  if C.high < x then C.down t else if x < C.low then C.up t else t

def step (C : Controller K τ) (s : K × τ) (u : K) : K × τ :=
  (smooth C.gain s.1 u, C.adjust (smooth C.gain s.1 u) s.2)

theorem foldl_step_fst (us : List K) (s : K × τ) : (us.foldl C.step s).1 = us.foldl (smooth C.gain) s.1 := by
  induction us generalizing s with
  | nil => rfl
  | cons u us ih => exact ih (C.step s u)

/-- Where every average on the way calls for the same adjustment, it is made
each time. -/
theorem foldl_adjust {f : τ → τ}
    (h : ∀ pre, pre <+: us → pre ≠ [] → ∀ t, C.adjust (pre.foldl (smooth C.gain) s.1) t = f t) :
    (us.foldl C.step s).2 = f^[us.length] s.2 := by
  induction us generalizing s with
  | nil => rfl
  | cons u us ih =>
    have hfirst : (C.step s u).2 = f s.2 := h [u] (List.prefix_append [u] us) (List.cons_ne_nil u []) s.2
    rw [List.foldl_cons, List.length_cons, Function.iterate_succ_apply, ← hfirst]
    exact ih fun pre hpre _ t => h (u :: pre) (List.cons_prefix_cons.mpr ⟨rfl, hpre⟩) (List.cons_ne_nil u pre) t

/-- Once the average calls for an adjustment, and keeps to it, nothing else is
done. -/
theorem foldl_settled {f : τ → τ} {N : Nat}
    (h : ∀ pre, pre <+: us → N ≤ pre.length → ∀ t, C.adjust (pre.foldl (smooth C.gain) s.1) t = f t)
    (hlen : N ≤ us.length) :
    (us.foldl C.step s).2 = f^[us.length - N] ((us.take N).foldl C.step s).2 := by
  conv_lhs => rw [← List.take_append_drop N us, List.foldl_append]
  rw [← List.length_drop]
  refine foldl_adjust fun pre hpre _ t => ?_
  rw [foldl_step_fst, ← List.foldl_append]
  refine h _ ?_ ?_ t
  · have hwhole := (List.prefix_append_right_inj (us.take N)).mpr hpre
    rwa [List.take_append_drop] at hwhole
  · rw [List.length_append, List.length_take]
    omega

variable [IsStrictOrderedRing K] [Archimedean K]

/-- **Inputs below the low threshold** turn the level up, in the end each
time. -/
theorem rises (h0 : 0 < C.gain) (h1 : C.gain ≤ 1) (hlh : C.low ≤ C.high) (hb : b < C.low) (s : K × τ) :
    ∃ N, ∀ us : List K, (∀ u ∈ us, u ≤ b) → N ≤ us.length →
      (us.foldl C.step s).2 = C.up^[us.length - N] ((us.take N).foldl C.step s).2 := by
  obtain ⟨N, hN⟩ := smoothed_below h0 h1 hb s.1
  refine ⟨N, fun us hus hlen => foldl_settled (fun pre hpre hle t => ?_) hlen⟩
  have hlow := hN pre (fun u hu => hus u (hpre.subset hu)) hle
  rw [adjust, if_neg (hlow.trans_le hlh).not_gt, if_pos hlow]

/-- **Inputs above the high threshold** turn it down. -/
theorem falls (h0 : 0 < C.gain) (h1 : C.gain ≤ 1) (hb : C.high < b) (s : K × τ) :
    ∃ N, ∀ us : List K, (∀ u ∈ us, b ≤ u) → N ≤ us.length →
      (us.foldl C.step s).2 = C.down^[us.length - N] ((us.take N).foldl C.step s).2 := by
  obtain ⟨N, hN⟩ := smoothed_above h0 h1 hb s.1
  refine ⟨N, fun us hus hlen => foldl_settled (fun pre hpre hle t => ?_) hlen⟩
  rw [adjust, if_pos (hN pre (fun u hu => hus u (hpre.subset hu)) hle)]

end Controller
end Lib
