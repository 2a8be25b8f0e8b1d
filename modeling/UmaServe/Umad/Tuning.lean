/-
The batch target over a run. It is set by a controller behind the smoothed
duration of the decodes (`tuned_run`): it keeps within its bounds whatever
they take (`target_bounds`), and settles at the capacity of the context when
they stay fast, and at eight when they stay slow (`target_settles`).
-/
import Mathlib.Data.Rat.Floor
import UmaServe.Lib.Smoothing
import UmaServe.Umad.Executor

namespace UmaServe

/-- The controller in `Scheduler.tune`. -/
def tuning (pf : Platform) : Lib.Controller ℚ Int where
  gain := 2 / 10
  low := 8 / 10 * tickBudgetMs
  high := 13 / 10 * tickBudgetMs
  up t := min pf.nBatch (t + max 1 (t.tdiv 8))
  down t := max 8 (pf.shrink t)

/-- The milliseconds that are measured in a step. -/
def Daemon.measures (cfg : RuntimeConfig) (d : Daemon) : Action → List ℚ
  | .tick _ out => if (d.batch cfg).tokens.isEmpty then [] else [(out.durNs : ℚ) / 1000000]
  | .accept _ _ _ | .readable _ _ _ _ | .writable _ _ _ | .idle _ => []

/-- Those of a run. -/
def Daemon.measured (pf : Platform) (cfg : RuntimeConfig) : Daemon → List Action → List ℚ
  | _, [] => []
  | d, a :: as => d.measures cfg a ++ measured pf cfg (d.step pf cfg a) as

/-- The moving average and the target. -/
def Scheduler.tuned (sched : Scheduler) : ℚ × Int := (sched.decodeMsEwma, sched.targetBatch)

section Tuning

variable {pf : Platform} {cfg : RuntimeConfig} {d : Daemon} {a : Action} {as : List Action} {sched : Scheduler}
  {C : Daemon → Action → Prop} {t : Int} {k : Nat} {us : List ℚ} {x : ℚ}

theorem tune_eq (hcap : sched.batchCap = pf.nBatch) :
    (sched.tune pf).tuned = (sched.decodeMsEwma, (tuning pf).adjust sched.decodeMsEwma sched.targetBatch) := by
  unfold Scheduler.tune Lib.Controller.adjust
  simp only [tuning, ← hcap]
  split
  · rfl
  · split <;> rfl

/-- A tick that decodes makes a step of the controller. -/
theorem tick_tuned (hcap : sched.batchCap = pf.nBatch) (cfg : RuntimeConfig) (sessions : SessionPool) (mem : Memory)
    (nowNs : Nat) (out : Decoded) : (sched.tick pf cfg sessions mem nowNs out).sched.tuned =
      if (enact sessions (sched.plan cfg sessions).items).batch.tokens.isEmpty then sched.tuned
      else (tuning pf).step sched.tuned ((out.durNs : ℚ) / 1000000) := by
  have htune : ∀ m rrd rrp ewma, ({ sched with
      metrics := m, rrDecodeIdx := rrd, rrPrefillIdx := rrp, decodeMsEwma := ewma }.tune pf).tuned =
      (ewma, (tuning pf).adjust ewma sched.targetBatch) := fun m rrd rrp ewma => tune_eq hcap
  unfold Scheduler.tick
  dsimp only
  split
  · rfl
  · -- What is sampled, and what fails, does not change the target.
    have hsmooth : 8 / 10 * sched.decodeMsEwma + 2 / 10 * ((out.durNs : ℚ) / 1000000) =
        Lib.smooth (tuning pf).gain sched.decodeMsEwma ((out.durNs : ℚ) / 1000000) := by
      rw [Lib.smooth, tuning]
      ring
    split <;> exact (htune _ _ _ _).trans (by rw [hsmooth]; rfl)

theorem tuned_step (hcap : d.sched.batchCap = pf.nBatch) (cfg : RuntimeConfig) (a : Action) :
    (d.step pf cfg a).sched.tuned = (d.measures cfg a).foldl (tuning pf).step d.sched.tuned := by
  cases a with
  | tick nowNs out =>
    show (d.tick pf cfg nowNs out).sched.tuned = _
    rw [Daemon.tick_sched, Daemon.ticked, tick_tuned hcap, Daemon.measures, Daemon.batch]
    split <;> rfl
  | accept | readable | writable | idle =>
    rw [step_sched (by simp)]
    rfl

/-- **A run is one of the controller**, on what it measures. -/
theorem tuned_run (h : (umad pf cfg).Reach C d) (hr : (umad pf cfg).Run C d as) :
    ((umad pf cfg).after d as).sched.tuned = (d.measured pf cfg as).foldl (tuning pf).step d.sched.tuned := by
  induction as generalizing d with
  | nil => rfl
  | cons a as ih =>
    rw [Daemon.measured, List.foldl_append, ← tuned_step (tuned_of_reach h).cap]
    exact ih (h.step hr.1 hr.2.1) hr.2.2

/-! ## Bounds -/

/-- Where the target stays. -/
def InBounds (pf : Platform) (t : Int) : Prop := min 8 pf.nBatch ≤ t ∧ t ≤ max 8 pf.nBatch

theorem InBounds.adjust (h : InBounds pf t) (h1 : 1 ≤ pf.nBatch) (hshrink : ∀ t, 0 < t → pf.shrink t < t) (x : ℚ) :
    InBounds pf ((tuning pf).adjust x t) := by
  obtain ⟨hlow, hhigh⟩ := h
  have hless := hshrink t (by omega)
  unfold InBounds Lib.Controller.adjust tuning
  dsimp only
  split
  · omega
  · split <;> omega

theorem InBounds.foldl (h1 : 1 ≤ pf.nBatch) (hshrink : ∀ t, 0 < t → pf.shrink t < t) {s : ℚ × Int}
    (h : InBounds pf s.2) (us : List ℚ) : InBounds pf (us.foldl (tuning pf).step s).2 := by
  induction us generalizing s with
  | nil => exact h
  | cons u us ih => exact ih (h.adjust h1 hshrink _)

theorem inBounds_of_reach (h : (umad pf cfg).Reach C d) (h1 : 1 ≤ pf.nBatch)
    (hshrink : ∀ t, 0 < t → pf.shrink t < t) : InBounds pf d.sched.targetBatch := by
  refine h.invariant (I := fun d => InBounds pf d.sched.targetBatch) ?_ fun d a hr hi _ _ => ?_
  · exact ⟨min_le_right _ _, le_max_right _ _⟩
  · have hstep := congrArg Prod.snd (tuned_step (tuned_of_reach hr).cap cfg a)
    show InBounds pf (d.step pf cfg a).sched.tuned.2
    rw [hstep]
    exact InBounds.foldl h1 hshrink (s := d.sched.tuned) hi _

/-- **Bounds.** In every run, whatever the decodes take: the tokens a tick may
plan for stay between eight, or the capacity if that is less, and the
capacity; and the moving average, in exact arithmetic, stays where the budget
and the durations are. -/
theorem target_bounds (h1 : 1 ≤ pf.nBatch) (hshrink : ∀ t, 0 < t → pf.shrink t < t)
    (hr : (umad pf cfg).Run Lib.Always (umad pf cfg).init as) :
    let d := (umad pf cfg).after (umad pf cfg).init as
    (min 8 pf.nBatch ≤ min d.sched.targetBatch d.sched.batchCap ∧ min d.sched.targetBatch d.sched.batchCap ≤ pf.nBatch) ∧
      ∀ lo hi, lo ≤ tickBudgetMs ∧ tickBudgetMs ≤ hi →
        (∀ m ∈ (umad pf cfg).init.measured pf cfg as, lo ≤ m ∧ m ≤ hi) →
        lo ≤ d.sched.decodeMsEwma ∧ d.sched.decodeMsEwma ≤ hi := by
  intro d
  have hreach : (umad pf cfg).Reach Lib.Always d := Lib.System.Reach.init.run hr
  obtain ⟨hlow, hhigh⟩ := inBounds_of_reach hreach h1 hshrink
  have hcap := (tuned_of_reach hreach).cap
  refine ⟨by omega, fun lo hi hbudget hms => ?_⟩
  have hewma : d.sched.decodeMsEwma = _ := congrArg Prod.fst (tuned_run .init hr)
  rw [hewma, Lib.Controller.foldl_step_fst]
  exact Lib.smoothed_between (by norm_num [tuning]) (by norm_num [tuning]) hbudget hms

/-! ## Settling -/

theorem up_settles (h1 : 1 ≤ pf.nBatch) (ht : 1 ≤ t) (hk : pf.nBatch ≤ k) : (tuning pf).up^[k] t = pf.nBatch := by
  have hup : ∀ j, (tuning pf).up^[j] t ≤ max t pf.nBatch ∧ min pf.nBatch (t + j) ≤ (tuning pf).up^[j] t := by
    intro j
    induction j with
    | zero => exact ⟨le_max_left _ _, by simp⟩
    | succ j ih =>
      rw [Function.iterate_succ_apply']
      generalize (tuning pf).up^[j] t = u at ih
      simp only [tuning]
      omega
  obtain ⟨j, rfl⟩ : ∃ j, k = j + 1 := ⟨k - 1, by omega⟩
  have hlast := hup (j + 1)
  have hle : (tuning pf).up^[j + 1] t ≤ pf.nBatch := by
    rw [Function.iterate_succ_apply']
    exact min_le_left _ _
  omega

theorem down_settles (hshrink : ∀ t, 0 < t → pf.shrink t < t) (h0 : 0 < k) (ht : 0 < t) (hk : t ≤ k) :
    (tuning pf).down^[k] t = 8 := by
  have hdown : ∀ j, 0 < (tuning pf).down^[j] t ∧ (tuning pf).down^[j] t ≤ max 8 (t - j) := by
    intro j
    induction j with
    | zero => exact ⟨ht, by simp⟩
    | succ j ih =>
      rw [Function.iterate_succ_apply']
      generalize (tuning pf).down^[j] t = u at ih
      have hless := hshrink u ih.1
      simp only [tuning]
      omega
  obtain ⟨j, rfl⟩ : ∃ j, k = j + 1 := ⟨k - 1, by omega⟩
  have hlast := hdown (j + 1)
  have hge : 8 ≤ (tuning pf).down^[j + 1] t := by
    rw [Function.iterate_succ_apply']
    exact le_max_left _ _
  omega

/-- **The target settles.** From every reachable state there is a number of
decodes after which the target is the capacity of the context, if all of them
stay below 0.8 of the budget of a tick, and eight, if all of them stay above
1.3 of it; what else the run does is open. -/
theorem target_settles (h : (umad pf cfg).Reach C d) (h1 : 1 ≤ pf.nBatch)
    (hshrink : ∀ t, 0 < t → pf.shrink t < t) :
    (∀ hi, hi < 8 / 10 * tickBudgetMs → ∃ N, ∀ as, (umad pf cfg).Run C d as →
      (∀ m ∈ d.measured pf cfg as, m ≤ hi) → N ≤ (d.measured pf cfg as).length →
      ((umad pf cfg).after d as).sched.targetBatch = pf.nBatch) ∧
    ∀ lo, 13 / 10 * tickBudgetMs < lo → ∃ N, ∀ as, (umad pf cfg).Run C d as →
      (∀ m ∈ d.measured pf cfg as, lo ≤ m) → N ≤ (d.measured pf cfg as).length →
      ((umad pf cfg).after d as).sched.targetBatch = 8 := by
  have hbounds : ∀ us : List ℚ, InBounds pf (us.foldl (tuning pf).step d.sched.tuned).2 :=
    InBounds.foldl h1 hshrink (inBounds_of_reach h h1 hshrink)
  have hgain : 0 < (tuning pf).gain ∧ (tuning pf).gain ≤ 1 := by norm_num [tuning]
  have htarget : ∀ as, (umad pf cfg).Run C d as → ((umad pf cfg).after d as).sched.targetBatch =
      ((d.measured pf cfg as).foldl (tuning pf).step d.sched.tuned).2 := fun as hr => congrArg Prod.snd (tuned_run h hr)
  constructor
  · intro hi hhi
    obtain ⟨N, hN⟩ := (tuning pf).rises hgain.1 hgain.2 (by norm_num [tuning, tickBudgetMs]) hhi d.sched.tuned
    refine ⟨N + pf.nBatch.toNat, fun as hr hms hlen => ?_⟩
    obtain ⟨hlow, -⟩ := hbounds ((d.measured pf cfg as).take N)
    rw [htarget as hr, hN _ hms (by omega)]
    exact up_settles h1 (by omega) (by omega)
  · intro lo hlo
    obtain ⟨N, hN⟩ := (tuning pf).falls hgain.1 hgain.2 hlo d.sched.tuned
    refine ⟨N + (8 + pf.nBatch.toNat), fun as hr hms hlen => ?_⟩
    obtain ⟨hlow, hhigh⟩ := hbounds ((d.measured pf cfg as).take N)
    rw [htarget as hr, hN _ hms (by omega)]
    exact down_settles hshrink (by omega) (by omega) (by omega)

end Tuning

theorem small_shrink (t : Int) (h : 0 < t) : small.shrink t < t := by
  show t * 7 / 10 < t
  omega

/-- Two requests and a decode that takes no time. -/
theorem target_bounds_two :
    let d := (umad small {}).after (umad small {}).init twoServed
    (umad small {}).init.measured small {} twoServed = [0] ∧ 8 ≤ min d.sched.targetBatch d.sched.batchCap ∧
      0 ≤ d.sched.decodeMsEwma ∧ d.sched.decodeMsEwma ≤ 30 := by
  have hms : (umad small {}).init.measured small {} twoServed = [0] := by decide +kernel
  have hr : (umad small {}).Run Lib.Always (umad small {}).init twoServed := by decide +kernel
  obtain ⟨⟨hlow, -⟩, hewma⟩ := target_bounds (by decide) small_shrink hr
  exact ⟨hms, hlow, hewma 0 30 (by norm_num [tickBudgetMs]) (by rw [hms]; norm_num)⟩

/-- From there, twenty milliseconds are fast, and forty slow. -/
theorem target_settles_two :
    let S := umad small {}
    let d := S.after S.init twoServed
    (∃ N, ∀ as, S.Run Lib.Always d as → (∀ m ∈ d.measured small {} as, m ≤ 20) →
      N ≤ (d.measured small {} as).length → (S.after d as).sched.targetBatch = 64) ∧
    ∃ N, ∀ as, S.Run Lib.Always d as → (∀ m ∈ d.measured small {} as, 40 ≤ m) →
      N ≤ (d.measured small {} as).length → (S.after d as).sched.targetBatch = 8 := by
  intro S d
  have hreach : S.Reach Lib.Always d := Lib.System.Reach.init.run (by decide +kernel)
  obtain ⟨hfast, hslow⟩ := target_settles hreach (by decide) small_shrink
  exact ⟨hfast 20 (by norm_num [tickBudgetMs]), hslow 40 (by norm_num [tickBudgetMs])⟩

end UmaServe
