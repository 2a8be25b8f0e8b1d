/-
The executor over a run. The scheduler keeps its capacity and a positive
target, whatever the durations it measures (`tuned_of_reach`). So every tick
builds its batch inside the arrays it reserved and passes its own asserts
(`executor_safe`), and a loop that does not sleep because a session is ready
hands llama.cpp a token (`no_empty_spin`).
-/
import UmaServe.Sched.Asserts
import UmaServe.Sched.GuardFacts
import UmaServe.Umad.Ownership

namespace UmaServe

/-! ## The capacity and the target -/

/-- The scheduler of a run: the capacity is the context's, and the target does
not fall below one. -/
structure Tuned (pf : Platform) (sched : Scheduler) : Prop where
  cap : sched.batchCap = pf.nBatch
  target : 1 ≤ pf.nBatch → 1 ≤ sched.targetBatch

section Tuned

variable {pf : Platform} {cfg : RuntimeConfig} {sched : Scheduler} {d : Daemon}

theorem Tuned.tune (h : Tuned pf sched) : Tuned pf (sched.tune pf) := by
  have hcap := h.cap
  have htarget := h.target
  unfold Scheduler.tune
  split
  next => exact ⟨hcap, fun _ => by dsimp only; omega⟩
  next =>
    split
    next =>
      refine ⟨hcap, fun h1 => ?_⟩
      have h0 := htarget h1
      dsimp only
      omega
    next => exact h

theorem Tuned.congr {sched' : Scheduler} (h : Tuned pf sched) (hcap : sched'.batchCap = sched.batchCap)
    (htarget : sched'.targetBatch = sched.targetBatch) : Tuned pf sched' :=
  ⟨hcap.trans h.cap, fun h1 => by rw [htarget]; exact h.target h1⟩

theorem Tuned.tick (h : Tuned pf sched) (cfg : RuntimeConfig) (sessions : SessionPool) (mem : Memory) (nowNs : Nat)
    (out : Decoded) : Tuned pf (sched.tick pf cfg sessions mem nowNs out).sched := by
  unfold Scheduler.tick
  dsimp only
  split
  · exact h.congr rfl rfl
  · -- The average and the counters are set, then the target is tuned.
    have htune : ∀ m rrd rrp ewma, Tuned pf ({ sched with
        metrics := m, rrDecodeIdx := rrd, rrPrefillIdx := rrp, decodeMsEwma := ewma }.tune pf) := by
      intro m rrd rrp ewma
      exact Tuned.tune (h.congr rfl rfl)
    split
    · exact htune _ _ _ _
    · exact (htune _ _ _ _).congr rfl rfl

/-- **Every reachable scheduler** is tuned. -/
theorem tuned_of_reach {C : Daemon → Action → Prop} (h : (umad pf cfg).Reach C d) : Tuned pf d.sched := by
  refine h.invariant (I := fun d => Tuned pf d.sched) ⟨rfl, id⟩ ?_
  intro d a hr hi _ _
  cases a with
  | tick nowNs out =>
    show Tuned pf (d.tick pf cfg nowNs out).sched
    rw [Daemon.tick_sched]
    exact hi.tick cfg d.mgr.sessions d.memory nowNs out
  | accept | readable | writable | idle =>
    show Tuned pf (d.step pf cfg _).sched
    rw [step_sched (by simp)]
    exact hi

end Tuned

/-! ## The asserts -/

section Asserts

variable {pf : Platform} {cfg : RuntimeConfig} {d : Daemon}

/-- **The executor is safe.** In every reachable state of every run, whatever
the clients sent, the durations measured and the budget configured: the next
tick's plan is enacted within the `batch_cap_` entries reserved, with every
access to a prompt in range and no negative chunk; the asserts before
`llama_decode` hold; and no session has two samples. -/
theorem executor_safe (h : (umad pf cfg).Reach Lib.Always d) (h1 : 1 ≤ pf.nBatch) (hmax : pf.nBatch ≤ intMax) :
    let items := (d.sched.plan cfg d.mgr.sessions).items
    d.sched.batchCap = pf.nBatch ∧
    enact? d.sched.batchCap d.mgr.sessions items = some (enact d.mgr.sessions items) ∧
    (enact d.mgr.sessions items).Asserted d.sched.batchCap ∧
    ((enact d.mgr.sessions items).samples.map SampleRef.fd).Nodup := by
  have hk := (owned_of_reach h).keyed
  have hcap := (tuned_of_reach h).cap
  have h0 : 0 ≤ d.sched.batchCap := by omega
  exact ⟨hcap, enact?_eq hk d.sched cfg h0, enact_asserted hk d.sched cfg h0 (by omega), tick_samples_nodup hk⟩

/-- The run of two clients: their next tokens make a batch of two rows. -/
theorem executor_safe_two :
    ((enact ((umad small {}).after (umad small {}).init twoServed).mgr.sessions
      (((umad small {}).after (umad small {}).init twoServed).sched.plan {}
        ((umad small {}).after (umad small {}).init twoServed).mgr.sessions).items).Asserted 64) ∧
      (((umad small {}).after (umad small {}).init twoServed).batch {}).tokens.length = 2 := by
  have hr : (umad small {}).Reach Lib.Always ((umad small {}).after (umad small {}).init twoServed) :=
    Lib.System.Reach.init.run (by decide +kernel)
  obtain ⟨hcap, -, hassert, -⟩ := executor_safe hr (by decide) (by decide)
  rw [hcap] at hassert
  exact ⟨hassert, by decide +kernel⟩

end Asserts

/-! ## No empty spin -/

/-- A decode that succeeds yields every row of logits it was asked for. -/
def RowsGiven (cfg : RuntimeConfig) (d : Daemon) : Action → Prop
  | .tick _ out => out.rc = 0 → ∀ i < (d.batch cfg).logits.length, (d.batch cfg).logits.getD i false = true →
      (out.rows i).isSome = true
  | _ => True

section Spin

variable {pf : Platform} {cfg : RuntimeConfig} {d : Daemon} {fd : Int} {s : ClientSession}

instance : ∀ a, Decidable (RowsGiven cfg d a)
  | .tick _ _ => inferInstanceAs (Decidable (_ → ∀ i < _, _))
  | .accept _ _ _ | .readable _ _ _ _ | .writable _ _ _ | .idle _ => inferInstanceAs (Decidable True)

/-- A session in `PREFILL` has nothing in its sequence yet: the first tick
that serves it samples it or fails. -/
theorem prefill_nPast (h : (umad pf cfg).Reach (RowsGiven cfg) d) (hs : d.find fd = some s)
    (hst : s.state = .prefill) : s.nPast = 0 := by
  refine session_invariant (I := fun s => s.state = .prefill → s.nPast = 0) (fun _ _ hst => by cases hst) ?_ h hs hst
  intro d a fd next s s' r w r' w' hr hc hs hmove hi hst
  have hk := (owned_of_reach hr).keyed
  cases hmove with
  | same | sent | drained | idled => exact hi hst
  | rejected | metrics | empty | emptied | finished => cases hst
  | started => rfl
  | @quiet reads now nowNs =>
    obtain ⟨rx, act, rc, -, heq⟩ := s.received_eq nowNs reads
    rw [heq] at hst ⊢
    exact hi hst
  | served hserves hserved =>
    cases hserved with
    | failed => cases hst
    | noRow hrc hnone =>
      obtain ⟨hlt, hlog⟩ := batch_logits_asked hk hserves
      have hsome := hc hrc _ hlt hlog
      rw [hnone] at hsome
      cases hsome
    | first => rw [prefillSampled_eq] at hst; cases hst
    | ended => rw [finish_eq] at hst; cases hst
    | more => rw [decodeSampled_eq] at hst; cases hst

theorem hasReadyWork_some (h : d.hasReadyWork = true) :
    ∃ fd s, d.find fd = some s ∧ (s.decodeReady = true ∨ s.prefillReady = true) := by
  obtain ⟨e, he, hr⟩ := List.any_eq_true.mp h
  refine ⟨e.1, e.2, AList.mem_lookup_iff.mpr he, ?_⟩
  rw [Bool.or_eq_true] at hr
  exact hr.symm

/-- **No empty spin.** In every run whose successful decodes yield their rows
of logits, for every capacity from one on, every history of durations and
every budget: where the main loop does not sleep because a session is ready,
the tick on that pool hands at least one token to `llama_decode`. -/
theorem no_empty_spin (h : (umad pf cfg).Reach (RowsGiven cfg) d) (h1 : 1 ≤ pf.nBatch) (hw : d.hasReadyWork = true) :
    (d.batch cfg).tokens ≠ [] := by
  have hk := (owned_of_reach h).keyed
  have htuned := tuned_of_reach h
  have hB : 0 < min d.sched.targetBatch d.sched.batchCap := by
    have hcap := htuned.cap
    have htarget := htuned.target h1
    omega
  obtain ⟨fd, s, hs, hr⟩ := hasReadyWork_some hw
  have hrows := batchRows_ne_nil cfg hk hB (fun fd s hs hst => prefill_nPast h hs hst) hs hr
  rw [Daemon.batch, enact_batch (plan_ok hk d.sched cfg).nodup]
  simpa [Batch.ofRows] using hrows

/-- Two prompts wait, and the budget is one unit. -/
theorem no_empty_spin_two :
    ((umad small { bmtBudgetUnits := 1 }).after (umad small { bmtBudgetUnits := 1 }).init twoAsked).hasReadyWork =
        true ∧
      (((umad small { bmtBudgetUnits := 1 }).after (umad small { bmtBudgetUnits := 1 }).init twoAsked).batch
        { bmtBudgetUnits := 1 }).tokens ≠ [] := by
  have hr : (umad small { bmtBudgetUnits := 1 }).Reach (RowsGiven { bmtBudgetUnits := 1 })
      ((umad small { bmtBudgetUnits := 1 }).after (umad small { bmtBudgetUnits := 1 }).init twoAsked) :=
    Lib.System.Reach.init.run (by decide +kernel)
  have hw : ((umad small { bmtBudgetUnits := 1 }).after (umad small { bmtBudgetUnits := 1 }).init
      twoAsked).hasReadyWork = true := by decide +kernel
  exact ⟨hw, no_empty_spin hr (by decide) hw⟩

end Spin
end UmaServe
