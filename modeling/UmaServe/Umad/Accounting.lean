/-
What the counters count. The counters are fed from the counts of the plan,
which the guard may have trimmed, and the time is split in proportion to
them; the batch is measured from the arrays. Over every run they agree:
tokens, time, the documented aliases, the calls and the generated tokens
(`metrics_conserved`).
-/
import UmaServe.Sched.BudgetFacts
import UmaServe.Umad.Limits

namespace UmaServe

/-! ## One batch -/

section Account

variable {m : Metrics} {plan : Plan} {tot dur : Nat}

/-- What holds of the counters whatever was measured. -/
structure Metrics.Consistent (m : Metrics) : Prop where
  tokensAlias : m.decodeTokensTotal = m.decodePhaseTokensTotal
  nsAlias : m.decodeNsTotal = m.decodeNsTotalGen
  calls : m.decodeCalls ≤ m.batchCallsTotal
  minMax : 0 < m.decodeCalls → m.decodeMsMin ≤ m.decodeMsMax

theorem genNs_le {genTok : Nat} (dur : Nat) (h : genTok ≤ tot) : dur * genTok / tot ≤ dur := by
  refine Nat.div_le_of_le_mul ?_
  rw [Nat.mul_comm tot]
  exact Nat.mul_le_mul_left dur h

theorem subU64_eq {a b : Nat} (hle : b ≤ a) (hlt : a < 2 ^ 64) : subU64 a b = a - b := by
  unfold subU64
  omega

/-- A batch adds its size to the token counters and its duration to the time
counters. -/
theorem account_totals (htot : plan.decodeTokCount.toNat + plan.prefillTokCount.toNat = tot) (hpos : 0 < tot)
    (hdur : dur < 2 ^ 64) :
    (m.account tot dur plan).decodePhaseTokensTotal + (m.account tot dur plan).prefillTokensTotal =
        m.decodePhaseTokensTotal + m.prefillTokensTotal + tot ∧
      (m.account tot dur plan).decodeNsTotalGen + (m.account tot dur plan).prefillNsTotal =
        m.decodeNsTotalGen + m.prefillNsTotal + dur ∧
      (m.account tot dur plan).tokensGeneratedTotal = m.tokensGeneratedTotal := by
  have hle := genNs_le dur (by omega : plan.decodeTokCount.toNat ≤ tot)
  have hsub := subU64_eq hle hdur
  unfold Metrics.account
  simp only [if_pos hpos, hsub]
  split
  · exact ⟨by dsimp only; omega, by dsimp only; omega, rfl⟩
  · exact ⟨by dsimp only; omega, by dsimp only; omega, rfl⟩

theorem Metrics.Consistent.account (h : m.Consistent) (tot dur : Nat) (plan : Plan) :
    (m.account tot dur plan).Consistent := by
  have htok := h.tokensAlias
  have hns := h.nsAlias
  have hcalls := h.calls
  unfold Metrics.account
  dsimp only
  split
  next =>
    refine ⟨by dsimp only; omega, by dsimp only; omega, by dsimp only; omega, fun _ => ?_⟩
    dsimp only
    generalize ((if 0 < tot then dur * plan.decodeTokCount.toNat / tot else 0) + 500000) / 1000000 % 2 ^ 32 = genMs
    split <;> split <;> omega
  next hzero =>
    -- No decode token, so no share of the time.
    have hgen : plan.decodeTokCount.toNat = 0 := by omega
    refine ⟨by dsimp only; omega, ?_, by dsimp only; omega, h.minMax⟩
    dsimp only
    rw [hgen]
    simp [hns]

end Account

/-! ## The tokens that are kept -/

/-- The sampled token is kept as the next to feed. -/
def SampleRef.keeps (sm : SampleRef) (pf : Platform) (cfg : RuntimeConfig) (out : Decoded) (s : ClientSession) : Bool :=
  (out.rows sm.batchIndex).any fun row =>
    sm.stateBefore = .prefill || !s.atEnd cfg pf.vocab (sampleRow pf out s sm.batchIndex row)

section Kept

variable {pf : Platform} {cfg : RuntimeConfig} {nowNs : Nat} {out : Decoded} {samples : List SampleRef}
  {s s' : ClientSession} {it : BatchItem} {i : Nat}

/-- One turn of the loop over the samples counts the token it keeps. -/
theorem sampleOne_metrics (a : Sampling) (sm : SampleRef) :
    (sampleOne pf cfg nowNs out a sm).metrics =
      { a.metrics with
        tokensGeneratedTotal := a.metrics.tokensGeneratedTotal +
          if (a.sessions.lookup sm.fd).any (sm.keeps pf cfg out) then 1 else 0 } := by
  unfold sampleOne
  cases hs : a.sessions.lookup sm.fd with
  | none => simp
  | some s =>
    cases hr : out.rows sm.batchIndex with
    | none => simp [SampleRef.keeps, hr]
    | some row =>
      simp only [SampleRef.keeps, hr, Option.any_some]
      split
      next hpre => simp [hpre]
      next hpre =>
        split
        next hend => simp [hpre, hend]
        next hend => simp [hpre, hend]

theorem foldl_sampleOne_metrics (a : Sampling) (hn : (samples.map SampleRef.fd).Nodup) :
    (samples.foldl (sampleOne pf cfg nowNs out) a).metrics =
      { a.metrics with
        tokensGeneratedTotal := a.metrics.tokensGeneratedTotal +
          samples.countP fun sm => (a.sessions.lookup sm.fd).any (sm.keeps pf cfg out) } := by
  induction samples generalizing a with
  | nil => rfl
  | cons sm samples ih =>
    rw [List.map_cons, List.nodup_cons] at hn
    -- The other samples are of other sessions.
    have hrest : (samples.countP fun sm' =>
        ((sampleOne pf cfg nowNs out a sm).sessions.lookup sm'.fd).any (sm'.keeps pf cfg out)) =
        samples.countP fun sm' => (a.sessions.lookup sm'.fd).any (sm'.keeps pf cfg out) := by
      refine List.countP_congr fun sm' hsm' => ?_
      rw [sampleOne_view a sm sm'.fd fun h => hn.1 (h ▸ List.mem_map_of_mem hsm')]
    rw [List.foldl_cons, ih _ hn.2, hrest, sampleOne_metrics, List.countP_cons]
    dsimp only
    rw [Nat.add_assoc, Nat.add_comm (List.countP _ samples)]

/-- A session that is served after a decode that succeeded stores the token
its sample keeps. -/
theorem Served.stores_eq (fd : Int) (h : Served pf cfg nowNs out s it i s') (hrc : out.rc = 0) :
    s.stores s' = SampleRef.keeps ⟨fd, i, it.phase.state⟩ pf cfg out (s.enacted it) := by
  cases h with
  | failed hne => exact absurd hrc hne
  | noRow _ hr =>
    rw [stores_same (by rw [enacted_hist])]
    simp [SampleRef.keeps, hr]
  | first _ hr hph =>
    rw [stores_new (by simp [prefillSampled_eq]) (by simp [prefillSampled_eq])]
    simp [SampleRef.keeps, hr, hph, Phase.state]
  | ended _ hr hph hend =>
    rw [stores_dropped (by simp [finish_eq, ClientSession.enacted, hph])]
    simp [SampleRef.keeps, hr, hph, Phase.state, hend]
  | more _ hr hph hend =>
    rw [stores_new (by simp [decodeSampled_eq]) (by simp [decodeSampled_eq])]
    simp [SampleRef.keeps, hr, hph, Phase.state, hend]

theorem Served.stores_failed (h : Served pf cfg nowNs out s it i s') (hrc : out.rc ≠ 0) : s.stores s' = false := by
  cases h with
  | failed => exact stores_same (by simp [ClientSession.decodeFailed, ClientSession.emit])
  | noRow h | first h | ended h | more h => exact absurd h hrc

/-- The sessions for which a tick stored a token, which took `p` to `p'`. -/
def SessionPool.stored (p p' : SessionPool) : Nat :=
  p.keys.countP fun fd =>
    match p.lookup fd, p'.lookup fd with
    | some s, some s' => s.stores s'
    | _, _ => false

variable {sched : Scheduler} {sessions : SessionPool} {mem : Memory}

/-- No session is sampled: nothing is stored. -/
theorem tick_stored_zero (hk : Keyed sessions)
    (h : ∀ fd s before it i s', Serves sessions (sched.items cfg sessions) fd s before it →
      Served pf cfg nowNs out s it i s' → s.stores s' = false) :
    SessionPool.stored sessions (sched.tick pf cfg sessions mem nowNs out).sessions = 0 := by
  refine List.countP_eq_zero.mpr fun fd _ => ?_
  cases hs : sessions.lookup fd with
  | none => simp
  | some s =>
    cases hs' : (sched.tick pf cfg sessions mem nowNs out).sessions.lookup fd with
    | none => simp
    | some s' =>
      rcases tick_session hk hs hs' with ⟨rfl, -⟩ | ⟨before, it, hserves, hserved⟩
      · simp [stores_same]
      · simp [h fd s before it _ s' hserves hserved]

/-- **The tokens that are stored are those the loop over the samples counts**:
a session has at most one sample. -/
theorem tick_stored (hk : Keyed sessions) (hrc : out.rc = 0) :
    SessionPool.stored sessions (sched.tick pf cfg sessions mem nowNs out).sessions =
      (enact sessions (sched.items cfg sessions)).samples.countP fun sm =>
        ((enact sessions (sched.items cfg sessions)).sessions.lookup sm.fd).any (sm.keeps pf cfg out) := by
  refine Lib.countP_eq_of_key sessions.keys_nodup (tick_samples_nodup hk) fun fd => ?_
  constructor
  · rintro ⟨-, h⟩
    cases hs : sessions.lookup fd with
    | none => simp [hs] at h
    | some s =>
      cases hs' : (sched.tick pf cfg sessions mem nowNs out).sessions.lookup fd with
      | none => simp [hs'] at h
      | some s' =>
        simp only [hs, hs'] at h
        rcases tick_session hk hs hs' with ⟨rfl, -⟩ | ⟨before, it, hserves, hserved⟩
        · rw [stores_same rfl] at h
          cases h
        · refine ⟨_, hserves.sample hk, ?_, rfl⟩
          rw [hserves.enact hk, Option.any_some, ← hserved.stores_eq fd hrc]
          exact h
  · rintro ⟨sm, hsm, h, rfl⟩
    obtain ⟨s, before, it, hserves⟩ := tick_sample_session hk hsm
    have hsame := List.inj_on_of_nodup_map (tick_samples_nodup hk) hsm (hserves.sample hk) rfl
    obtain ⟨s', hs', hserved⟩ := tick_served pf mem nowNs out hk hserves
    refine ⟨AList.mem_keys.mp (AList.mem_of_lookup hserves.lookup), ?_⟩
    rw [hserves.enact hk, Option.any_some, hsame, ← hserved.stores_eq sm.fd hrc] at h
    simp only [hserves.lookup, hs']
    exact h

end Kept

/-! ## The tick -/

/-- What the ticks of a run did, seen from outside the scheduler. -/
structure Account where
  /-- The sizes of the batches handed to `llama_decode`. -/
  tokens : Nat := 0
  /-- The durations measured. -/
  ns : Nat := 0
  /-- The sampled tokens stored as `pending_tok`. -/
  stored : Nat := 0
  deriving DecidableEq

/-- The counters say what happened. -/
structure Metrics.Agrees (m : Metrics) (a : Account) : Prop where
  tokens : m.decodePhaseTokensTotal + m.prefillTokensTotal = a.tokens
  ns : m.decodeNsTotalGen + m.prefillNsTotal = a.ns
  stored : m.tokensGeneratedTotal = a.stored
  consistent : m.Consistent

section Tick

variable {pf : Platform} {cfg : RuntimeConfig} {sched : Scheduler} {sessions : SessionPool} {mem : Memory}
  {nowNs : Nat} {out : Decoded} {m : Metrics} {a : Account}

/-- What the guard publishes, and the moving average, are not among them. -/
theorem Metrics.Agrees.publish (h : m.Agrees a) (budget est : UInt64) (active activations ewma : Nat) :
    { m with
      bmtBudgetUnits := budget, bmtUnitsLast := est, bmtGuardActive := active, bmtGuardActivations := activations,
      decodeMsEwmaX1000 := ewma : Metrics }.Agrees a :=
  ⟨h.tokens, h.ns, h.stored, h.consistent.tokensAlias, h.consistent.nsAlias, h.consistent.calls, h.consistent.minMax⟩

theorem Metrics.Agrees.guard (h : sched.metrics.Agrees a) (cfg : RuntimeConfig) (sessions : SessionPool) :
    (sched.guardMetrics cfg sessions).Agrees a := by
  unfold Scheduler.guardMetrics
  dsimp only
  split
  · exact h.publish _ _ _ _ _
  · exact h

theorem Metrics.Agrees.kept (h : m.Agrees a) (n : Nat) :
    { m with tokensGeneratedTotal := m.tokensGeneratedTotal + n : Metrics }.Agrees { a with stored := a.stored + n } :=
  ⟨h.tokens, h.ns, congrArg (· + n) h.stored, h.consistent.tokensAlias, h.consistent.nsAlias, h.consistent.calls,
    h.consistent.minMax⟩

theorem Metrics.Agrees.account {plan : Plan} {tot dur : Nat} (h : m.Agrees a)
    (htot : plan.decodeTokCount.toNat + plan.prefillTokCount.toNat = tot) (hpos : 0 < tot) (hdur : dur < 2 ^ 64) :
    (m.account tot dur plan).Agrees { a with tokens := a.tokens + tot, ns := a.ns + dur } := by
  obtain ⟨htok, hns, hgen⟩ := account_totals (m := m) htot hpos hdur
  refine ⟨?_, ?_, hgen.trans h.stored, h.consistent.account tot dur plan⟩
  · rw [htok, h.tokens]
  · rw [hns, h.ns]

theorem plan_total (hk : Keyed sessions) (sched : Scheduler) (cfg : RuntimeConfig) :
    (sched.plan cfg sessions).decodeTokCount.toNat + (sched.plan cfg sessions).prefillTokCount.toNat =
      (enact sessions (sched.items cfg sessions)).batch.tokens.length := by
  have hplan := plan_ok hk sched cfg
  have hc := plan_counts sessions sched cfg
  have hlen := batchRows_length hk sched cfg
  have hd : 0 ≤ (sched.plan cfg sessions).decodeTokCount := by
    rw [hc.decode]
    exact tokensOf_nonneg fun it hit => (hplan.ready it hit).nonneg
  have hp : 0 ≤ (sched.plan cfg sessions).prefillTokCount := by
    rw [hc.prefill]
    exact tokensOf_nonneg fun it hit => (hplan.ready it hit).nonneg
  rw [enact_batch hplan.nodup, ofRows_tokens_length]
  show _ = (sched.batchRows cfg sessions).length
  omega

@[simp] theorem tune_metrics : (sched.tune pf).metrics = sched.metrics := by
  unfold Scheduler.tune
  split
  · rfl
  · split <;> rfl

/-- **A tick keeps the counters in step** with the batch, the duration and the
tokens that are stored, whatever `llama_decode` returns. -/
theorem Metrics.Agrees.tick (hk : Keyed sessions) (h : sched.metrics.Agrees a) (hdur : out.durNs < 2 ^ 64) :
    (sched.tick pf cfg sessions mem nowNs out).sched.metrics.Agrees
      { tokens := a.tokens + (enact sessions (sched.items cfg sessions)).batch.tokens.length
        ns := if (enact sessions (sched.items cfg sessions)).batch.tokens.isEmpty then a.ns else a.ns + out.durNs
        stored := a.stored + SessionPool.stored sessions (sched.tick pf cfg sessions mem nowNs out).sessions } := by
  have hguard := h.guard cfg sessions
  have htot := plan_total hk sched cfg
  cases he : (enact sessions (sched.items cfg sessions)).batch.tokens.isEmpty with
  | true =>
    have hno : SessionPool.stored sessions (sched.tick pf cfg sessions mem nowNs out).sessions = 0 := by
      refine tick_stored_zero hk fun fd s before it i s' hserves _ => absurd ?_ hserves.batch_ne
      rw [List.isEmpty_iff, ← List.length_eq_zero_iff, enact_batch (plan_ok hk sched cfg).nodup,
        ofRows_tokens_length] at he
      exact List.length_eq_zero_iff.mp he
    rw [hno, List.isEmpty_iff.mp he]
    simp only [Scheduler.tick, he, if_true]
    exact hguard
  | false =>
    have hpos : 0 < (enact sessions (sched.items cfg sessions)).batch.tokens.length := by
      rw [List.length_pos_iff]
      intro hnil
      rw [hnil] at he
      cases he
    have hacc := (hguard.account htot hpos hdur).publish
    by_cases hrc : out.rc = 0
    · have hnot : ¬ (out.rc ≠ 0) := fun hne => hne hrc
      rw [tick_stored hk hrc]
      simp only [Scheduler.tick, he, Bool.false_eq_true, if_false, if_neg hnot, tune_metrics]
      rw [foldl_sampleOne_metrics _ (tick_samples_nodup hk)]
      exact (hacc _ _ _ _ _).kept _
    · have hno : SessionPool.stored sessions (sched.tick pf cfg sessions mem nowNs out).sessions = 0 :=
        tick_stored_zero hk fun fd s before it i s' _ hserved => hserved.stores_failed hrc
      rw [hno]
      simp only [Scheduler.tick, he, Bool.false_eq_true, if_false, if_pos hrc, tune_metrics]
      exact hacc _ _ _ _ _

end Tick

/-! ## The runs -/

section Runs

variable {pf : Platform} {cfg : RuntimeConfig} {p : Daemon × Account}

/-- The account after a step. -/
def Account.note (pf : Platform) (cfg : RuntimeConfig) (a : Account) (d : Daemon) : Action → Account
  | .tick nowNs out =>
    { tokens := a.tokens + (d.batch cfg).tokens.length
      ns := if (d.batch cfg).tokens.isEmpty then a.ns else a.ns + out.durNs
      stored := a.stored + SessionPool.stored d.mgr.sessions (d.tick pf cfg nowNs out).mgr.sessions }
  | .accept _ _ _ | .readable _ _ _ _ | .writable _ _ _ | .idle _ => a

/-- The daemon, with the account kept beside it. -/
abbrev accounted (pf : Platform) (cfg : RuntimeConfig) : Lib.System (Daemon × Account) Action :=
  (umad pf cfg).record {} (Account.note pf cfg)

/-- The measured duration fits the 64 bits it is counted in. -/
def Timed (_ : Daemon × Account) : Action → Prop
  | .tick _ out => out.durNs < 2 ^ 64
  | .accept _ _ _ | .readable _ _ _ _ | .writable _ _ _ | .idle _ => True

instance : ∀ a, Decidable (Timed p a)
  | .tick _ _ => inferInstanceAs (Decidable (_ < _))
  | .accept _ _ _ | .readable _ _ _ _ | .writable _ _ _ | .idle _ => inferInstanceAs (Decidable True)

theorem agrees_of_reach (h : (accounted pf cfg).Reach Timed p) : p.1.sched.metrics.Agrees p.2 := by
  refine h.invariant (I := fun p => p.1.sched.metrics.Agrees p.2) ?_ ?_
  · exact ⟨rfl, rfl, rfl, rfl, rfl, le_refl _, fun h => absurd h (lt_irrefl 0)⟩
  · intro p a hr hi _ hc
    obtain ⟨d, acc⟩ := p
    cases a with
    | tick nowNs out =>
      have hk := (owned_of_reach (C := Lib.Always) (hr.forget fun _ _ _ => trivial)).keyed
      show (d.tick pf cfg nowNs out).sched.metrics.Agrees (Account.note pf cfg acc d (.tick nowNs out))
      rw [Account.note, Daemon.tick_sched, Daemon.tick_sessions]
      exact hi.tick hk hc
    | accept | readable | writable | idle =>
      show (d.step pf cfg _).sched.metrics.Agrees acc
      rw [step_sched (by simp)]
      exact hi

/-- **The counters are conserved.** After every run, whatever `llama_decode`
returned and however long it took: the two token counters add up to the
sizes of the batches, and the two time counters to the durations; the
documented aliases are equal; `decode_calls` is at most `batch_calls_total`
and the extremes are in order once it counts; and the generated tokens are
those stored. The next tick's share of its duration never exceeds it. -/
theorem metrics_conserved (h : (accounted pf cfg).Reach Timed p) :
    let m := p.1.sched.metrics
    m.decodePhaseTokensTotal + m.prefillTokensTotal = p.2.tokens ∧
    m.decodeNsTotalGen + m.prefillNsTotal = p.2.ns ∧
    m.decodeTokensTotal = m.decodePhaseTokensTotal ∧
    m.decodeNsTotal = m.decodeNsTotalGen ∧
    m.decodeCalls ≤ m.batchCallsTotal ∧
    (0 < m.decodeCalls → m.decodeMsMin ≤ m.decodeMsMax) ∧
    m.tokensGeneratedTotal = p.2.stored ∧
    ∀ dur, dur * (p.1.sched.plan cfg p.1.mgr.sessions).decodeTokCount.toNat / (p.1.batch cfg).tokens.length ≤ dur := by
  have ha := agrees_of_reach h
  have hc := ha.consistent
  have hk := (owned_of_reach (C := Lib.Always) (h.forget fun _ _ _ => trivial)).keyed
  refine ⟨ha.tokens, ha.ns, hc.tokensAlias, hc.nsAlias, hc.calls, hc.minMax, ha.stored, fun dur => ?_⟩
  have htot := plan_total hk p.1.sched cfg
  show dur * _ / (enact p.1.mgr.sessions (p.1.sched.items cfg p.1.mgr.sessions)).batch.tokens.length ≤ dur
  exact genNs_le dur (by omega)

/-- The run of two clients and one more tick, which takes five milliseconds: a
batch of the prompts and one of the next tokens. -/
def twoTimed : List Action := twoServed ++ [.tick 4 { choosing 1 with durNs := 5000000 }]

theorem metrics_conserved_two :
    ((accounted small {}).after (accounted small {}).init twoTimed).2 = { tokens := 5, ns := 5000000, stored := 4 } ∧
      ((accounted small {}).after (accounted small {}).init twoTimed).1.sched.metrics.tokensGeneratedTotal = 4 ∧
      ((accounted small {}).after (accounted small {}).init twoTimed).1.sched.metrics.decodeCalls = 1 ∧
      ((accounted small {}).after (accounted small {}).init twoTimed).1.sched.metrics.decodeMsMin ≤
        ((accounted small {}).after (accounted small {}).init twoTimed).1.sched.metrics.decodeMsMax := by
  have hr : (accounted small {}).Reach Timed ((accounted small {}).after (accounted small {}).init twoTimed) :=
    Lib.System.Reach.init.run (by decide +kernel)
  have hacc : ((accounted small {}).after (accounted small {}).init twoTimed).2 =
      { tokens := 5, ns := 5000000, stored := 4 } := by decide +kernel
  have hcalls : ((accounted small {}).after (accounted small {}).init twoTimed).1.sched.metrics.decodeCalls = 1 := by
    decide +kernel
  obtain ⟨-, -, -, -, -, hminMax, hstored, -⟩ := metrics_conserved hr
  rw [hacc] at hstored
  exact ⟨hacc, hstored, hcalls, hminMax (by rw [hcalls]; decide)⟩

end Runs
end UmaServe
