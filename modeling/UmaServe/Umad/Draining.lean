/-
How long the work in hand can take. As long as no new request starts, a tick
that finds a request in flight leaves less of it ahead, whoever it feeds; so
the ticks until every request in flight is over are bounded by what they all
have ahead (`drains`). What the clients do besides, connect and leave, read
and stop reading, does not matter.
-/
import UmaServe.Lib.Progress
import UmaServe.Lib.Total
import UmaServe.Umad.Executor
import UmaServe.Umad.Failure
import UmaServe.Umad.Progress

namespace UmaServe

/-- The ticks the requests in flight can still be fed in, one after another. -/
def Daemon.ahead (cfg : RuntimeConfig) (d : Daemon) : Nat := d.mgr.sessions.total (ClientSession.ahead cfg)

def Action.isTick : Action → Bool
  | .tick _ _ => true
  | .accept _ _ _ | .readable _ _ _ _ | .writable _ _ _ | .idle _ => false

/-- No request starts. -/
def Quiet (pf : Platform) (cfg : RuntimeConfig) (d : Daemon) : Action → Prop
  | .readable fd reads _ nowNs => ∀ s ∈ d.find fd, s.starts pf cfg nowNs reads = none
  | .accept _ _ _ | .writable _ _ _ | .idle _ | .tick _ _ => True

/-- What is counted of a request is within its prompt and the limit. -/
structure ClientSession.Within (cfg : RuntimeConfig) (s : ClientSession) : Prop where
  index : s.prefillIdx ≤ s.promptTokens.length
  count : s.generatedCount ≤ cfg.maxTokens

section Draining

variable {pf : Platform} {cfg : RuntimeConfig} {d : Daemon} {a : Action} {fd next : Int} {s s' : ClientSession}
  {nowNs : Nat} {out : Decoded} {before : List BatchItem} {it : BatchItem} {i : Nat} {v' : View}
  {C : Daemon → Action → Prop}

instance : ∀ a, Decidable (Quiet pf cfg d a)
  | .readable _ _ _ _ => inferInstanceAs (Decidable (∀ s ∈ _, _))
  | .accept _ _ _ | .writable _ _ _ | .idle _ | .tick _ _ => inferInstanceAs (Decidable True)

theorem within_of_reach (h : (umad pf cfg).Reach C d) (hs : d.find fd = some s) (hb : s.state.busy = true) :
    s.Within cfg := by
  obtain ⟨b, hrec⟩ := h.recorded (fun _ => (tally pf cfg).fresh) (tally pf cfg).note
  have hbound := bounded_of_reach hrec hs
  exact ⟨hbound.index hb, hbound.count hb⟩

/-- A tick that feeds a session leaves it less ahead, whatever llama.cpp
returned. -/
theorem Served.ahead_lt (hk : Keyed d.mgr.sessions)
    (hserves : Serves d.mgr.sessions (d.sched.items cfg d.mgr.sessions) fd s before it)
    (hserved : Served pf cfg nowNs out s it i s') (hw : s.Within cfg) : s'.ahead cfg < s.ahead cfg := by
  have hindex := hw.index
  have hcount := hw.count
  have hahead := hserves.ahead hk
  have hahead' := ahead_le cfg s'
  obtain ⟨htoks, hprog⟩ := hserved.progress hk hserves hindex
  rw [htoks] at hahead'
  cases hprog with
  | ended hst =>
    rw [ahead_idle cfg hst]
    omega
  | fed hlt hle hc =>
    rw [htoks] at hle
    omega
  | counted hi hlt hc => omega
  | stuck _ _ hst hpend =>
    rw [ahead_stuck cfg hst hpend]
    omega

/-- Where no request starts, a session has no more ahead than it had, and a
new one has nothing. -/
theorem Move.ahead_le {v : View} (h : Move pf cfg d next fd a v v') (hk : Keyed d.mgr.sessions)
    (hw : ∀ s, v.session = some s → s.state.busy = true → s.Within cfg) (hv : d.view fd = v) (hq : Quiet pf cfg d a)
    (hs' : v'.session = some s') : s'.ahead cfg ≤ v.session.elim 0 (ClientSession.ahead cfg) := by
  cases h with
  | closed => cases hs'
  | same | idled => rw [hs']; exact le_refl _
  | accepted | rejected | metrics | empty | emptied | finished =>
    cases hs'
    rw [ahead_idle cfg rfl]
    exact Nat.zero_le _
  | sent | drained =>
    cases hs'
    exact le_refl _
  | @quiet reads now nowNs s =>
    cases hs'
    obtain ⟨rx, act, rc, -, heq⟩ := s.received_eq nowNs reads
    rw [heq]
    exact le_refl _
  | @started reads now nowNs s t r w r' js seq hp ht hf hacc hne =>
    have hnone := hq s (congrArg View.session hv)
    rw [starts_some hf hacc hne] at hnone
    cases hnone
  | served hserves hserved =>
    cases hs'
    exact (hserved.ahead_lt hk hserves (hw _ rfl (hserves.busy hk))).le

theorem Owned.feeds (h : Owned d) (hbatch : (d.batch cfg).tokens ≠ []) :
    ∃ fd s before it, Serves d.mgr.sessions (d.sched.items cfg d.mgr.sessions) fd s before it := by
  rw [Daemon.batch, enact_batch (plan_ok h.keyed d.sched cfg).nodup] at hbatch
  obtain ⟨r, hr⟩ := List.exists_mem_of_ne_nil _ (List.map_eq_nil_iff.not.mp hbatch)
  obtain ⟨it, hit, s, hs, hrow⟩ := mem_planRows hr
  obtain ⟨before, hserves⟩ := exists_serves hit hs (List.ne_nil_of_mem hrow)
  exact ⟨it.fd, s, before, it, hserves⟩

theorem BatchItem.Exhausts.rows_ne {sessions : SessionPool} (hex : it.Exhausts s) (hok : ItemOk sessions it)
    (hs : sessions.lookup it.fd = some s) : itemRows s it ≠ [] := by
  intro hnil
  obtain ⟨hph, h0⟩ := (itemRows_eq_nil hok hs).mp hnil
  obtain ⟨t, ht, hm⟩ := hok
  obtain rfl : t = s := Option.some.inj (ht.symm.trans hs)
  rw [hph] at hm
  have hlt := (prefillReady_iff.mp hm.1).2
  simp only [BatchItem.Exhausts, hph, reduceCtorEq, false_or, ClientSession.remaining] at hex
  omega

theorem RowsGiven.noRowLost (hk : Keyed d.mgr.sessions) (h : RowsGiven cfg d a) : NoRowLost cfg d a := by
  cases a with
  | accept | readable | writable | idle => trivial
  | tick nowNs out =>
    intro hrc i _ it hit s hs hex
    have hne := hex.rows_ne ((plan_ok hk d.sched cfg).ready it (List.mem_of_getElem? hit)) hs
    obtain ⟨hlt, hlog⟩ := batch_logits_asked hk (serves_at hit hs hne)
    exact h hrc _ hlt hlog

theorem ready_of_ahead (h : (umad pf cfg).Reach (RowsGiven cfg) d) (hs : d.find fd = some s) (ha : s.ahead cfg ≠ 0) :
    s.decodeReady = true ∨ s.prefillReady = true := by
  have hlost : (umad pf cfg).Reach (NoRowLost cfg) d :=
    h.mono fun d a hr _ hc => hc.noRowLost (owned_of_reach hr).keyed
  refine (schedulable_of_reach hlost hs).ready ?_
  by_contra hb
  exact ha (ahead_idle cfg (Bool.eq_false_iff.mpr hb))

theorem ahead_pos (cfg : RuntimeConfig) (h : s.decodeReady = true ∨ s.prefillReady = true) : 0 < s.ahead cfg := by
  unfold ClientSession.ahead
  rcases h with hd | hp
  · obtain ⟨hst, hpend⟩ := decodeReady_iff.mp hd
    simp [hst, hpend]
  · simp [(prefillReady_iff.mp hp).1]

theorem hasReadyWork_of_ready (hs : d.find fd = some s) (hr : s.decodeReady = true ∨ s.prefillReady = true) :
    d.hasReadyWork = true :=
  List.any_eq_true.mpr ⟨⟨fd, s⟩, AList.mem_entries_iff.mpr hs, by rw [Bool.or_eq_true]; exact hr.symm⟩

/-- **One step.** No step in which no request starts puts more ahead, and a
tick takes some of it, if there is any. -/
theorem ahead_step (h : (umad pf cfg).Reach (RowsGiven cfg) d) (h1 : 1 ≤ pf.nBatch) (he : d.Enabled pf cfg a)
    (hq : Quiet pf cfg d a) : (d.step pf cfg a).ahead cfg ≤ d.ahead cfg - if a.isTick then 1 else 0 := by
  have ho := owned_of_reach h
  have hle : ∀ k t, (d.step pf cfg a).find k = some t → t.ahead cfg ≤ (d.find k).elim 0 (ClientSession.ahead cfg) :=
    fun k t ht => (step_move ho.keyed he k).ahead_le ho.keyed (fun s hs hb => within_of_reach h hs hb) rfl hq ht
  have hall : (d.step pf cfg a).ahead cfg ≤ d.ahead cfg := AList.total_le hle
  by_cases hz : d.ahead cfg = 0
  · omega
  cases a with
  | accept | readable | writable | idle => exact hall
  | tick nowNs out =>
    -- Something is ahead of a session, so one has work, and the batch is not empty.
    obtain ⟨k, t, ht, hne⟩ := AList.exists_of_total hz
    have hbatch := no_empty_spin h h1 (hasReadyWork_of_ready ht (ready_of_ahead h ht hne))
    obtain ⟨fd, s, before, it, hserves⟩ := ho.feeds hbatch
    obtain ⟨s', hs', hserved⟩ := tick_served pf d.memory nowNs out ho.keyed hserves
    have hlt := hserved.ahead_lt ho.keyed hserves (within_of_reach h hserves.lookup (hserves.busy ho.keyed))
    have hfind : (d.step pf cfg (.tick nowNs out)).find fd = some s' := Daemon.tick_find.trans hs'
    have htotal : (d.step pf cfg (.tick nowNs out)).ahead cfg < d.ahead cfg :=
      AList.total_lt hle hserves.lookup (by rw [AList.worth_some hfind]; exact hlt)
    simp only [Action.isTick, if_true]
    omega

/-- **The work in hand drains.** In every run whose successful decodes yield
their rows of logits, from whatever state it has reached: as long as no new
request starts, every tick leaves less ahead of the requests in flight, and
after as many ticks as there were ahead none is in flight, whatever the
scheduler chose, whatever llama.cpp returned, and whatever the clients did in
between. -/
theorem drains {as : List Action} (h : (umad pf cfg).Reach (RowsGiven cfg) d) (h1 : 1 ≤ pf.nBatch)
    (hr : (umad pf cfg).Run (fun d a => RowsGiven cfg d a ∧ Quiet pf cfg d a) d as) :
    ((umad pf cfg).after d as).ahead cfg ≤ d.ahead cfg - as.countP Action.isTick ∧
      (d.ahead cfg ≤ as.countP Action.isTick →
        ∀ fd s, ((umad pf cfg).after d as).find fd = some s → s.state.busy = false) := by
  have hrank := hr.rank_le (I := (umad pf cfg).Reach (RowsGiven cfg)) (fun d a hd he hc => hd.step he hc.1)
    (fun d a hd he hc => ahead_step hd h1 he hc.2) h
  refine ⟨hrank, fun hticks fd s hs => ?_⟩
  have hreach := h.run (hr.mono fun _ _ _ hc => hc.1)
  have hlost := hreach.mono fun d a hr _ hc => RowsGiven.noRowLost (owned_of_reach hr).keyed hc
  -- A request in flight would have something ahead.
  by_contra hb
  rw [Bool.not_eq_false] at hb
  have hle : s.ahead cfg ≤ ((umad pf cfg).after d as).ahead cfg := AList.le_total hs
  have hready := (schedulable_of_reach hlost hs).ready hb
  have hpos := ahead_pos cfg hready
  omega

/-- Two requests with a limit of one token have seven ticks ahead. -/
theorem drains_two :
    let d := (umad small { maxTokens := 1 }).after (umad small { maxTokens := 1 }).init twoAsked
    d.ahead { maxTokens := 1 } = 7 ∧
      ∀ fd s, ((umad small { maxTokens := 1 }).after d (List.replicate 7 (.tick 3 (choosing 1)))).find fd = some s →
        s.state.busy = false := by
  intro d
  have h : (umad small { maxTokens := 1 }).Reach (RowsGiven { maxTokens := 1 }) d :=
    Lib.System.Reach.init.run (by decide +kernel)
  have hahead : d.ahead { maxTokens := 1 } = 7 := by decide +kernel
  have hrun : (umad small { maxTokens := 1 }).Run
      (fun d a => RowsGiven { maxTokens := 1 } d a ∧ Quiet small { maxTokens := 1 } d a) d
      (List.replicate 7 (.tick 3 (choosing 1))) := by decide +kernel
  exact ⟨hahead, (drains h (by decide) hrun).2 (by rw [hahead]; decide)⟩

end Draining
end UmaServe
