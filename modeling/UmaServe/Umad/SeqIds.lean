/-
The range of sequence ids. The context accepts the ids below a bound fixed at
its creation; the daemon takes them from a counter that starts at 1 and is
never turned back. They stay below the bound exactly as long as no request
that needs a new id finds the counter at it (`batch_seq_in_range`), and with
one client at a time it gets to any bound (`batch_seq_unbounded`).
-/
import UmaServe.Umad.Ownership

namespace UmaServe

section Range

variable {pf : Platform} {cfg : RuntimeConfig} {d : Daemon} {a : Action}

/-- A request that starts on a session without a sequence finds the counter
below `bound`. -/
def IdsLeft (pf : Platform) (cfg : RuntimeConfig) (bound : Int) (d : Daemon) : Action → Prop
  | .readable fd reads _ nowNs => ∀ s ∈ d.find fd, s.seq < 0 → ∀ js ∈ s.frame? nowNs reads,
      acceptsRequest cfg js = true → promptOf pf.vocab js ≠ [] → d.mgr.nextSeqId < bound
  | _ => True

instance (bound : Int) : ∀ a, Decidable (IdsLeft pf cfg bound d a)
  | .readable _ _ _ _ => inferInstanceAs (Decidable (∀ s ∈ _, _))
  | .accept _ _ _ | .writable _ _ _ | .idle _ | .tick _ _ => inferInstanceAs (Decidable True)

/-- The ids handed out are below `bound`. -/
def IdsBelow (bound : Int) (d : Daemon) : Prop := ∀ fd s, d.find fd = some s → 0 ≤ s.seq → s.seq < bound

theorem idsBelow_of_reach {bound : Int} (h : (umad pf cfg).Reach (IdsLeft pf cfg bound) d) : IdsBelow bound d := by
  refine h.invariant (I := IdsBelow bound) (fun fd s hs => by cases hs) ?_
  intro d a hr hi he hc fd s' hs' h0
  rcases (owned_of_reach hr).ids he hs' with
    ⟨-, -, hseq, -⟩ | ⟨s, hs, -, hseq, -⟩ | ⟨s, reads, now, nowNs, hs, -, hneg, hseq, -, rfl, js, hf, hacc, hne⟩
  · omega
  · rw [hseq]; exact hi fd s hs (by omega)
  · rw [hseq]; exact hc s hs hneg js hf hacc hne

/-- **The range of sequence ids.** In every run in which a request that needs
a new sequence id arrives only while the counter is below the bound of the
context, every id a tick puts in a batch is at least 0 and below that bound. -/
theorem batch_seq_in_range {bound : Int} (h : (umad pf cfg).Reach (IdsLeft pf cfg bound) d) :
    ∀ q ∈ (d.batch cfg).seqIdVals, 0 ≤ q ∧ q < bound := by
  intro q hq
  have ho := owned_of_reach h
  obtain ⟨fd, s, hs, hb, rfl⟩ := batch_seq ho hq
  have h1 := ho.busy fd s hs hb
  exact ⟨by omega, idsBelow_of_reach h fd s hs (by omega)⟩

theorem batch_seq_in_range_two :
    (((umad small {}).after (umad small {}).init twoServed).batch {}).seqIdVals = [2, 1] ∧
      ∀ q ∈ (((umad small {}).after (umad small {}).init twoServed).batch {}).seqIdVals,
        0 ≤ q ∧ q < ({} : RuntimeConfig).contextSeqMax :=
  ⟨by decide +kernel, batch_seq_in_range (Lib.System.Reach.init.run (by decide +kernel))⟩

end Range

/-! ## One client after another -/

/-- A request that passes every check starts, on the counter's id when its
session has none. -/
theorem readable_started (pf : Platform) {cfg : RuntimeConfig} {d : Daemon} {fd : Int} {s : ClientSession}
    {reads : List ReadRes} {nowNs : Nat} {js : Bytes} (now : WriteRes) (hs : d.find fd = some s) (hneg : s.seq < 0)
    (hf : s.frame? nowNs reads = some js) (hacc : acceptsRequest cfg js = true) (hne : promptOf pf.vocab js ≠ []) :
    ∃ t rr, s.Taken t ∧
      let s' := t.openWindow.acceptWindow.start cfg nowNs (promptOf pf.vocab js) d.mgr.nextSeqId
      d.readable pf cfg fd reads now nowNs = d.heard fd ⟨s', d.mgr.nextSeqId + 1, rr⟩ s' := by
  obtain ⟨json, h⟩ := readable_some pf cfg reads now nowNs hs
  have hr : Reading cfg pf.vocab nowNs d.mgr.nextSeqId reads s _ := read_reading
  have hparse : s.parses nowNs reads = true := by
    simp only [ClientSession.frame?, Option.bind_eq_some_iff] at hf
    obtain ⟨fr, hfr, hok⟩ := hf
    split at hok
    next hok' => simp [ClientSession.parses, hfr, hok']
    next => cases hok
  dsimp only at h
  generalize s.read cfg pf.vocab nowNs d.mgr.nextSeqId reads = o at hr h
  -- Every other outcome of a read contradicts one of the checks.
  cases hr with
  | quiet hp => rw [hparse] at hp; cases hp
  | rejected _ _ hno => rw [(hno js hf).2] at hacc; cases hacc
  | admin _ _ hf' hadm =>
    rw [hf, Option.some.injEq] at hf'
    rw [← hf'] at hadm
    simp [acceptsRequest, hadm] at hacc
  | empty _ _ hf' _ hnil =>
    rw [hf, Option.some.injEq] at hf'
    exact absurd (hf' ▸ hnil) hne
  | @started t rr js' seq _ _ ht hf' _ _ hw ha hseq =>
    rw [hf, Option.some.injEq] at hf'
    obtain rfl := hf'
    rcases h with ⟨-, h⟩ | ⟨hww, -⟩
    · rcases hseq with ⟨-, rfl, rfl⟩ | ⟨h0, -⟩
      · refine ⟨t, rr, ht, ?_⟩
        rw [h, ReadOutcome.replied, if_neg (by simp [ha])]
      · omega
    · rw [hw] at hww; cases hww

section Exhaustion

variable {d : Daemon} {k : Int} {s t : ClientSession} {p : SessionPool}

/-- No client is connected, nothing was scheduled yet, and `k` is the next
id. -/
structure Vacant (k : Int) (d : Daemon) : Prop where
  reach : (umad small {}).Reach Lib.Always d
  sessions : d.mgr.sessions = ∅
  next : d.mgr.nextSeqId = k
  sched : d.sched = Scheduler.new small

/-- One client is, with a request that got the id `k`. -/
structure Occupied (k : Int) (s : ClientSession) (d : Daemon) : Prop where
  reach : (umad small {}).Reach Lib.Always d
  sessions : d.mgr.sessions.entries = [⟨7, s⟩]
  next : d.mgr.nextSeqId = k + 1
  sched : d.sched = Scheduler.new small
  fd : s.fd = 7
  seq : s.seq = k
  state : s.state = .prefill
  prompt : s.promptTokens = [97]
  idx : s.prefillIdx = 0
  emitted : s.firstEmitNs = 0

theorem lone_lookup (h : p.entries = [⟨7, s⟩]) : p.lookup 7 = some s := by
  rw [← AList.mem_entries_iff, h]
  exact List.mem_singleton_self _

theorem lone_replace (h : p.entries = [⟨7, s⟩]) : (p.replace 7 t).entries = [⟨7, t⟩] := by
  simp only [AList.replace, h]
  rfl

theorem lone_erase (h : p.entries = [⟨7, s⟩]) : p.erase 7 = ∅ := by
  apply AList.ext
  show p.entries.kerase 7 = []
  rw [h]
  rfl

theorem fresh_frame :
    ∃ js, ({ fd := 7, lastActivityNs := 1 } : ClientSession).frame? 2 (request "a") = some js ∧
      acceptsRequest {} js = true ∧ promptOf small.vocab js = [97] := by
  have h : (({ fd := 7, lastActivityNs := 1 } : ClientSession).frame? 2 (request "a")).map
      (fun js => (acceptsRequest {} js, promptOf small.vocab js)) = some (true, [97]) := by decide +kernel
  obtain ⟨js, hjs, h⟩ := Option.map_eq_some_iff.mp h
  rw [Prod.mk.injEq] at h
  exact ⟨js, hjs, h⟩

theorem Vacant.ask (h : Vacant k d) (hk : k + 1 < 2 ^ 31) : ∃ d' s, Occupied k s d' := by
  have he : (umad small {}).enabled d (.accept 7 [7] 1) := ⟨by decide, by rw [Daemon.find, h.sessions]; rfl⟩
  have hr₁ := h.reach.step he trivial
  -- The accept.
  have haccept : (umad small {}).next d (.accept 7 [7] 1) =
      { d with mgr := d.mgr.addClient 7 [7] 1, poller := d.poller.addRead 7 } := by
    show d.accept {} 7 [7] 1 = _
    rw [Daemon.accept, if_neg]
    rw [h.sessions]
    decide
  rw [haccept] at hr₁
  generalize hd₁ : ({ d with mgr := d.mgr.addClient 7 [7] 1, poller := d.poller.addRead 7 } : Daemon) = d₁ at hr₁
  have hent : d₁.mgr.sessions.entries = [⟨7, { fd := 7, lastActivityNs := 1 }⟩] := by
    rw [← hd₁]
    simp only [SessionManager.addClient, h.sessions]
    rfl
  have hfind : d₁.find 7 = some { fd := 7, lastActivityNs := 1 } := lone_lookup hent
  have hnext : d₁.mgr.nextSeqId = k := by rw [← hd₁]; exact h.next
  -- The request.
  obtain ⟨js, hjs, hacc, hprompt⟩ := fresh_frame
  obtain ⟨t, rr, ht, hread⟩ := readable_started small .wouldBlock hfind (by decide) hjs hacc (by rw [hprompt]; simp)
  rw [hnext, hprompt] at hread
  obtain ⟨rx, act, rc, id, temp, tp, tk, -, rfl⟩ := ht
  have he₂ : (umad small {}).enabled d₁ (.readable 7 (request "a") .wouldBlock 2) := by
    refine ⟨by rw [← hd₁]; simp, ?_⟩
    rw [hread]
    exact hk
  have hr₂ := hr₁.step he₂ trivial
  have hstep : (umad small {}).next d₁ (.readable 7 (request "a") .wouldBlock 2) = _ := hread
  rw [hstep] at hr₂
  exact ⟨_, _, hr₂, lone_replace (lone_replace hent), rfl, by rw [← h.sched, ← hd₁]; rfl, rfl, rfl, rfl, rfl, rfl, rfl⟩

theorem Occupied.leave (h : Occupied k s d) : ∃ d', Vacant (k + 1) d' := by
  have hfind : d.find 7 = some s := lone_lookup h.sessions
  have hfds : readyFds (Daemon.idleFor {} (s.lastActivityNs + 300000000001)) d.mgr.sessions = [7] := by
    have hidle : Daemon.idleFor {} (s.lastActivityNs + 300000000001) s = true := by
      have hsub : subU64 (s.lastActivityNs + 300000000001) s.lastActivityNs = 300000000001 := by
        unfold subU64
        omega
      simp [Daemon.idleFor, hsub]
    simp [readyFds, h.sessions, hidle, h.fd]
  have hstep : (umad small {}).next d (.idle (s.lastActivityNs + 300000000001)) = d.close 7 := by
    show d.idle {} _ = _
    rw [Daemon.idle, hfds]
    rfl
  have he : (umad small {}).enabled d (.idle (s.lastActivityNs + 300000000001)) := trivial
  refine ⟨d.close 7, ?_, ?_, ?_, ?_⟩
  · rw [← hstep]
    exact h.reach.step he trivial
  · rw [Daemon.close_eq_some hfind]
    exact lone_erase h.sessions
  · rw [Daemon.close_nextSeqId, h.next]
  · rw [Daemon.close_sched, h.sched]

theorem Occupied.batch (h : Occupied k s d) : (d.batch {}).seqIdVals = [k] := by
  have hfind : d.mgr.sessions.lookup 7 = some s := lone_lookup h.sessions
  have hdec : readyFds ClientSession.decodeReady d.mgr.sessions = [] := by
    simp [readyFds, h.sessions, ClientSession.decodeReady, h.state]
  have hpre : readyFds ClientSession.prefillReady d.mgr.sessions = [7] := by
    simp [readyFds, h.sessions, ClientSession.prefillReady, h.state, h.prompt, h.idx, h.fd]
  have hplan : (d.sched.plan {} d.mgr.sessions).items = [⟨7, .prefill, 1⟩] := by
    simp [h.sched, Scheduler.plan, scheduleTick, hdec, hpre, phaseA, phaseB, rotated, emitPool, hfind, h.emitted,
      planPrefill, chunkFor, h.prompt, h.idx, Scheduler.new, small, intMax, burst]
  rw [Daemon.batch, hplan, enact_batch (by simp)]
  simp [Batch.ofRows, planRows, hfind, itemRows, h.seq]

theorem vacant_all (n : Nat) (hn : (n : Int) + 1 < 2 ^ 31) : ∃ d, Vacant (n + 1) d := by
  induction n with
  | zero => exact ⟨_, .init, rfl, rfl, rfl⟩
  | succ n ih =>
    obtain ⟨d, hd⟩ := ih (by omega)
    obtain ⟨d', s, hocc⟩ := hd.ask (by omega)
    exact_mod_cast hocc.leave

/-- **No bound holds.** With one client at a time and the default
configuration, the ids in the batch reach every bound the counter can. -/
theorem batch_seq_unbounded :
    ¬ ∃ bound : Int, bound < 2 ^ 31 - 1 ∧ ∀ d, (umad small {}).Reach Lib.Always d →
      ∀ q ∈ (d.batch {}).seqIdVals, 0 ≤ q ∧ q < bound := by
  intro ⟨bound, hb, h⟩
  obtain ⟨d, hd⟩ := vacant_all (bound - 1).toNat (by omega)
  obtain ⟨d', s, hocc⟩ := hd.ask (by omega)
  have hlt := (h d' hocc.reach ((bound - 1).toNat + 1) (by rw [hocc.batch]; simp)).2
  omega

end Exhaustion
end UmaServe
