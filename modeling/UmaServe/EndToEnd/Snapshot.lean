/-
What `uma-cli --metrics` prints is true. It prints nothing, or one line: the
snapshot of the counters that the daemon had at one moment of the run, after
the request was sent and before any of the reply was read
(`metrics_shown`).
-/
import UmaServe.EndToEnd.Exit
import UmaServe.Sched.MetricsJson

namespace UmaServe

/-- What the daemon would answer a metrics request with. -/
def World.snapshot (pf : Platform) (w : World) : Bytes :=
  pf.metricsJson w.daemon.sched.metrics w.daemon.mgr.sessions.entries.length

/-- The moment of the snapshot `json`: the request is written, and nothing of
the reply is read. -/
structure World.Moment (pf : Platform) (w : World) (json : Bytes) : Prop where
  sent : w.unsent = []
  unread : w.read = []
  snapshot : json = w.snapshot pf

section Snapshot

variable {pf : Platform} {cfg : RuntimeConfig} {opt : Asker} {d : Daemon} {fd : Int} {s : ClientSession} {a : Action}
  {w : World} {st : WorldStep} {as : List WorldStep} {json : Bytes}

/-! ## The daemon -/

theorem answering_metrics {nowNs : Nat} {reads : List ReadRes}
    (h : Event.metrics json ∈ (d.answering pf cfg fd s nowNs reads).hist.events) :
    Event.metrics json ∈ s.hist.events ∨ json = pf.metricsJson d.sched.metrics d.mgr.sessions.entries.length := by
  have hcount : (d.mgr.sessions.replace fd (s.read cfg pf.vocab nowNs d.mgr.nextSeqId reads).session).entries.length =
      d.mgr.sessions.entries.length := by
    have hkeys := congrArg List.length
      (AList.keys_replace fd (s.read cfg pf.vocab nowNs d.mgr.nextSeqId reads).session d.mgr.sessions)
    simpa only [AList.keys, List.keys, List.length_map] using hkeys
  have hr : Reading cfg pf.vocab nowNs d.mgr.nextSeqId reads s _ := read_reading
  unfold Daemon.answering at h
  dsimp only at h
  rw [hcount] at h
  generalize s.read cfg pf.vocab nowNs d.mgr.nextSeqId reads = o at hr h
  unfold ReadOutcome.replied at h
  have htaken : ∀ t, s.Taken t → t.hist.events = s.hist.events := by
    rintro t ⟨rx, act, rc, id, temp, p, k, -, rfl⟩
    rfl
  cases hr with
  | quiet _ _ hadm =>
    obtain ⟨rx, act, rc, -, heq⟩ := s.received_eq nowNs reads
    rw [hadm, if_neg (by simp), heq] at h
    exact .inl h
  | started _ ht _ _ _ _ hadm =>
    rw [hadm, if_neg (by simp)] at h
    exact .inl (htaken _ ht ▸ h)
  | @rejected t id code message _ ht =>
    have hmem : Event.metrics json ∈ t.hist.events ++ [.error id code message] := h
    rw [htaken _ ht] at hmem
    exact .inl (by simpa using hmem)
  | @admin t js _ ht =>
    have hmem : Event.metrics json ∈ t.hist.events ++
        [.metrics (pf.metricsJson d.sched.metrics d.mgr.sessions.entries.length)] := h
    rw [htaken _ ht] at hmem
    simpa using hmem
  | @empty t rr js _ ht _ _ _ _ hadm =>
    rw [hadm, if_neg (by simp)] at h
    have hmem : Event.metrics json ∈ t.hist.events ++ [.eos t.requestId (bytes "stop")] := h
    rw [htaken _ ht] at hmem
    exact .inl (by simpa using hmem)

theorem Emission.no_metrics {vocab : Vocab} {new : List Event} {state : SessionState}
    (h : Emission vocab s new state) : Event.metrics json ∉ new := by
  cases h with
  | nothing | error | eos => simp
  | token =>
    unfold pieceEvents
    dsimp only
    split <;> simp

/-- **One step.** What the daemon says of its counters, it says as they are. -/
theorem history_metrics (hk : Keyed d.mgr.sessions) (hs : d.find fd = some s)
    (h : Event.metrics json ∈ (d.history pf cfg fd a).events) :
    Event.metrics json ∈ s.hist.events ∨ json = pf.metricsJson d.sched.metrics d.mgr.sessions.entries.length := by
  unfold Daemon.history at h
  rw [hs] at h
  cases a with
  | accept | writable | idle => exact .inl h
  | readable k reads now nowNs =>
    dsimp only at h
    split at h
    · exact answering_metrics h
    · exact .inl h
  | tick nowNs out =>
    obtain ⟨s', hl⟩ := tick_lookup_isSome pf cfg d.memory nowNs out hk hs
    have hs' : (d.tick pf cfg nowNs out).find fd = some s' := Daemon.tick_find.trans hl
    dsimp only at h
    rw [hs', Option.getD_some] at h
    rcases tick_session hk hs hl with ⟨rfl, -⟩ | ⟨before, it, -, hserved⟩
    · exact .inl h
    · obtain ⟨new, hnew, -, hev, -⟩ := hserved.emission
      rw [hev, List.mem_append] at h
      exact .inl (h.resolve_right hnew.no_metrics)

/-! ## The world -/

theorem Reply.snapshot {vocab : Vocab} {opt : CliOptions} {es : List Event} (h : Reply cfg vocab opt es)
    (hmem : Event.metrics json ∈ es) : es = [.metrics json] := by
  cases h with
  | nothing | tooLarge => simp at hmem
  | metrics => rw [List.mem_singleton.mp hmem]
  | generated hasks hlen hsaid => exact absurd hmem ((Reply.generated hasks hlen hsaid).no_metrics hasks)

theorem Reply.asked {vocab : Vocab} {opt : CliOptions} {es : List Event} (h : Reply cfg vocab opt es)
    (hasks : opt.asksMetrics) : es = [] ∨ ∃ json, es = [.metrics json] := by
  cases h with
  | nothing => exact .inl rfl
  | metrics => exact .inr ⟨_, rfl⟩
  | tooLarge hno | generated hno => exact absurd hasks hno

theorem next_metrics (hr : (world pf cfg opt).Reach Lib.Always w) (he : w.Enabled pf cfg st)
    (h : Event.metrics json ∈ (w.next pf cfg st).hist.events) :
    Event.metrics json ∈ w.hist.events ∨ w.Moment pf json := by
  have ht : Talk cfg pf.vocab opt.payload w := talk_of_reach hr
  have hk : Keyed w.daemon.mgr.sessions :=
    (owned_of_reach (daemon_reach (D := Lib.Always) (fun _ _ _ _ _ => trivial) hr)).keyed
  have hgrows : w.hist.events <+: (w.next pf cfg st).hist.events := ht.grows hk he
  have honly : (w.next pf cfg st).hist.events = [.metrics json] := (reply_of_reach (hr.step he trivial)).snapshot h
  rw [honly] at hgrows
  have hsame : (w.next pf cfg st).hist = w.hist → Event.metrics json ∈ w.hist.events ∨ w.Moment pf json :=
    fun hh => .inl (hh ▸ h)
  cases st with
  | send r => cases r <;> exact hsame rfl
  | recv r | connect => exact hsame rfl
  | daemon a =>
    obtain ⟨hd, hallow⟩ := he
    cases ht with
    | pending hc | closed hc => exact hsame (by rw [next_unconnected fun fd hfd => by rw [hc] at hfd; cases hfd])
    | @live fd s hc hs hhist hwire hdia =>
      rw [hc] at hallow
      have hmem : Event.metrics json ∈ (w.daemon.history pf cfg fd a).events := by rwa [next_live hc] at h
      rcases history_metrics hk hs hmem with hold | hjson
      · exact .inl (hhist ▸ hold)
      by_cases hnone : w.hist.events = []
      · -- The request was the last thing to be read.
        obtain ⟨t, hth, hdt, -⟩ := hdia.step opt.deliverable hk hd hs (takes_append hallow) fun reads now nowNs ha =>
          (by subst ha; exact (hallow rfl).2.2)
        refine .inr ⟨?_, ?_, hjson⟩
        · cases hdt with
          | asking _ hh =>
            rw [← hth, hh] at hmem
            simp at hmem
          | asked _ hrest => exact (List.append_eq_nil_iff.mp hrest).2
        · rw [hnone, List.flatMap_nil, List.append_assoc] at hwire
          exact (List.append_eq_nil_iff.mp hwire).1
      · obtain ⟨e, es, heq⟩ := List.exists_cons_of_ne_nil hnone
        rw [heq, List.cons_prefix_cons] at hgrows
        exact .inl (by rw [heq, hgrows.1]; exact List.mem_cons_self)

/-- What is said of the counters was so at some moment of the run. -/
theorem moment_of_run (hr : (world pf cfg opt).Reach Lib.Always w) (hrun : (world pf cfg opt).Run Lib.Always w as)
    (h : Event.metrics json ∈ ((world pf cfg opt).after w as).hist.events) :
    Event.metrics json ∈ w.hist.events ∨
      ∃ before, before <+: as ∧ ((world pf cfg opt).after w before).Moment pf json := by
  induction as generalizing w with
  | nil => exact .inl h
  | cons st as ih =>
    obtain ⟨he, -, hrun⟩ := hrun
    rcases ih (hr.step he trivial) hrun h with hmem | ⟨before, hpre, hmoment⟩
    · rcases next_metrics hr he hmem with hmem | hmoment
      · exact .inl hmem
      · exact .inr ⟨[], List.nil_prefix, hmoment⟩
    · exact .inr ⟨st :: before, List.cons_prefix_cons.mpr ⟨rfl, hpre⟩, hmoment⟩

/-! ## The client -/

theorem Consumed.line {c : Cli} {read coming : Bytes} (h : Consumed ⟨c, read, coming⟩) (hm : c.metrics = true) :
    c.out = [] ∨ ∃ p, p.length < 2 ^ 32 ∧ read = frame p ∧ c.out = p ++ [chr '\n'] ∧ c.exitCode = some 0 := by
  have hnone : ∀ {ps : List Bytes}, GoOn c.metrics ps → ps = [] := fun {ps} hg => by
    cases ps with
    | nil => rfl
    | cons p ps =>
      have hcode := hg p List.mem_cons_self
      rw [hm] at hcode
      cases hcode
  rcases h with h | h
  · cases h with
    | header _ hd hg | payload _ _ hd hg =>
      have hout := hd.out
      rw [hnone hg] at hout
      exact .inl hout
    | @ended _ ps p _ code ha hd hg hcode =>
      obtain rfl := hnone hg
      have hout := hd.out
      rw [hm] at hcode hout
      cases hcode
      exact .inr ⟨p, hd.sizes p (by simp), by simp, by rw [hout]; simp [outOf, outcome], by rw [Cli.exitCode, ha]⟩
  · cases h with
    | intro _ _ _ hout hg =>
      rw [hnone hg] at hout
      exact .inl hout

/-- **What is shown of the counters is true.** In every run of `umad` with a
client of `uma-cli --metrics` among any others, however the socket cuts the
bytes: it has printed nothing; or it has exited with 0, and has printed one
line, the JSON of the counters and the sessions that the daemon had at one
moment of the run, after the request was written and before any of the reply
was read. -/
theorem metrics_shown (hm : opt.metrics = true)
    (hrun : (world pf cfg opt).Run Lib.Always (world pf cfg opt).init as)
    (hsizes : ∀ e ∈ ((world pf cfg opt).after (world pf cfg opt).init as).hist.events, e.payload.length < 2 ^ 32) :
    let w := (world pf cfg opt).after (world pf cfg opt).init as
    w.cli.out = [] ∨
      ∃ before, before <+: as ∧
        let v := (world pf cfg opt).after (world pf cfg opt).init before
        v.unsent = [] ∧ v.read = [] ∧ w.cli.exitCode = some 0 ∧
          ∃ p debug line, w.cli.out = line ++ [chr '\n'] ∧
            Lib.Json.parse line = some (.object [(bytes "event", .string (bytes "metrics")),
              (bytes "metrics", .object (Printed.members
                (v.daemon.sched.metrics.members p v.daemon.mgr.sessions.entries.length debug)))]) := by
  intro w
  have hreach : (world pf cfg opt).Reach Lib.Always w := Lib.System.Reach.init.run hrun
  have hp := printing_of_reach hreach
  rcases hp.consumed.line (hp.metrics.trans hm) with hnone | ⟨p, hlen, hread, hout, hexit⟩
  · exact .inl hnone
  refine .inr ?_
  -- The frame it read is the first of the reply, which is the snapshot.
  obtain ⟨n, hn, -⟩ := received_prefix ((List.prefix_append _ _).trans (talk_of_reach hreach).wire) hsizes
  have hfirst : received w.read = [p] := by
    have hself : received ([p].flatMap frame) = [p] := received_frames (by simpa using hlen)
    simpa [← show w.read = frame p from hread] using hself
  rw [hfirst] at hn
  obtain ⟨json, hevents⟩ : ∃ json, w.hist.events = [.metrics json] := by
    refine ((reply_of_reach hreach).asked (.inl hm)).resolve_left fun hnil => ?_
    rw [hnil, List.take_nil] at hn
    cases hn
  have hline : p = metricsPayload json := by
    rw [hevents] at hn
    cases n with
    | zero => cases hn
    | succ n => simpa [Event.payload] using hn
  rcases moment_of_run .init hrun (show Event.metrics json ∈ w.hist.events by rw [hevents]; simp) with
    hmem | ⟨before, hpre, hsent, hunread, hsnap⟩
  · simp [world] at hmem
  let v := (world pf cfg opt).after (world pf cfg opt).init before
  refine ⟨before, hpre, hsent, hunread, hexit,
    pf.debugMetrics v.daemon.sched.metrics v.daemon.mgr.sessions.entries.length, pf.debug, p, hout, ?_⟩
  rw [hline, hsnap]
  exact parse_metrics

/-- A request for the metrics. -/
def watcher : Asker where
  metrics := true
  prompt_ne := by decide
  fits := by with_unfolding_all decide

/-- It is answered at once, and the answer read. -/
def watching : List WorldStep :=
  let line := metricsPayload ((Scheduler.new small).metrics.toJson {} 1 false)
  [.connect 7 [7] 1, .send (.wrote 22),
    .daemon (.readable 7 (bringing (frame watcher.payload)) (.wrote (frame line).length) 2),
    .recv (.data ((frame line).take 4)), .recv (.data line)]

theorem metrics_shown_watching :
    let w := (world small {} watcher).after (world small {} watcher).init watching
    w.cli.exitCode = some 0 ∧
      ∃ before p debug line, before <+: watching ∧ w.cli.out = line ++ [chr '\n'] ∧
        let v := (world small {} watcher).after (world small {} watcher).init before
        Lib.Json.parse line = some (.object [(bytes "event", .string (bytes "metrics")),
          (bytes "metrics", .object (Printed.members
            (v.daemon.sched.metrics.members p v.daemon.mgr.sessions.entries.length debug)))]) := by
  intro w
  have hne : w.cli.out ≠ [] := by decide +kernel
  have hrun : (world small {} watcher).Run Lib.Always (world small {} watcher).init watching := by decide +kernel
  have hshown := metrics_shown rfl hrun (by decide +kernel)
  obtain ⟨before, hpre, -, -, hexit, p, debug, line, hout, hparse⟩ := hshown.resolve_left hne
  exact ⟨hexit, before, p, debug, line, hpre, hout, hparse⟩

end Snapshot
end UmaServe
