/-
What the client's request generates. The rule `watched_invariant` is for what
holds of the client's session and of the list under its sequence, whatever
the other clients do: they may break off, overtake or confuse their own
requests. By it the request runs with the preferences of the client's options
(`preferences_kept`) and, where llama.cpp computes each row of logits from
the tokens of its sequence, a greedy client is sent what the model generates
from its prompt alone (`greedy_output`).
-/
import UmaServe.Cli.Preferences
import UmaServe.EndToEnd.Output
import UmaServe.Umad.Isolation

namespace UmaServe

/-! ## The rule -/

section Watched

variable {pf : Platform} {cfg : RuntimeConfig} {vocab : Vocab} {opt : Asker} {w : World} {st : WorldStep} {a : Action}
  {d : Daemon} {fd : Int} {s s' : ClientSession} {js rest rest' : Bytes} {gone : Bool} {reads : List ReadRes}
  {nowNs : Nat} {held : List Token} {I : List Token → ClientSession → Prop}

/-- Nothing is parsed on the connection but the request, and that once. -/
theorem Dialogue.parses (h : Dialogue cfg vocab js gone rest s) (hjs : Deliverable defaultMaxFrameBytes js)
    (nowNs : Nat) (hrest : arrived reads ++ rest' = rest) :
    s.parses nowNs reads = false ∨ s.state = .recvReq ∧ s.hist = {} ∧ s.frame? nowNs reads = some js := by
  by_cases hend : readEnd reads = .error
  · exact .inl (by rw [parses_eq, hend]; rfl)
  cases h with
  | asking hst hh hframe =>
    have hpart : s.rx ++ arrived reads ++ rest' = frame js := by rw [List.append_assoc, hrest, hframe]
    by_cases hnil : rest' = []
    · subst hnil
      exact .inr ⟨hst, hh, (frame?_whole nowNs hjs ((List.append_nil _).symm.trans hpart) hend).1⟩
    · exact .inl (parses_part hjs hpart hnil)
  | asked hempty hnil =>
    obtain ⟨harr, -⟩ := List.append_eq_nil_iff.mp (hrest.trans hnil)
    exact .inl (by rw [parses_eq, hempty, harr]; exact Bool.and_false _)

/-- What outlives a readable event on the connection. -/
theorem Dialogue.answering (h : Dialogue cfg pf.vocab js gone rest s) (hjs : Deliverable defaultMaxFrameBytes js)
    (hquiet : ∀ s nowNs reads, I held s → I held (s.received nowNs reads))
    (hasked : ∀ (d : Daemon) fd s nowNs reads,
      s.state = .recvReq → s.hist = {} → s.frame? nowNs reads = some js → I held s →
      I held (d.answering pf cfg fd s nowNs reads))
    (hrest : arrived reads ++ rest' = rest) (hi : I held s) : I held (d.answering pf cfg fd s nowNs reads) := by
  rcases h.parses hjs nowNs hrest with hq | ⟨hst, hh, hf⟩
  · rw [answering_quiet pf cfg d fd nowNs hq]
    exact hquiet s nowNs reads hi
  · exact hasked d fd s nowNs reads hst hh hf hi

/-- A step of the daemon other than the tick. -/
theorem Dialogue.keeps (h : Dialogue cfg pf.vocab js gone rest s) (hjs : Deliverable defaultMaxFrameBytes js)
    (hquiet : ∀ s nowNs reads, I held s → I held (s.received nowNs reads))
    (hasked : ∀ (d : Daemon) fd s nowNs reads,
      s.state = .recvReq → s.hist = {} → s.frame? nowNs reads = some js → I held s →
      I held (d.answering pf cfg fd s nowNs reads))
    (hsent : ∀ s s', Sent s s' → I held s → I held s')
    (he : d.Enabled pf cfg a) (ha : ∀ nowNs out, a ≠ .tick nowNs out) (hs : d.find fd = some s)
    (hrest : a.takes fd ++ rest' = rest) (hi : I held s) :
    (∃ t, t.hist = d.history pf cfg fd a ∧ I held t) ∧ ∀ s', (d.step pf cfg a).find fd = some s' → I held s' := by
  have hother : ∀ {d' : Daemon}, d'.view fd = d.view fd ∨ d'.view fd = ⟨none, false, false⟩ →
      ∀ s', d'.find fd = some s' → I held s' := by
    rintro d' (hv | hv) s' hs'
    · cases ((congrArg View.session hv).trans hs).symm.trans hs'
      exact hi
    · cases (congrArg View.session hv).symm.trans hs'
  cases a with
  | tick nowNs out => exact absurd rfl (ha nowNs out)
  | accept cfd order nowNs =>
    have hne : fd ≠ cfd := by
      rintro rfl
      rw [he.2] at hs
      cases hs
    simp only [Daemon.history, hs]
    exact ⟨⟨s, rfl, hi⟩, hother (.inl (accept_view_ne hne))⟩
  | readable k reads now nowNs =>
    by_cases hkfd : k = fd
    · subst hkfd
      simp only [Daemon.history, hs, if_true]
      simp only [Action.takes, if_true] at hrest
      have hread : I held (d.answering pf cfg k s nowNs reads) := h.answering hjs hquiet hasked hrest hi
      exact ⟨⟨_, rfl, hread⟩, fun s' hs' => hsent _ _ (readable_sent pf cfg reads now nowNs hs hs') hread⟩
    · simp only [Daemon.history, hs, hkfd, if_false]
      exact ⟨⟨s, rfl, hi⟩, hother (.inl (readable_view_ne (Ne.symm hkfd)))⟩
  | writable k ws nowNs =>
    simp only [Daemon.history, hs]
    refine ⟨⟨s, rfl, hi⟩, ?_⟩
    by_cases hkfd : k = fd
    · subst hkfd
      exact fun s' hs' => hsent _ _ (writable_sent ws nowNs hs hs') hi
    · exact hother (.inl (writable_view_ne (Ne.symm hkfd)))
  | idle nowNs =>
    simp only [Daemon.history, hs]
    exact ⟨⟨s, rfl, hi⟩, hother (foldl_close_view _ d fd)⟩

/-- **The invariant rule** for the session of the watched client and the list
under its sequence. It is left to show for what the request and the writes
make of the session, and for a tick that serves it. -/
theorem watched_invariant {C : World → WorldStep → Prop}
    (h₀ : ∀ fd nowNs, I [] { fd, lastActivityNs := nowNs })
    (hquiet : ∀ held s nowNs reads, I held s → I held (s.received nowNs reads))
    (hasked : ∀ held (d : Daemon) fd s nowNs reads, s.state = .recvReq → s.hist = {} →
      s.frame? nowNs reads = some opt.payload → I held s → I held (d.answering pf cfg fd s nowNs reads))
    (hsent : ∀ held s s', Sent s s' → I held s → I held s')
    (ht : ∀ w nowNs out fd s s' before it, (world pf cfg opt).Reach C w → C w (.daemon (.tick nowNs out)) →
      Serves w.daemon.mgr.sessions (w.daemon.sched.items cfg w.daemon.mgr.sessions) fd s before it →
      Served pf cfg nowNs out s it (sampleIndex w.daemon.mgr.sessions before s it) s' →
      (w.daemon.ticked pf cfg nowNs out).sessions.lookup fd = some s' →
      I (w.daemon.memory s.seq) s → I ((w.daemon.ticked pf cfg nowNs out).memory s.seq) s')
    (h : (world pf cfg opt).Reach C w) :
    (∀ fd s, w.conn = .live fd → w.daemon.find fd = some s → I (w.daemon.memory s.seq) s) ∧
      ∃ held t, t.hist = w.hist ∧ I held t := by
  refine h.invariant (I := fun w => (∀ fd s, w.conn = .live fd → w.daemon.find fd = some s →
    I (w.daemon.memory s.seq) s) ∧ ∃ held t, t.hist = w.hist ∧ I held t)
    ⟨fun fd s hconn => (by cases hconn), [], {}, rfl, h₀ (-1) 0⟩ fun w st hw ⟨hlive, hhist⟩ he hc => ?_
  have hall : (world pf cfg opt).Reach Lib.Always w := hw.mono fun _ _ _ _ _ => trivial
  have ho : Owned w.daemon := owned_of_reach (daemon_reach (D := Lib.Always) (fun _ _ _ _ _ => trivial) hall)
  have htalk := talk_of_reach hall
  cases st with
  | send r => cases r <;> exact ⟨hlive, hhist⟩
  | recv r => exact ⟨hlive, hhist⟩
  | connect fd order nowNs =>
    obtain ⟨hpend, hen⟩ : w.conn = .pending ∧ w.daemon.Enabled pf cfg (.accept fd order nowNs) := he
    refine ⟨fun k s hconn hs => ?_, hhist⟩
    change World.connIn (w.daemon.accept cfg fd order nowNs) fd = .live k at hconn
    change (w.daemon.accept cfg fd order nowNs).find k = some s at hs
    have hfree := (ho.step hen).unheld (q := -1) (by omega)
    rcases accept_find cfg order nowNs hen.2 with hnone | ⟨hsome, -⟩
    · rw [connIn_none hnone] at hconn
      cases hconn
    · rw [connIn_some hsome] at hconn
      cases hconn
      cases hsome.symm.trans hs
      show I ((w.daemon.step pf cfg (.accept fd order nowNs)).memory (-1)) _
      rw [hfree]
      exact h₀ fd nowNs
  | daemon a =>
    cases htalk with
    | pending hconn | closed hconn =>
      rw [show (world pf cfg opt).next w (.daemon a) = _ from
        next_unconnected fun fd hfd => by rw [hconn] at hfd; cases hfd]
      exact ⟨fun fd s hfd => (by rw [show w.conn = _ from hconn] at hfd; cases hfd), hhist⟩
    | @live fd s hconn hs _ _ hdia =>
      obtain ⟨hen, hcarry⟩ : w.daemon.Enabled pf cfg a ∧ w.Allows a w.conn := he
      rw [hconn] at hcarry
      have hi := hlive fd s hconn hs
      rw [show (world pf cfg opt).next w (.daemon a) = _ from next_live hconn]
      suffices hstep : (∃ held t, t.hist = w.daemon.history pf cfg fd a ∧ I held t) ∧
          ∀ s', (w.daemon.step pf cfg a).find fd = some s' → I ((w.daemon.step pf cfg a).memory s'.seq) s' by
        refine ⟨fun k s' hk hs' => ?_, hstep.1⟩
        change World.connIn (w.daemon.step pf cfg a) fd = .live k at hk
        cases hf : (w.daemon.step pf cfg a).find fd with
        | none => rw [connIn_none hf] at hk; cases hk
        | some t =>
          rw [connIn_some hf] at hk
          cases hk
          exact hstep.2 s' hs'
      by_cases ha : ∃ nowNs out, a = .tick nowNs out
      · obtain ⟨nowNs, out, rfl⟩ := ha
        obtain ⟨s', hl⟩ : ∃ s', (w.daemon.ticked pf cfg nowNs out).sessions.lookup fd = some s' :=
          tick_lookup_isSome pf cfg w.daemon.memory nowNs out ho.keyed hs
        have hs' : (w.daemon.tick pf cfg nowNs out).find fd = some s' := Daemon.tick_find.trans hl
        have hi' : I ((w.daemon.ticked pf cfg nowNs out).memory s'.seq) s' := by
          obtain ⟨t, ht', ⟨rfl, hno⟩ | ⟨before, it, hserves, hserved⟩⟩ := tick_cases ho.keyed hl
          · rw [ho.idled_held ht' hno]
            cases hs.symm.trans (show w.daemon.find fd = _ from ht')
            exact hi
          · cases hs.symm.trans (show w.daemon.find fd = _ from ht')
            rw [hserved.ids.2]
            exact ht w nowNs out fd s s' before it hw hc hserves hserved hl hi
        refine ⟨⟨_, s', ?_, hi'⟩, fun t ht' => ?_⟩
        · simp only [Daemon.history, hs, hs', Option.getD_some]
        · cases hs'.symm.trans ht'
          rw [Daemon.step, Daemon.tick_memory]
          exact hi'
      · have ha' : ∀ nowNs out, a ≠ .tick nowNs out := fun nowNs out h => ha ⟨nowNs, out, h⟩
        obtain ⟨⟨t, hh, hit⟩, hstays⟩ := hdia.keeps opt.deliverable (hquiet _) (hasked _) (hsent _) hen ha' hs
          (takes_append hcarry) hi
        exact ⟨⟨_, t, hh, hit⟩, fun s' hs' => by
          rw [ho.step_held_by hen ha' hs hs']
          exact hstays s' hs'⟩

end Watched

/-! ## The preferences -/

/-- The session prefers what its request does, and before it the defaults. -/
structure Suited (js : Bytes) (s : ClientSession) : Prop where
  fresh : s.hist = {} → s.state = .recvReq ∧ s.samplingParams = ({} : ClientSession).samplingParams
  asked : s.hist.window.accepted ≠ none → s.samplingParams = ownPreferences js

section Preferences

variable {pf : Platform} {cfg : RuntimeConfig} {vocab : Vocab} {opt : Asker} {w : World} {d : Daemon} {fd : Int}
  {s s' : ClientSession} {js : Bytes} {reads : List ReadRes} {nowNs : Nat} {out : Decoded} {it : BatchItem} {i : Nat}

theorem Asked.hist_ne (h : Asked cfg vocab js s) : s.hist ≠ {} := by
  intro hh
  cases hacc : acceptsRequest cfg js with
  | true =>
    have hwin := h.accepted
    rw [hacc, hh] at hwin
    cases hwin
  | false =>
    obtain ⟨-, e, he, -⟩ := h.refused hacc
    rw [hh] at he
    cases he

theorem Suited.still (h : Suited js s) (hh : s'.hist = s.hist) (hst : s'.state = s.state)
    (hp : s'.samplingParams = s.samplingParams) : Suited js s' := by
  constructor
  · rw [hh, hst, hp]
    exact h.fresh
  · rw [hh, hp]
    exact h.asked

theorem answering_sampling (pf : Platform) (cfg : RuntimeConfig) (d : Daemon) (fd : Int) (s : ClientSession)
    (nowNs : Nat) (reads : List ReadRes) :
    (d.answering pf cfg fd s nowNs reads).samplingParams =
      (s.named nowNs reads).elim s.samplingParams fun js => (s.setSampling js).samplingParams := by
  rw [← read_sampling cfg pf.vocab nowNs d.mgr.nextSeqId reads s, Daemon.answering, ReadOutcome.replied]
  split <;> rfl

theorem Suited.answering (h : Suited js s) (hh : s.hist = {}) (hf : s.frame? nowNs reads = some js) :
    Suited js (d.answering pf cfg fd s nowNs reads) := by
  have ha : Asked cfg pf.vocab js (d.answering pf cfg fd s nowNs reads) := answering_framed pf d fd hf hh
  refine ⟨fun hnil => absurd hnil ha.hist_ne, fun hne => ?_⟩
  have hacc : acceptsRequest cfg js = true := by
    rw [ha.accepted] at hne
    by_contra hacc
    rw [if_neg hacc] at hne
    exact hne rfl
  have hname : namesRequest js = true := (Bool.and_eq_true_iff.mp (acceptsRequest_eq.symm.trans hacc)).1
  have hdef := setSampling_congr (h.fresh hh).2 js
  rw [answering_sampling, ClientSession.named, hf, Option.filter_some, if_pos hname, Option.elim_some, hdef]
  rfl

theorem Suited.sent (h : Suited js s) (hsent : Sent s s') : Suited js s' := by
  cases hsent with
  | on => exact h.still rfl rfl rfl
  | answered => exact ⟨fun hh => ⟨rfl, (h.fresh hh).2⟩, h.asked⟩

theorem Suited.served (h : Suited js s) (hb : s.state.busy = true) (hserved : Served pf cfg nowNs out s it i s') :
    Suited js s' := by
  have hacc : s'.hist.window.accepted = s.hist.window.accepted := by
    cases hserved with
    | failed | noRow => exact congrArg (fun h => h.window.accepted) enacted_hist
    | first => rw [prefillSampled_eq, enacted_hist]
    | ended => rw [finish_eq, enacted_hist]
    | more => rw [decodeSampled_eq, enacted_hist]
  refine ⟨fun hh => ?_, fun hne => hserved.samplingParams.trans (h.asked (hacc ▸ hne))⟩
  -- What a tick makes of a request in flight has a history.
  cases hserved with
  | failed =>
    have hev := congrArg History.events hh
    simp [ClientSession.decodeFailed, ClientSession.emit] at hev
  | noRow =>
    rw [enacted_hist] at hh
    rw [(h.fresh hh).1] at hb
    cases hb
  | first =>
    have hsam := congrArg (fun h => h.window.sampled) hh
    simp [prefillSampled_eq] at hsam
  | ended =>
    have hsam := congrArg (fun h => h.window.sampled) hh
    simp [finish_eq] at hsam
  | more =>
    have hsam := congrArg (fun h => h.window.sampled) hh
    simp [decodeSampled_eq] at hsam

theorem suited_of_reach {C : World → WorldStep → Prop} (h : (world pf cfg opt).Reach C w) (hconn : w.conn = .live fd)
    (hs : w.daemon.find fd = some s) : Suited opt.payload s := by
  refine (watched_invariant (I := fun _ s => Suited opt.payload s)
    (fun _ _ => ⟨fun _ => ⟨rfl, rfl⟩, fun hne => absurd rfl hne⟩)
    (fun _ s nowNs reads hi => ?_) (fun _ d fd s nowNs reads _ hh hf hi => hi.answering hh hf)
    (fun _ s s' hsent hi => hi.sent hsent)
    (fun w nowNs out fd s s' before it hr _ hserves hserved _ hi => ?_) h).1 fd s hconn hs
  · obtain ⟨rx, act, rc, -, heq⟩ := s.received_eq nowNs reads
    rw [heq]
    exact hi.still rfl rfl rfl
  · have hall : (world pf cfg opt).Reach Lib.Always w := hr.mono fun _ _ _ _ _ => trivial
    have ho : Owned w.daemon := owned_of_reach (daemon_reach (D := Lib.Always) (fun _ _ _ _ _ => trivial) hall)
    exact hi.served (hserves.busy ho.keyed) hserved

/-- **The preferences of the options** are those the request runs with, in
every run: the numbers to six decimals, and the defaults for those that are
not given, are no numbers, or have a key that the id or the prompt closes. -/
theorem preferences_kept (h : (world pf cfg opt).Reach Lib.Always w) (hconn : w.conn = .live fd)
    (hs : w.daemon.find fd = some s) (hb : s.state.busy = true) : s.samplingParams = opt.preferences := by
  have hsuit := suited_of_reach h hconn hs
  cases talk_of_reach h with
  | pending hc | closed hc => rw [hconn] at hc; cases hc
  | live hc hf _ _ hdia =>
    cases hconn.symm.trans hc
    cases hs.symm.trans hf
    cases hdia with
    | asking hst => rw [hst] at hb; cases hb
    | asked _ _ ha =>
      have hacc : acceptsRequest cfg opt.payload = true := by
        by_contra hacc
        rw [(ha.refused (by simpa using hacc)).1] at hb
        cases hb
      have hm : opt.metrics = false := by
        cases hm : opt.metrics with
        | false => rfl
        | true =>
          have hadm := (isAdminRequest_iff_asks opt.toCliOptions).mpr (.inl hm)
          simp [acceptsRequest, hadm] at hacc
      rw [hsuit.asked (by rw [ha.accepted, if_pos hacc]; simp), preferences_payload hm]

theorem preferences_kept_asked :
    let w := (world letters {} asker).after (world letters {} asker).init asking
    ∃ s, w.daemon.find 7 = some s ∧ s.samplingParams = asker.preferences ∧ s.temperature = 0 := by
  intro w
  have hw : (world letters {} asker).Reach Lib.Always w := Lib.System.Reach.init.run (by decide +kernel)
  have hs' : (w.daemon.find 7).map (fun s => (s.state, s.temperature)) = some (.decode, 0) := by decide +kernel
  obtain ⟨s, hs, hs'⟩ := Option.map_eq_some_iff.mp hs'
  rw [Prod.mk.injEq] at hs'
  exact ⟨s, hs, preferences_kept hw (by decide +kernel) hs (by rw [hs'.1]; rfl), hs'.2⟩

end Preferences

/-! ## The tokens -/

/-- Every decode of the daemon computes by `M`. -/
def Modelled (M : List Token → Nat → ℚ) (cfg : RuntimeConfig) (w : World) (st : WorldStep) : Prop :=
  ∀ a ∈ st.action?, Computes M cfg w.daemon a

/-- The session has fed a part of the prompt of `js`, and its tokens are those
of its own loop. -/
structure Generating (M : List Token → Nat → ℚ) (vocab : Vocab) (js : Bytes) (held : List Token) (s : ClientSession) :
    Prop where
  tracks : Tracks held s
  prompt : s.state.busy = true → s.promptTokens = promptOf vocab js
  fed : s.hist.window.fed <+: promptOf vocab js
  alone : Alone M vocab.nTokens s

section Generating

variable {pf : Platform} {cfg : RuntimeConfig} {M : List Token → Nat → ℚ} {vocab : Vocab} {opt : Asker} {w : World}
  {d : Daemon} {fd : Int} {s s' : ClientSession} {js : Bytes} {reads : List ReadRes} {nowNs : Nat} {out : Decoded}
  {before : List BatchItem} {it : BatchItem} {held held' : List Token}

theorem Generating.between (hheld : held = []) (hb : s.state.busy = false)
    (hfed : s.hist.window.fed <+: promptOf vocab js)
    (halone : Alone M vocab.nTokens s) : Generating M vocab js held s :=
  ⟨.between hheld hb, fun hbusy => (by rw [hb] at hbusy; cases hbusy), hfed, halone⟩

theorem Generating.still (h : Generating M vocab js held s) (hst : s'.state = s.state)
    (hp : s'.promptTokens = s.promptTokens) (hi : s'.prefillIdx = s.prefillIdx) (hn : s'.nPast = s.nPast)
    (hpend : s'.hasPendingTok = s.hasPendingTok) (htok : s'.pendingTok = s.pendingTok) (hh : s'.hist = s.hist)
    (ht : s'.temperature = s.temperature) : Generating M vocab js held s' := by
  refine ⟨h.tracks.still hst hp hi hn hpend htok hh, by rw [hst, hp]; exact h.prompt, by rw [hh]; exact h.fed, ?_⟩
  unfold Alone
  rw [hh, ht]
  exact h.alone

theorem Generating.answering (h : Generating M pf.vocab js held s) (hst : s.state = .recvReq)
    (hf : s.frame? nowNs reads = some js) : Generating M pf.vocab js held (d.answering pf cfg fd s nowNs reads) := by
  have hheld : held = [] := h.tracks.idle (by rw [hst]; rfl)
  have hp : s.parses nowNs reads = true := by
    obtain ⟨hend, hholds, -⟩ := frame?_some hf
    rw [parses_eq, decide_eq_true hend, Bool.true_and]
    exact Bool.or_eq_true_iff.mpr (.inl hholds)
  have hr : Reading cfg pf.vocab nowNs d.mgr.nextSeqId reads s _ := read_reading
  unfold Daemon.answering
  dsimp only
  generalize s.read cfg pf.vocab nowNs d.mgr.nextSeqId reads = o at hr ⊢
  cases hr with
  | quiet hno => rw [hp] at hno; cases hno
  | rejected => exact .between hheld rfl List.nil_prefix fun _ => rfl
  | admin => exact .between hheld rfl List.nil_prefix fun _ => rfl
  | empty _ _ _ _ _ _ hadm =>
    rw [ReadOutcome.replied, if_neg (by rw [hadm]; simp)]
    exact .between hheld rfl List.nil_prefix fun _ => rfl
  | started _ _ hf' _ _ _ hadm =>
    cases hf.symm.trans hf'
    rw [ReadOutcome.replied, if_neg (by rw [hadm]; simp)]
    exact ⟨.feeding rfl hheld (Nat.zero_le _) rfl rfl, fun _ => rfl, List.nil_prefix, fun _ => rfl⟩

theorem Generating.sent (h : Generating M vocab js held s) (hsent : Sent s s') : Generating M vocab js held s' := by
  cases hsent with
  | on => exact h.still rfl rfl rfl rfl rfl rfl rfl rfl
  | answered hst => exact .between (h.tracks.idle (by rw [hst]; rfl)) rfl h.fed h.alone

/-- **A tick that serves the session.** -/
theorem Generating.served (h : Generating M pf.vocab js (d.memory s.seq) s) (ho : Owned d)
    (hc : Computes M cfg d (.tick nowNs out))
    (hserves : Serves d.mgr.sessions (d.sched.items cfg d.mgr.sessions) fd s before it)
    (hserved : Served pf cfg nowNs out s it (sampleIndex d.mgr.sessions before s it) s')
    (hm : out.rc = 0 → held' = if s'.state = .stream then [] else d.memory s.seq ++ (itemRows s it).map Row.token) :
    Generating M pf.vocab js held' s' := by
  have hb := hserves.busy ho.keyed
  refine ⟨h.tracks.served ho.keyed hserves hserved hm, fun hb' => ?_, ?_,
    h.alone.served ho hc h.tracks hserves hserved⟩
  · have hp : s'.promptTokens = s.promptTokens := by
      cases hserved with
      | failed | noRow | ended => exact enacted_promptTokens
      | first => rw [prefillSampled_eq, enacted_promptTokens]
      | more => rw [decodeSampled_eq, enacted_promptTokens]
    rw [hp]
    exact h.prompt hb
  · obtain ⟨-, ⟨-, hfed⟩ | ⟨row, -, -, -, hfed⟩⟩ := hserved.window
    · rw [hfed]
      exact h.fed
    · cases hph : it.phase with
      | prefill =>
        rw [hph] at hfed
        rw [hfed, h.prompt hb]
        exact List.take_prefix _ _
      | decode =>
        rw [hph] at hfed
        rw [hfed]
        exact h.fed

theorem generating_of_reach (h : (world pf cfg opt).Reach (Modelled M cfg) w) :
    ∃ held t, t.hist = w.hist ∧ Generating M pf.vocab opt.payload held t ∧ Suited opt.payload t := by
  refine (watched_invariant (I := fun held s => Generating M pf.vocab opt.payload held s ∧ Suited opt.payload s)
    (fun _ _ => ⟨.between rfl rfl List.nil_prefix fun _ => rfl, fun _ => ⟨rfl, rfl⟩, fun hne => absurd rfl hne⟩)
    (fun _ s nowNs reads ⟨hg, hsuit⟩ => ?_) (fun _ d fd s nowNs reads hst hh hf ⟨hg, hsuit⟩ =>
      ⟨hg.answering hst hf, hsuit.answering hh hf⟩)
    (fun _ s s' hsent ⟨hg, hsuit⟩ => ⟨hg.sent hsent, hsuit.sent hsent⟩)
    (fun w nowNs out fd s s' before it hr hc hserves hserved hl ⟨hg, hsuit⟩ => ?_) h).2
  · obtain ⟨rx, act, rc, -, heq⟩ := s.received_eq nowNs reads
    rw [heq]
    exact ⟨hg.still rfl rfl rfl rfl rfl rfl rfl rfl, hsuit.still rfl rfl rfl⟩
  · have hall : (world pf cfg opt).Reach Lib.Always w := hr.mono fun _ _ _ _ _ => trivial
    have ho : Owned w.daemon := owned_of_reach (daemon_reach (D := Lib.Always) (fun _ _ _ _ _ => trivial) hall)
    have hb := hserves.busy ho.keyed
    have hpos := ho.busy fd s hserves.lookup hb
    exact ⟨hg.served ho (hc _ rfl) hserves hserved fun hrc =>
      tick_memory_served ho.keyed hserves (ho.soleOwner hserves.lookup (by omega)) hrc hl, hsuit.served hb hserved⟩

theorem Said.text {id : Bytes} {busy : Bool} {ts : List Token} {es : List Event} (h : Said vocab id busy ts es) :
    ∃ n, es.flatMap Event.text = (ts.take n).flatMap fun t => tokenToPieceStr vocab t true := by
  have hpieces : ∀ ts : List Token, (ts.flatMap (pieceEvents vocab id)).flatMap Event.text =
      ts.flatMap fun t => tokenToPieceStr vocab t true := by
    intro ts
    rw [List.flatMap_assoc]
    exact List.flatMap_congr fun t _ => flatMap_text_pieceEvents
  cases h with
  | going => exact ⟨ts.length, by rw [hpieces, List.take_length]⟩
  | failed => exact ⟨ts.length, by rw [List.flatMap_append, hpieces, List.take_length]; exact List.append_nil _⟩
  | @ended ts t => exact ⟨ts.length, by rw [List.flatMap_append, hpieces, List.take_left]; exact List.append_nil _⟩
  | empty => exact ⟨0, rfl⟩

theorem take_solo {nVocab : Nat} {prompt : List Token} (n k : Nat) :
    (solo M nVocab prompt k).take n = solo M nVocab prompt (min n k) := by
  rcases Nat.le_total n k with hle | hle
  · rw [Nat.min_eq_left hle, solo_take hle]
  · rw [Nat.min_eq_right hle, List.take_of_length_le (by simpa using hle)]

/-- **Greedy output.** Let llama.cpp compute rows of logits by `M`, and let
the other clients do what they like: a client at temperature zero or below
prints the beginning of the text that `M` generates, token by token, from a
part of the client's own prompt, and a newline. -/
theorem greedy_output (h : (world pf cfg opt).Reach (Modelled M cfg) w) (hasks : ¬ opt.asksMetrics)
    (hgreedy : opt.preferences.temperature ≤ 0) (hid : ¬ Closes (bytes "text") (opt.id.map placeholder))
    (htok : Int32Tokens w.hist.events) (hleg : ∀ e ∈ w.hist.events, Legible e.text) :
    ∃ k n, w.cli.out <+:
      ((solo M pf.vocab.nTokens ((tokenize pf.vocab (opt.prompt.map placeholder) true true).take k) n).flatMap
        fun t => tokenToPieceStr pf.vocab t true) ++ [chr '\n'] := by
  have hall : (world pf cfg opt).Reach Lib.Always w := h.mono fun _ _ _ _ _ => trivial
  have hout := printed_text hall hasks htok hid hleg
  obtain ⟨held, t, ht, hg, hsuit⟩ := generating_of_reach h
  have hnone : w.hist.events.flatMap Event.text = [] → ∃ k n, w.cli.out <+:
      ((solo M pf.vocab.nTokens ((tokenize pf.vocab (opt.prompt.map placeholder) true true).take k) n).flatMap
        fun t => tokenToPieceStr pf.vocab t true) ++ [chr '\n'] := by
    intro htext
    rw [htext] at hout
    exact ⟨0, 0, hout⟩
  rcases (talk_of_reach hall).said with hnil | ⟨u, hu, ha⟩
  · exact hnone (by rw [hnil]; rfl)
  cases hacc : acceptsRequest cfg opt.payload with
  | false =>
    obtain ⟨-, e, he, href⟩ := ha.refused hacc
    refine hnone ?_
    rw [← hu, he]
    rw [Refusal] at href
    split at href
    · obtain ⟨json, rfl⟩ := href
      rfl
    · subst href
      unfold refusal
      dsimp only
      split
      · rfl
      · split <;> rfl
  | true =>
    have hsam : u.hist.window.sampled = t.hist.window.sampled := by rw [hu, ht]
    have hasked : t.hist.window.accepted ≠ none := by
      rw [ht, ← hu, ha.accepted, if_pos hacc]
      simp
    have hprefs := (hsuit.asked hasked).trans (preferences_payload (not_metrics hasks))
    have htemp : t.temperature = opt.preferences.temperature := congrArg SamplingParams.temperature hprefs
    have hsolo := hg.alone (htemp ▸ hgreedy)
    have hprompt : promptOf pf.vocab opt.payload = tokenize pf.vocab (opt.prompt.map placeholder) true true := by
      rw [promptOf, (namesRequest_payload hasks).2.2]
    have hfed := hg.fed
    rw [hprompt, List.prefix_iff_eq_take] at hfed
    obtain ⟨n, htext⟩ := (ha.said hacc).text
    rw [hsam, hsolo, hfed, take_solo, hu] at htext
    exact ⟨t.hist.window.fed.length, min n t.hist.window.sampled.length, htext ▸ hout⟩

theorem modelled_run {M : List Token → Nat → ℚ} {ws : List WorldStep} (h : (world pf cfg opt).Reach (Modelled M cfg) w)
    (hr : (world pf cfg opt).Run Lib.Always w ws) (hno : ∀ st ∈ ws, ∀ nowNs out, st.action? ≠ some (.tick nowNs out)) :
    (world pf cfg opt).Reach (Modelled M cfg) ((world pf cfg opt).after w ws) := by
  refine h.run (hr.mono fun st hst w _ a ha => ?_)
  have hne : ∀ nowNs out, a ≠ .tick nowNs out := by
    rintro nowNs out rfl
    exact hno st hst nowNs out ha
  cases a with
  | tick nowNs out => exact absurd rfl (hne nowNs out)
  | accept | readable | writable | idle => trivial

/-- The client has sent its request. -/
def asksParity : World := (world letters {} asker).after (world letters {} asker).init (asking.take 5)

/-- A tick of the daemon that decodes by `parity`. -/
def tellsParity : World := asksParity.next letters {} (.daemon (.tick 4 (asksParity.daemon.decoding {} parity)))

/-- The token is written and read. -/
def hearing : List WorldStep := .daemon (.writable 7 [.wrote 1000] 6) :: parts (.token (bytes "r") (bytes "a") 0)

theorem greedy_output_parity :
    let w := (world letters {} asker).after tellsParity hearing
    w.cli.out = bytes "a" ∧ ∃ k n, w.cli.out <+:
      ((solo parity 3 ((tokenize letters.vocab (bytes "ab") true true).take k) n).flatMap
        fun t => tokenToPieceStr letters.vocab t true) ++ [chr '\n'] := by
  intro w
  have hask : (world letters {} asker).Reach (Modelled parity {}) asksParity := by
    refine modelled_run .init (by decide +kernel) fun st hst nowNs out => ?_
    simp only [asking, List.take, List.mem_cons, List.not_mem_nil, or_false] at hst
    rcases hst with rfl | rfl | rfl | rfl | rfl <;> simp [WorldStep.action?]
  have htell : (world letters {} asker).Reach (Modelled parity {}) tellsParity := by
    have hen : (world letters {} asker).enabled asksParity
        (.daemon (.tick 4 (asksParity.daemon.decoding {} parity))) := by decide +kernel
    refine hask.step hen fun a ha => ?_
    cases ha
    exact decoding_computes
  have hw : (world letters {} asker).Reach (Modelled parity {}) w := by
    refine modelled_run htell (by decide +kernel) fun st hst nowNs out => ?_
    simp only [hearing, parts, List.mem_cons, List.not_mem_nil, or_false] at hst
    rcases hst with rfl | rfl | rfl | rfl <;> simp [WorldStep.action?]
  have hev : w.hist.events = [.token (bytes "r") (bytes "a") 0] := by decide +kernel
  have hprompt : asker.prompt.map placeholder = bytes "ab" := by decide +kernel
  refine ⟨by decide +kernel, ?_⟩
  rw [← hprompt]
  exact greedy_output hw asker_asks (by decide +kernel) (by decide +kernel) (by rw [hev]; decide)
    (by rw [hev]; decide +kernel)

end Generating
end UmaServe
