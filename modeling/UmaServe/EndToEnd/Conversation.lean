/-
The conversation of one client with the daemon. It is one request and its
response, whatever the other clients do and however the socket cuts the
bytes: the session on the connection either still waits for the rest of the
request, or has taken exactly that request and says nothing but the response
to it (`Dialogue.step`). What the client has read and what is on the way are
the frames of that response (`talk_of_reach`).
-/
import UmaServe.EndToEnd.World
import UmaServe.Umad.Exchange
import UmaServe.Umad.Text

namespace UmaServe

/-- Where the conversation is, with `rest` of the request's frame still to
come: the request is incomplete, unless the client is gone; or it was
taken. -/
inductive Dialogue (cfg : RuntimeConfig) (vocab : Vocab) (js : Bytes) (gone : Bool) (rest : Bytes)
    (s : ClientSession) : Prop
  | asking : s.state = .recvReq → s.hist = {} → s.rx ++ rest = frame js → (rest = [] → gone = true) →
      Dialogue cfg vocab js gone rest s
  | asked : s.rx = [] → rest = [] → Asked cfg vocab js s → Dialogue cfg vocab js gone rest s

section Dialogue

variable {pf : Platform} {cfg : RuntimeConfig} {vocab : Vocab} {d : Daemon} {fd : Int} {s s' : ClientSession}
  {js rest : Bytes} {gone : Bool} {reads : List ReadRes} {nowNs : Nat} {next : Int}

/-! ## A readable event -/

theorem parses_part (hjs : Deliverable defaultMaxFrameBytes js) (hpart : s.rx ++ arrived reads ++ rest = frame js)
    (hrest : rest ≠ []) : s.parses nowNs reads = false := by
  rw [parses_eq, tryReadFrame_part (by decide) hjs hpart.symm hrest]
  simp

theorem frame?_whole (nowNs : Nat) (hjs : Deliverable defaultMaxFrameBytes js)
    (hwhole : s.rx ++ arrived reads = frame js) (hend : readEnd reads ≠ .error) :
    s.frame? nowNs reads = some js ∧ afterFrame (s.rx ++ arrived reads) = [] := by
  have hread : tryReadFrame (s.rx ++ arrived reads) [] defaultMaxFrameBytes = ⟨true, [], js, none⟩ := by
    rw [hwhole, ← List.append_nil (frame js)]
    exact tryReadFrame_frame (by decide) hjs
  refine ⟨?_, by rw [afterFrame, hread]⟩
  rw [ClientSession.frame?, ClientSession.attempt, drain_end, if_neg hend, received_rx, hread]
  rfl

theorem answering_framed (pf : Platform) (d : Daemon) (fd : Int) (hf : s.frame? nowNs reads = some js)
    (hh : s.hist = {}) : Asked cfg pf.vocab js (d.answering pf cfg fd s nowNs reads) := by
  obtain ⟨ha, hev⟩ := answering_asked pf cfg d fd hf
  rw [hh, show ({} : History).events = [] from rfl, List.nil_append] at hev
  rwa [latest_eq_self hev] at ha

/-- A session between whose request and whose end nothing was parsed. -/
theorem Dialogue.quiet (h : Dialogue cfg vocab js gone rest s) {rest' : Bytes} (hrest : arrived reads ++ rest' = rest)
    (hgone : rest' = [] → s.state = .recvReq → s.hist = {} → gone = true) :
    Dialogue cfg vocab js gone rest' (s.received nowNs reads) := by
  obtain ⟨rx, act, rc, -, heq⟩ := s.received_eq nowNs reads
  have hrx : (s.received nowNs reads).rx = s.rx ++ arrived reads := received_rx
  rw [heq] at hrx ⊢
  cases h with
  | asking hst hh hframe =>
    refine .asking hst hh ?_ fun hnil => hgone hnil hst hh
    rw [hrx, List.append_assoc, hrest]
    exact hframe
  | asked hempty hnil ha =>
    obtain ⟨harr, hnil'⟩ := List.append_eq_nil_iff.mp (hrest.trans hnil)
    exact .asked (by rw [hrx, hempty, harr]; rfl) hnil' (ha.still rfl rfl rfl rfl)

/-- **A readable event** takes more of the request, or the rest of it: then
it is the request that is parsed. -/
theorem Dialogue.read (h : Dialogue cfg pf.vocab js gone rest s) (hjs : Deliverable defaultMaxFrameBytes js)
    (d : Daemon) (fd : Int) (nowNs : Nat) {rest' : Bytes} (hrest : arrived reads ++ rest' = rest)
    (herr : readEnd reads = .error → gone = true) :
    Dialogue cfg pf.vocab js gone rest' (d.answering pf cfg fd s nowNs reads) := by
  by_cases hend : readEnd reads = .error
  · have hq : s.parses nowNs reads = false := by rw [parses_eq, hend]; rfl
    rw [answering_quiet pf cfg d fd nowNs hq]
    exact h.quiet hrest fun _ _ _ => herr hend
  cases h with
  | asking hst hh hframe hgone =>
    have hpart : s.rx ++ arrived reads ++ rest' = frame js := by rw [List.append_assoc, hrest, hframe]
    by_cases hnil : rest' = []
    · subst hnil
      obtain ⟨hf, hafter⟩ := frame?_whole nowNs hjs ((List.append_nil _).symm.trans hpart) hend
      refine .asked ?_ rfl (answering_framed pf d fd hf hh)
      rw [answering_rx, if_neg hend, hafter]
    · rw [answering_quiet pf cfg d fd nowNs (parses_part hjs hpart hnil)]
      exact (Dialogue.asking hst hh hframe hgone).quiet hrest fun h => absurd h hnil
  | asked hempty hnil ha =>
    obtain ⟨harr, -⟩ := List.append_eq_nil_iff.mp (hrest.trans hnil)
    have hq : s.parses nowNs reads = false := by rw [parses_eq, hempty, harr]; exact Bool.and_false _
    rw [answering_quiet pf cfg d fd nowNs hq]
    exact (Dialogue.asked hempty hnil ha).quiet hrest fun _ hst hh => by
      -- A request that was taken is in the history.
      cases hacc : acceptsRequest cfg js with
      | true =>
        have hwin := ha.accepted
        rw [hacc, hh] at hwin
        cases hwin
      | false =>
        obtain ⟨-, e, he, -⟩ := ha.refused hacc
        rw [hh] at he
        cases he

/-! ## The other steps -/

theorem Dialogue.hist (h : Dialogue cfg vocab js gone rest s) : s.hist = {} ∨ Asked cfg vocab js s := by
  cases h with
  | asking _ hh => exact .inl hh
  | asked _ _ ha => exact .inr ha

theorem Dialogue.leave (h : Dialogue cfg vocab js gone rest s) {gone' : Bool} (hg : gone = true → gone' = true) :
    Dialogue cfg vocab js gone' rest s := by
  cases h with
  | asking hst hh hframe hgone => exact .asking hst hh hframe fun hnil => hg (hgone hnil)
  | asked hempty hnil ha => exact .asked hempty hnil ha

theorem Dialogue.sent (h : Dialogue cfg vocab js gone rest s) (hsent : Sent s s') :
    Dialogue cfg vocab js gone rest s' := by
  cases hsent with
  | on =>
    cases h with
    | asking hst hh hframe hgone => exact .asking hst hh hframe hgone
    | asked hempty hnil ha => exact .asked hempty hnil (ha.still rfl rfl rfl rfl)
  | @answered tx act hover =>
    cases h with
    | asking hst => rw [hover] at hst; cases hst
    | asked hempty hnil ha =>
      have ha' : Asked cfg vocab js { s with tx := tx, lastActivityNs := act } := ha.still rfl rfl rfl rfl
      exact .asked hempty hnil (ha'.reset hover)

/-- **A step of the daemon**, on the connection. It takes from the request
what it reads, and continues or ends the response; it closes the connection
when that is over, or cuts it. Another client's step does nothing to it. -/
theorem Dialogue.step {a : Action} (h : Dialogue cfg pf.vocab js gone rest s)
    (hjs : Deliverable defaultMaxFrameBytes js) (hk : Keyed d.mgr.sessions) (he : d.Enabled pf cfg a)
    (hs : d.find fd = some s) {rest' : Bytes} (hrest : a.takes fd ++ rest' = rest)
    (herr : ∀ reads now nowNs, a = .readable fd reads now nowNs → readEnd reads = .error → gone = true) :
    ∃ t, t.hist = d.history pf cfg fd a ∧ Dialogue cfg pf.vocab js gone rest' t ∧
      (∀ s', (d.step pf cfg a).find fd = some s' → Dialogue cfg pf.vocab js gone rest' s') ∧
      ((d.step pf cfg a).find fd = none → ¬ a.cuts → t.state = .errored ∨ t.state = .stream) := by
  have hstays : ∀ {d' : Daemon} {P : Prop}, d'.view fd = d.view fd → d'.find fd = none → P := by
    intro d' P hv hnone
    rw [show d'.find fd = d.find fd from congrArg View.session hv, hs] at hnone
    cases hnone
  have hother : ∀ {d' : Daemon}, rest' = rest → d'.view fd = d.view fd ∨ d'.view fd = ⟨none, false, false⟩ →
      ∀ s', d'.find fd = some s' → Dialogue cfg pf.vocab js gone rest' s' := by
    rintro d' rfl (hv | hv) s' hs'
    · cases ((congrArg View.session hv).trans hs).symm.trans hs'
      exact h
    · cases (congrArg View.session hv).symm.trans hs'
  cases a with
  | accept cfd order nowNs =>
    have hne : fd ≠ cfd := by
      rintro rfl
      rw [he.2] at hs
      cases hs
    simp only [Daemon.history, hs]
    exact ⟨s, rfl, (show rest' = rest from hrest) ▸ h, hother hrest (.inl (accept_view_ne hne)),
      fun hnone _ => hstays (accept_view_ne hne) hnone⟩
  | readable k reads now nowNs =>
    by_cases hkfd : k = fd
    · subst hkfd
      simp only [Daemon.history, hs, if_true]
      simp only [Action.takes, if_true] at hrest
      have hread := h.read hjs d k nowNs hrest (herr reads now nowNs rfl)
      exact ⟨_, rfl, hread, fun s' hs' => hread.sent (readable_sent pf cfg reads now nowNs hs hs'),
        fun hnone _ => readable_closed pf cfg reads now nowNs hs hnone⟩
    · simp only [Action.takes, hkfd, if_false, List.nil_append] at hrest
      simp only [Daemon.history, hs, hkfd, if_false]
      exact ⟨s, rfl, hrest ▸ h, hother hrest (.inl (readable_view_ne (Ne.symm hkfd))),
        fun hnone _ => hstays (readable_view_ne (Ne.symm hkfd)) hnone⟩
  | writable k ws nowNs =>
    simp only [Daemon.history, hs]
    have hrest : rest' = rest := hrest
    subst hrest
    by_cases hkfd : k = fd
    · subst hkfd
      exact ⟨s, rfl, h, fun s' hs' => h.sent (writable_sent ws nowNs hs hs'),
        fun hnone hno => writable_closed ws nowNs hs hnone hno⟩
    · exact ⟨s, rfl, h, hother rfl (.inl (writable_view_ne (Ne.symm hkfd))),
        fun hnone _ => hstays (writable_view_ne (Ne.symm hkfd)) hnone⟩
  | idle nowNs =>
    simp only [Daemon.history, hs]
    exact ⟨s, rfl, (show rest' = rest from hrest) ▸ h, hother hrest (foldl_close_view _ d fd),
      fun _ hno => absurd trivial hno⟩
  | tick nowNs out =>
    have hrest : rest' = rest := hrest
    subst hrest
    obtain ⟨s', hl⟩ : ∃ s', (d.ticked pf cfg nowNs out).sessions.lookup fd = some s' :=
      tick_lookup_isSome pf cfg d.memory nowNs out hk hs
    have hs' : (d.tick pf cfg nowNs out).find fd = some s' := Daemon.tick_find.trans hl
    have hd : Dialogue cfg pf.vocab js gone rest' s' := by
      rcases tick_session hk hs hl with ⟨rfl, -⟩ | ⟨before, it, hserves, hserved⟩
      · exact h
      · have hb := hserves.busy hk
        cases h with
        | asking hst => rw [hst] at hb; cases hb
        | asked hempty hnil ha =>
          exact .asked (hserved.transport.1.trans hempty) hnil (ha.served hb hserved)
    simp only [Daemon.history, hs, hs', Option.getD_some]
    refine ⟨s', rfl, hd, fun t ht => ?_, fun hnone => ?_⟩
    · cases hs'.symm.trans ht
      exact hd
    · cases hs'.symm.trans hnone

end Dialogue

/-! ## The connection -/

/-- The conversation, by where the connection is. The frames of everything
that was said are what the client has read, what is on the way and what is in
`tx`, or was dropped with the session. -/
inductive Talk (cfg : RuntimeConfig) (vocab : Vocab) (js : Bytes) (w : World) : Prop
  | pending : w.conn = .pending → w.up ++ w.unsent = frame js → w.read = [] → w.down = [] → w.hist = {} →
      Talk cfg vocab js w
  | live {fd : Int} {s : ClientSession} : w.conn = .live fd → w.daemon.find fd = some s → s.hist = w.hist →
      w.read ++ w.down ++ s.tx = w.hist.events.flatMap Event.frame →
      Dialogue cfg vocab js w.gone (w.up ++ w.unsent) s → Talk cfg vocab js w
  | closed {left : Bytes} : w.conn = .closed → w.read ++ w.down ++ left = w.hist.events.flatMap Event.frame →
      (w.hist = {} ∨ ∃ t, t.hist = w.hist ∧ Asked cfg vocab js t) → Talk cfg vocab js w

section Talk

variable {pf : Platform} {cfg : RuntimeConfig} {vocab : Vocab} {opt : Asker} {w : World} {st : WorldStep} {a : Action}
  {js : Bytes} {fd : Int} {s : ClientSession}

theorem connIn_some {d : Daemon} (h : d.find fd = some s) : World.connIn d fd = .live fd := if_pos (by rw [h]; rfl)

theorem connIn_none {d : Daemon} (h : d.find fd = none) : World.connIn d fd = .closed := if_neg (by rw [h]; simp)

theorem Talk.said (h : Talk cfg vocab js w) : w.hist = {} ∨ ∃ t, t.hist = w.hist ∧ Asked cfg vocab js t := by
  cases h with
  | pending _ _ _ _ hh => exact .inl hh
  | live _ _ hh _ hd =>
    rcases hd.hist with hnil | ha
    · exact .inl (hh.symm.trans hnil)
    · exact .inr ⟨_, hh, ha⟩
  | closed _ _ hsaid => exact hsaid

theorem Talk.wire (h : Talk cfg vocab js w) : w.read ++ w.down <+: w.hist.events.flatMap Event.frame := by
  cases h with
  | pending _ _ hread hdown => rw [hread, hdown]; exact List.nil_prefix
  | live _ _ _ hwire => exact ⟨_, hwire⟩
  | closed _ hwire => exact ⟨_, hwire⟩

/-- What the client writes and reads moves bytes, and loses none. -/
theorem Talk.move {w' : World} (h : Talk cfg vocab js w) (hd : w'.daemon = w.daemon) (hc : w'.conn = w.conn)
    (hh : w'.hist = w.hist) (hup : w.conn ≠ .closed → w'.up ++ w'.unsent = w.up ++ w.unsent)
    (hdown : w'.read ++ w'.down = w.read ++ w.down) (hg : w.gone = true → w'.gone = true) : Talk cfg vocab js w' := by
  cases h with
  | pending hconn hframe hread hdn hhist =>
    rw [hread, hdn, List.append_nil, List.append_eq_nil_iff] at hdown
    exact .pending (hc.trans hconn) ((hup (by rw [hconn]; simp)).trans hframe) hdown.1 hdown.2 (hh.trans hhist)
  | live hconn hs hhist hwire hdia =>
    refine .live (hc.trans hconn) (by rw [hd]; exact hs) (hhist.trans hh.symm) (by rw [hdown, hwire, hh]) ?_
    rw [hup (by rw [hconn]; simp)]
    exact hdia.leave hg
  | closed hconn hwire hsaid =>
    refine .closed (hc.trans hconn) (by rw [hdown, hwire, hh]) ?_
    rw [hh]
    exact hsaid

theorem onRead_exited {c : Cli} {r : ReadReturn} (h : c.exitCode.isSome = true) : c.onRead r = c := by
  obtain ⟨code, hcode⟩ := Option.isSome_iff_exists.mp h
  unfold Cli.onRead
  rw [exitCode_eq_some.mp hcode]

theorem Talk.send {r : SendReturn} (h : Talk cfg vocab js w) (he : w.Accepts r) :
    Talk cfg vocab js (w.next pf cfg (.send r)) := by
  cases r with
  | wrote n =>
    refine h.move rfl rfl rfl (fun _ => ?_) rfl id
    change w.up ++ w.unsent.take n ++ w.unsent.drop n = _
    rw [List.append_assoc, List.take_append_drop]
  | again => exact h
  | failed strerror => exact h.move rfl rfl rfl (fun _ => rfl) rfl fun _ => rfl

theorem recv_bytes {r : ReadReturn} (he : w.Offers r) :
    (w.next pf cfg (.recv r)).read ++ (w.next pf cfg (.recv r)).down = w.read ++ w.down := by
  cases r with
  | data bs =>
    obtain ⟨-, -, rest, hrest⟩ := he
    change w.read ++ bs ++ w.down.drop bs.length = _
    rw [← hrest, List.drop_left, List.append_assoc]
  | eof | interrupted | failed => rfl

theorem recv_gone {r : ReadReturn} (hg : w.gone = true) : (w.next pf cfg (.recv r)).gone = true := by
  change (w.cli.onRead r).exitCode.isSome = true
  rw [onRead_exited hg]
  exact hg

theorem Talk.recv {r : ReadReturn} (h : Talk cfg vocab js w) (he : w.Offers r) :
    Talk cfg vocab js (w.next pf cfg (.recv r)) :=
  h.move rfl rfl rfl (fun _ => rfl) (recv_bytes he) recv_gone

theorem takes_append (hcarry : w.Carries fd a) :
    a.takes fd ++ (w.up.drop (a.takes fd).length ++ w.unsent) = w.up ++ w.unsent := by
  have hpre : a.takes fd <+: w.up := by
    cases a with
    | readable k reads now nowNs =>
      by_cases hkfd : k = fd
      · rw [Action.takes, if_pos hkfd]
        exact (hcarry hkfd).1
      · rw [Action.takes, if_neg hkfd]
        exact List.nil_prefix
    | accept | writable | idle | tick => exact List.nil_prefix
  obtain ⟨more, hmore⟩ := hpre
  rw [← hmore, List.drop_left, List.append_assoc]

theorem next_live (hconn : w.conn = .live fd) : w.next pf cfg (.daemon a) =
    { w with
      daemon := w.daemon.step pf cfg a
      conn := World.connIn (w.daemon.step pf cfg a) fd
      up := w.up.drop (a.takes fd).length
      down := w.down ++ w.daemon.writes pf cfg fd a
      hist := w.daemon.history pf cfg fd a } := by
  simp only [World.next, hconn]

theorem next_unconnected (hconn : ∀ fd, w.conn ≠ .live fd) :
    w.next pf cfg (.daemon a) = { w with daemon := w.daemon.step pf cfg a } := by
  cases hc : w.conn with
  | live fd => exact absurd hc (hconn fd)
  | pending | closed => simp only [World.next, hc]

/-- A step of the daemon, with the client connected. -/
theorem Talk.served (hjs : Deliverable defaultMaxFrameBytes js) (hk : Keyed w.daemon.mgr.sessions)
    (hconn : w.conn = .live fd) (hs : w.daemon.find fd = some s) (hhist : s.hist = w.hist)
    (hwire : w.read ++ w.down ++ s.tx = w.hist.events.flatMap Event.frame)
    (hdia : Dialogue cfg pf.vocab js w.gone (w.up ++ w.unsent) s) (he : w.daemon.Enabled pf cfg a)
    (hcarry : w.Carries fd a) : Talk cfg pf.vocab js (w.next pf cfg (.daemon a)) := by
  have htakes := takes_append hcarry
  have herr : ∀ reads now nowNs, a = .readable fd reads now nowNs → readEnd reads = .error → w.gone = true := by
    rintro reads now nowNs rfl
    exact (hcarry rfl).2.2
  obtain ⟨t, ht, hdt, hds, -⟩ := hdia.step hjs hk he hs htakes herr
  obtain ⟨left, ⟨⟨es, hev, hout⟩, hstays⟩, -⟩ := step_wire pf cfg hk he hs
  have hwire' : w.read ++ (w.down ++ w.daemon.writes pf cfg fd a) ++ left =
      (w.daemon.history pf cfg fd a).events.flatMap Event.frame := by
    rw [hev, List.flatMap_append, hhist, ← hwire, List.append_assoc, List.append_assoc, hout]
    simp only [List.append_assoc]
  rw [next_live hconn]
  cases hs' : (w.daemon.step pf cfg a).find fd with
  | some s' =>
    obtain ⟨hh, htx⟩ := hstays s' hs'
    exact .live (connIn_some hs') hs' hh (by rw [htx]; exact hwire') (hds s' hs')
  | none =>
    refine .closed (connIn_none hs') hwire' ?_
    rcases hdt.hist with hnil | ha
    · exact .inl (ht.symm.trans hnil)
    · exact .inr ⟨t, ht, ha⟩

theorem accept_find {d : Daemon} (cfg : RuntimeConfig) (order : List Int) (nowNs : Nat) (hfree : d.find fd = none) :
    (d.accept cfg fd order nowNs).find fd = none ∨
      (d.accept cfg fd order nowNs).find fd = some { fd, lastActivityNs := nowNs } ∧
        (d.accept cfg fd order nowNs).poller.read fd = true := by
  unfold Daemon.accept
  split
  · exact .inl hfree
  · simp [Daemon.find, SessionManager.addClient, AList.lookup_arrange, AList.lookup_insert]

/-- **A step of the world** keeps up the conversation. -/
theorem Talk.step (h : Talk cfg pf.vocab js w) (hjs : Deliverable defaultMaxFrameBytes js)
    (hk : Keyed w.daemon.mgr.sessions) (he : w.Enabled pf cfg st) : Talk cfg pf.vocab js (w.next pf cfg st) := by
  cases st with
  | send r => exact h.send he.2.2
  | recv r => exact h.recv he.2
  | connect fd order nowNs =>
    obtain ⟨hconn, hd⟩ := he
    cases h with
    | live hc | closed hc => rw [hconn] at hc; cases hc
    | pending _ hframe hread hdown hhist =>
      have hnext : w.next pf cfg (.connect fd order nowNs) =
          { w with
            daemon := w.daemon.accept cfg fd order nowNs
            conn := World.connIn (w.daemon.accept cfg fd order nowNs) fd } := rfl
      have hwire : w.read ++ w.down ++ [] = w.hist.events.flatMap Event.frame := by rw [hread, hdown, hhist]; rfl
      rw [hnext]
      rcases accept_find cfg order nowNs hd.2 with hnone | ⟨hnew, -⟩
      · exact .closed (connIn_none hnone) hwire (.inl hhist)
      · refine .live (connIn_some hnew) hnew hhist.symm hwire (.asking rfl rfl hframe fun hnil => ?_)
        rw [hnil] at hframe
        cases hframe
  | daemon a =>
    obtain ⟨hd, hallow⟩ := he
    cases h with
    | pending hconn hframe hread hdown hhist =>
      rw [next_unconnected fun fd => by rw [hconn]; simp]
      exact .pending hconn hframe hread hdown hhist
    | closed hconn hwire hsaid =>
      rw [next_unconnected fun fd => by rw [hconn]; simp]
      exact .closed hconn hwire hsaid
    | live hconn hs hhist hwire hdia =>
      rw [hconn] at hallow
      exact Talk.served hjs hk hconn hs hhist hwire hdia hd hallow

theorem Asker.deliverable (opt : Asker) : Deliverable defaultMaxFrameBytes opt.payload :=
  ⟨List.length_pos_iff.mpr (payload_ne_nil opt.toCliOptions), opt.fits⟩

theorem talk_of_reach {C : World → WorldStep → Prop} (h : (world pf cfg opt).Reach C w) :
    Talk cfg pf.vocab opt.payload w := by
  refine h.invariant (.pending rfl (List.nil_append _) rfl rfl rfl) fun w st hw ht he _ => ?_
  have hd : (umad pf cfg).Reach Lib.Always w.daemon := daemon_reach (fun _ _ _ _ _ => trivial) hw
  exact ht.step opt.deliverable (owned_of_reach hd).keyed he

/-! ## The request -/

/-- The daemon takes the request for one for the metrics. -/
def CliOptions.asksMetrics (opt : CliOptions) : Prop :=
  opt.metrics = true ∨ opt.prompt = bytes "metrics" ∧ (Closes (bytes "type") opt.id ∨ Closes (bytes "event") opt.id)

theorem isAdminRequest_iff_asks (opt : CliOptions) : isAdminRequest opt.payload = true ↔ opt.asksMetrics := by
  cases hm : opt.metrics with
  | false => rw [isAdminRequest_payload hm, CliOptions.asksMetrics, hm]; simp
  | true =>
    have hp : opt.payload = CliOptions.payload { metrics := true } := by rw [CliOptions.payload, hm]; rfl
    rw [hp, CliOptions.asksMetrics, hm]
    simp only [true_or, iff_true]
    with_unfolding_all decide

/-- A request with a prompt names one, and is accepted when it is not too
long. -/
theorem namesRequest_payload (hasks : ¬ opt.asksMetrics) : namesRequest opt.payload = true ∧
    extractJsonString opt.payload (bytes "id") = (opt.id.map placeholder, false) ∧
    extractJsonString opt.payload (bytes "prompt") = (opt.prompt.map placeholder, false) := by
  have hm : opt.metrics = false := by
    cases hm : opt.metrics with
    | false => rfl
    | true => exact absurd (.inl hm) hasks
  obtain ⟨hid, hprompt⟩ := request_round_trip opt.toCliOptions hm
  have hadm : isAdminRequest opt.payload = false := by
    rw [Bool.eq_false_iff, Ne, isAdminRequest_iff_asks]
    exact hasks
  refine ⟨?_, hid, hprompt⟩
  simp only [namesRequest, hadm, hid, hprompt, Bool.not_false, Bool.true_and, Bool.not_eq_true',
    List.isEmpty_eq_false_iff]
  exact fun hnil => opt.prompt_ne hm (List.map_eq_nil_iff.mp hnil)

/-- What a client with these options is told, so far. -/
inductive Reply (cfg : RuntimeConfig) (vocab : Vocab) (opt : CliOptions) : List Event → Prop
  | nothing : Reply cfg vocab opt []
  | metrics {json : Bytes} : opt.asksMetrics → Reply cfg vocab opt [.metrics json]
  | tooLarge : ¬ opt.asksMetrics → cfg.maxPromptBytes < opt.prompt.length →
      Reply cfg vocab opt [.error (opt.id.map placeholder) (bytes "E_LIMIT_001") (bytes "prompt too large")]
  | generated {busy : Bool} {sampled : List Token} {events : List Event} : ¬ opt.asksMetrics →
      opt.prompt.length ≤ cfg.maxPromptBytes → Said vocab (opt.id.map placeholder) busy sampled events →
      Reply cfg vocab opt events

theorem Asked.reply (h : Asked cfg vocab opt.payload s) : Reply cfg vocab opt.toCliOptions s.hist.events := by
  by_cases hasks : opt.asksMetrics
  · have hadm := (isAdminRequest_iff_asks opt.toCliOptions).mpr hasks
    obtain ⟨-, e, he, href⟩ := h.refused (by simp [acceptsRequest, hadm])
    rw [Refusal, if_pos hadm] at href
    obtain ⟨json, rfl⟩ := href
    rw [he]
    exact .metrics hasks
  · obtain ⟨hname, hid, hprompt⟩ := namesRequest_payload hasks
    have hadm : isAdminRequest opt.payload ≠ true := by rwa [Ne, isAdminRequest_iff_asks]
    have hacc : acceptsRequest cfg opt.payload = _ := acceptsRequest_eq
    rw [hname, hprompt, List.length_map, Bool.true_and] at hacc
    by_cases hlen : opt.prompt.length ≤ cfg.maxPromptBytes
    · rw [decide_eq_true hlen] at hacc
      have hsaid := h.said hacc
      rw [idOf, hid] at hsaid
      exact .generated hasks hlen hsaid
    · rw [decide_eq_false hlen] at hacc
      obtain ⟨-, e, he, href⟩ := h.refused hacc
      have hne : opt.prompt ≠ [] := fun hnil => by simp [namesRequest, hprompt, hnil] at hname
      rw [Refusal, if_neg hadm] at href
      rw [he, href, refusal, idOf]
      simp only [hid, hprompt, Bool.or_self, Bool.false_eq_true, if_false, List.isEmpty_iff, List.map_eq_nil_iff, hne]
      exact .tooLarge hasks (Nat.lt_of_not_le hlen)

theorem reply_of_reach {C : World → WorldStep → Prop} (h : (world pf cfg opt).Reach C w) :
    Reply cfg pf.vocab opt.toCliOptions w.hist.events := by
  rcases (talk_of_reach h).said with hnil | ⟨t, hh, ha⟩
  · rw [hnil]
    exact .nothing
  · rw [← hh]
    exact ha.reply

/-- The small platform, with letters for pieces. -/
def letters : Platform :=
  { small with vocab := { small.vocab with piece := fun t _ => [chr 'a' + t.toNat.toUInt8] } }

/-- A greedy request for two letters. -/
def asker : Asker where
  id := bytes "r"
  prompt := bytes "ab"
  hasTemperature := true
  prompt_ne := by with_unfolding_all decide
  fits := by with_unfolding_all decide

/-- The reads that bring these bytes. -/
def bringing : Bytes → List ReadRes
  | [] => []
  | b :: bs => [.data b bs]

/-- The request is written and read in two parts, and answered by a first
token. -/
def asking : List WorldStep :=
  [.connect 7 [7] 1, .send (.wrote 9),
    .daemon (.readable 7 (bringing ((frame asker.payload).take 9)) .wouldBlock 2), .send (.wrote 56),
    .daemon (.readable 7 (bringing ((frame asker.payload).drop 9)) .wouldBlock 3), .daemon (.tick 4 (choosing 1))]

end Talk
end UmaServe
