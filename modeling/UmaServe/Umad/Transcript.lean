/-
The daemon as a server of requests and replies. What comes in on a connection
is the frames it parses and bytes not parsed yet; what goes out is the
frames of one reply after the other, each to the frame in its place, all of
them complete but the last (`transcript_of_reach`). This holds however many
requests a client sends and whatever the other clients do, as long as no frame
is parsed while a request is in flight.
-/
import Mathlib.Data.List.ReduceOption
import UmaServe.Ipc.Delivery
import UmaServe.Umad.Exchange

namespace UmaServe

/-! ## Replies -/

/-- The reply to an invalid frame, or to a payload, as far as it is said. -/
inductive Answer (cfg : RuntimeConfig) (vocab : Vocab) : Option Bytes → Bool → List Event → Prop
  | invalid {id code message : Bytes} : Answer cfg vocab none false [.error id code message]
  | refused {js : Bytes} {e : Event} : acceptsRequest cfg js = false → Refusal js e →
      Answer cfg vocab (some js) false [e]
  | generated {js : Bytes} {busy : Bool} {sampled : List Token} {es : List Event} : acceptsRequest cfg js = true →
      Said vocab (idOf js) busy sampled es → Answer cfg vocab (some js) busy es

/-- One reply for each frame, in order, and all but the last complete. -/
inductive Transcript (cfg : RuntimeConfig) (vocab : Vocab) : List (Option Bytes) → Bool → List Event → Prop
  | nil : Transcript cfg vocab [] false []
  | snoc {fs : List (Option Bytes)} {f : Option Bytes} {busy : Bool} {done es : List Event} :
      Transcript cfg vocab fs false done → Answer cfg vocab f busy es →
      Transcript cfg vocab (fs ++ [f]) busy (done ++ es)

/-- What a session says to the last frame. -/
def Latest (cfg : RuntimeConfig) (vocab : Vocab) (s : ClientSession) : Option Bytes → Prop
  | none => s.state.busy = false ∧ ∃ id code message, s.hist.window.events = [.error id code message]
  | some js => Asked cfg vocab js s.latest

/-- A session, against the frames parsed on it. -/
inductive Conversed (cfg : RuntimeConfig) (vocab : Vocab) (s : ClientSession) : List (Option Bytes) → Prop
  | silent : s.state.busy = false → s.hist = {} → Conversed cfg vocab s []
  | heard {fs : List (Option Bytes)} {f : Option Bytes} {done : List Event} : Transcript cfg vocab fs false done →
      s.hist.events = done ++ s.hist.window.events → Latest cfg vocab s f → Conversed cfg vocab s (fs ++ [f])

section Replies

variable {pf : Platform} {cfg : RuntimeConfig} {vocab : Vocab} {d : Daemon} {fd : Int} {s s' : ClientSession}
  {fs : List (Option Bytes)} {f : Option Bytes} {busy : Bool} {es : List Event} {id : Bytes} {ts : List Token}
  {reads : List ReadRes} {nowNs : Nat}

/-- Only the last event of a reply is no token, and it is there once the reply
is complete. -/
theorem Said.ends (h : Said vocab id busy ts es) : (es.filter fun e => !e.isToken).length + busy.toNat = 1 := by
  have htoks : ∀ ts : List Token, (ts.flatMap (pieceEvents vocab id)).filter (fun e => !e.isToken) = [] := by
    intro ts
    rw [List.filter_eq_nil_iff]
    intro e he
    obtain ⟨t, -, ht⟩ := List.mem_flatMap.mp he
    simp [(pieceEvents_mem ht).1]
  cases h with
  | going => rw [htoks]; rfl
  | failed | ended => rw [List.filter_append, htoks]; rfl
  | empty => rfl

theorem Answer.ends (h : Answer cfg vocab f busy es) : (es.filter fun e => !e.isToken).length + busy.toNat = 1 := by
  cases h with
  | invalid => rfl
  | @refused js e hacc href =>
    have htok : e.isToken = false := by
      unfold Refusal at href
      split at href
      · obtain ⟨json, rfl⟩ := href
        rfl
      · rw [href, refusal]
        repeat' split
        all_goals rfl
    simp [htok]
  | generated hacc hsaid => exact hsaid.ends

/-- **One end for each frame.** -/
theorem Transcript.ends (h : Transcript cfg vocab fs busy es) :
    (es.filter fun e => !e.isToken).length + busy.toNat = fs.length := by
  induction h with
  | nil => rfl
  | snoc _ ha ih =>
    have hends := ha.ends
    simp only [List.filter_append, List.length_append, List.length_singleton, Bool.toNat_false] at ih ⊢
    omega

theorem Latest.answer (h : Latest cfg vocab s f) : Answer cfg vocab f s.state.busy s.hist.window.events := by
  cases f with
  | none =>
    obtain ⟨hb, id, code, message, hw⟩ := h
    rw [hb, hw]
    exact .invalid
  | some js =>
    cases hacc : acceptsRequest cfg js with
    | true => exact .generated hacc (h.said hacc)
    | false =>
      obtain ⟨hb, e, he, href⟩ := h.refused hacc
      rw [show s.state.busy = false from hb, show s.hist.window.events = [e] from he]
      exact .refused hacc href

theorem Conversed.transcript (h : Conversed cfg vocab s fs) : Transcript cfg vocab fs s.state.busy s.hist.events := by
  cases h with
  | silent hb hh =>
    rw [hb, hh]
    exact .nil
  | heard hdone hev hlast =>
    rw [hev]
    exact .snoc hdone hlast.answer

/-! ## Steps -/

/-- What is said without a frame changes nothing but the last reply. -/
theorem Conversed.on (h : Conversed cfg vocab s fs) (hb : s.state.busy = false → s'.state.busy = false)
    (hnone : s.hist = {} → s'.hist = {}) (hev : ∀ done, s.hist.events = done ++ s.hist.window.events →
      s'.hist.events = done ++ s'.hist.window.events)
    (hlast : ∀ f, Latest cfg vocab s f → Latest cfg vocab s' f) : Conversed cfg vocab s' fs := by
  cases h with
  | silent hbusy hh => exact .silent (hb hbusy) (hnone hh)
  | heard hdone hevents h => exact .heard hdone (hev _ hevents) (hlast _ h)

theorem Conversed.still (h : Conversed cfg vocab s fs) (hh : s'.hist = s.hist) (hst : s'.state = s.state)
    (hid : s'.requestId = s.requestId) (hp : s'.promptTokens = s.promptTokens) : Conversed cfg vocab s' fs := by
  refine h.on (fun hb => by rw [hst, hb]) (fun hn => by rw [hh, hn]) (fun done hev => by rw [hh, hev]) fun f hf => ?_
  cases f with
  | none => exact ⟨by rw [hst]; exact hf.1, by rw [hh]; exact hf.2⟩
  | some js => exact Asked.still hf (by rw [ClientSession.latest, ClientSession.latest, hh]) hst hid hp

theorem Conversed.reset (h : Conversed cfg vocab s fs) (hst : s.state = .stream) : Conversed cfg vocab s.reset fs := by
  refine h.on (fun _ => rfl) id (fun _ => id) fun f hf => ?_
  cases f with
  | none => exact ⟨rfl, hf.2⟩
  | some js => exact Asked.reset hf hst

theorem Conversed.sent (h : Conversed cfg vocab s fs) (hsent : Sent s s') : Conversed cfg vocab s' fs := by
  cases hsent with
  | on => exact h.still rfl rfl rfl rfl
  | @answered tx act hover =>
    have hon : Conversed cfg vocab { s with tx := tx, lastActivityNs := act } fs := h.still rfl rfl rfl rfl
    exact hon.reset hover

theorem Conversed.served {out : Decoded} {it : BatchItem} {i : Nat} (h : Conversed cfg pf.vocab s fs)
    (hb : s.state.busy = true) (hserved : Served pf cfg nowNs out s it i s') : Conversed cfg pf.vocab s' fs := by
  obtain ⟨new, -, -, hev, hw, -⟩ := hserved.emission
  cases h with
  | silent hno => rw [hb] at hno; cases hno
  | @heard fs f done hdone hevents hlast =>
    refine .heard hdone (by rw [hev, hw, hevents, List.append_assoc]) ?_
    cases f with
    | none => rw [hlast.1] at hb; cases hb
    | some js => exact Asked.served hlast hb hserved.latest

/-- The frame a readable event parses, or that it is invalid. -/
def ClientSession.parsed (s : ClientSession) (nowNs : Nat) (reads : List ReadRes) : List (Option Bytes) :=
  if s.parses nowNs reads then [s.frame? nowNs reads] else []

/-- **A readable event** answers the frame it parses. -/
theorem Conversed.read (h : Conversed cfg pf.vocab s fs) (d : Daemon) (fd : Int) (nowNs : Nat)
    (hpolite : s.state.busy = true → s.parses nowNs reads = false) :
    Conversed cfg pf.vocab (d.answering pf cfg fd s nowNs reads) (fs ++ s.parsed nowNs reads) := by
  unfold ClientSession.parsed
  by_cases hp : s.parses nowNs reads = true
  · have hb : s.state.busy = false := by
      rw [← Bool.not_eq_true]
      intro hb
      rw [hpolite hb] at hp
      cases hp
    have hdone := h.transcript
    rw [hb] at hdone
    rw [if_pos hp]
    cases hf : s.frame? nowNs reads with
    | none =>
      obtain ⟨id, code, message, hw, hev, hb'⟩ := answering_invalid pf cfg d fd hf hp
      exact .heard hdone (by rw [hev, hw]) ⟨hb', id, code, message, hw⟩
    | some js =>
      obtain ⟨ha, hev⟩ := answering_asked pf cfg d fd hf
      exact .heard hdone hev ha
  · rw [if_neg hp, List.append_nil, answering_quiet pf cfg d fd nowNs (Bool.not_eq_true _ ▸ hp)]
    obtain ⟨rx, act, rc, -, heq⟩ := s.received_eq nowNs reads
    rw [heq]
    exact h.still rfl rfl rfl rfl

end Replies

/-! ## Bytes -/

/-- What went over a connection so far: the bytes in, the frames parsed of
them, and the bytes out. -/
structure Traffic where
  input : Bytes := []
  parsed : List (Option Bytes) := []
  output : Bytes := []

namespace Daemon

/-- The bytes a step reads from `fd`. -/
def reads (d : Daemon) (fd : Int) (a : Action) : Bytes :=
  match d.find fd, a with
  | some _, .readable k reads _ _ => if k = fd then arrived reads else []
  | _, _ => []

/-- The frames it parses. -/
def parses (d : Daemon) (fd : Int) (a : Action) : List (Option Bytes) :=
  match d.find fd, a with
  | some s, .readable k reads _ nowNs => if k = fd then s.parsed nowNs reads else []
  | _, _ => []

end Daemon

/-- A step adds what it reads, parses and writes; a new connection begins with
nothing. -/
def Traffic.note (pf : Platform) (cfg : RuntimeConfig) (g : Int → Traffic) (d : Daemon) (a : Action) : Int → Traffic :=
  match a with
  | .accept cfd _ _ => Function.update g cfd {}
  | .readable _ _ _ _ | .writable _ _ _ | .idle _ | .tick _ _ => fun fd =>
    { input := (g fd).input ++ d.reads fd a
      parsed := (g fd).parsed ++ d.parses fd a
      output := (g fd).output ++ d.writes pf cfg fd a }

/-- The daemon, with the traffic of every descriptor. -/
abbrev observed (pf : Platform) (cfg : RuntimeConfig) : Lib.System (Daemon × (Int → Traffic)) Action :=
  (umad pf cfg).record (fun _ => {}) (Traffic.note pf cfg)

/-- Traffic that is requests and replies: `rest` is the beginning of a frame
and `left` the replies still to be written. -/
structure Exchanged (cfg : RuntimeConfig) (vocab : Vocab) (t : Traffic) (busy : Bool) (events : List Event)
    (rest left : Bytes) : Prop where
  transcript : Transcript cfg vocab t.parsed busy events
  input : t.input = t.parsed.reduceOption.flatMap frame ++ rest
  output : t.output ++ left = events.flatMap Event.frame

/-- A session and its traffic. -/
structure Serving (cfg : RuntimeConfig) (vocab : Vocab) (t : Traffic) (s : ClientSession) : Prop where
  conversed : Conversed cfg vocab s t.parsed
  input : t.input = t.parsed.reduceOption.flatMap frame ++ s.rx
  output : t.output ++ s.tx = s.hist.events.flatMap Event.frame

section Traffic

variable {pf : Platform} {cfg : RuntimeConfig} {d : Daemon} {fd : Int} {s s' : ClientSession} {a : Action}
  {t : Traffic} {p : Daemon × (Int → Traffic)} {fs : List (Option Bytes)} {reads : List ReadRes} {nowNs : Nat}

theorem Serving.exchanged (h : Serving cfg pf.vocab t s) :
    Exchanged cfg pf.vocab t s.state.busy s.hist.events s.rx s.tx :=
  ⟨h.conversed.transcript, h.input, h.output⟩

theorem parsed_rx (pf : Platform) (cfg : RuntimeConfig) (d : Daemon) (fd : Int) (s : ClientSession) (nowNs : Nat)
    (reads : List ReadRes) : s.rx ++ arrived reads =
      (s.parsed nowNs reads).reduceOption.flatMap frame ++ (d.answering pf cfg fd s nowNs reads).rx := by
  rw [answering_rx, ClientSession.parsed]
  cases hf : s.frame? nowNs reads with
  | some js =>
    obtain ⟨hend, hok, rfl⟩ := frame?_some hf
    have hp : s.parses nowNs reads = true := by
      rw [parses_eq, show (tryReadFrame (s.rx ++ arrived reads) [] defaultMaxFrameBytes).ok = true from hok]
      simp [hend]
    rw [if_pos hp, if_neg hend]
    simpa [afterFrame] using (tryReadFrame_ok hok).1
  | none =>
    have hnil : (if s.parses nowNs reads = true then [none] else [] : List (Option Bytes)).reduceOption = [] := by
      split <;> rfl
    rw [hnil, List.flatMap_nil, List.nil_append]
    by_cases hend : readEnd reads = .error
    · rw [if_pos hend]
    · rw [if_neg hend, afterFrame_none hf hend]

/-- What a step leaves of a session with the frames `fs`: the session `s₁`,
which may then be closed. -/
def GoesOn (pf : Platform) (cfg : RuntimeConfig) (d : Daemon) (fd : Int) (a : Action) (s : ClientSession)
    (fs : List (Option Bytes)) : Prop :=
  ∃ s₁, s₁.hist = d.history pf cfg fd a ∧ Conversed cfg pf.vocab s₁ (fs ++ d.parses fd a) ∧
    s.rx ++ d.reads fd a = (d.parses fd a).reduceOption.flatMap frame ++ s₁.rx ∧
    ∀ s', (d.step pf cfg a).find fd = some s' →
      Conversed cfg pf.vocab s' (fs ++ d.parses fd a) ∧ s'.rx = s₁.rx

/-- A step that reads nothing from the session and says nothing on it. -/
theorem Conversed.goesOn_quiet (h : Conversed cfg pf.vocab s fs) (hr : d.reads fd a = [])
    (hp : d.parses fd a = []) (hh : d.history pf cfg fd a = s.hist)
    (hnext : ∀ s', (d.step pf cfg a).find fd = some s' → Conversed cfg pf.vocab s' fs ∧ s'.rx = s.rx) :
    GoesOn pf cfg d fd a s fs := by
  unfold GoesOn
  rw [hr, hp, List.append_nil, List.append_nil]
  exact ⟨s, hh.symm, h, rfl, hnext⟩

theorem Conversed.left_alone (h : Conversed cfg pf.vocab s fs) (hs : d.find fd = some s)
    (hv : (d.step pf cfg a).view fd = d.view fd ∨ (d.step pf cfg a).view fd = ⟨none, false, false⟩) (s' : ClientSession)
    (hs' : (d.step pf cfg a).find fd = some s') : Conversed cfg pf.vocab s' fs ∧ s'.rx = s.rx := by
  rcases hv with hv | hv
  · cases ((congrArg View.session hv).trans hs).symm.trans hs'
    exact ⟨h, rfl⟩
  · cases (congrArg View.session hv).symm.trans hs'

/-- **A step on a live session** continues its conversation. -/
theorem Conversed.step (h : Conversed cfg pf.vocab s fs) (hk : Keyed d.mgr.sessions) (he : d.Enabled pf cfg a)
    (hpolite : Polite SessionState.busy d a) (hs : d.find fd = some s) : GoesOn pf cfg d fd a s fs := by
  cases a with
  | accept cfd order nowNs =>
    have hne : fd ≠ cfd := by
      rintro rfl
      rw [he.2] at hs
      cases hs
    refine h.goesOn_quiet ?_ ?_ ?_ (h.left_alone hs (.inl (accept_view_ne hne)))
    all_goals simp only [Daemon.reads, Daemon.parses, Daemon.history, hs]
  | readable k reads now nowNs =>
    by_cases hkfd : k = fd
    · subst hkfd
      have hrx := parsed_rx pf cfg d k s nowNs reads
      have hread := h.read d k nowNs (hpolite s hs)
      simp only [GoesOn, Daemon.reads, Daemon.parses, Daemon.history, hs, if_true]
      refine ⟨_, rfl, hread, hrx, fun s' hs' => ?_⟩
      have hsent := readable_sent pf cfg reads now nowNs hs hs'
      exact ⟨hread.sent hsent, by cases hsent <;> rfl⟩
    · refine h.goesOn_quiet ?_ ?_ ?_ (h.left_alone hs (.inl (readable_view_ne (Ne.symm hkfd))))
      all_goals simp only [Daemon.reads, Daemon.parses, Daemon.history, hs, hkfd, if_false]
  | writable k ws nowNs =>
    refine h.goesOn_quiet (by simp only [Daemon.reads, hs]) (by simp only [Daemon.parses, hs])
      (by simp only [Daemon.history, hs]) ?_
    by_cases hkfd : k = fd
    · subst hkfd
      intro s' hs'
      have hsent := writable_sent ws nowNs hs hs'
      exact ⟨h.sent hsent, by cases hsent <;> rfl⟩
    · exact h.left_alone hs (.inl (writable_view_ne (Ne.symm hkfd)))
  | idle nowNs =>
    refine h.goesOn_quiet ?_ ?_ ?_ (h.left_alone hs (foldl_close_view _ d fd))
    all_goals simp only [Daemon.reads, Daemon.parses, Daemon.history, hs]
  | tick nowNs out =>
    obtain ⟨s', hl⟩ : ∃ s', (d.ticked pf cfg nowNs out).sessions.lookup fd = some s' :=
      tick_lookup_isSome pf cfg d.memory nowNs out hk hs
    have hs' : (d.tick pf cfg nowNs out).find fd = some s' := Daemon.tick_find.trans hl
    have hnext : Conversed cfg pf.vocab s' fs ∧ s'.rx = s.rx := by
      rcases tick_session hk hs hl with ⟨rfl, -⟩ | ⟨before, it, hserves, hserved⟩
      · exact ⟨h, rfl⟩
      · exact ⟨h.served (hserves.busy hk) hserved, hserved.transport.1⟩
    simp only [GoesOn, Daemon.reads, Daemon.parses, Daemon.history, hs, hs', Option.getD_some, List.append_nil]
    refine ⟨s', rfl, hnext.1, hnext.2.symm, fun s'' hs'' => ?_⟩
    cases hs'.symm.trans hs''
    exact ⟨hnext.1, rfl⟩

/-- It continues the traffic, also when it closes the session. -/
theorem Serving.step (h : Serving cfg pf.vocab t s) (hk : Keyed d.mgr.sessions) (he : d.Enabled pf cfg a)
    (hpolite : Polite SessionState.busy d a) (hs : d.find fd = some s) :
    let t' : Traffic := ⟨t.input ++ d.reads fd a, t.parsed ++ d.parses fd a, t.output ++ d.writes pf cfg fd a⟩
    (∃ busy events rest left, Exchanged cfg pf.vocab t' busy events rest left) ∧
      ∀ s', (d.step pf cfg a).find fd = some s' → Serving cfg pf.vocab t' s' := by
  obtain ⟨left, ⟨⟨es, hev, hout⟩, hstays⟩, -⟩ := step_wire pf cfg hk he hs
  obtain ⟨s₁, hhist, hc, hrx, hnext⟩ := h.conversed.step hk he hpolite hs
  have houtput : t.output ++ d.writes pf cfg fd a ++ left =
      (d.history pf cfg fd a).events.flatMap Event.frame := by
    rw [hev, List.flatMap_append, ← h.output, List.append_assoc, List.append_assoc, hout]
  have hinput : t.input ++ d.reads fd a =
      (t.parsed ++ d.parses fd a).reduceOption.flatMap frame ++ s₁.rx := by
    rw [h.input, List.append_assoc, hrx, List.reduceOption_append, List.flatMap_append, List.append_assoc]
  refine ⟨⟨_, _, _, left, hc.transcript, hinput, by rw [hhist]; exact houtput⟩, fun s' hs' => ?_⟩
  obtain ⟨hh, htx⟩ := hstays s' hs'
  obtain ⟨hc', hrx'⟩ := hnext s' hs'
  exact ⟨hc', by rw [hrx']; exact hinput, by rw [hh, htx]; exact houtput⟩

theorem note_none {g : Int → Traffic} (hs : d.find fd = none) (ha : ∀ order nowNs, a ≠ .accept fd order nowNs) :
    Traffic.note pf cfg g d a fd = g fd := by
  cases a with
  | accept cfd order nowNs =>
    refine Function.update_of_ne ?_ _ _
    rintro rfl
    exact ha order nowNs rfl
  | readable | writable | idle | tick =>
    simp only [Traffic.note, Daemon.reads, Daemon.parses, Daemon.writes, hs, List.append_nil]

theorem serving_of_reach (h : (observed pf cfg).Reach (fun p a => Polite SessionState.busy p.1 a) p) (fd : Int) :
    (∃ busy events rest left, Exchanged cfg pf.vocab (p.2 fd) busy events rest left) ∧
      ∀ s, p.1.find fd = some s → Serving cfg pf.vocab (p.2 fd) s := by
  have hfresh : ∃ busy events rest left, Exchanged cfg pf.vocab {} busy events rest left :=
    ⟨false, [], [], [], .nil, rfl, rfl⟩
  refine h.invariant (I := fun p => (∃ busy events rest left, Exchanged cfg pf.vocab (p.2 fd) busy events rest left) ∧
    ∀ s, p.1.find fd = some s → Serving cfg pf.vocab (p.2 fd) s) ⟨hfresh, fun s hs => by cases hs⟩ ?_
  rintro ⟨d, g⟩ a hr ⟨hex, hserving⟩ he hpolite
  have hk : Keyed d.mgr.sessions := (owned_of_reach (C := Lib.Always) (hr.forget fun _ _ _ => trivial)).keyed
  have he : d.Enabled pf cfg a := he
  show (∃ busy events rest left, Exchanged cfg pf.vocab (Traffic.note pf cfg g d a fd) busy events rest left) ∧
    ∀ s, (d.step pf cfg a).find fd = some s → Serving cfg pf.vocab (Traffic.note pf cfg g d a fd) s
  by_cases haccept : ∃ order nowNs, a = .accept fd order nowNs
  · obtain ⟨order, nowNs, rfl⟩ := haccept
    rw [Traffic.note, Function.update_self]
    refine ⟨hfresh, fun s hs' => ?_⟩
    rcases step_session hk he hs' with ⟨order, nowNs, -, rfl⟩ | ⟨s₀, next, r, w, r', w', hs, -⟩
    · exact ⟨.silent rfl rfl, rfl, rfl⟩
    · cases he.2.symm.trans hs
  push Not at haccept
  cases hs : d.find fd with
  | none =>
    rw [note_none hs haccept]
    refine ⟨hex, fun s hs' => ?_⟩
    rcases step_session hk he hs' with ⟨order, nowNs, rfl, -⟩ | ⟨s₀, next, r, w, r', w', hs₀, -⟩
    · exact absurd rfl (haccept order nowNs)
    · cases hs.symm.trans hs₀
  | some s =>
    have hstep := (hserving s hs).step hk he hpolite hs
    cases a with
    | readable | writable | idle | tick => exact hstep
    | accept cfd order nowNs =>
      have hne : fd ≠ cfd := by
        rintro rfl
        exact haccept order nowNs rfl
      simpa only [Traffic.note, Function.update_of_ne hne, Daemon.reads, Daemon.parses, Daemon.writes, hs,
        List.append_nil] using hstep

/-- **The daemon is a server of requests.** In every run in which no frame is
parsed while a request is in flight, on every descriptor since it was last
accepted: what was read is the frames that were parsed and the bytes not
parsed yet; what was written is the front of one reply to each of them, in
order, all but the last complete, each with exactly one event that is no
token, its last. For a live session the bytes not parsed yet are `rx`, what is
left of the replies is `tx`, and the last reply is incomplete exactly while
its request is in flight. -/
theorem transcript_of_reach (h : (observed pf cfg).Reach (fun p a => Polite SessionState.busy p.1 a) p) (fd : Int) :
    ∃ busy events rest left, Exchanged cfg pf.vocab (p.2 fd) busy events rest left ∧
      (events.filter fun e => !e.isToken).length + busy.toNat = (p.2 fd).parsed.length ∧
      ∀ s, p.1.find fd = some s →
        busy = s.state.busy ∧ events = s.hist.events ∧ rest = s.rx ∧ left = s.tx := by
  obtain ⟨⟨busy, events, rest, left, hex⟩, hserving⟩ := serving_of_reach h fd
  cases hs : p.1.find fd with
  | none => exact ⟨busy, events, rest, left, hex, hex.transcript.ends, fun s hs' => by cases hs'⟩
  | some s =>
    have hex := (hserving s hs).exchanged
    refine ⟨_, _, _, _, hex, hex.transcript.ends, fun s' hs' => ?_⟩
    cases hs'
    exact ⟨rfl, rfl, rfl, rfl⟩

/-- A response, and a second request on the connection. -/
def twoRequests : List Action :=
  oneToken ++ [.writable 7 [.wrote 1000] 5, .readable 7 (request "b") .wouldBlock 6, .tick 7 (choosing 1)]

theorem transcript_of_reach_two :
    let p := (observed small {}).after (observed small {}).init twoRequests
    (p.2 7).parsed.length = 2 ∧
      ∃ events rest left, Exchanged {} small.vocab (p.2 7) true events rest left ∧
        (events.filter fun e => !e.isToken).length = 1 := by
  intro p
  have hparsed : (p.2 7).parsed.length = 2 := by decide +kernel
  have hrun : (observed small {}).Run (fun p a => Polite SessionState.busy p.1 a) (observed small {}).init
      twoRequests := by decide +kernel
  obtain ⟨busy, events, rest, left, hex, hends, hlive⟩ := transcript_of_reach (Lib.System.Reach.init.run hrun) 7
  obtain ⟨s, hs, hb⟩ : ∃ s, p.1.find 7 = some s ∧ s.state.busy = true := by decide +kernel
  obtain ⟨rfl, -⟩ := hlive s hs
  rw [hb] at hex hends
  exact ⟨hparsed, events, rest, left, hex, by rw [hparsed, Bool.toNat_true] at hends; omega⟩

end Traffic
end UmaServe
