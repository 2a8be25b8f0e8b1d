/-
What a client is sent. The events appended to a session's `tx` make up its
responses: `Response` is their grammar, kept by every run
(`response_grammar`). The bytes of `tx` are the end of the frames of those
events (`tx_history`).
-/
import UmaServe.Umad.Ownership

namespace UmaServe

/-! ## The bytes and the events -/

/-- The frame of an event. -/
def Event.frame (e : Event) : Bytes := e.append []

theorem append_eq (tx : Bytes) (e : Event) : e.append tx = tx ++ e.frame := by
  cases e <;> simp [Event.frame, Event.append, appendTokenEvent, appendEosEvent, appendErrorEvent, writeFrame]

theorem foldl_append_eq (es : List Event) (tx : Bytes) : es.foldl Event.append tx = tx ++ es.flatMap Event.frame := by
  induction es generalizing tx with
  | nil => simp
  | cons e es ih => rw [List.foldl_cons, ih, append_eq, List.flatMap_cons, List.append_assoc]

/-- `tx` holds the end of what was appended, and the window the end of the
events. -/
structure Recorded (s : ClientSession) : Prop where
  tx : s.tx <:+ s.hist.events.flatMap Event.frame
  window : s.hist.window.events <:+ s.hist.events

theorem suffix_emit {tx : Bytes} {l : List Event} (h : tx <:+ l.flatMap Event.frame) (es : List Event) :
    es.foldl Event.append tx <:+ (l ++ es).flatMap Event.frame := by
  obtain ⟨sent, hs⟩ := h
  exact ⟨sent, by rw [foldl_append_eq, List.flatMap_append, ← hs, List.append_assoc]⟩

theorem suffix_append {l₁ l₂ : List Event} (h : l₁ <:+ l₂) (es : List Event) : l₁ ++ es <:+ l₂ ++ es := by
  obtain ⟨pre, rfl⟩ := h
  exact ⟨pre, by simp⟩

section Recorded

variable {pf : Platform} {cfg : RuntimeConfig} {d : Daemon} {fd next : Int} {a : Action} {s s' t : ClientSession}

/-- Appending events to `tx` and to the history together. -/
theorem Recorded.emit (h : Recorded s) (es : List Event) (htx : s'.tx = es.foldl Event.append s.tx)
    (hev : s'.hist.events = s.hist.events ++ es) (hw : s'.hist.window.events = s.hist.window.events ++ es) :
    Recorded s' where
  tx := by rw [htx, hev]; exact suffix_emit h.tx es
  window := by rw [hw, hev]; exact suffix_append h.window es

theorem Recorded.write (h : Recorded s) (htx : s'.tx <:+ s.tx) (hh : s'.hist = s.hist) : Recorded s' where
  tx := by rw [hh]; exact htx.trans h.tx
  window := by rw [hh]; exact h.window

/-- A new window, and perhaps one event in it. -/
theorem Recorded.answer (h : Recorded s) (es : List Event) (htx : s'.tx <:+ es.foldl Event.append s.tx)
    (hev : s'.hist.events = s.hist.events ++ es) (hw : s'.hist.window.events = es) : Recorded s' where
  tx := by rw [hev]; exact htx.trans (suffix_emit h.tx es)
  window := by rw [hw, hev]; exact List.suffix_append _ _

/-- What a tick appends for a session it serves, and the state it leaves. -/
inductive Emission (vocab : Vocab) (s : ClientSession) : List Event → SessionState → Prop
  | error {code message : Bytes} : Emission vocab s [.error s.requestId code message] .errored
  | nothing : Emission vocab s [] s.state
  | token {t : Token} : Emission vocab s (pieceEvents vocab s.requestId t) .decode
  | eos {reason : Bytes} : Emission vocab s [.eos s.requestId reason] .stream

theorem Served.emission {nowNs : Nat} {out : Decoded} {it : BatchItem} {i : Nat}
    (h : Served pf cfg nowNs out s it i s') :
    ∃ new, Emission pf.vocab s new s'.state ∧ s'.tx = new.foldl Event.append s.tx ∧
      s'.hist.events = s.hist.events ++ new ∧ s'.hist.window.events = s.hist.window.events ++ new ∧
      s'.hist.window.accepted = s.hist.window.accepted ∧ s'.requestId = s.requestId := by
  cases h with
  | failed =>
    refine ⟨[.error s.requestId (bytes "E_RUNTIME_DECODE") (bytes "decode failed")], .error, ?_⟩
    simp [ClientSession.decodeFailed, ClientSession.emit]
  | noRow =>
    refine ⟨[], ?_, by simp⟩
    rw [enacted_state]
    exact .nothing
  | @first row =>
    refine ⟨pieceEvents pf.vocab s.requestId (sampleRow pf out (s.enacted it) i row), ?_, by simp [prefillSampled_eq]⟩
    rw [prefillSampled_eq]
    exact .token
  | ended =>
    refine ⟨[eosEvent cfg (s.enacted it)], ?_, by simp [finish_eq]⟩
    rw [finish_eq, eosEvent, enacted_requestId]
    exact .eos
  | @more row =>
    refine ⟨pieceEvents pf.vocab s.requestId (sampleRow pf out (s.enacted it) i row), ?_, by simp [decodeSampled_eq]⟩
    rw [decodeSampled_eq]
    exact .token

/-- **The bytes of `tx` are the end of the frames of the events**, in every
run. -/
theorem tx_history {C : Daemon → Action → Prop} (h : (umad pf cfg).Reach C d) (hs : d.find fd = some s) :
    Recorded s := by
  refine session_invariant (fun _ _ => ⟨List.nil_suffix, List.nil_suffix⟩) ?_ h hs
  intro d a fd next s s' r w r' w' _ _ _ hmove hi
  cases hmove with
  | same | idled => exact hi
  | @quiet reads now nowNs =>
    obtain ⟨rx, act, rc, -, he⟩ := s.received_eq nowNs reads
    rw [he]
    exact hi.write List.suffix_rfl rfl
  | @rejected _ _ _ _ _ _ _ id code message _ _ ht _ _ hsuf =>
    obtain ⟨rx, act, rc, id', temp, p, k, -, rfl⟩ := ht
    exact hi.answer [.error id code message] hsuf rfl rfl
  | @metrics _ _ _ _ _ _ _ _ json _ _ ht _ _ _ hsuf =>
    obtain ⟨rx, act, rc, id', temp, p, k, -, rfl⟩ := ht
    exact hi.answer [.metrics json] hsuf rfl rfl
  | empty _ ht _ _ _ _ hsuf =>
    obtain ⟨rx, act, rc, id', temp, p, k, -, rfl⟩ := ht
    exact hi.answer [.eos id' (bytes "stop")] hsuf rfl rfl
  | emptied _ ht =>
    obtain ⟨rx, act, rc, id', temp, p, k, -, rfl⟩ := ht
    exact hi.answer [.eos id' (bytes "stop")] List.nil_suffix rfl rfl
  | started _ ht =>
    obtain ⟨rx, act, rc, id', temp, p, k, -, rfl⟩ := ht
    exact hi.answer [] List.suffix_rfl (List.append_nil _).symm rfl
  | sent _ hsuf => exact hi.write hsuf rfl
  | drained | finished => exact hi.write List.nil_suffix rfl
  | served _ hserved =>
    obtain ⟨new, -, htx, hev, hw, -⟩ := hserved.emission
    exact hi.emit new htx hev hw

end Recorded

/-! ## The grammar of a response -/

/-- Clients that let a request finish: no complete or invalid frame is parsed
on a session whose state is one of `p`. -/
def Polite (p : SessionState → Bool) (d : Daemon) : Action → Prop
  | .readable fd reads _ nowNs => ∀ s ∈ d.find fd, p s.state = true → s.parses nowNs reads = false
  | _ => True

instance (p : SessionState → Bool) (d : Daemon) : ∀ a, Decidable (Polite p d a)
  | .readable _ _ _ _ => inferInstanceAs (Decidable (∀ s ∈ _, _))
  | .accept _ _ _ | .writable _ _ _ | .idle _ | .tick _ _ => inferInstanceAs (Decidable True)

/-- A request is in flight, or a decode has failed. -/
def SessionState.busyOrErrored : SessionState → Bool
  | .prefill | .decode | .errored => true
  | _ => false

/-- Token events, then at most one terminal event, all with the id of the
request; the terminal event is missing while the request is in flight. -/
structure Response (id : Bytes) (inFlight : Bool) (events : List Event) : Prop where
  shape : ∃ toks term, events = toks ++ term ∧ (∀ e ∈ toks, e.isToken = true) ∧ (∀ e ∈ term, e.terminal = true) ∧
    term.length ≤ 1 ∧ (inFlight = true ↔ term = [])
  ids : ∀ e ∈ events, e.id? = some id

/-- What a session's window says of its response. -/
structure Responding (s : ClientSession) : Prop where
  accepted : s.state.busy = true → s.hist.window.accepted = some s.requestId
  response : ∀ id, s.hist.window.accepted = some id → Response id s.state.busy s.hist.window.events

section Grammar

variable {pf : Platform} {cfg : RuntimeConfig} {d : Daemon} {fd : Int} {s s' : ClientSession}

theorem pieceEvents_mem {vocab : Vocab} {id : Bytes} {t : Token} {e : Event} (h : e ∈ pieceEvents vocab id t) :
    e.isToken = true ∧ e.terminal = false ∧ e.id? = some id := by
  unfold pieceEvents at h
  dsimp only at h
  split at h
  · cases h
  · rw [List.mem_singleton] at h
    subst h
    exact ⟨rfl, rfl, rfl⟩

theorem Response.nil (id : Bytes) : Response id true [] :=
  ⟨⟨[], [], rfl, by simp, by simp, by simp, by simp⟩, by simp⟩

theorem Response.tokens {id : Bytes} {events new : List Event} (h : Response id true events)
    (hnew : ∀ e ∈ new, e.isToken = true ∧ e.id? = some id) : Response id true (events ++ new) := by
  obtain ⟨toks, term, rfl, htok, hterm, -, hiff⟩ := h.shape
  obtain rfl := hiff.mp rfl
  refine ⟨⟨toks ++ new, [], by simp, fun e he => ?_, by simp, by simp, by simp⟩, fun e he => ?_⟩
  · rcases List.mem_append.mp he with he | he
    · exact htok e he
    · exact (hnew e he).1
  · rcases List.mem_append.mp he with he | he
    · exact h.ids e he
    · exact (hnew e he).2

theorem Response.finish {id : Bytes} {events : List Event} {e : Event} (h : Response id true events)
    (he : e.terminal = true) (hid : e.id? = some id) : Response id false (events ++ [e]) := by
  obtain ⟨toks, term, rfl, htok, hterm, -, hiff⟩ := h.shape
  obtain rfl := hiff.mp rfl
  refine ⟨⟨toks, [e], by simp, htok, by simpa using he, by simp, by simp⟩, fun e' he' => ?_⟩
  rcases List.mem_append.mp he' with he' | he'
  · exact h.ids e' he'
  · rw [List.mem_singleton] at he'
    subst he'
    exact hid

theorem Responding.unaccepted (hb : s.state.busy = false) (ha : s.hist.window.accepted = none) : Responding s where
  accepted := fun hb' => by rw [hb] at hb'; cases hb'
  response := fun id hid => by rw [ha] at hid; cases hid

theorem Emission.responding {new : List Event} (h : Responding s) (hb : s.state.busy = true)
    (hem : Emission pf.vocab s new s'.state) (hw : s'.hist.window.events = s.hist.window.events ++ new)
    (hacc : s'.hist.window.accepted = s.hist.window.accepted) (hid : s'.requestId = s.requestId) : Responding s' := by
  have ha := h.accepted hb
  have hr := h.response s.requestId ha
  rw [hb] at hr
  constructor
  · intro _
    rw [hacc, hid, ha]
  · intro id hid'
    obtain rfl : s.requestId = id := by rw [hacc, ha] at hid'; exact Option.some.inj hid'
    rw [hw]
    generalize s'.state = st at hem
    cases hem with
    | error => exact hr.finish rfl rfl
    | nothing => rw [hb, List.append_nil]; exact hr
    | token => exact hr.tokens fun e he => ⟨(pieceEvents_mem he).1, (pieceEvents_mem he).2.2⟩
    | eos => exact hr.finish rfl rfl

theorem responding_of_reach {C : Daemon → Action → Prop} (h : (umad pf cfg).Reach C d) (hs : d.find fd = some s) :
    Responding s := by
  refine session_invariant (fun _ _ => .unaccepted rfl rfl) ?_ h hs
  intro d a fd next s s' r w r' w' hr _ _ hmove hi
  cases hmove with
  | same | idled => exact hi
  | @quiet reads now nowNs =>
    obtain ⟨rx, act, rc, -, he⟩ := s.received_eq nowNs reads
    rw [he]
    exact ⟨hi.accepted, hi.response⟩
  | rejected | metrics => exact .unaccepted rfl rfl
  | @empty _ _ _ _ t | @emptied _ _ _ _ t =>
    refine ⟨fun hb => (by cases hb), fun id hid => ?_⟩
    obtain rfl : t.requestId = id := Option.some.inj hid
    exact (Response.nil t.requestId).finish (e := .eos t.requestId (bytes "stop")) rfl rfl
  | started => exact ⟨fun _ => rfl, fun id _ => .nil id⟩
  | sent | drained => exact ⟨hi.accepted, hi.response⟩
  | finished hst =>
    refine ⟨fun hb => (by cases hb), fun id hid => ?_⟩
    have hresp := hi.response id hid
    rw [hst] at hresp
    exact hresp
  | served hserves hserved =>
    obtain ⟨new, hem, -, -, hw, hacc, hid⟩ := hserved.emission
    exact hem.responding hi (hserves.busy (owned_of_reach hr).keyed) hw hacc hid

theorem Emission.terminal_iff {vocab : Vocab} {new : List Event} {st : SessionState} (h : Emission vocab s new st)
    (hb : s.state.busy = true) : st.busy = false ↔ ∃ e ∈ new, e.terminal = true := by
  cases h with
  | error | eos => simp [SessionState.busy, Event.terminal]
  | nothing => simp [hb]
  | token =>
    refine ⟨fun hf => (by cases hf), ?_⟩
    intro hterm
    obtain ⟨e, he, ht⟩ := hterm
    rw [(pieceEvents_mem he).2.1] at ht
    cases ht

/-- A step of a polite client on a request in flight continues its response,
and the request stops being in flight exactly when a terminal event is
appended. -/
theorem response_step {C : Daemon → Action → Prop} {a : Action} (h : (umad pf cfg).Reach C d)
    (he : d.Enabled pf cfg a) (hc : Polite SessionState.busyOrErrored d a) (hs : d.find fd = some s)
    (hb : s.state.busy = true) (hs' : (d.step pf cfg a).find fd = some s') :
    s'.hist.window.accepted = s.hist.window.accepted ∧
      ∃ new, s'.hist.window.events = s.hist.window.events ++ new ∧
        (s'.state.busy = false ↔ ∃ e ∈ new, e.terminal = true) := by
  have hbe : s.state.busyOrErrored = true := by
    cases hst : s.state <;> simp_all [SessionState.busy, SessionState.busyOrErrored]
  have hmove := step_move (owned_of_reach h).keyed he fd
  have hv : d.view fd = ⟨some s, d.poller.read fd, d.poller.write fd⟩ := by rw [Daemon.view, hs]
  have hv' : (d.step pf cfg a).view fd =
      ⟨some s', (d.step pf cfg a).poller.read fd, (d.step pf cfg a).poller.write fd⟩ := by rw [Daemon.view, hs']
  rw [hv, hv'] at hmove
  -- Nothing appended, and the state as it was.
  have still : ∀ {t : ClientSession}, t.hist = s.hist → t.state = s.state →
      t.hist.window.accepted = s.hist.window.accepted ∧
        ∃ new, t.hist.window.events = s.hist.window.events ++ new ∧
          (t.state.busy = false ↔ ∃ e ∈ new, e.terminal = true) := fun hh hst =>
    ⟨by rw [hh], [], by simp [hh], by simp [hst, hb]⟩
  generalize (d.step pf cfg a).mgr.nextSeqId = next at hmove
  generalize (d.step pf cfg a).poller.read fd = r' at hmove
  generalize (d.step pf cfg a).poller.write fd = w' at hmove
  cases hmove with
  | same | sent | drained | idled => exact still rfl rfl
  | @quiet reads now nowNs =>
    obtain ⟨rx, act, rc, -, he⟩ := s.received_eq nowNs reads
    rw [he]
    exact still rfl rfl
  | rejected hp | metrics hp | empty hp | emptied hp | started hp =>
    rw [hc s hs hbe] at hp
    cases hp
  | finished hst => rw [hst] at hb; cases hb
  | served hserves hserved =>
    obtain ⟨new, hem, -, -, hw, hacc, -⟩ := hserved.emission
    exact ⟨hacc, new, hw, hem.terminal_iff hb⟩

/-- **The grammar of a response.** In every run in which no frame is parsed on
a session with a request in flight or a failed decode: the events appended
since a generation request was accepted are token events and then at most one
terminal event, all with its id, and `tx` ends with their frames; and a step
takes the session out of `PREFILL` and `DECODE` exactly when it appends the
terminal event. -/
theorem response_grammar (h : (umad pf cfg).Reach (Polite SessionState.busyOrErrored) d) (hs : d.find fd = some s)
    {id : Bytes} (hacc : s.hist.window.accepted = some id) :
    Response id s.state.busy s.hist.window.events ∧ Recorded s ∧
      ∀ a s', d.Enabled pf cfg a → Polite SessionState.busyOrErrored d a → (d.step pf cfg a).find fd = some s' →
        s.state.busy = true →
        s'.hist.window.accepted = some id ∧
          ∃ new, s'.hist.window.events = s.hist.window.events ++ new ∧
            (s'.state.busy = false ↔ ∃ e ∈ new, e.terminal = true) := by
  refine ⟨(responding_of_reach h hs).response id hacc, tx_history h hs, ?_⟩
  intro a s' he hc hs' hb
  obtain ⟨hacc', hnew⟩ := response_step h he hc hs hb hs'
  exact ⟨hacc'.trans hacc, hnew⟩

/-- A response of one token, to its end. -/
def oneToken : List Action :=
  [.accept 7 [7] 1, .readable 7 (request "ab") .wouldBlock 2, .tick 3 (choosing 1), .tick 4 (choosing 2)]

theorem response_grammar_one :
    ∃ s, ((umad small {}).after (umad small {}).init oneToken).find 7 = some s ∧
      s.hist.window.events = [.token (bytes "r") [1] 1, .eos (bytes "r") (bytes "stop")] ∧
      Response (bytes "r") s.state.busy s.hist.window.events := by
  have hev : (((umad small {}).after (umad small {}).init oneToken).find 7).map (fun s => s.hist.window) =
      some { accepted := some (bytes "r")
             events := [.token (bytes "r") [1] 1, .eos (bytes "r") (bytes "stop")]
             fed := [97, 98]
             sampled := [1, 2] } := by decide +kernel
  obtain ⟨s, hs, hev⟩ := Option.map_eq_some_iff.mp hev
  have hr : (umad small {}).Reach (Polite SessionState.busyOrErrored)
      ((umad small {}).after (umad small {}).init oneToken) := Lib.System.Reach.init.run (by decide +kernel)
  exact ⟨s, hs, by rw [hev], (response_grammar hr hs (by rw [hev])).1⟩

end Grammar

end UmaServe
