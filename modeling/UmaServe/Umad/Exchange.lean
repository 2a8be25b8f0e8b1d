/-
What the daemon says to a request. The session that takes it says one error
or one snapshot, or the pieces of the tokens sampled for it and an end; and
says it event by event, while the request is in flight (`Asked.served`). What
was said before on the connection is left out: `ClientSession.latest` is the
session as if its last request were the first.
-/
import UmaServe.Umad.Inbound
import UmaServe.Umad.Wire

namespace UmaServe

/-! ## The response -/

/-- The id a payload names. -/
def idOf (js : Bytes) : Bytes := (extractJsonString js (bytes "id")).1

/-- The events of an accepted request, against the tokens sampled for it: the
pieces of the tokens and, once it is not in flight, an end. The token that is
sampled last before an `eos` is not sent. -/
inductive Said (vocab : Vocab) (id : Bytes) : Bool → List Token → List Event → Prop
  | going {ts : List Token} : Said vocab id true ts (ts.flatMap (pieceEvents vocab id))
  | failed {ts : List Token} :
      Said vocab id false ts
        (ts.flatMap (pieceEvents vocab id) ++ [.error id (bytes "E_RUNTIME_DECODE") (bytes "decode failed")])
  | ended {ts : List Token} {t : Token} {reason : Bytes} : reason = bytes "stop" ∨ reason = bytes "length" →
      Said vocab id false (ts ++ [t]) (ts.flatMap (pieceEvents vocab id) ++ [.eos id reason])
  | empty : Said vocab id false [] [.eos id (bytes "stop")]

/-- The error that answers a generation request that is not accepted. -/
def refusal (js : Bytes) : Event :=
  let prompt := extractJsonString js (bytes "prompt")
  if (extractJsonString js (bytes "id")).2 || prompt.2 then
    .error (idOf js) (bytes "E_PROTO_001") (bytes "invalid utf-8")
  else if prompt.1.isEmpty then .error (idOf js) (bytes "E_PROTO_BAD_REQUEST") (bytes "missing or invalid prompt")
  else .error (idOf js) (bytes "E_LIMIT_001") (bytes "prompt too large")

/-- The one event that answers a request that is not accepted. -/
def Refusal (js : Bytes) (e : Event) : Prop :=
  if isAdminRequest js then ∃ json, e = .metrics json else e = refusal js

/-- A session that took the request `js`, and no other. -/
structure Asked (cfg : RuntimeConfig) (vocab : Vocab) (js : Bytes) (s : ClientSession) : Prop where
  events : s.hist.window.events = s.hist.events
  accepted : s.hist.window.accepted = if acceptsRequest cfg js then some (idOf js) else none
  request : s.state.busy = true → s.requestId = idOf js ∧ s.promptTokens = promptOf vocab js
  said : acceptsRequest cfg js = true →
    Said vocab (idOf js) s.state.busy s.hist.window.sampled s.hist.events
  refused : acceptsRequest cfg js = false →
    s.state.busy = false ∧ ∃ e, s.hist.events = [e] ∧ Refusal js e

/-- The session as if its last request were the first. -/
def ClientSession.latest (s : ClientSession) : ClientSession :=
  { s with hist := { s.hist with events := s.hist.window.events } }

section Exchange

variable {pf : Platform} {cfg : RuntimeConfig} {vocab : Vocab} {d : Daemon} {fd : Int} {s s' : ClientSession}
  {js : Bytes} {reads : List ReadRes} {nowNs : Nat} {next : Int}

theorem Asked.still (h : Asked cfg vocab js s) (hh : s'.hist = s.hist) (hst : s'.state = s.state)
    (hid : s'.requestId = s.requestId) (hp : s'.promptTokens = s.promptTokens) : Asked cfg vocab js s' := by
  obtain ⟨hev, hacc, hreq, hsaid, href⟩ := h
  rw [← hh] at hev hacc hsaid href
  rw [← hst] at hreq hsaid href
  rw [← hid, ← hp] at hreq
  exact ⟨hev, hacc, hreq, hsaid, href⟩

theorem Asked.reset (h : Asked cfg vocab js s) (hst : s.state = .stream) : Asked cfg vocab js s.reset := by
  refine ⟨h.events, h.accepted, fun hb => (by cases hb), fun hacc => ?_, fun hacc => ⟨rfl, (h.refused hacc).2⟩⟩
  have hsaid := h.said hacc
  rw [hst] at hsaid
  exact hsaid

theorem onFrame_refusal (cfg : RuntimeConfig) (vocab : Vocab) (nowNs : Nat) (next : Int) (rr : ReadResult)
    (s : ClientSession) (hadm : isAdminRequest js = false) (hacc : acceptsRequest cfg js = false) :
    (s.onFrame cfg vocab nowNs next rr js).session.hist.window.events = [refusal js] := by
  simp only [acceptsRequest, hadm, Bool.not_false, Bool.true_and] at hacc
  unfold ClientSession.onFrame refusal idOf
  simp only [hadm, Bool.false_eq_true, if_false]
  split
  · rfl
  next hinv =>
    rw [Bool.or_eq_true, not_or, Bool.not_eq_true, Bool.not_eq_true] at hinv
    split
    · rfl
    next hnil =>
      rw [Bool.not_eq_true] at hnil
      simp only [hinv.1, hinv.2, hnil, Bool.not_false, Bool.true_and, decide_eq_false_iff_not, Nat.not_le] at hacc
      rw [if_pos hacc]
      rfl

/-- What a frame makes the session say comes after what it has said. -/
theorem Framed.emits {rr : ReadResult} {o : ReadOutcome} (h : Framed cfg vocab nowNs next rr js s o) (json : Bytes)
    (hr : rr.adminRequest = false) :
    (o.replied json).hist.events = s.hist.events ++ (o.replied json).hist.window.events := by
  cases h with
  | admin => rfl
  | unnamed | tooLarge =>
    rw [show ReadOutcome.replied _ json = _ from if_neg (by simp [ReadResult.failed, hr])]
    rfl
  | empty =>
    rw [show ReadOutcome.replied _ json = _ from if_neg (by simp [hr])]
    rfl
  | started =>
    rw [show ReadOutcome.replied _ json = _ from if_neg (by simp [hr])]
    exact (List.append_nil _).symm

/-- **What a request makes of a session**, whatever it has said. -/
theorem Framed.asked {rr : ReadResult} {o : ReadOutcome} (h : Framed cfg vocab nowNs next rr js s o) (json : Bytes)
    (hr : rr.adminRequest = false)
    (href : isAdminRequest js = false → acceptsRequest cfg js = false → o.session.hist.window.events = [refusal js]) :
    Asked cfg vocab js (o.replied json).latest := by
  cases h with
  | admin hadm =>
    have hacc : acceptsRequest cfg js = false := by simp [acceptsRequest, hadm]
    refine ⟨rfl, ?_, fun hb => (by cases hb), fun h => (by rw [hacc] at h; cases h),
      fun _ => ⟨rfl, .metrics json, rfl, ?_⟩⟩
    · rw [hacc]; rfl
    · rw [Refusal, if_pos hadm]; exact ⟨json, rfl⟩
  | @unnamed id code message hadm hname =>
    have hacc : acceptsRequest cfg js = false := by rw [acceptsRequest_eq, hname]; rfl
    rw [show ReadOutcome.replied _ json = _ from if_neg (by simp [ReadResult.failed, hr])]
    refine ⟨rfl, ?_, fun hb => (by cases hb), fun h => (by rw [hacc] at h; cases h),
      fun _ => ⟨rfl, refusal js, href hadm hacc, ?_⟩⟩
    · rw [hacc]; rfl
    · rw [Refusal, if_neg (by simp [hadm])]
  | @tooLarge code message hadm hname hlen =>
    have hacc : acceptsRequest cfg js = false := by
      rw [acceptsRequest_eq, hname, Bool.true_and, decide_eq_false_iff_not]
      omega
    rw [show ReadOutcome.replied _ json = _ from if_neg (by simp [ReadResult.failed, hr])]
    refine ⟨rfl, ?_, fun hb => (by cases hb), fun h => (by rw [hacc] at h; cases h),
      fun _ => ⟨rfl, refusal js, href hadm hacc, ?_⟩⟩
    · rw [hacc]; rfl
    · rw [Refusal, if_neg (by simp [hadm])]
  | empty hname hacc hprompt =>
    rw [show ReadOutcome.replied _ json = _ from if_neg (by simp [hr])]
    refine ⟨rfl, ?_, fun hb => (by cases hb), fun _ => ?_, fun h => (by rw [hacc] at h; cases h)⟩
    · rw [hacc]; rfl
    · change Said vocab (idOf js) false [] [.eos (idOf js) (bytes "stop")]
      exact .empty
  | started hname hacc hprompt =>
    rw [show ReadOutcome.replied _ json = _ from if_neg (by simp [hr])]
    refine ⟨rfl, ?_, fun _ => ⟨rfl, rfl⟩, fun _ => ?_, fun h => (by rw [hacc] at h; cases h)⟩
    · rw [hacc]; rfl
    · change Said vocab (idOf js) true [] []
      exact .going

theorem latest_eq_self (h : s.hist.events = s.hist.window.events) : s.latest = s := by
  rw [ClientSession.latest, ← h]

/-! ## A readable event -/

theorem answering_quiet (pf : Platform) (cfg : RuntimeConfig) (d : Daemon) (fd : Int) (nowNs : Nat)
    (hq : s.parses nowNs reads = false) : d.answering pf cfg fd s nowNs reads = s.received nowNs reads := by
  have hr : Heard cfg pf.vocab nowNs d.mgr.nextSeqId reads s _ := read_heard
  unfold Daemon.answering
  dsimp only
  generalize s.read cfg pf.vocab nowNs d.mgr.nextSeqId reads = o at hr ⊢
  cases hr with
  | quiet _ _ _ hadm => exact if_neg (by simp [hadm])
  | invalid _ hp | frame _ hp => rw [hq] at hp; cases hp

/-- A request is parsed. -/
theorem answering_asked (pf : Platform) (cfg : RuntimeConfig) (d : Daemon) (fd : Int)
    (hf : s.frame? nowNs reads = some js) :
    Asked cfg pf.vocab js (d.answering pf cfg fd s nowNs reads).latest ∧
      (d.answering pf cfg fd s nowNs reads).hist.events =
        s.hist.events ++ (d.answering pf cfg fd s nowNs reads).hist.window.events := by
  have hr : Heard cfg pf.vocab nowNs d.mgr.nextSeqId reads s _ := read_heard
  unfold Daemon.answering
  dsimp only
  generalize s.read cfg pf.vocab nowNs d.mgr.nextSeqId reads = o at hr ⊢
  cases hr with
  | quiet hno | invalid hno => rw [hf] at hno; cases hno
  | @frame rr _ hf' _ _ hadm =>
    cases hf.symm.trans hf'
    obtain ⟨rx, act, rc, -, heq⟩ := s.received_eq nowNs reads
    have hframed := onFrame_framed cfg pf.vocab nowNs d.mgr.nextSeqId rr js
      { s.received nowNs reads with rx := (tryReadFrame (s.received nowNs reads).rx [] defaultMaxFrameBytes).rx }
    refine ⟨hframed.asked _ hadm (onFrame_refusal cfg pf.vocab nowNs d.mgr.nextSeqId _ _),
      (hframed.emits _ hadm).trans ?_⟩
    rw [heq]

/-- An invalid frame is answered with an error. -/
theorem answering_invalid (pf : Platform) (cfg : RuntimeConfig) (d : Daemon) (fd : Int)
    (hf : s.frame? nowNs reads = none) (hp : s.parses nowNs reads = true) :
    ∃ id code message,
      (d.answering pf cfg fd s nowNs reads).hist.window.events = [.error id code message] ∧
      (d.answering pf cfg fd s nowNs reads).hist.events = s.hist.events ++ [.error id code message] ∧
      (d.answering pf cfg fd s nowNs reads).state.busy = false := by
  have hr : Heard cfg pf.vocab nowNs d.mgr.nextSeqId reads s _ := read_heard
  unfold Daemon.answering
  dsimp only
  generalize s.read cfg pf.vocab nowNs d.mgr.nextSeqId reads = o at hr ⊢
  cases hr with
  | quiet _ hq => rw [hp] at hq; cases hq
  | frame hf' => rw [hf] at hf'; cases hf'
  | @invalid _ id code message _ _ hadm =>
    obtain ⟨rx, act, rc, -, heq⟩ := s.received_eq nowNs reads
    rw [show ReadOutcome.replied _ _ = _ from if_neg (by simp [ReadResult.failed, hadm]), heq]
    exact ⟨id, code, message, rfl, rfl, rfl⟩

theorem answering_rx (pf : Platform) (cfg : RuntimeConfig) (d : Daemon) (fd : Int) (s : ClientSession) (nowNs : Nat)
    (reads : List ReadRes) :
    (d.answering pf cfg fd s nowNs reads).rx =
      if readEnd reads = .error then s.rx ++ arrived reads else afterFrame (s.rx ++ arrived reads) := by
  rw [← (read_transport cfg pf.vocab nowNs d.mgr.nextSeqId reads s).1]
  unfold Daemon.answering ReadOutcome.replied
  dsimp only
  split <;> rfl

/-! ## In flight -/

/-- More of the response. -/
theorem Asked.says (h : Asked cfg vocab js s) (hb : s.state.busy = true) (new : List Event) (ts : List Token)
    (hev : s'.hist.events = s.hist.events ++ new) (hw : s'.hist.window.events = s.hist.window.events ++ new)
    (hacc : s'.hist.window.accepted = s.hist.window.accepted)
    (hsam : s'.hist.window.sampled = s.hist.window.sampled ++ ts)
    (hreq : s'.state.busy = true → s'.requestId = s.requestId ∧ s'.promptTokens = s.promptTokens)
    (hsaid : Said vocab (idOf js) s'.state.busy (s.hist.window.sampled ++ ts)
      (s.hist.window.sampled.flatMap (pieceEvents vocab (idOf js)) ++ new)) : Asked cfg vocab js s' := by
  cases haccept : acceptsRequest cfg js with
  | false => rw [(h.refused haccept).1] at hb; cases hb
  | true =>
    have hold := h.said haccept
    rw [hb] at hold
    generalize hes : s.hist.events = es at hold
    cases hold with
    | going =>
      refine ⟨by rw [hev, hw, h.events], hacc.trans h.accepted, fun hb' => ?_, fun _ => ?_, fun hno => ?_⟩
      · rw [(hreq hb').1, (hreq hb').2]
        exact h.request hb
      · rw [hsam, hev, hes]
        exact hsaid
      · rw [haccept] at hno
        cases hno

/-- The piece of one more token. -/
theorem Asked.tells (h : Asked cfg vocab js s) (hb : s.state.busy = true) (t : Token)
    (hev : s'.hist.events = s.hist.events ++ pieceEvents vocab s.requestId t)
    (hw : s'.hist.window.events = s.hist.window.events ++ pieceEvents vocab s.requestId t)
    (hacc : s'.hist.window.accepted = s.hist.window.accepted)
    (hsam : s'.hist.window.sampled = s.hist.window.sampled ++ [t]) (hst : s'.state = .decode)
    (hid : s'.requestId = s.requestId) (hp : s'.promptTokens = s.promptTokens) : Asked cfg vocab js s' := by
  refine h.says hb _ [t] hev hw hacc hsam (fun _ => ⟨hid, hp⟩) ?_
  have hgo : Said vocab (idOf js) true (s.hist.window.sampled ++ [t])
      ((s.hist.window.sampled ++ [t]).flatMap (pieceEvents vocab (idOf js))) := .going
  rw [List.flatMap_append, List.flatMap_singleton] at hgo
  rw [hst, (h.request hb).1]
  exact hgo

/-- **A tick that serves the session** says the piece of the token it
samples, or the end. -/
theorem Asked.served {out : Decoded} {it : BatchItem} {i : Nat} (h : Asked cfg pf.vocab js s)
    (hb : s.state.busy = true) (hserved : Served pf cfg nowNs out s it i s') : Asked cfg pf.vocab js s' := by
  have hid := (h.request hb).1
  have he : Asked cfg pf.vocab js (s.enacted it) :=
    h.still enacted_hist enacted_state enacted_requestId enacted_promptTokens
  have heb : (s.enacted it).state.busy = true := by rw [enacted_state, hb]
  cases hserved with
  | failed =>
    refine he.says heb [.error (s.enacted it).requestId (bytes "E_RUNTIME_DECODE") (bytes "decode failed")] []
      rfl rfl rfl (List.append_nil _).symm (fun hb' => (by cases hb')) ?_
    rw [List.append_nil, enacted_requestId, hid]
    exact .failed
  | noRow => exact he
  | @first row =>
    refine he.tells heb (sampleRow pf out (s.enacted it) i row) ?_ ?_ ?_ ?_ ?_ ?_ ?_
    all_goals rw [prefillSampled_eq]
  | @more row =>
    refine he.tells heb (sampleRow pf out (s.enacted it) i row) ?_ ?_ ?_ ?_ ?_ ?_ ?_
    all_goals rw [decodeSampled_eq]
  | @ended row =>
    refine he.says heb [eosEvent cfg (s.enacted it)] [sampleRow pf out (s.enacted it) i row] rfl rfl rfl rfl
      (fun hb' => (by cases hb')) ?_
    rw [eosEvent, enacted_requestId, hid]
    exact .ended (by split <;> simp)

theorem enacted_latest (s : ClientSession) (it : BatchItem) : (s.enacted it).latest = s.latest.enacted it := by
  unfold ClientSession.enacted
  split <;> rfl

theorem Served.latest {out : Decoded} {it : BatchItem} {i : Nat} (h : Served pf cfg nowNs out s it i s') :
    Served pf cfg nowNs out s.latest it i s'.latest := by
  have hrow : ∀ row, sampleRow pf out (s.enacted it) i row = sampleRow pf out (s.latest.enacted it) i row := by
    intro row
    rw [← enacted_latest]
    rfl
  cases h with
  | failed hrc =>
    have heq : (s.enacted it).decodeFailed.latest = (s.latest.enacted it).decodeFailed := by
      rw [← enacted_latest]
      rfl
    rw [heq]
    exact .failed hrc
  | noRow hrc hr =>
    rw [enacted_latest]
    exact .noRow hrc hr
  | @first row hrc hr hph =>
    have heq : ((s.enacted it).prefillSampled pf.vocab nowNs (sampleRow pf out (s.enacted it) i row)).latest =
        (s.latest.enacted it).prefillSampled pf.vocab nowNs (sampleRow pf out (s.latest.enacted it) i row) := by
      rw [← hrow, ← enacted_latest, prefillSampled_eq, prefillSampled_eq]
      rfl
    rw [heq]
    exact .first hrc hr hph
  | @ended row hrc hr hph hend =>
    have heq : ((s.enacted it).finish cfg nowNs (sampleRow pf out (s.enacted it) i row)).latest =
        (s.latest.enacted it).finish cfg nowNs (sampleRow pf out (s.latest.enacted it) i row) := by
      rw [← hrow, ← enacted_latest]
      rfl
    rw [heq]
    refine .ended hrc hr hph ?_
    rw [← hrow, ← enacted_latest]
    exact hend
  | @more row hrc hr hph hend =>
    have heq : ((s.enacted it).decodeSampled pf.vocab nowNs (sampleRow pf out (s.enacted it) i row)).latest =
        (s.latest.enacted it).decodeSampled pf.vocab nowNs (sampleRow pf out (s.latest.enacted it) i row) := by
      rw [← hrow, ← enacted_latest, decodeSampled_eq, decodeSampled_eq]
      rfl
    rw [heq]
    refine .more hrc hr hph ?_
    rw [← hrow, ← enacted_latest]
    exact hend

end Exchange
end UmaServe
