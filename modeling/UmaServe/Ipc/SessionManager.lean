/-
`ipc/session_manager.cpp`. `close` is in `UmaServe.Umad.Main`, with the
poller and the sequence memory it also changes.

What `::read` returns is an argument of `onReadable`: the results of the
successive calls, in order. `ClientSession.read` is the body of
`SessionManager::on_readable` on the session found.
-/
import UmaServe.Lib.Keyed
import UmaServe.Ipc.Json
import UmaServe.Ipc.Session
import UmaServe.Runtime.Config

namespace UmaServe

structure SessionManager where
  sessions : SessionPool := ∅
  nextSeqId : Int := 1

/-- `add_client`. Where the map puts the new entry, and how it reorders the
others when it grows, is the environment's choice (`order`). -/
def SessionManager.addClient (m : SessionManager) (fd : Int) (order : List Int) (nowNs : Nat) : SessionManager :=
  { m with sessions := (m.sessions.insert fd { fd, lastActivityNs := nowNs }).arrange order }

/-- One result of `::read`. A positive count brings at least one byte. -/
inductive ReadRes
  | data (b : UInt8) (bs : Bytes)
  | eof
  | wouldBlock
  | error

/-- How the drain loop ends. -/
inductive ReadEnd
  | eof | wouldBlock | error
  deriving DecidableEq

structure ReadResult where
  wantsWrite : Bool := false
  removedRead : Bool := false
  adminRequest : Bool := false
  deriving DecidableEq

namespace ClientSession

/-- The drain loop of `on_readable`. -/
def drain (nowNs : Nat) (s : ClientSession) : List ReadRes → ClientSession × ReadEnd
  | .data b bs :: rest => drain nowNs { s with rx := s.rx ++ b :: bs, lastActivityNs := nowNs } rest
  | .eof :: _ => (s, .eof)
  | .error :: _ => (s, .error)
  | .wouldBlock :: _ | [] => (s, .wouldBlock)

/-- The common tail of every error reply. -/
def fail (s : ClientSession) (id code message : Bytes) : ClientSession :=
  { s.emit (.error id code message) with state := .stream, readClosed := true }

/-- The optional sampling preferences of a request. -/
def setSampling (s : ClientSession) (js : Bytes) : ClientSession :=
  { s with
    temperature := (extractJsonNumber js (bytes "temperature")).getD s.temperature
    topP := (extractJsonNumber js (bytes "top_p")).getD s.topP
    topK := ((extractJsonNumber js (bytes "top_k")).map truncInt).getD s.topK }

/-- The assignments that start a request: the session in `PREFILL` on `toks`,
with sequence `seq`. -/
def start (s : ClientSession) (cfg : RuntimeConfig) (nowNs : Nat) (toks : List Token) (seq : Int) :
    ClientSession :=
  { s with
    promptTokens := toks
    prefillIdx := 0
    generatedCount := 0
    hasPendingTok := false
    nPast := 0
    reqStartNs := nowNs
    firstEmitNs := 0
    lastEmitNs := 0
    slo := { targetTtftMs := cfg.sloTtftMs, targetTbtMs := cfg.sloTbtMs }
    seq := seq
    state := .prefill }

end ClientSession

/-- `{"type":"metrics"}` or `{"event":"metrics"}`. -/
def isAdminRequest (js : Bytes) : Bool :=
  let typ := extractJsonString js (bytes "type")
  let evt := extractJsonString js (bytes "event")
  (!typ.2 && typ.1 = bytes "metrics") || (!evt.2 && evt.1 = bytes "metrics")

/-- The session, the next sequence id and the result after a readable event. -/
structure ReadOutcome where
  session : ClientSession
  nextSeqId : Int
  rr : ReadResult

/-- The flags of every error reply. -/
def ReadResult.failed (rr : ReadResult) : ReadResult := { rr with wantsWrite := true, removedRead := true }

namespace ClientSession

/-- The part of `on_readable` after a frame `js` was taken from `rx`. -/
def onFrame (s : ClientSession) (cfg : RuntimeConfig) (vocab : Vocab) (nowNs : Nat) (next : Int) (rr : ReadResult)
    (js : Bytes) : ReadOutcome :=
  let s := s.openWindow
  if isAdminRequest js then
    ⟨{ s with state := .stream, readClosed := true }, next,
      { wantsWrite := true, removedRead := true, adminRequest := true }⟩
  else
    let (reqId, idInvalid) := extractJsonString js (bytes "id")
    let (prompt, promptInvalid) := extractJsonString js (bytes "prompt")
    if idInvalid || promptInvalid then
      ⟨s.fail reqId (bytes "E_PROTO_001") (bytes "invalid utf-8"), next, rr.failed⟩
    else if prompt.isEmpty then
      ⟨s.fail reqId (bytes "E_PROTO_BAD_REQUEST") (bytes "missing or invalid prompt"), next, rr.failed⟩
    else
      let s := { s with requestId := reqId }
      let s := s.setSampling js
      if cfg.maxPromptBytes < prompt.length then
        ⟨s.fail s.requestId (bytes "E_LIMIT_001") (bytes "prompt too large"), next, rr.failed⟩
      else
        let s := s.acceptWindow
        let s := { s with promptTokens := [] }
        let toks := tokenize vocab prompt true true
        if toks.isEmpty then
          -- an empty tokenisation keeps the connection open for reuse
          ⟨{ s with state := .stream }.emit (.eos s.requestId (bytes "stop")), next, { rr with wantsWrite := true }⟩
        else if s.seq < (0 : Int) then ⟨s.start cfg nowNs toks next, next + 1, rr⟩
        else ⟨s.start cfg nowNs toks s.seq, next, rr⟩

/-- `SessionManager::on_readable` on the session found. -/
def read (s : ClientSession) (cfg : RuntimeConfig) (vocab : Vocab) (nowNs : Nat) (next : Int)
    (reads : List ReadRes) : ReadOutcome :=
  let (s, fin) := s.drain nowNs reads
  if fin = .error then ⟨s, next, { removedRead := true }⟩
  else
    let s := if fin = .eof then { s with readClosed := true, lastActivityNs := nowNs } else s
    let rr : ReadResult := { removedRead := fin = .eof }
    let fr := tryReadFrame s.rx [] defaultMaxFrameBytes
    if fr.ok then { s with rx := fr.rx }.onFrame cfg vocab nowNs next rr fr.outJson
    else
      match fr.errMsg with
      | none => ⟨s, next, rr⟩
      | some err =>
        let code := if (find (bytes "invalid frame length 0") err).isSome then bytes "E_PROTO_INVALID_LEN"
          else bytes "E_PROTO_FRAME_TOO_LARGE"
        ⟨s.openWindow.fail s.requestId code err, next, rr.failed⟩

end ClientSession

/-- `SessionManager::on_readable`. -/
def SessionManager.onReadable (m : SessionManager) (fd : Int) (cfg : RuntimeConfig) (vocab : Vocab) (nowNs : Nat)
    (reads : List ReadRes) : SessionManager × ReadResult :=
  match m.sessions.lookup fd with
  | none => (m, {})
  | some s =>
    let o := s.read cfg vocab nowNs m.nextSeqId reads
    ({ sessions := m.sessions.replace fd o.session, nextSeqId := o.nextSeqId }, o.rr)

end UmaServe
