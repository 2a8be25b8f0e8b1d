/-
`ipc/session.h`: one client connection. `ClientSession.hist` is not in the
source: it is history, written by the steps and read by none of them, for
the results that speak of what was appended or sampled earlier.
-/
import Mathlib.Data.List.AList
import UmaServe.Ipc.Protocol
import UmaServe.Runtime.Llama
import UmaServe.Util.Double

namespace UmaServe

inductive SessionState
  | recvReq | prefill | decode | stream | done | errored
  deriving DecidableEq, Repr

/-- A request is in flight. -/
def SessionState.busy : SessionState → Bool
  | .prefill | .decode => true
  | _ => false

structure UmaSlo where
  targetTtftMs : Nat := 150
  targetTbtMs : Nat := 80
  deriving DecidableEq

/-- What happened since the last complete or invalid frame was parsed. -/
structure Window where
  /-- The id of the generation request, when that frame was an accepted one. -/
  accepted : Option Bytes := none
  /-- The events appended to `tx`. -/
  events : List Event := []
  /-- The prefix of the prompt fed before the first sample. -/
  fed : List Token := []
  /-- The tokens sampled. -/
  sampled : List Token := []
  deriving DecidableEq

structure History where
  /-- Every event appended to `tx` since the session was created. -/
  events : List Event := []
  window : Window := {}
  deriving DecidableEq

structure ClientSession where
  fd : Int := -1
  rx : Bytes := []
  tx : Bytes := []
  /-- Assigned on the first request. -/
  seq : Int := -1
  state : SessionState := .recvReq
  promptTokens : List Token := []
  /-- Next index into `promptTokens`. -/
  prefillIdx : Nat := 0
  /-- `pendingTok` will be appended next tick. -/
  hasPendingTok : Bool := false
  pendingTok : Token := 0
  /-- Number of tokens already in the sequence. -/
  nPast : Int := 0
  generatedCount : Nat := 0
  lastActivityNs : Nat := 0
  /-- The peer sent EOF on the read side. -/
  readClosed : Bool := false
  lastError : Bytes := []
  slo : UmaSlo := {}
  reqStartNs : Nat := 0
  firstEmitNs : Nat := 0
  lastEmitNs : Nat := 0
  temperature : Double := .ofScientific false 8 (-1)
  topP : Double := .ofScientific false 95 (-2)
  topK : Int := 0
  requestId : Bytes := []
  hist : History := {}
  deriving DecidableEq

/-- `std::unordered_map<int, std::unique_ptr<ClientSession>>`, its entries in
iteration order. -/
abbrev SessionPool := AList fun _ : Int => ClientSession

namespace ClientSession

/-- Append an event to `tx`. -/
def emit (s : ClientSession) (e : Event) : ClientSession :=
  { s with
    tx := e.append s.tx
    hist := { events := s.hist.events ++ [e]
              window := { s.hist.window with events := s.hist.window.events ++ [e] } } }

/-- A complete or invalid frame was parsed: history only. -/
def openWindow (s : ClientSession) : ClientSession := { s with hist := { s.hist with window := {} } }

/-- The request in the frame was accepted: history only. -/
def acceptWindow (s : ClientSession) : ClientSession :=
  { s with hist := { s.hist with window := { s.hist.window with accepted := some s.requestId } } }

/-- A token was sampled: history only. -/
def noteSample (s : ClientSession) (t : Token) : ClientSession :=
  { s with hist := { s.hist with window := { s.hist.window with sampled := s.hist.window.sampled ++ [t] } } }

/-- The first token was sampled: history only. -/
def noteFed (s : ClientSession) : ClientSession :=
  { s with hist := { s.hist with window := { s.hist.window with fed := s.promptTokens.take s.prefillIdx } } }

/-- The readiness tests of the policy and of the main loop. -/
def decodeReady (s : ClientSession) : Bool := s.state = .decode && s.hasPendingTok

def prefillReady (s : ClientSession) : Bool := s.state = .prefill && s.prefillIdx < s.promptTokens.length

end ClientSession
end UmaServe
