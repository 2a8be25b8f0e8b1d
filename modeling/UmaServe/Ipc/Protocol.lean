/-
`ipc/protocol.cpp`: length-prefixed frames and the event payloads.
-/
import UmaServe.Bytes

namespace UmaServe

/-- `kDefaultMaxFrameBytes`. -/
def defaultMaxFrameBytes : Nat := 1 * 1024 * 1024

/-- `read_u32_le`. -/
def readU32Le (p₀ p₁ p₂ p₃ : UInt8) : UInt32 :=
  p₀.toUInt32 ||| (p₁.toUInt32 <<< 8) ||| (p₂.toUInt32 <<< 16) ||| (p₃.toUInt32 <<< 24)

/-- What `try_read_frame` returns and leaves in its reference arguments.
`errMsg` is what it assigned to `*err_msg`, if it did. -/
structure FrameRead where
  ok : Bool
  rx : Bytes
  outJson : Bytes
  errMsg : Option Bytes
  deriving DecidableEq

def tryReadFrame (rx outJson : Bytes) (maxFrameBytes : Nat) : FrameRead :=
  match rx with
  | p₀ :: p₁ :: p₂ :: p₃ :: body =>
    let len := (readU32Le p₀ p₁ p₂ p₃).toNat
    if len = 0 then ⟨false, rx, outJson, some (bytes "invalid frame length 0")⟩
    else if maxFrameBytes < len then ⟨false, rx, outJson, some (bytes "frame too large")⟩
    else if rx.length < 4 + len then ⟨false, rx, outJson, none⟩
    else ⟨true, body.drop len, body.take len, none⟩
  | _ => ⟨false, rx, outJson, none⟩

/-- The four header bytes of `write_frame`. -/
def header (len : UInt32) : Bytes :=
  [(len &&& 0xFF).toUInt8, ((len >>> 8) &&& 0xFF).toUInt8, ((len >>> 16) &&& 0xFF).toUInt8,
    ((len >>> 24) &&& 0xFF).toUInt8]

def writeFrame (tx json : Bytes) : Bytes := tx ++ header json.length.toUInt32 ++ json

/-! ## JSON text -/

/-- A digit of `%04x`. -/
def hexDigit (n : Nat) : UInt8 := if n < 10 then (48 + n).toUInt8 else (87 + n).toUInt8

/-- `"\\u%04x"` of a byte. -/
def uEscape (c : UInt8) : Bytes := bytes "\\u00" ++ [hexDigit (c.toNat / 16), hexDigit (c.toNat % 16)]

/-- One turn of the loop of `json_escape`. -/
def escapeByte (c : UInt8) : Bytes :=
  if c = chr '"' then bytes "\\\""
  else if c = chr '\\' then bytes "\\\\"
  else if c = chr '\n' then bytes "\\n"
  else if c = chr '\r' then bytes "\\r"
  else if c = chr '\t' then bytes "\\t"
  else if c < 0x20 then uEscape c
  else [c]

def jsonEscape (s : Bytes) : Bytes := s.flatMap escapeByte

def appendTokenEvent (tx id text : Bytes) (tokenId : Int) : Bytes :=
  writeFrame tx (bytes "\x7b\"id\":\"" ++ jsonEscape id ++ bytes "\"," ++ bytes "\"event\":\"token\"," ++
    bytes "\"text\":\"" ++ jsonEscape text ++ bytes "\"," ++ bytes "\"token_id\":" ++ stdToString tokenId ++
    bytes "\x7d")

def appendEosEvent (tx id reason : Bytes) : Bytes :=
  writeFrame tx (bytes "\x7b\"id\":\"" ++ jsonEscape id ++ bytes "\",\"event\":\"eos\",\"reason\":\"" ++
    jsonEscape reason ++ bytes "\"\x7d")

def appendErrorEvent (tx id code message : Bytes) : Bytes :=
  writeFrame tx (bytes "\x7b\"id\":\"" ++ jsonEscape id ++ bytes "\",\"event\":\"error\"," ++ bytes "\"code\":\"" ++
    jsonEscape code ++ bytes "\",\"message\":\"" ++ jsonEscape message ++ bytes "\"\x7d")

/-! ## Events

The event a frame stands for. The daemon builds frames only through the
functions above and, for metrics, `write_frame` itself; `Event.append` is
that call. -/

inductive Event
  | token (id text : Bytes) (tokenId : Int)
  | eos (id reason : Bytes)
  | error (id code message : Bytes)
  | metrics (json : Bytes)
  deriving DecidableEq

def Event.append (tx : Bytes) : Event → Bytes
  | .token id text tokenId => appendTokenEvent tx id text tokenId
  | .eos id reason => appendEosEvent tx id reason
  | .error id code message => appendErrorEvent tx id code message
  | .metrics json => writeFrame tx (bytes "\x7b\"event\":\"metrics\",\"metrics\":" ++ json ++ bytes "\x7d")

/-- An end of a response. -/
def Event.terminal : Event → Bool
  | .eos _ _ | .error _ _ _ => true
  | .token _ _ _ | .metrics _ => false

def Event.isError : Event → Bool
  | .error _ _ _ => true
  | _ => false

def Event.isToken : Event → Bool
  | .token _ _ _ => true
  | _ => false

/-- The request id an event carries. -/
def Event.id? : Event → Option Bytes
  | .token id _ _ | .eos id _ | .error id _ _ => some id
  | .metrics _ => none

theorem append_ne_nil (tx : Bytes) (e : Event) : e.append tx ≠ [] := by
  cases e <;> simp [Event.append, appendTokenEvent, appendEosEvent, appendErrorEvent, writeFrame, header]

end UmaServe
