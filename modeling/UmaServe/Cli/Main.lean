/-
`cli/main.cpp`, the client: the request it writes, and how it takes a string
out of an event. The socket path only chooses the server and is left out; the
optional numbers are what `atoi` and `atof` made of the arguments.
-/
import UmaServe.Ipc.Json
import UmaServe.Ipc.Protocol

namespace UmaServe

/-- Millionths, rounded to nearest, ties to even. -/
def micros (q : ℚ≥0) : Nat :=
  let n := q.num * 10 ^ 6 / q.den
  let r := q.num * 10 ^ 6 % q.den
  if 2 * r < q.den ∨ 2 * r = q.den ∧ n % 2 = 0 then n else n + 1

def decimal (n : Nat) : Bytes := (Nat.toDigits 10 n).map chr

/-- The six digits of a fraction. -/
def fraction (n : Nat) : Bytes := List.replicate (6 - (decimal n).length) (chr '0') ++ decimal n

/-- `std::to_string` of a `double`: the text of `%f`. -/
def stdToStringF (d : Double) : Bytes :=
  let sign neg := if neg then [chr '-'] else []
  match d with
  | .finite neg q => sign neg ++ decimal (micros q / 10 ^ 6) ++ chr '.' :: fraction (micros q % 10 ^ 6)
  | .inf neg => sign neg ++ bytes "inf"
  | .nan neg => sign neg ++ bytes "nan"

structure CliOptions where
  id : Bytes := []
  prompt : Bytes := []
  maxTokens : Int := -1
  temperature : Double := .finite false 0
  topP : Double := .finite false 1
  hasTemperature : Bool := false
  hasTopP : Bool := false
  stream : Bool := true
  metrics : Bool := false

namespace CliOptions

/-- The request JSON. -/
def payload (opt : CliOptions) : Bytes :=
  if opt.metrics then bytes "\x7b\"type\":\"metrics\"\x7d"
  else
    bytes "\x7b\"id\":\"" ++ jsonEscape opt.id ++ bytes "\"," ++
      (bytes "\"prompt\":\"" ++ jsonEscape opt.prompt ++ bytes "\",") ++
      (bytes "\"stream\":" ++ if opt.stream then bytes "true" else bytes "false") ++
      (if 0 < opt.maxTokens then bytes ",\"max_tokens\":" ++ stdToString opt.maxTokens else []) ++
      (if opt.hasTemperature then bytes ",\"temperature\":" ++ stdToStringF opt.temperature else []) ++
      (if opt.hasTopP then bytes ",\"top_p\":" ++ stdToStringF opt.topP else []) ++
      bytes "\x7d"

/-- The bytes `main` sends; none when it stops for want of a prompt.
`defaultId` is what `gen_default_id` returns. -/
def sent (opt : CliOptions) (defaultId : Bytes) : Option Bytes :=
  if !opt.metrics && opt.prompt.isEmpty then none
  else
    let opt := if opt.id.isEmpty then { opt with id := defaultId } else opt
    some (writeFrame [] opt.payload)

end CliOptions

/-! ## Events -/

/-- The `switch` on the character behind a backslash. -/
def unescape (e : UInt8) : UInt8 :=
  if e = chr '"' then chr '"'
  else if e = chr '\\' then chr '\\'
  else if e = chr 'n' then chr '\n'
  else if e = chr 'r' then chr '\r'
  else if e = chr 't' then chr '\t'
  else e

/-- The loop of `json_get_string` from after the opening quote. -/
def getString (out : Bytes) : Bytes → Bytes
  | [] => out
  | c :: rest =>
    if c = chr '\\' then
      match rest with
      | [] => out
      | e :: rest => getString (out ++ [unescape e]) rest
    else if c = chr '"' then out
    else getString (out ++ [c]) rest

/-- `json_get_string`. -/
def jsonGetString (j key : Bytes) : Bytes :=
  match findFrom (quoted key) j 0 with
  | none => []
  | some p =>
    match findFrom [chr ':'] j p with
    | none => []
    | some colon =>
      match findFrom [chr '"'] j colon with
      | none => []
      | some q₁ => getString [] (j.drop (q₁ + 1))

end UmaServe
