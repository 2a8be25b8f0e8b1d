/-
The two extractors `SessionManager::on_readable` defines for the fields of a
request: a substring search for the quoted key, the next colon, and a
hand-written scanner from there.
-/
import UmaServe.Util.Double

namespace UmaServe

/-- The key as it is searched for. -/
def quoted (key : Bytes) : Bytes := chr '"' :: key ++ [chr '"']

def isHex (c : UInt8) : Bool :=
  (chr '0' ≤ c && c ≤ chr '9') || (chr 'a' ≤ c && c ≤ chr 'f') || (chr 'A' ≤ c && c ≤ chr 'F')

/-- What a one-character escape denotes; `u` is not one of them. -/
def simpleEscape (e : UInt8) : Option UInt8 :=
  if e = chr '"' then some (chr '"')
  else if e = chr '\\' then some (chr '\\')
  else if e = chr '/' then some (chr '/')
  else if e = chr 'b' then some 8
  else if e = chr 'f' then some 12
  else if e = chr 'n' then some (chr '\n')
  else if e = chr 'r' then some (chr '\r')
  else if e = chr 't' then some (chr '\t')
  else none

/-- The scan of a string body from after its opening quote: the text so far
and the `invalid_escape` flag. A `\u` escape gives the placeholder `?`, and
running off the end of the payload ends the string. -/
def scanString (out : Bytes) : Bytes → Bytes × Bool
  | [] => (out, false)
  | c :: rest =>
    if c = chr '\\' then
      match rest with
      | [] => (out, true)
      | e :: rest =>
        if e = chr 'u' then
          match rest with
          | h₁ :: h₂ :: h₃ :: h₄ :: rest =>
            if isHex h₁ && isHex h₂ && isHex h₃ && isHex h₄ then scanString (out ++ [chr '?']) rest
            else (out, true)
          | _ => (out, true)
        else
          match simpleEscape e with
          | some b => scanString (out ++ [b]) rest
          | none => (out, true)
    else if c = chr '"' then (out, false)
    else if c < 0x20 then (out, true)
    else scanString (out ++ [c]) rest

/-- `extract_json_string`: the text and the `invalid_escape` flag. -/
def extractJsonString (j key : Bytes) : Bytes × Bool :=
  match findFrom (quoted key) j 0 with
  | none => ([], false)
  | some kpos =>
    match findFrom [chr ':'] j kpos with
    | none => ([], false)
    | some colon =>
      match findFrom [chr '"'] j colon with
      | none => ([], false)
      | some q₁ => scanString [] (j.drop (q₁ + 1))

def isJsonSpace (c : UInt8) : Bool := c = chr ' ' || c = chr '\t' || c = chr '\n' || c = chr '\r'

def isNumberChar (c : UInt8) : Bool :=
  Lib.isDigit c || c = chr '-' || c = chr '+' || c = chr 'e' || c = chr 'E' || c = chr '.'

/-- `extract_json_number`: the value when `found`. -/
def extractJsonNumber (j key : Bytes) : Option Double :=
  match findFrom (quoted key) j 0 with
  | none => none
  | some p =>
    match findFrom [chr ':'] j p with
    | none => none
    | some colon =>
      let num := ((j.drop (colon + 1)).dropWhile isJsonSpace).takeWhile isNumberChar
      if num.isEmpty then none else strtod num

end UmaServe
