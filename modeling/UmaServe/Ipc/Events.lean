/-
The payloads of the events: what `append_token_event` and its siblings frame,
string by string.
-/
import UmaServe.Lib.JsonParse
import UmaServe.Ipc.Strings
import UmaServe.Util.Utf8

namespace UmaServe

/-- The payload `append_token_event` frames. -/
def tokenPayload (id text : Bytes) (tokenId : Int) : Bytes :=
  bytes "\x7b\"id\":\"" ++ jsonEscape id ++ bytes "\"," ++ bytes "\"event\":\"token\"," ++
    bytes "\"text\":\"" ++ jsonEscape text ++ bytes "\"," ++ bytes "\"token_id\":" ++ stdToString tokenId ++
    bytes "\x7d"

/-- The payload `append_eos_event` frames. -/
def eosPayload (id reason : Bytes) : Bytes :=
  bytes "\x7b\"id\":\"" ++ jsonEscape id ++ bytes "\",\"event\":\"eos\",\"reason\":\"" ++ jsonEscape reason ++
    bytes "\"\x7d"

/-- The payload `append_error_event` frames. -/
def errorPayload (id code message : Bytes) : Bytes :=
  bytes "\x7b\"id\":\"" ++ jsonEscape id ++ bytes "\",\"event\":\"error\"," ++ bytes "\"code\":\"" ++
    jsonEscape code ++ bytes "\",\"message\":\"" ++ jsonEscape message ++ bytes "\"\x7d"

/-- The metrics reply. -/
def metricsPayload (json : Bytes) : Bytes := bytes "\x7b\"event\":\"metrics\",\"metrics\":" ++ json ++ bytes "\x7d"

def Event.payload : Event → Bytes
  | .token id text tokenId => tokenPayload id text tokenId
  | .eos id reason => eosPayload id reason
  | .error id code message => errorPayload id code message
  | .metrics json => metricsPayload json

section Events

variable {tx id text reason code message json : Bytes} {tokenId : Int}

/-! ### String by string -/

theorem bytes_open : bytes "\x7b\"id\":\"" =
    chr '\x7b' :: chr '"' :: jsonEscape (bytes "id") ++ [chr '"', chr ':', chr '"'] := by with_unfolding_all decide

theorem bytes_close : bytes "\"\x7d" = [chr '"', chr '\x7d'] := by with_unfolding_all decide

theorem tokenPayload_eq : tokenPayload id text tokenId =
    chr '\x7b' :: fields [(bytes "id", [chr ':']), (id, [chr ',']), (bytes "event", [chr ':']),
      (bytes "token", [chr ',']), (bytes "text", [chr ':']), (text, [chr ',']),
      (bytes "token_id", chr ':' :: stdToString tokenId ++ [chr '\x7d'])] := by
  have hcomma : bytes "\"," = [chr '"', chr ','] := by with_unfolding_all decide
  have hevent : bytes "\"event\":\"token\"," = chr '"' :: jsonEscape (bytes "event") ++
      chr '"' :: chr ':' :: chr '"' :: jsonEscape (bytes "token") ++ [chr '"', chr ','] := by with_unfolding_all decide
  have htext : bytes "\"text\":\"" = chr '"' :: jsonEscape (bytes "text") ++ [chr '"', chr ':', chr '"'] := by
    with_unfolding_all decide
  have htok : bytes "\"token_id\":" = chr '"' :: jsonEscape (bytes "token_id") ++ [chr '"', chr ':'] := by
    with_unfolding_all decide
  have hclose : bytes "\x7d" = [chr '\x7d'] := by with_unfolding_all decide
  rw [tokenPayload, bytes_open, hcomma, hevent, htext, htok, hclose]
  simp [fields]

theorem eosPayload_eq : eosPayload id reason =
    chr '\x7b' :: fields [(bytes "id", [chr ':']), (id, [chr ',']), (bytes "event", [chr ':']),
      (bytes "eos", [chr ',']), (bytes "reason", [chr ':']), (reason, [chr '\x7d'])] := by
  have hevent : bytes "\",\"event\":\"eos\",\"reason\":\"" = chr '"' :: chr ',' :: chr '"' ::
      jsonEscape (bytes "event") ++ chr '"' :: chr ':' :: chr '"' :: jsonEscape (bytes "eos") ++
      chr '"' :: chr ',' :: chr '"' :: jsonEscape (bytes "reason") ++ [chr '"', chr ':', chr '"'] := by
    with_unfolding_all decide
  rw [eosPayload, bytes_open, hevent, bytes_close]
  simp [fields]

theorem errorPayload_eq : errorPayload id code message =
    chr '\x7b' :: fields [(bytes "id", [chr ':']), (id, [chr ',']), (bytes "event", [chr ':']),
      (bytes "error", [chr ',']), (bytes "code", [chr ':']), (code, [chr ',']),
      (bytes "message", [chr ':']), (message, [chr '\x7d'])] := by
  have hevent : bytes "\",\"event\":\"error\"," = chr '"' :: chr ',' :: chr '"' :: jsonEscape (bytes "event") ++
      chr '"' :: chr ':' :: chr '"' :: jsonEscape (bytes "error") ++ [chr '"', chr ','] := by with_unfolding_all decide
  have hcode : bytes "\"code\":\"" = chr '"' :: jsonEscape (bytes "code") ++ [chr '"', chr ':', chr '"'] := by
    with_unfolding_all decide
  have hmessage : bytes "\",\"message\":\"" = chr '"' :: chr ',' :: chr '"' :: jsonEscape (bytes "message") ++
      [chr '"', chr ':', chr '"'] := by with_unfolding_all decide
  rw [errorPayload, bytes_open, hevent, hcode, hmessage, bytes_close]
  simp [fields]

end Events

/-! ## The events as JSON -/

open Lib.Json (Value ascii)

section Parse

variable {s k v r : Bytes} {n : Nat} {i : Int} {l : List (Bytes × Bytes)}

theorem escapeItems_valid (s : Bytes) : ∀ i ∈ s.map escapeItem, i.valid = true := by
  intro i hi
  obtain ⟨c, -, rfl⟩ := List.mem_map.mp hi
  exact escapeItem_valid c

theorem hexValue_hexDigit : ∀ n < 16, Lib.Json.hexValue (hexDigit n) = n := by decide

theorem decode_control {c : UInt8} (hc : c < 0x20) (items : List Lib.Json.Item) :
    Lib.Json.decode (.unicode (chr '0') (chr '0') (hexDigit (c.toNat / 16)) (hexDigit (c.toNat % 16)) :: items) =
      (Lib.Json.decode items).map (c :: ·) := by
  have henc : ∀ n < 32, String.utf8EncodeChar (Char.ofNat n) = [n.toUInt8] := by decide
  have hlt : c.toNat < 32 := UInt8.lt_iff_toNat_lt.mp hc
  have hunit : Lib.Json.codeUnit (chr '0') (chr '0') (hexDigit (c.toNat / 16)) (hexDigit (c.toNat % 16)) =
      c.toNat := by
    rw [Lib.Json.codeUnit, hexValue_hexDigit _ (by omega), hexValue_hexDigit _ (by omega),
      show Lib.Json.hexValue (chr '0') = 0 by decide]
    omega
  have hhigh : Lib.Json.isHighSurrogate c.toNat = false := by
    rw [Lib.Json.isHighSurrogate, decide_eq_false (by omega), Bool.false_and]
  have hlow : Lib.Json.isLowSurrogate c.toNat = false := by
    rw [Lib.Json.isLowSurrogate, decide_eq_false (by omega), Bool.false_and]
  have hself : c.toNat.toUInt8 = c := UInt8.ofNat_toNat
  rw [Lib.Json.decode.eq_def]
  simp only [hunit, hhigh, hlow, henc _ hlt, hself, Bool.false_eq_true, if_false, List.singleton_append]

theorem decode_escape {e b : UInt8} (h : Lib.Json.escapeOf e = some b) (items : List Lib.Json.Item) :
    Lib.Json.decode (.escape e :: items) = (Lib.Json.decode items).map (b :: ·) := by
  rw [Lib.Json.decode, h, Option.bind_eq_bind, Option.bind_some]
  cases Lib.Json.decode items <;> rfl

theorem decode_escapeItem (c : UInt8) (items : List Lib.Json.Item) :
    Lib.Json.decode (escapeItem c :: items) = (Lib.Json.decode items).map (c :: ·) := by
  unfold escapeItem
  split
  next h => exact decode_escape (by rw [h]; decide) items
  split
  next h => exact decode_escape (by rw [h]; decide) items
  split
  next h => exact decode_escape (by rw [h]; decide) items
  split
  next h => exact decode_escape (by rw [h]; decide) items
  split
  next h => exact decode_escape (by rw [h]; decide) items
  split
  next h => exact decode_control h items
  next => rfl

/-- **An escaped string** denotes the bytes that were escaped. -/
theorem decode_escapeItems (s : Bytes) : Lib.Json.decode (s.map escapeItem) = some s := by
  induction s with
  | nil => rfl
  | cons c s ih => rw [List.map_cons, decode_escapeItem, ih, Option.map_some]

theorem string_escapeItems (s : Bytes) :
    Lib.Json.string (s.map escapeItem) = chr '"' :: jsonEscape s ++ [chr '"'] := by
  rw [jsonEscape_eq]
  rfl

/-! ### Numbers -/

theorem isDigit_chr {c : Char} (h : c.isDigit = true) : Lib.isDigit (chr c) = true := by
  obtain ⟨h₀, h₉⟩ : 48 ≤ c.toNat ∧ c.toNat ≤ 57 := Char.isDigit_iff_toNat.mp h
  have hbyte : (chr c).toNat = c.toNat := Nat.mod_eq_of_lt (by omega)
  simp only [Lib.isDigit, Bool.and_eq_true, decide_eq_true_eq, UInt8.le_iff_toNat_le, hbyte]
  exact ⟨h₀, h₉⟩

theorem natOf_map_chr {ds : List Char} (h : ∀ c ∈ ds, c.isDigit = true) (n : Nat) :
    (ds.map chr).foldl (fun n c => 10 * n + (c.toNat - 48)) n = Nat.ofDigitChars 10 ds n := by
  induction ds generalizing n with
  | nil => rfl
  | cons c ds ih =>
    obtain ⟨hc, h⟩ := List.forall_mem_cons.mp h
    obtain ⟨-, h₉⟩ : 48 ≤ c.toNat ∧ c.toNat ≤ 57 := Char.isDigit_iff_toNat.mp hc
    have hbyte : (chr c).toNat = c.toNat := Nat.mod_eq_of_lt (by omega)
    rw [List.map_cons, List.foldl_cons, ih h, Nat.ofDigitChars_cons, hbyte]
    rfl

theorem toDigits_head {n : Nat} (h : (Nat.toDigits 10 n).head? = some '0') : n = 0 := by
  induction n using Nat.strong_induction_on with
  | h n ih =>
    by_cases hlt : n < 10
    · have hsmall : ∀ n < 10, [Nat.digitChar n].head? = some '0' → n = 0 := by decide
      rw [Nat.toDigits_of_lt_base hlt] at h
      exact hsmall n hlt h
    · rw [Nat.toDigits_of_base_le (by decide) (by omega), List.head?_append_of_ne_nil _ Nat.toDigits_ne_nil] at h
      have := ih (n / 10) (by omega) h
      omega

theorem unsigned_toDigits (n : Nat) (hr : ∀ c ∈ r.head?, Lib.isDigit c = false ∧ c ≠ ascii '.' ∧
    c ≠ ascii 'e' ∧ c ≠ ascii 'E') :
    Lib.Json.Parse.unsigned ((Nat.toDigits 10 n).map chr ++ r) = some ((n : ℚ), r) := by
  have hdig : ∀ c ∈ Nat.toDigits 10 n, c.isDigit = true := fun c hc =>
    Nat.isDigit_of_mem_toDigits (by decide) (by decide) hc
  have hval : Lib.natOf ((Nat.toDigits 10 n).map chr) = n := by
    rw [Lib.natOf, natOf_map_chr hdig, Nat.ofDigitChars_ten_toDigits]
  rw [Lib.Json.Parse.unsigned_nat ?_ ?_ ?_ hr, hval]
  · intro d hd
    obtain ⟨c, hc, rfl⟩ := List.mem_map.mp hd
    exact isDigit_chr (hdig c hc)
  · simp
  · intro hzero
    rw [List.head?_map, Option.map_eq_some_iff] at hzero
    obtain ⟨c, hc, hchr⟩ := hzero
    have hd : 48 ≤ c.toNat ∧ c.toNat ≤ 57 := Char.isDigit_iff_toNat.mp (hdig c (List.mem_of_mem_head? hc))
    have hbyte : c.toNat % 256 = 48 := congrArg UInt8.toNat hchr
    obtain rfl : c = '0' := Char.toNat_inj.mp (show c.toNat = 48 by omega)
    rw [toDigits_head hc]
    rfl

theorem stdToString_cons (i : Int) : ∃ c t, stdToString i = c :: t ∧
    (i < 0 ∧ c = ascii '-' ∧ t = (Nat.toDigits 10 i.natAbs).map chr ∨
      0 ≤ i ∧ Lib.isDigit c = true ∧ c :: t = (Nat.toDigits 10 i.natAbs).map chr) := by
  rw [stdToString]
  split
  next h => exact ⟨_, _, rfl, .inl ⟨h, rfl, rfl⟩⟩
  next h =>
    cases hd : Nat.toDigits 10 i.natAbs with
    | nil => exact absurd hd Nat.toDigits_ne_nil
    | cons d ds =>
      have hdigit : d.isDigit = true :=
        Nat.isDigit_of_mem_toDigits (by decide) (by decide) (hd ▸ List.mem_cons_self)
      exact ⟨_, _, rfl, .inr ⟨by omega, isDigit_chr hdigit, rfl⟩⟩

/-- **The text of an integer** is parsed as that number. -/
theorem value_stdToString (hr : ∀ c ∈ r.head?, Lib.isDigit c = false ∧ c ≠ ascii '.' ∧
    c ≠ ascii 'e' ∧ c ≠ ascii 'E') :
    Lib.Json.Parse.value (n + 1) (Lib.Json.Parse.skipWs (stdToString i ++ r)) = some (.number i, r) := by
  have hspace : ∀ {c : UInt8} {t : Bytes}, c = ascii '-' ∨ Lib.isDigit c = true →
      Lib.Json.Parse.skipWs (c :: t) = c :: t := by
    intro c t hc
    refine List.dropWhile_cons_of_neg fun hs => ?_
    simp only [Lib.Json.Parse.isSpace, Bool.or_eq_true, decide_eq_true_eq] at hs
    rcases hs with ((rfl | rfl) | rfl) | rfl <;> exact absurd hc (by decide)
  obtain ⟨c, t, heq, ⟨hneg, rfl, rfl⟩ | ⟨hpos, hdigit, hdigits⟩⟩ := stdToString_cons i
  · have habs : (i : ℚ) = -((i.natAbs : Nat) : ℚ) := by
      rw [← Int.cast_natCast, ← Int.cast_neg]
      exact congrArg _ (by omega)
    rw [heq, List.cons_append, hspace (.inl rfl), Lib.Json.Parse.value_number (.inl rfl), Lib.Json.Parse.number,
      if_pos rfl, unsigned_toDigits _ hr, habs]
    rfl
  · have habs : (i : ℚ) = ((i.natAbs : Nat) : ℚ) := by
      rw [← Int.cast_natCast]
      exact congrArg _ (by omega)
    have hminus : ¬ c = ascii '-' := by
      rintro rfl
      exact absurd hdigit (by decide)
    rw [heq, List.cons_append, hspace (.inr hdigit), Lib.Json.Parse.value_number (.inr hdigit), Lib.Json.Parse.number,
      if_neg hminus, ← List.cons_append, hdigits, unsigned_toDigits _ hr, habs]
    rfl

/-! ### Members -/

theorem skipWs_fields (l : List (Bytes × Bytes)) : Lib.Json.Parse.skipWs (fields l) = fields l := by
  cases l with
  | nil => rfl
  | cons f l =>
    rw [show f = (f.1, f.2) from rfl, fields_cons]
    exact List.dropWhile_cons_of_neg (by decide)

theorem fields_pair {g : Bytes} : fields ((k, [chr ':']) :: (v, g) :: l) =
    Lib.Json.string (k.map escapeItem) ++ ascii ':' :: (Lib.Json.string (v.map escapeItem) ++ (g ++ fields l)) := by
  simp [fields_cons, string_escapeItems, ascii_eq]

theorem value_escaped : Lib.Json.Parse.value (n + 1)
    (Lib.Json.Parse.skipWs (Lib.Json.string (v.map escapeItem) ++ r)) = some (.string v, r) := by
  have hws : Lib.Json.Parse.skipWs (Lib.Json.string (v.map escapeItem) ++ r) =
      Lib.Json.string (v.map escapeItem) ++ r := List.dropWhile_cons_of_neg (by decide)
  rw [hws, Lib.Json.Parse.value_string (escapeItems_valid v) (decode_escapeItems v)]

theorem members_pair : Lib.Json.Parse.members (n + 2) (fields ((k, [chr ':']) :: (v, [chr ',']) :: l)) =
    (Lib.Json.Parse.members (n + 1) (fields l)).map fun p => ((k, .string v) :: p.1, p.2) := by
  have hmore : Lib.Json.Parse.members (n + 2) (Lib.Json.string (k.map escapeItem) ++
      ascii ':' :: (Lib.Json.string (v.map escapeItem) ++ ascii ',' :: fields l)) = _ :=
    Lib.Json.Parse.members_more (escapeItems_valid k) (decode_escapeItems k) value_escaped
  rw [skipWs_fields] at hmore
  rw [fields_pair, ← hmore]
  rfl

theorem members_pair_last : Lib.Json.Parse.members (n + 2) (fields [(k, [chr ':']), (v, [chr '\x7d'])]) =
    some ([(k, .string v)], []) := by
  rw [fields_pair]
  exact Lib.Json.Parse.members_last (escapeItems_valid k) (decode_escapeItems k) value_escaped

theorem members_int_last : Lib.Json.Parse.members (n + 2) (fields [(k, chr ':' :: stdToString i ++ [chr '\x7d'])]) =
    some ([(k, .number i)], []) := by
  have hfields : fields [(k, chr ':' :: stdToString i ++ [chr '\x7d'])] =
      Lib.Json.string (k.map escapeItem) ++ ascii ':' :: (stdToString i ++ [ascii '\x7d']) := by
    simp [fields, string_escapeItems, ascii_eq]
  have hbrace : ∀ c ∈ [ascii '\x7d'].head?, Lib.isDigit c = false ∧ c ≠ ascii '.' ∧ c ≠ ascii 'e' ∧
      c ≠ ascii 'E' := by decide +kernel
  rw [hfields]
  exact Lib.Json.Parse.members_last (escapeItems_valid k) (decode_escapeItems k) (value_stdToString hbrace)

theorem parse_fields {ms : List (Bytes × Value)} (hl : l ≠ [])
    (hm : ∀ n, Lib.Json.Parse.members (n + 5) (fields l) = some (ms, [])) (hlen : 4 ≤ (fields l).length) :
    Lib.Json.parse (chr '\x7b' :: fields l) = some (.object ms) := by
  obtain ⟨n, hn⟩ : ∃ n, (chr '\x7b' :: fields l).length = n + 5 := ⟨(fields l).length - 4, by simp; omega⟩
  obtain ⟨t, ht⟩ : ∃ t, fields l = ascii '"' :: t := by
    cases l with
    | nil => exact absurd rfl hl
    | cons f l => exact ⟨_, fields_cons⟩
  have hws : Lib.Json.Parse.skipWs (chr '\x7b' :: fields l) = chr '\x7b' :: fields l :=
    List.dropWhile_cons_of_neg (by decide)
  have hvalue : Lib.Json.Parse.value (n + 5 + 1) (chr '\x7b' :: fields l) = some (.object ms, []) := by
    have hmem := hm n
    rw [ht] at hmem ⊢
    exact Lib.Json.Parse.value_object.trans (by rw [hmem]; rfl)
  rw [Lib.Json.parse, hws, hn, hvalue]
  rfl

end Parse

section Parses

variable {id text reason code message id' text' reason' code' message' : Bytes} {tokenId tokenId' : Int}

theorem parse_token : Lib.Json.parse (tokenPayload id text tokenId) =
    some (.object [(bytes "id", .string id), (bytes "event", .string (bytes "token")),
      (bytes "text", .string text), (bytes "token_id", .number tokenId)]) := by
  rw [tokenPayload_eq]
  refine parse_fields (by simp) (fun n => ?_) (by simp [fields]; omega)
  rw [members_pair, members_pair, members_pair, members_int_last]
  rfl

theorem parse_eos : Lib.Json.parse (eosPayload id reason) =
    some (.object [(bytes "id", .string id), (bytes "event", .string (bytes "eos")),
      (bytes "reason", .string reason)]) := by
  rw [eosPayload_eq]
  refine parse_fields (by simp) (fun n => ?_) (by simp [fields]; omega)
  rw [members_pair, members_pair, members_pair_last]
  rfl

theorem parse_error : Lib.Json.parse (errorPayload id code message) =
    some (.object [(bytes "id", .string id), (bytes "event", .string (bytes "error")),
      (bytes "code", .string code), (bytes "message", .string message)]) := by
  rw [errorPayload_eq]
  refine parse_fields (by simp) (fun n => ?_) (by simp [fields]; omega)
  rw [members_pair, members_pair, members_pair, members_pair_last]
  rfl

theorem tokenPayload_inj : tokenPayload id text tokenId = tokenPayload id' text' tokenId' ↔
    id = id' ∧ text = text' ∧ tokenId = tokenId' := by
  constructor
  · intro h
    have hparse := congrArg Lib.Json.parse h
    rw [parse_token, parse_token] at hparse
    simpa using hparse
  · rintro ⟨rfl, rfl, rfl⟩
    rfl

theorem eosPayload_inj : eosPayload id reason = eosPayload id' reason' ↔ id = id' ∧ reason = reason' := by
  constructor
  · intro h
    have hparse := congrArg Lib.Json.parse h
    rw [parse_eos, parse_eos] at hparse
    simpa using hparse
  · rintro ⟨rfl, rfl⟩
    rfl

theorem errorPayload_inj : errorPayload id code message = errorPayload id' code' message' ↔
    id = id' ∧ code = code' ∧ message = message' := by
  constructor
  · intro h
    have hparse := congrArg Lib.Json.parse h
    rw [parse_error, parse_error] at hparse
    simpa using hparse
  · rintro ⟨rfl, rfl, rfl⟩
    rfl

/-- The name of the event tells the payloads apart. -/
theorem payloads_ne (id text id' reason id'' code message : Bytes) (tokenId : Int) :
    tokenPayload id text tokenId ≠ eosPayload id' reason ∧
      tokenPayload id text tokenId ≠ errorPayload id'' code message ∧
      eosPayload id' reason ≠ errorPayload id'' code message := by
  have hnames : bytes "token" ≠ bytes "eos" ∧ bytes "token" ≠ bytes "error" ∧ bytes "eos" ≠ bytes "error" := by
    with_unfolding_all decide
  refine ⟨fun h => ?_, fun h => ?_, fun h => ?_⟩
  all_goals
    have hparse := congrArg Lib.Json.parse h
    simp [parse_token, parse_eos, parse_error, hnames] at hparse

/-- **The events are JSON** with exactly the members they are meant to have,
whatever the strings hold; so an event is determined by its payload. -/
theorem events_parse :
    (∀ (tx id text : Bytes) (tokenId : Int),
      appendTokenEvent tx id text tokenId = writeFrame tx (tokenPayload id text tokenId) ∧
      Lib.Json.parse (tokenPayload id text tokenId) =
        some (.object [(bytes "id", .string id), (bytes "event", .string (bytes "token")),
          (bytes "text", .string text), (bytes "token_id", .number tokenId)])) ∧
    (∀ tx id reason : Bytes,
      appendEosEvent tx id reason = writeFrame tx (eosPayload id reason) ∧
      Lib.Json.parse (eosPayload id reason) =
        some (.object [(bytes "id", .string id), (bytes "event", .string (bytes "eos")),
          (bytes "reason", .string reason)])) ∧
    (∀ tx id code message : Bytes,
      appendErrorEvent tx id code message = writeFrame tx (errorPayload id code message) ∧
      Lib.Json.parse (errorPayload id code message) =
        some (.object [(bytes "id", .string id), (bytes "event", .string (bytes "error")),
          (bytes "code", .string code), (bytes "message", .string message)])) ∧
    (∀ (id text id' text' : Bytes) (tokenId tokenId' : Int),
      tokenPayload id text tokenId = tokenPayload id' text' tokenId' ↔
        id = id' ∧ text = text' ∧ tokenId = tokenId') ∧
    (∀ id reason id' reason' : Bytes,
      eosPayload id reason = eosPayload id' reason' ↔ id = id' ∧ reason = reason') ∧
    (∀ id code message id' code' message' : Bytes,
      errorPayload id code message = errorPayload id' code' message' ↔
        id = id' ∧ code = code' ∧ message = message') ∧
    ∀ (id text id' reason id'' code message : Bytes) (tokenId : Int),
      tokenPayload id text tokenId ≠ eosPayload id' reason ∧
      tokenPayload id text tokenId ≠ errorPayload id'' code message ∧
      eosPayload id' reason ≠ errorPayload id'' code message := by
  refine ⟨fun tx id text tokenId => ⟨rfl, parse_token⟩, fun tx id reason => ⟨rfl, parse_eos⟩,
    fun tx id code message => ⟨rfl, parse_error⟩, fun _ _ _ _ _ _ => tokenPayload_inj,
    fun _ _ _ _ => eosPayload_inj, fun _ _ _ _ _ _ => errorPayload_inj, payloads_ne⟩

end Parses

/-! ## The events as UTF-8 -/

section Valid

variable {id text : Bytes} {tokenId : Int}

theorem step_placeholder (st : Utf8State) (c : UInt8) : st.step (placeholder c) = st.step c := by
  unfold placeholder
  split
  next h =>
    have hc : c ≤ 0x7F := UInt8.le_trans (UInt8.le_of_lt h.1) (by decide)
    rw [step_ascii hc, step_ascii (by decide)]
  next => rfl

/-- **Escaping** keeps a text valid, and an invalid one invalid. -/
theorem isValidUtf8_jsonEscape (s : Bytes) : isValidUtf8 (jsonEscape s) = isValidUtf8 s := by
  have hmap : (s.map escapeItem).map (Lib.Json.Item.byte (chr '?')) = s.map placeholder := by
    rw [List.map_map]
    exact List.map_congr_left fun c _ => escapeItem_byte c
  have hstep : (fun st c => Utf8State.step st (placeholder c)) = Utf8State.step :=
    funext fun st => funext (step_placeholder st)
  rw [jsonEscape_eq, ← isValidUtf8_items (escapeItems_valid s), hmap, isValidUtf8, isValidUtf8, List.foldlM_map, hstep]

theorem isValidUtf8_string (s r : Bytes) {pre post : Bytes} (hpre : ∀ c ∈ pre, c ≤ 0x7F) (hne : pre ≠ [])
    (hpost : ∀ c ∈ post, c ≤ 0x7F) (hne' : post ≠ []) :
    isValidUtf8 (pre ++ (jsonEscape s ++ (post ++ r))) = (isValidUtf8 s && isValidUtf8 r) := by
  rw [← List.nil_append (pre ++ _), isValidUtf8_ascii [] _ hpre hne, isValidUtf8_ascii _ r hpost hne',
    isValidUtf8_jsonEscape]
  exact Bool.true_and _

theorem stdToString_ascii (i : Int) : ∀ c ∈ stdToString i, c ≤ 0x7F := by
  have hdigits : ∀ c ∈ (Nat.toDigits 10 i.natAbs).map chr, c ≤ 0x7F := by
    intro c hc
    obtain ⟨d, hd, rfl⟩ := List.mem_map.mp hc
    obtain ⟨-, h₉⟩ : 48 ≤ d.toNat ∧ d.toNat ≤ 57 :=
      Char.isDigit_iff_toNat.mp (Nat.isDigit_of_mem_toDigits (by decide) (by decide) hd)
    have hbyte : (chr d).toNat = d.toNat := Nat.mod_eq_of_lt (by omega)
    rw [UInt8.le_iff_toNat_le, hbyte]
    exact Nat.le_trans h₉ (by decide)
  intro c hc
  rw [stdToString] at hc
  split at hc
  · rcases List.mem_cons.mp hc with rfl | hc
    · decide
    · exact hdigits c hc
  · exact hdigits c hc

/-- **A token event** is valid when its id and its text are. -/
theorem isValidUtf8_tokenPayload :
    isValidUtf8 (tokenPayload id text tokenId) = (isValidUtf8 id && isValidUtf8 text) := by
  have hopen : ∀ c ∈ bytes "\x7b\"id\":\"", c ≤ 0x7F := by decide +kernel
  have hevent : ∀ c ∈ bytes "\"," ++ bytes "\"event\":\"token\"," ++ bytes "\"text\":\"", c ≤ 0x7F := by
    decide +kernel
  have hlast : ∀ c ∈ bytes "\"," ++ bytes "\"token_id\":" ++ stdToString tokenId ++ bytes "\x7d", c ≤ 0x7F := by
    rw [List.forall_mem_append, List.forall_mem_append]
    exact ⟨⟨by decide +kernel, stdToString_ascii tokenId⟩, by decide +kernel⟩
  have hsplit : tokenPayload id text tokenId = bytes "\x7b\"id\":\"" ++ (jsonEscape id ++
      ((bytes "\"," ++ bytes "\"event\":\"token\"," ++ bytes "\"text\":\"") ++ (jsonEscape text ++
        ((bytes "\"," ++ bytes "\"token_id\":" ++ stdToString tokenId ++ bytes "\x7d") ++ [])))) := by
    simp [tokenPayload]
  have hne : bytes "\"," ++ bytes "\"token_id\":" ++ stdToString tokenId ++ bytes "\x7d" ≠ [] :=
    List.append_ne_nil_of_right_ne_nil _ (by with_unfolding_all decide)
  rw [hsplit, isValidUtf8_string _ _ hopen (by with_unfolding_all decide) hevent (by with_unfolding_all decide),
    isValidUtf8_ascii _ [] hlast hne, isValidUtf8_jsonEscape]
  exact congrArg _ (Bool.and_true _)

end Valid
end UmaServe
