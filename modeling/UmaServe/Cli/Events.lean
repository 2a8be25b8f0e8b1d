/-
What the client reads out of an event. Its scanner knows every escape the
server writes but one: behind `\u` it goes on with the digits, so a control
character comes out as five characters (`getString_jsonEscape`). And it looks
for a key as the server does, so an id that closes the key hides it
(`event_round_trip`).
-/
import UmaServe.Cli.Main
import UmaServe.Ipc.Events

namespace UmaServe

/-- What the client makes of a byte that was escaped. -/
def reread (c : UInt8) : Bytes :=
  if c < 0x20 ∧ c ≠ chr '\n' ∧ c ≠ chr '\r' ∧ c ≠ chr '\t' then
    [chr 'u', chr '0', chr '0', hexDigit (c.toNat / 16), hexDigit (c.toNat % 16)]
  else [c]

/-- No control character that the server writes as `\u00xx`. -/
def Legible (s : Bytes) : Prop := ∀ c ∈ s, c < 0x20 → c = chr '\n' ∨ c = chr '\r' ∨ c = chr '\t'

instance (s : Bytes) : Decidable (Legible s) := inferInstanceAs (Decidable (∀ c ∈ s, _ → _))

section Read

variable {out s r id name text key g : Bytes} {c : UInt8} {l : List (Bytes × Bytes)}

theorem reread_plain (h : c < 0x20 → c = chr '\n' ∨ c = chr '\r' ∨ c = chr '\t') : reread c = [c] := by
  rw [reread, if_neg]
  rintro ⟨hctl, hn, hr, ht⟩
  rcases h hctl with h | h | h
  · exact hn h
  · exact hr h
  · exact ht h

/-- The text is reread as it was exactly when it is legible: an escaped
control character makes it longer. -/
theorem reread_eq_iff : s.flatMap reread = s ↔ Legible s := by
  constructor
  · intro h
    have hlen : ∀ t : Bytes, t.length ≤ (t.flatMap reread).length := by
      intro t
      induction t with
      | nil => simp
      | cons c t ih =>
        rw [List.flatMap_cons, List.length_append, List.length_cons, reread]
        split
        all_goals
          simp only [List.length_cons, List.length_nil]
          omega
    induction s with
    | nil => exact fun c hc => (by cases hc)
    | cons c s ih =>
      rw [List.flatMap_cons] at h
      by_cases hc : c < 0x20 ∧ c ≠ chr '\n' ∧ c ≠ chr '\r' ∧ c ≠ chr '\t'
      · have hl := congrArg List.length h
        have := hlen s
        rw [reread, if_pos hc, List.length_append, List.length_cons] at hl
        simp only [List.length_cons, List.length_nil] at hl
        omega
      · rw [reread, if_neg hc, List.singleton_append, List.cons.injEq] at h
        refine List.forall_mem_cons.mpr ⟨fun hctl => ?_, ih h.2⟩
        by_contra hno
        rw [not_or, not_or] at hno
        exact hc ⟨hctl, hno⟩
  · intro h
    rw [List.flatMap_congr fun c hc => reread_plain (h c hc)]
    exact List.flatMap_singleton' s

theorem getString_escape {e : UInt8} : getString out (chr '\\' :: e :: r) = getString (out ++ [unescape e]) r := by
  rw [getString.eq_def]
  simp

theorem getString_raw (hback : c ≠ chr '\\') (hquote : c ≠ chr '"') :
    getString out (c :: r) = getString (out ++ [c]) r := by
  rw [getString.eq_def]
  simp [hback, hquote]

theorem hexDigit_ne : ∀ n < 16, hexDigit n ≠ chr '\\' ∧ hexDigit n ≠ chr '"' := by decide

theorem getString_uEscape (hc : c < 0x20) : getString out (uEscape c ++ r) =
    getString (out ++ [chr 'u', chr '0', chr '0', hexDigit (c.toNat / 16), hexDigit (c.toNat % 16)]) r := by
  have hu : bytes "\\u00" = [chr '\\', chr 'u', chr '0', chr '0'] := by with_unfolding_all decide
  have hlt : c.toNat < 32 := UInt8.lt_iff_toNat_lt.mp hc
  obtain ⟨hb₁, hq₁⟩ := hexDigit_ne (c.toNat / 16) (by omega)
  obtain ⟨hb₂, hq₂⟩ := hexDigit_ne (c.toNat % 16) (by omega)
  have hzero : ∀ {out r}, getString out (chr '0' :: r) = getString (out ++ [chr '0']) r :=
    getString_raw (by decide) (by decide)
  rw [uEscape, hu]
  simp only [List.cons_append, List.nil_append]
  rw [getString_escape, hzero, hzero, getString_raw hb₁ hq₁, getString_raw hb₂ hq₂]
  simp [show unescape (chr 'u') = chr 'u' from by decide]

theorem getString_escapeByte : getString out (escapeByte c ++ r) = getString (out ++ reread c) r := by
  have htwo : ∀ e, unescape e = c → getString out (chr '\\' :: e :: r) = getString (out ++ [c]) r := by
    rintro e rfl
    exact getString_escape
  by_cases hctl : c < 0x20 ∧ c ≠ chr '\n' ∧ c ≠ chr '\r' ∧ c ≠ chr '\t'
  · obtain ⟨hlt, hn, hr, ht⟩ := hctl
    have hquote : c ≠ chr '"' := by rintro rfl; exact absurd hlt (by decide)
    have hback : c ≠ chr '\\' := by rintro rfl; exact absurd hlt (by decide)
    rw [reread, if_pos ⟨hlt, hn, hr, ht⟩, escapeByte, if_neg hquote, if_neg hback, if_neg hn, if_neg hr, if_neg ht,
      if_pos hlt, getString_uEscape hlt]
  · rw [reread, if_neg hctl, escapeByte]
    split
    next h =>
      have htext : bytes "\\\"" = [chr '\\', chr '"'] := by with_unfolding_all decide
      rw [htext]
      exact htwo _ (by rw [h]; decide)
    split
    next h =>
      have htext : bytes "\\\\" = [chr '\\', chr '\\'] := by with_unfolding_all decide
      rw [htext]
      exact htwo _ (by rw [h]; decide)
    split
    next h =>
      have htext : bytes "\\n" = [chr '\\', chr 'n'] := by with_unfolding_all decide
      rw [htext]
      exact htwo _ (by rw [h]; decide)
    split
    next h =>
      have htext : bytes "\\r" = [chr '\\', chr 'r'] := by with_unfolding_all decide
      rw [htext]
      exact htwo _ (by rw [h]; decide)
    split
    next h =>
      have htext : bytes "\\t" = [chr '\\', chr 't'] := by with_unfolding_all decide
      rw [htext]
      exact htwo _ (by rw [h]; decide)
    split
    next hquote hback hn hr ht hlt => exact absurd ⟨hlt, hn, hr, ht⟩ hctl
    next hquote hback hn hr ht hlt => exact getString_raw hback hquote

/-- **A string** is reread byte by byte, up to its closing quote. -/
theorem getString_jsonEscape : getString out (jsonEscape s ++ chr '"' :: r) = out ++ s.flatMap reread := by
  induction s generalizing out with
  | nil =>
    have hne : ¬ chr '"' = chr '\\' := by decide
    simp [jsonEscape, getString.eq_def _ (_ :: _), hne]
  | cons c s ih =>
    rw [show jsonEscape (c :: s) = escapeByte c ++ jsonEscape s from rfl, List.append_assoc, getString_escapeByte, ih,
      List.append_assoc]
    rfl

/-- The text of the string that was found. -/
def readBody (body : Option Bytes) : Bytes := (body.map (getString [])).getD []

theorem jsonGetString_eq : jsonGetString s key = readBody ((seek (quoted key) s).bind bodyFrom) := by
  rw [← bodyAt_eq]
  unfold jsonGetString bodyAt
  cases findFrom (quoted key) s 0 with
  | none => rfl
  | some k =>
    simp only [Option.bind_eq_bind, Option.bind_some]
    cases findFrom [chr ':'] s k with
    | none => rfl
    | some c =>
      simp only [Option.bind_some]
      cases findFrom [chr '"'] s c <;> rfl

theorem readBody_value (hkey : IsName key) :
    readBody (bodyFrom (quoted key ++ ([chr ':'] ++ fields ((s, g) :: l)))) = s.flatMap reread := by
  have hnil : chr '"' ∉ ([] : Bytes) := by simp
  rw [bodyFrom_quoted hkey, ← List.append_nil [chr ':'], List.singleton_append, bodyFrom_fields hnil, readBody,
    Option.map_some, Option.getD_some, getString_jsonEscape, List.nil_append]

/-! ### What is found in an event -/

theorem isName_key (h : key ∈ [bytes "event", bytes "text", bytes "message"]) : IsName key := by
  revert key
  decide +kernel

/-- Behind the id: where the id closes the key, and where it does not. -/
theorem get_id (hkey : IsName key) (hno : ¬ Closes key (bytes "id")) :
    jsonGetString (chr '\x7b' :: fields ((bytes "id", [chr ':']) :: (id, [chr ',']) :: l)) key =
      if Closes key id then readBody (bodyFrom (chr ',' :: fields l))
      else readBody ((seek (quoted key) (fields l)).bind bodyFrom) := by
  have hbrace : chr '"' ∉ [chr '\x7b'] := by decide
  rw [jsonGetString_eq, ← List.singleton_append, quoted, List.cons_append, seek_append hbrace, ← List.cons_append,
    ← quoted, seek_fields hkey (by decide), if_neg hno, seek_fields hkey (by decide)]
  split
  · rw [Option.bind_some, bodyFrom_quoted hkey, List.singleton_append]
  · rfl

/-- **The event** is read whatever the id: one that closes the word is
followed by the key itself. -/
theorem get_event : jsonGetString (chr '\x7b' :: fields ((bytes "id", [chr ':']) :: (id, [chr ',']) ::
    (bytes "event", [chr ':']) :: (name, g) :: l)) (bytes "event") = name.flatMap reread := by
  have hkey : IsName (bytes "event") := isName_key (by simp)
  have hno : ¬ Closes (bytes "event") (bytes "id") := by with_unfolding_all decide
  rw [get_id hkey hno]
  split
  · rw [bodyFrom_comma hkey, ← bodyFrom_quoted hkey, readBody_value hkey]
  · rw [seek_fields hkey (by decide), if_pos (.inl rfl), Option.bind_some, readBody_value hkey]

/-- Another key: an id that closes it leads to the name of the event. -/
theorem get_member (hkey : IsName key) (hno : ∀ w ∈ [bytes "id", bytes "event", name], ¬ Closes key w) :
    jsonGetString (chr '\x7b' :: fields ((bytes "id", [chr ':']) :: (id, [chr ',']) ::
        (bytes "event", [chr ':']) :: (name, [chr ',']) :: l)) key =
      if Closes key id then name.flatMap reread else readBody ((seek (quoted key) (fields l)).bind bodyFrom) := by
  have hevent : IsName (bytes "event") := isName_key (by simp)
  rw [get_id hkey (hno _ (by simp))]
  split
  · rw [bodyFrom_comma hevent, ← bodyFrom_quoted hevent, readBody_value hevent]
  · rw [seek_fields hkey (by decide), if_neg (hno _ (by simp)), seek_fields hkey (by decide),
      if_neg (hno _ (by simp))]

end Read

section RoundTrip

variable {id text reason code message json : Bytes} {tokenId : Int}

theorem legible_names : ∀ w ∈ [bytes "token", bytes "eos", bytes "error", bytes "metrics"], Legible w := by
  decide +kernel

/-- The event of a request, by its name. -/
theorem get_name {name g : Bytes} {l : List (Bytes × Bytes)}
    (h : name ∈ [bytes "token", bytes "eos", bytes "error", bytes "metrics"]) :
    jsonGetString (chr '\x7b' :: fields ((bytes "id", [chr ':']) :: (id, [chr ',']) :: (bytes "event", [chr ':']) ::
      (name, g) :: l)) (bytes "event") = name := by
  rw [get_event, reread_eq_iff.mpr (legible_names _ h)]

theorem get_text : jsonGetString (tokenPayload id text tokenId) (bytes "text") =
    if Closes (bytes "text") id then bytes "token" else text.flatMap reread := by
  have hkey : IsName (bytes "text") := isName_key (by simp)
  have hno : ∀ w ∈ [bytes "id", bytes "event", bytes "token"], ¬ Closes (bytes "text") w := by
    with_unfolding_all decide
  rw [tokenPayload_eq, get_member hkey hno, reread_eq_iff.mpr (legible_names _ (by simp))]
  split
  · rfl
  · rw [seek_fields hkey (by decide), if_pos (.inl rfl), Option.bind_some, readBody_value hkey]

theorem get_message : jsonGetString (errorPayload id code message) (bytes "message") =
    if Closes (bytes "message") id then bytes "error" else message.flatMap reread := by
  have hkey : IsName (bytes "message") := isName_key (by simp)
  have hno : ∀ w ∈ [bytes "id", bytes "event", bytes "error"], ¬ Closes (bytes "message") w := by
    with_unfolding_all decide
  have hcode : ¬ Closes (bytes "message") (bytes "code") := by with_unfolding_all decide
  have hvalue : readBody ((seek (quoted (bytes "message")) (fields [(bytes "code", [chr ':']), (code, [chr ',']),
      (bytes "message", [chr ':']), (message, [chr '\x7d'])])).bind bodyFrom) = message.flatMap reread := by
    rw [seek_fields hkey (by decide), if_neg hcode, seek_fields hkey (by decide)]
    split
    · rw [Option.bind_some, bodyFrom_quoted hkey, List.singleton_append, bodyFrom_comma hkey, ← bodyFrom_quoted hkey,
        readBody_value hkey]
    · rw [seek_fields hkey (by decide), if_pos (.inl rfl), Option.bind_some, readBody_value hkey]
  rw [errorPayload_eq, get_member hkey hno, reread_eq_iff.mpr (legible_names _ (by simp)), hvalue]

theorem get_text_iff : jsonGetString (tokenPayload id text tokenId) (bytes "text") = text ↔
    if Closes (bytes "text") id then text = bytes "token" else Legible text := by
  rw [get_text]
  split
  · exact eq_comm
  · exact reread_eq_iff

theorem get_message_iff : jsonGetString (errorPayload id code message) (bytes "message") = message ↔
    if Closes (bytes "message") id then message = bytes "error" else Legible message := by
  rw [get_message]
  split
  · exact eq_comm
  · exact reread_eq_iff

/-- **The round trip of an event.** The client always reads which event it
is. It reads the text of a token, and the message of an error, exactly when
the id does not close the key and no control character needs `\u`; behind an
id that closes the key, it reads the name of the event instead. -/
theorem event_round_trip (id text code message : Bytes) (tokenId : Int) :
    (jsonGetString (tokenPayload id text tokenId) (bytes "event") = bytes "token" ∧
      (jsonGetString (tokenPayload id text tokenId) (bytes "text") = text ↔
        if Closes (bytes "text") id then text = bytes "token" else Legible text)) ∧
    jsonGetString (errorPayload id code message) (bytes "event") = bytes "error" ∧
      (jsonGetString (errorPayload id code message) (bytes "message") = message ↔
        if Closes (bytes "message") id then message = bytes "error" else Legible message) := by
  refine ⟨⟨?_, get_text_iff⟩, ?_, get_message_iff⟩
  · rw [tokenPayload_eq, get_name (by simp)]
  · rw [errorPayload_eq, get_name (by simp)]

/-- A form feed in a token, and the id `message` on an error. -/
theorem event_round_trip_lost :
    jsonGetString (tokenPayload (bytes "r") [0x0C] 5) (bytes "text") = bytes "u000c" ∧ bytes "u000c" ≠ [0x0C] ∧
      jsonGetString (errorPayload (bytes "message") (bytes "E_LIMIT_001") (bytes "prompt too large"))
        (bytes "message") = bytes "error" ∧ bytes "error" ≠ bytes "prompt too large" := by
  decide +kernel

end RoundTrip
end UmaServe
