/-
What an accepted request is made of. `on_readable` uses the string that
stands behind the first quoted `prompt` (`request_fields`): where that is a
top-level member, it is the member's value with `?` for each `\u` escape. The
bytes of the string are not validated (`utf8_prompts_iff`).
-/
import UmaServe.Ipc.JsonFacts
import UmaServe.Ipc.ReadFacts
import UmaServe.Umad.Main
import UmaServe.Util.Utf8

namespace UmaServe

open Lib.Json (Item)

/-- The prompt that is extracted from a payload. -/
def promptText (js : Bytes) : Bytes := (extractJsonString js (bytes "prompt")).1

/-- A frame was accepted as a generation request: the session entered
`PREFILL`, or an `eos` answers an empty tokenisation. -/
def Accepted (s s' : ClientSession) : Prop :=
  s'.state = .prefill ∨ ∃ id, s'.hist.events = s.hist.events ++ [.eos id (bytes "stop")]

/-- A frame was answered with an error. -/
def Refused (s s' : ClientSession) : Prop :=
  (∃ id code message, s'.hist.events = s.hist.events ++ [.error id code message]) ∧ s'.state ≠ .prefill

section Fields

variable {cfg : RuntimeConfig} {vocab : Vocab} {nowNs : Nat} {next : Int} {reads : List ReadRes} {s s' : ClientSession}
  {js key v : Bytes} {m : SessionManager} {fd : Int}

/-- What a frame that is accepted makes of the session. -/
structure UsesRequest (vocab : Vocab) (js : Bytes) (s s' : ClientSession) : Prop where
  id : s'.requestId = (extractJsonString js (bytes "id")).1
  prompt : s'.state = .prefill ∧ s'.promptTokens = vocab.tokens (promptText js) true true ∨
    vocab.tokens (promptText js) true true = [] ∧
      s'.hist.events = s.hist.events ++ [.eos s'.requestId (bytes "stop")]

theorem refused_fail {t : ClientSession} (h : t.hist.events = s.hist.events) (id code message : Bytes) :
    Refused s (t.fail id code message) ∧ ¬ Accepted s (t.fail id code message) := by
  have hevents : (t.fail id code message).hist.events = s.hist.events ++ [.error id code message] := by
    rw [← h]
    rfl
  refine ⟨⟨⟨id, code, message, hevents⟩, fun hst => (by cases hst)⟩, ?_⟩
  rintro (hst | ⟨id', heos⟩)
  · cases hst
  · rw [hevents] at heos
    exact absurd (List.append_cancel_left heos) (by simp)

/-- A frame is accepted exactly when it passes the checks, and a generation
request that does not is refused. -/
theorem read_used (hf : s.frame? nowNs reads = some js) (hs' : (s.read cfg vocab nowNs next reads).session = s') :
    (acceptsRequest cfg js = true ∧ Accepted s s' ∧ UsesRequest vocab js s s') ∨
      (acceptsRequest cfg js = false ∧ ¬ Accepted s s' ∧ (isAdminRequest js = false → Refused s s')) := by
  obtain ⟨rx, act, rc, rr, -, -, hframed⟩ := read_framed cfg vocab next hf
  subst hs'
  generalize s.read cfg vocab nowNs next reads = o at hframed ⊢
  cases hframed with
  | admin hadm =>
    refine .inr ⟨by simp [acceptsRequest, hadm], ?_, fun h => absurd h (by simp [hadm])⟩
    rintro (h | ⟨id, h⟩)
    · cases h
    · exact absurd h (by simp [ClientSession.openWindow])
  | unnamed _ hnames =>
    obtain ⟨href, hacc⟩ := refused_fail (s := s) rfl _ _ _
    exact .inr ⟨by rw [acceptsRequest_eq, hnames, Bool.false_and], hacc, fun _ => href⟩
  | tooLarge _ _ hlong =>
    obtain ⟨href, hacc⟩ := refused_fail (s := s) rfl _ _ _
    exact .inr ⟨by rw [acceptsRequest_eq, decide_eq_false (Nat.not_le.mpr hlong), Bool.and_false], hacc, fun _ => href⟩
  | empty _ hacc hnil =>
    rw [promptOf, tokenize_eq] at hnil
    exact .inl ⟨hacc, .inr ⟨_, rfl⟩, rfl, .inr ⟨hnil, rfl⟩⟩
  | started _ hacc _ _ => exact .inl ⟨hacc, .inl rfl, rfl, .inl ⟨rfl, tokenize_eq vocab _ true true⟩⟩

/-! ## The fields -/

/-- Where the quoted key first stands as the key of a top-level member with a
string, `v` is that string with `?` for each `\u` escape; without any, its
value. -/
def AgreesAtTop (js key v : Bytes) : Prop :=
  ∀ items, MemberAt js key items →
    HasMember js key items ∧ v = items.map (Item.byte (chr '?')) ∧
      ((∀ i ∈ items, i.isUnicode = false) → Lib.Json.decode items = some v)

theorem agreesAtTop (hkey : Plain key) (hcolon : chr ':' ∉ key) : AgreesAtTop js key (extractJsonString js key).1 := by
  intro items hat
  rw [(hat.valueAt hkey).extract hcolon]
  refine ⟨hat.hasMember hkey, rfl, fun hu => ?_⟩
  obtain ⟨-, -, -, -, hv, -⟩ := hat
  exact Lib.Json.decode_plain (chr '?') hv hu

theorem accepts_checks (h : acceptsRequest cfg js = true) :
    isAdminRequest js = false ∧ (extractJsonString js (bytes "id")).2 = false ∧
      (extractJsonString js (bytes "prompt")).2 = false ∧ promptText js ≠ [] := by
  simp only [acceptsRequest, Bool.and_eq_true, Bool.not_eq_true', List.isEmpty_eq_false_iff] at h
  obtain ⟨⟨⟨⟨hadm, hid⟩, hprompt⟩, hne⟩, -⟩ := h
  exact ⟨hadm, hid, hprompt, hne⟩

theorem field_names : ∀ key ∈ [bytes "id", bytes "prompt"], Plain key ∧ chr ':' ∉ key := by
  decide +kernel

theorem prompt_valueAt (h : acceptsRequest cfg js = true) :
    ∃ items, ValueAt js (bytes "prompt") items ∧ promptText js = items.map (Item.byte (chr '?')) := by
  obtain ⟨-, -, hflag, hne⟩ := accepts_checks h
  exact extract_valueAt (field_names _ (by simp)).2 (Prod.ext rfl hflag) hne

/-- **What an accepted request uses.** On every session and for every frame:
the prompt that is tokenised is the string behind the first quoted `prompt`,
and the id the one behind the first quoted `id`, or empty; where these are
top-level members of an object, they are the members' strings. -/
theorem request_fields (cfg : RuntimeConfig) (vocab : Vocab) (hs : m.sessions.lookup fd = some s)
    (hf : s.frame? nowNs reads = some js)
    (hs' : (m.onReadable fd cfg vocab nowNs reads).1.sessions.lookup fd = some s') (hacc : Accepted s s') :
    (s'.state = .prefill ∧ s'.promptTokens = vocab.tokens (promptText js) true true ∨
        vocab.tokens (promptText js) true true = [] ∧
          s'.hist.events = s.hist.events ++ [.eos s'.requestId (bytes "stop")]) ∧
      (∃ items, ValueAt js (bytes "prompt") items ∧ promptText js = items.map (Item.byte (chr '?'))) ∧
      (s'.requestId = [] ∨ ∃ items, ValueAt js (bytes "id") items ∧ s'.requestId = items.map (Item.byte (chr '?'))) ∧
      AgreesAtTop js (bytes "prompt") (promptText js) ∧ AgreesAtTop js (bytes "id") s'.requestId := by
  rw [(onReadable_read hs).1, Option.some.injEq] at hs'
  obtain ⟨hid, hidColon⟩ := field_names (bytes "id") (by simp)
  obtain ⟨hprompt, hpromptColon⟩ := field_names (bytes "prompt") (by simp)
  rcases read_used hf hs' with ⟨hok, -, huses⟩ | ⟨-, hnot, -⟩
  · obtain ⟨-, hflag, -, -⟩ := accepts_checks hok
    refine ⟨huses.prompt, prompt_valueAt hok, ?_, agreesAtTop hprompt hpromptColon, ?_⟩
    · rw [huses.id]
      by_cases hne : (extractJsonString js (bytes "id")).1 = []
      · exact .inl hne
      · exact .inr (extract_valueAt hidColon (Prod.ext rfl hflag) hne)
    · rw [huses.id]
      exact agreesAtTop hid hidColon
  · exact absurd hacc hnot

/-- A request of two strings. -/
def twoStrings (id prompt : List Item) : Bytes :=
  chr '\x7b' :: Lib.Json.members ([((bytes "id").map .raw, id), ((bytes "prompt").map .raw, prompt)].map
    Lib.Json.Member.ofStrings) ++ [chr '\x7d']

/-- The prompt `a`, newline. -/
def lineItems : List Item := [.raw 97, .escape (chr 'n')]

def lineJson : Bytes := twoStrings ((bytes "r").map .raw) lineItems

/-- Its id and its prompt are used. -/
theorem request_fields_line :
    ∃ s', (oneSession.onReadable 7 {} small.vocab 1 (framed lineJson)).1.sessions.lookup 7 = some s' ∧
      Lib.Json.decode lineItems = some (promptText lineJson) ∧ s'.requestId = bytes "r" := by
  have hs : oneSession.sessions.lookup 7 = some { fd := 7 } := rfl
  have hf : ({ fd := 7 } : ClientSession).frame? 1 (framed lineJson) = some lineJson := by decide +kernel
  have hstate : ((oneSession.onReadable 7 {} small.vocab 1 (framed lineJson)).1.sessions.lookup 7).map
      ClientSession.state = some .prefill := by decide +kernel
  obtain ⟨s', hs', hst⟩ := Option.map_eq_some_iff.mp hstate
  obtain ⟨-, -, -, hprompt, hid⟩ := request_fields {} small.vocab hs hf hs' (.inl hst)
  have hatId : MemberAt lineJson (bytes "id") ((bytes "r").map .raw) :=
    memberAt_ofStrings [] [_] ((bytes "id").map .raw, (bytes "r").map .raw) (by decide +kernel) rfl (by decide +kernel)
  have hatPrompt : MemberAt lineJson (bytes "prompt") lineItems :=
    memberAt_ofStrings [_] [] ((bytes "prompt").map .raw, lineItems) (by decide +kernel) rfl (by decide +kernel)
  refine ⟨s', hs', (hprompt _ hatPrompt).2.2 (by decide), ?_⟩
  rw [(hid _ hatId).2.1]
  decide +kernel

theorem not_objectText {c : UInt8} {ms : List Lib.Json.Member}
    (hc : c ≠ chr '\x7b' ∧ c ≠ 0x20 ∧ c ≠ 0x09 ∧ c ≠ 0x0A ∧ c ≠ 0x0D) : ¬ Lib.Json.ObjectText (c :: v) ms := by
  rintro ⟨d, ws, t, ws', hws, -, ⟨-, inner, rfl, -⟩, hjs⟩
  cases ws with
  | nil => exact hc.1 (List.head_eq_of_cons_eq hjs)
  | cons b ws =>
    obtain rfl : c = b := List.head_eq_of_cons_eq hjs
    exact notMem_of_isWs hws hc.2 List.mem_cons_self

/-- A prompt written as `\u0041`. -/
def escapedItems : List Item := [.unicode (chr '0') (chr '0') (chr '4') (chr '1')]

/-- A member without its object is accepted, and the escaped letter `A` is
used as `?`. -/
theorem request_fields_loose :
    (((oneSession.onReadable 7 {} small.vocab 1 (framed (bytes "\"prompt\":\"hi\""))).1.sessions.lookup 7).map
          (fun s => (s.state, s.promptTokens)) = some (.prefill, [104, 105]) ∧
        ∀ ms, ¬ Lib.Json.ObjectText (bytes "\"prompt\":\"hi\"") ms) ∧
      ((oneSession.onReadable 7 {} small.vocab 1 (framed (twoStrings [] escapedItems))).1.sessions.lookup 7).map
          (fun s => (s.state, s.promptTokens)) = some (.prefill, [63]) ∧
        HasMember (twoStrings [] escapedItems) (bytes "prompt") escapedItems ∧
        Lib.Json.decode escapedItems = some (bytes "A") := by
  have hjs : bytes "\"prompt\":\"hi\"" = chr '"' :: bytes "prompt\":\"hi\"" := by decide +kernel
  have hat : MemberAt (twoStrings [] escapedItems) (bytes "prompt") escapedItems :=
    memberAt_ofStrings [_] [] ((bytes "prompt").map .raw, escapedItems) (by decide +kernel) rfl (by decide +kernel)
  refine ⟨⟨by decide +kernel, fun ms => ?_⟩, by decide +kernel, hat.hasMember (by decide +kernel), by decide +kernel⟩
  rw [hjs]
  exact not_objectText (by decide)

/-! ## The bytes -/

/-- **Which prompts are valid UTF-8.** On every session and for every frame:
a prompt that is tokenised is valid UTF-8, and a generation request with one
that is not is refused, exactly when the frame does not pass the other checks
or the prompt's string is valid as it stands in the payload. -/
theorem utf8_prompts_iff (cfg : RuntimeConfig) (vocab : Vocab) (hs : m.sessions.lookup fd = some s)
    (hf : s.frame? nowNs reads = some js)
    (hs' : (m.onReadable fd cfg vocab nowNs reads).1.sessions.lookup fd = some s') :
    ((Accepted s s' → isValidUtf8 (promptText js) = true) ∧
        (isAdminRequest js = false → isValidUtf8 (promptText js) = false → Refused s s')) ↔
      (acceptsRequest cfg js = true →
        ∀ items, ValueAt js (bytes "prompt") items → isValidUtf8 (Lib.Json.body items) = true) := by
  have hcolon : chr ':' ∉ bytes "prompt" := (field_names _ (by simp)).2
  rw [(onReadable_read hs).1, Option.some.injEq] at hs'
  rcases read_used hf hs' with ⟨hok, hacc, -⟩ | ⟨hno, hnot, href⟩
  · constructor
    · rintro ⟨hvalid, -⟩ - items hat
      have hread := hvalid hacc
      rw [promptText, hat.extract hcolon, isValidUtf8_items hat.valid] at hread
      exact hread
    · intro hraw
      obtain ⟨items, hat, hprompt⟩ := prompt_valueAt hok
      have hvalid : isValidUtf8 (promptText js) = true := by
        rw [hprompt, isValidUtf8_items hat.valid]
        exact hraw hok items hat
      exact ⟨fun _ => hvalid, fun _ hinv => absurd hinv (by simp [hvalid])⟩
  · exact ⟨fun _ hok => absurd hok (by simp [hno]), fun _ => ⟨fun h => absurd h hnot, fun hadm _ => href hadm⟩⟩

/-- A prompt that is valid, as it is read and as it stands. -/
theorem utf8_prompts_line :
    (oneSession.onReadable 7 {} small.vocab 1 (framed lineJson)).1.sessions.lookup 7 ≠ none ∧
      ∀ items, ValueAt lineJson (bytes "prompt") items → isValidUtf8 (Lib.Json.body items) = true := by
  have hs : oneSession.sessions.lookup 7 = some { fd := 7 } := rfl
  have hf : ({ fd := 7 } : ClientSession).frame? 1 (framed lineJson) = some lineJson := by decide +kernel
  have hread : isValidUtf8 (promptText lineJson) = true := by decide +kernel
  have hs' : (oneSession.onReadable 7 {} small.vocab 1 (framed lineJson)).1.sessions.lookup 7 = some _ :=
    (onReadable_read hs).1
  have hiff := utf8_prompts_iff {} small.vocab hs hf hs'
  refine ⟨by simp [hs'], hiff.mp ⟨fun _ => hread, fun _ hinv => ?_⟩ (by decide +kernel)⟩
  rw [hread] at hinv
  cases hinv

/-- The byte `C0` reaches the tokenizer. -/
theorem utf8_prompts_overlong :
    let js := twoStrings ((bytes "r").map .raw) [.raw 0xC0]
    ({ fd := 7 } : ClientSession).frame? 1 (framed js) = some js ∧
      ((oneSession.onReadable 7 {} small.vocab 1 (framed js)).1.sessions.lookup 7).map
        (fun s => (s.state, s.promptTokens)) = some (.prefill, [0xC0]) ∧
      promptText js = [0xC0] ∧ isValidUtf8 (promptText js) = false := by
  decide +kernel

end Fields
end UmaServe
