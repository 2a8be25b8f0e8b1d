/-
The client's request as the server reads it. The payload is a sequence of
strings and of gaps without quotes between them (`payload_eq`), and what is
read behind a name is the next string after a colon (`valueFrom_fields`).
-/
import UmaServe.Cli.Main
import UmaServe.Ipc.Delivery
import UmaServe.Ipc.Strings
import UmaServe.Umad.Inbound

namespace UmaServe

section Fields

variable {key g v : Bytes} {l : List (Bytes × Bytes)}

theorem valueFrom_fields (hv : chr '"' ∉ v) :
    valueFrom (chr ':' :: v ++ fields l) = ((l.head?.map fun f => f.1.map placeholder).getD [], false) := by
  rw [valueFrom_eq, bodyFrom_fields hv]
  cases l with
  | nil => rfl
  | cons f l => exact scanString_jsonEscape _ _

theorem valueFrom_comma (hkey : IsName key) :
    valueFrom (chr ',' :: fields ((key, g) :: l)) = valueFrom (g ++ fields l) := by
  rw [valueFrom_eq, bodyFrom_comma hkey, ← valueFrom_eq]

theorem valueFrom_quoted (hkey : IsName key) : valueFrom (quoted key ++ v) = valueFrom v :=
  valueFrom_skip (colon_notMem_quoted hkey.2.1)

theorem isName_of_mem (h : key ∈ [bytes "id", bytes "prompt", bytes "stream", bytes "type", bytes "event"]) :
    IsName key := by
  revert key
  decide +kernel

end Fields

/-! ## The payload -/

/-- The members with bare values that end an object. -/
def closing : List (Bytes × Bytes) → List (Bytes × Bytes)
  | [] => []
  | [(k, v)] => [(k, chr ':' :: v ++ [chr '\x7d'])]
  | (k, v) :: f :: l => (k, chr ':' :: v ++ [chr ',']) :: closing (f :: l)

namespace CliOptions

/-- The optional members of a request. -/
def optionals (opt : CliOptions) : List (Bytes × Bytes) :=
  (if 0 < opt.maxTokens then [(bytes "max_tokens", stdToString opt.maxTokens)] else []) ++
    (if opt.hasTemperature then [(bytes "temperature", stdToStringF opt.temperature)] else []) ++
    if opt.hasTopP then [(bytes "top_p", stdToStringF opt.topP)] else []

def streamText (opt : CliOptions) : Bytes := if opt.stream then bytes "true" else bytes "false"

/-- A generation request, string by string. -/
def requestFields (opt : CliOptions) : List (Bytes × Bytes) :=
  (bytes "id", [chr ':']) :: (opt.id, [chr ',']) :: (bytes "prompt", [chr ':']) :: (opt.prompt, [chr ',']) ::
    closing ((bytes "stream", opt.streamText) :: opt.optionals)

end CliOptions

section Payload

variable {opt : CliOptions} {k v : Bytes} {l : List (Bytes × Bytes)}

theorem fields_closing :
    fields (closing ((k, v) :: l)) = chr '"' :: jsonEscape k ++ chr '"' :: chr ':' :: v ++
      (l.flatMap fun f => chr ',' :: chr '"' :: jsonEscape f.1 ++ chr '"' :: chr ':' :: f.2) ++ [chr '\x7d'] := by
  induction l generalizing k v with
  | nil => simp [closing, fields]
  | cons f l ih =>
    obtain ⟨k', v'⟩ := f
    rw [closing, fields_cons, ih]
    simp

/-- The optional members as they are appended, each behind its comma. -/
theorem flatMap_optionals :
    (opt.optionals.flatMap fun f => chr ',' :: chr '"' :: jsonEscape f.1 ++ chr '"' :: chr ':' :: f.2) =
      (if 0 < opt.maxTokens then bytes ",\"max_tokens\":" ++ stdToString opt.maxTokens else []) ++
        (if opt.hasTemperature then bytes ",\"temperature\":" ++ stdToStringF opt.temperature else []) ++
        if opt.hasTopP then bytes ",\"top_p\":" ++ stdToStringF opt.topP else [] := by
  have hmax : bytes ",\"max_tokens\":" =
      chr ',' :: chr '"' :: jsonEscape (bytes "max_tokens") ++ [chr '"', chr ':'] := by with_unfolding_all decide
  have htemp : bytes ",\"temperature\":" =
      chr ',' :: chr '"' :: jsonEscape (bytes "temperature") ++ [chr '"', chr ':'] := by with_unfolding_all decide
  have htop : bytes ",\"top_p\":" =
      chr ',' :: chr '"' :: jsonEscape (bytes "top_p") ++ [chr '"', chr ':'] := by with_unfolding_all decide
  rw [hmax, htemp, htop, CliOptions.optionals]
  split <;> split <;> split <;> simp

/-- **The payload**, string by string. -/
theorem payload_eq (h : opt.metrics = false) : opt.payload = chr '\x7b' :: fields opt.requestFields := by
  have hid : bytes "\x7b\"id\":\"" =
      chr '\x7b' :: chr '"' :: jsonEscape (bytes "id") ++ [chr '"', chr ':', chr '"'] := by with_unfolding_all decide
  have hcomma : bytes "\"," = [chr '"', chr ','] := by with_unfolding_all decide
  have hprompt : bytes "\"prompt\":\"" =
      chr '"' :: jsonEscape (bytes "prompt") ++ [chr '"', chr ':', chr '"'] := by with_unfolding_all decide
  have hstream : bytes "\"stream\":" = chr '"' :: jsonEscape (bytes "stream") ++ [chr '"', chr ':'] := by
    with_unfolding_all decide
  have hclose : bytes "\x7d" = [chr '\x7d'] := by with_unfolding_all decide
  rw [CliOptions.payload, if_neg (by simp [h]), hid, hcomma, hprompt, hstream, hclose, CliOptions.requestFields]
  simp only [fields_cons, fields_closing, flatMap_optionals, CliOptions.streamText]
  simp

/-! ### Numbers have no quotes -/

theorem quote_notMem_decimal (n : Nat) : chr '"' ∉ decimal n := by
  intro h
  obtain ⟨c, hc, hquote⟩ := List.mem_map.mp h
  have hdigit : 48 ≤ c.toNat ∧ c.toNat ≤ 57 :=
    Char.isDigit_iff_toNat.mp (Nat.isDigit_of_mem_toDigits (by decide) (by decide) hc)
  have hbyte : c.toNat % 256 = 34 := congrArg UInt8.toNat hquote
  omega

theorem quote_notMem_stdToString (i : Int) : chr '"' ∉ stdToString i := by
  have hne : chr '"' ≠ chr '-' := by decide
  have hdec := quote_notMem_decimal i.natAbs
  rw [decimal] at hdec
  rw [stdToString]
  split
  · rw [List.mem_cons, not_or]
    exact ⟨hne, hdec⟩
  · exact hdec

theorem quote_notMem_stdToStringF (d : Double) : chr '"' ∉ stdToStringF d := by
  have hminus : chr '"' ≠ chr '-' := by decide
  have hdot : chr '"' ≠ chr '.' := by decide
  have hzero : chr '"' ≠ chr '0' := by decide
  have hsign : ∀ neg : Bool, chr '"' ∉ if neg then [chr '-'] else [] := by decide
  cases d with
  | finite neg q =>
    have hfrac : chr '"' ∉ fraction (micros q % 10 ^ 6) := by
      rw [fraction, List.mem_append, not_or]
      exact ⟨fun h => hzero (List.eq_of_mem_replicate h), quote_notMem_decimal _⟩
    simp only [stdToStringF, List.mem_append, List.mem_cons, not_or]
    exact ⟨⟨hsign neg, quote_notMem_decimal _⟩, hdot, hfrac⟩
  | inf neg =>
    simp only [stdToStringF, List.mem_append, not_or]
    exact ⟨hsign neg, by with_unfolding_all decide⟩
  | nan neg =>
    simp only [stdToStringF, List.mem_append, not_or]
    exact ⟨hsign neg, by with_unfolding_all decide⟩

/-! ### What is found in it -/

theorem closing_cons (hv : chr '"' ∉ v) :
    ∃ w, closing ((k, v) :: l) = (k, chr ':' :: w) :: closing l ∧ chr '"' ∉ w := by
  have hclose : chr '"' ≠ chr '\x7d' := by decide
  have hcomma : chr '"' ≠ chr ',' := by decide
  cases l with
  | nil => exact ⟨v ++ [chr '\x7d'], rfl, by simp [hv, hclose]⟩
  | cons f l => exact ⟨v ++ [chr ','], rfl, by simp [hv, hcomma]⟩

theorem isGap_colon (hv : chr '"' ∉ v) : IsGap (chr ':' :: v) := by
  have hne : chr '"' ≠ chr ':' := by decide
  exact ⟨by simp [hv, hne], .inl rfl⟩

theorem seek_closing {key : Bytes} (hkey : IsName key) (hl : ∀ f ∈ l, chr '"' ∉ f.2 ∧ ¬ Closes key f.1) :
    seek (quoted key) (fields (closing l)) = none := by
  induction l with
  | nil => rfl
  | cons f l ih =>
    obtain ⟨hv, hk⟩ := hl f List.mem_cons_self
    obtain ⟨w, hw, hquote⟩ := closing_cons (k := f.1) (l := l) hv
    rw [hw, seek_fields hkey (isGap_colon hquote), if_neg hk]
    exact ih fun f' hf' => hl f' (List.mem_cons_of_mem _ hf')

/-- The keys of the bare members of a request. -/
def bareKeys : List Bytes := [bytes "stream", bytes "max_tokens", bytes "temperature", bytes "top_p"]

theorem optionals_mem {f : Bytes × Bytes} (h : f ∈ opt.optionals) : chr '"' ∉ f.2 ∧ f.1 ∈ bareKeys.tail := by
  simp only [CliOptions.optionals, List.mem_append] at h
  rcases h with (h | h) | h
  all_goals
    split at h
    next =>
      rw [List.mem_singleton] at h
      subst h
      exact ⟨by first | exact quote_notMem_stdToString _ | exact quote_notMem_stdToStringF _, by simp [bareKeys]⟩
    next => cases h

theorem quote_notMem_streamText : chr '"' ∉ opt.streamText := by
  rw [CliOptions.streamText]
  split <;> with_unfolding_all decide

variable {key : Bytes}

theorem extract_fields (h : opt.metrics = false) :
    extractJsonString opt.payload key =
      ((seek (quoted key) (fields opt.requestFields)).map valueFrom).getD ([], false) := by
  have hbrace : chr '"' ∉ [chr '\x7b'] := by decide
  rw [extractJsonString_eq, payload_eq h, ← List.singleton_append, quoted, List.cons_append, seek_append hbrace]

theorem valueFrom_value (hkey : IsName key) {s g : Bytes} :
    valueFrom (quoted key ++ ([chr ':'] ++ fields ((s, g) :: l))) = (s.map placeholder, false) := by
  have hnil : chr '"' ∉ ([] : Bytes) := by simp
  rw [valueFrom_quoted hkey, ← List.append_nil [chr ':'], List.singleton_append, valueFrom_fields hnil]
  rfl

theorem valueFrom_id (hkey : IsName key) {s : Bytes} :
    valueFrom (quoted key ++ ([chr ','] ++ fields ((bytes "prompt", [chr ':']) :: (s, [chr ',']) :: l))) =
      (s.map placeholder, false) := by
  have hname : IsName (bytes "prompt") := isName_of_mem (by simp)
  rw [valueFrom_quoted hkey, List.singleton_append, valueFrom_comma hname, ← valueFrom_quoted hname,
    valueFrom_value hname]

/-- Behind the prompt, the key of the first optional member is read, if
there is one. -/
theorem valueFrom_prompt (hkey : IsName key) :
    ∃ name, valueFrom (quoted key ++ ([chr ','] ++
        fields (closing ((bytes "stream", opt.streamText) :: opt.optionals)))) = (name.map placeholder, false) ∧
      (name = [] ∨ name ∈ bareKeys) := by
  have hname : IsName (bytes "stream") := isName_of_mem (by simp)
  obtain ⟨w, hw, hquote⟩ := closing_cons (k := bytes "stream") (l := opt.optionals) quote_notMem_streamText
  rw [valueFrom_quoted hkey, List.singleton_append, hw, valueFrom_comma hname, valueFrom_fields hquote]
  cases hopt : opt.optionals with
  | nil => exact ⟨[], rfl, .inl rfl⟩
  | cons f l =>
    have hf : f ∈ opt.optionals := by simp [hopt]
    obtain ⟨hv, hmem⟩ := optionals_mem hf
    obtain ⟨u, hu, -⟩ := closing_cons (k := f.1) (l := l) hv
    exact ⟨f.1, by rw [hu]; rfl, .inr (List.mem_of_mem_tail hmem)⟩

/-- **A word that is no key of a request** is read as the prompt when the id
closes it, and otherwise as one of the keys, or nothing. -/
theorem extract_word (h : opt.metrics = false) (hkey : IsName key)
    (hno : ∀ name ∈ bytes "id" :: bytes "prompt" :: bareKeys, ¬ Closes key name) :
    ∃ name, extractJsonString opt.payload key =
        ((if Closes key opt.id then opt.prompt else name).map placeholder, false) ∧
      (name = [] ∨ name ∈ bareKeys) := by
  have hcolon : IsGap [chr ':'] := by decide
  have hcomma : IsGap [chr ','] := by decide
  rw [extract_fields h, CliOptions.requestFields, seek_fields hkey hcolon, if_neg (hno _ (by simp)),
    seek_fields hkey hcomma]
  split
  · rw [Option.map_some, Option.getD_some, valueFrom_id hkey]
    exact ⟨[], rfl, .inl rfl⟩
  rw [seek_fields hkey hcolon, if_neg (hno _ (by simp)), seek_fields hkey hcomma]
  split
  · rw [Option.map_some, Option.getD_some]
    exact valueFrom_prompt hkey
  -- Behind the prompt no key closes the word.
  · rw [seek_closing hkey]
    · exact ⟨[], rfl, .inl rfl⟩
    · intro f hf
      rcases List.mem_cons.mp hf with rfl | hf
      · exact ⟨quote_notMem_streamText, hno _ (by simp [bareKeys])⟩
      · obtain ⟨hv, hmem⟩ := optionals_mem hf
        exact ⟨hv, hno _ (by simp [List.mem_of_mem_tail hmem])⟩

end Payload

/-! ## The round trip -/

theorem payload_ne_nil (opt : CliOptions) : opt.payload ≠ [] := by
  cases h : opt.metrics with
  | true =>
    rw [CliOptions.payload, if_pos h]
    with_unfolding_all decide
  | false =>
    rw [payload_eq h]
    simp

/-- **What the client writes as id and prompt** the server reads, control
characters apart. -/
theorem request_round_trip (opt : CliOptions) (h : opt.metrics = false) :
    extractJsonString opt.payload (bytes "id") = (opt.id.map placeholder, false) ∧
      extractJsonString opt.payload (bytes "prompt") = (opt.prompt.map placeholder, false) := by
  have hcolon : IsGap [chr ':'] := by decide
  have hcomma : IsGap [chr ','] := by decide
  have hid : IsName (bytes "id") := isName_of_mem (by simp)
  have hprompt : IsName (bytes "prompt") := isName_of_mem (by simp)
  have hne : ¬ Closes (bytes "prompt") (bytes "id") := by with_unfolding_all decide
  rw [extract_fields h, extract_fields h, CliOptions.requestFields]
  constructor
  · rw [seek_fields hid hcolon, if_pos (.inl rfl), Option.map_some, Option.getD_some, valueFrom_value hid]
  · -- The id may close the word itself; the prompt is behind it as well.
    rw [seek_fields hprompt hcolon, if_neg hne, seek_fields hprompt hcomma]
    split
    · rw [Option.map_some, Option.getD_some, valueFrom_id hprompt]
    · rw [seek_fields hprompt hcolon, if_pos (.inl rfl), Option.map_some, Option.getD_some, valueFrom_value hprompt]

/-- An id that closes the key, a prompt with a key, a colon and a control
character. -/
theorem request_round_trip_keys :
    let opt : CliOptions :=
      { id := bytes "\"prompt", prompt := bytes "\"id\":\x01", maxTokens := 5, hasTopP := true }
    extractJsonString opt.payload (bytes "id") = (bytes "\"prompt", false) ∧
      extractJsonString opt.payload (bytes "prompt") = (bytes "\"id\":?", false) := by
  intro opt
  obtain ⟨hid, hprompt⟩ := request_round_trip opt rfl
  have hid' : opt.id.map placeholder = bytes "\"prompt" := by with_unfolding_all decide
  have hprompt' : opt.prompt.map placeholder = bytes "\"id\":?" := by with_unfolding_all decide
  rw [hid, hprompt, hid', hprompt']
  exact ⟨rfl, rfl⟩

/-! ## The admin test -/

section Admin

variable {opt : CliOptions}

theorem placeholder_eq_iff {c b : UInt8} (hb : b ≠ chr '?') (hctl : placeholder b = b) : placeholder c = b ↔ c = b := by
  constructor
  · intro h
    rw [placeholder] at h
    split at h
    next => exact absurd h.symm hb
    next => exact h
  · rintro rfl
    exact hctl

theorem map_placeholder_eq_iff {s w : Bytes} (hw : ∀ b ∈ w, b ≠ chr '?' ∧ placeholder b = b) :
    s.map placeholder = w ↔ s = w := by
  induction s generalizing w with
  | nil => cases w <;> simp
  | cons c s ih =>
    cases w with
    | nil => simp
    | cons b w =>
      obtain ⟨⟨hb, hctl⟩, hw⟩ := List.forall_mem_cons.mp hw
      rw [List.map_cons, List.cons.injEq, List.cons.injEq, placeholder_eq_iff hb hctl, ih hw]

/-- The admin test of a word on a request of the client. -/
theorem extract_metrics_iff (key : Bytes) (h : opt.metrics = false) (hkey : IsName key)
    (hno : ∀ name ∈ bytes "id" :: bytes "prompt" :: bareKeys, ¬ Closes key name) :
    (!(extractJsonString opt.payload key).2 && (extractJsonString opt.payload key).1 = bytes "metrics") = true ↔
      opt.prompt = bytes "metrics" ∧ Closes key opt.id := by
  have hw : ∀ b ∈ bytes "metrics", b ≠ chr '?' ∧ placeholder b = b := by decide +kernel
  have hbare : ∀ name ∈ [] :: bareKeys, name ≠ bytes "metrics" := by with_unfolding_all decide
  obtain ⟨name, heq, hname⟩ := extract_word h hkey hno
  have hne : name ≠ bytes "metrics" := hbare name (by simpa using hname)
  rw [heq]
  simp only [Bool.not_false, Bool.true_and, decide_eq_true_eq, map_placeholder_eq_iff hw]
  split
  next hcl => exact ⟨fun hp => ⟨hp, hcl⟩, And.left⟩
  next hcl => exact ⟨fun hn => absurd hn hne, fun hp => absurd hp.2 hcl⟩

theorem isAdminRequest_payload (h : opt.metrics = false) :
    isAdminRequest opt.payload = true ↔
      opt.prompt = bytes "metrics" ∧ (Closes (bytes "type") opt.id ∨ Closes (bytes "event") opt.id) := by
  have hno : ∀ key ∈ [bytes "type", bytes "event"], ∀ name ∈ bytes "id" :: bytes "prompt" :: bareKeys,
      ¬ Closes key name := by with_unfolding_all decide
  have htype := extract_metrics_iff (bytes "type") h (isName_of_mem (by simp)) (hno _ (by simp))
  have hevent := extract_metrics_iff (bytes "event") h (isName_of_mem (by simp)) (hno _ (by simp))
  rw [isAdminRequest, Bool.or_eq_true, htype, hevent, and_or_left]

/-- A payload that asks for the metrics in one of the two top-level
members. -/
def AsksMetrics (js : Bytes) : Prop :=
  ∃ items, (HasMember js (bytes "type") items ∨ HasMember js (bytes "event") items) ∧
    Lib.Json.decode items = some (bytes "metrics")

/-- Behind one of the two words in quotes, the next colon and the next quote,
the payload reads `metrics`. -/
def ReadsMetrics (js : Bytes) : Prop :=
  ValueAt js (bytes "type") ((bytes "metrics").map .raw) ∨ ValueAt js (bytes "event") ((bytes "metrics").map .raw)

/-- Neither word misleads: in quotes it does not stand in the payload, or it
first stands there as the key of a top-level member with a string, or behind
its first place there is no quote with `metrics` behind it. -/
def WordsHarmless (js : Bytes) : Prop :=
  ∀ key ∈ [bytes "type", bytes "event"], find (quoted key) js = none ∨ (∃ items, MemberAt js key items) ∨
    ∀ k, find (quoted key) js = some k → ¬ chr '"' :: bytes "metrics" <:+: js.drop k

section Payloads

variable {js key : Bytes}

theorem extract_metrics (hkey : chr ':' ∉ key) :
    (!(extractJsonString js key).2 && (extractJsonString js key).1 = bytes "metrics") = true ↔
      ValueAt js key ((bytes "metrics").map .raw) := by
  simp only [Bool.and_eq_true, Bool.not_eq_true', decide_eq_true_eq]
  constructor
  · rintro ⟨hflag, htext⟩
    obtain ⟨items, hat, hitems⟩ := extract_valueAt hkey (Prod.ext htext hflag) (by with_unfolding_all decide)
    rw [Lib.Json.eq_raw_of_byte hat.valid (by decide +kernel) hitems.symm] at hat
    exact hat
  · intro hat
    rw [hat.extract hkey]
    exact ⟨rfl, by with_unfolding_all decide⟩

theorem isAdminRequest_iff : isAdminRequest js = true ↔ ReadsMetrics js := by
  have htype : IsName (bytes "type") := isName_of_mem (by simp)
  have hevent : IsName (bytes "event") := isName_of_mem (by simp)
  rw [isAdminRequest, Bool.or_eq_true, extract_metrics htype.2.1, extract_metrics hevent.2.1, ReadsMetrics]

/-- What is read behind a harmless word is a member's string. -/
theorem hasMember_of_valueAt (hkey : IsName key)
    (hword : find (quoted key) js = none ∨ (∃ items, MemberAt js key items) ∨
      ∀ k, find (quoted key) js = some k → ¬ chr '"' :: bytes "metrics" <:+: js.drop k)
    (hat : ValueAt js key ((bytes "metrics").map .raw)) :
    ∃ items, HasMember js key items ∧ Lib.Json.decode items = some (bytes "metrics") := by
  have hno : chr '?' ∉ bytes "metrics" := by with_unfolding_all decide
  have hself : ((bytes "metrics").map Lib.Json.Item.raw).map (Lib.Json.Item.byte (chr '?')) = bytes "metrics" := by
    with_unfolding_all decide
  rcases hword with hnone | ⟨items, htop⟩ | hbehind
  · obtain ⟨k, -, -, -, hk, -⟩ := hat
    rw [hnone] at hk
    cases hk
  · -- Both describe what the extractor returns.
    have hsame := ((htop.valueAt hkey.1).extract hkey.2.1).symm.trans (hat.extract hkey.2.1)
    have hread : items.map (Lib.Json.Item.byte (chr '?')) = bytes "metrics" := (congrArg Prod.fst hsame).trans hself
    refine ⟨items, htop.hasMember hkey.1, ?_⟩
    rw [← hread] at hno ⊢
    exact decode_of_notMem (htop.valueAt hkey.1).valid hno
  · obtain ⟨k, gap₁, gap₂, body, hk, hdrop, -, -, -, tail, rfl, -⟩ := hat
    have hbody : Lib.Json.body ((bytes "metrics").map Lib.Json.Item.raw) = bytes "metrics" := by
      with_unfolding_all decide
    refine absurd ⟨quoted key ++ gap₁ ++ chr ':' :: gap₂, tail, ?_⟩ (hbehind k hk)
    rw [hdrop, hbody]
    simp

theorem asksMetrics_of_reads (hwords : WordsHarmless js) (h : ReadsMetrics js) : AsksMetrics js := by
  rcases h with h | h
  · obtain ⟨items, hm, hdec⟩ := hasMember_of_valueAt (isName_of_mem (by simp)) (hwords _ (by simp)) h
    exact ⟨items, .inl hm, hdec⟩
  · obtain ⟨items, hm, hdec⟩ := hasMember_of_valueAt (isName_of_mem (by simp)) (hwords _ (by simp)) h
    exact ⟨items, .inr hm, hdec⟩

end Payloads

/-- **Which frames pass for metrics requests.** On every session: a
generation request of the client does exactly when its prompt is `metrics`
and its id closes one of the two words. And where neither word misleads, only
a frame that asks for the metrics at the top does. -/
theorem metrics_request (cfg : RuntimeConfig) (vocab : Vocab) {m : SessionManager} {fd : Int} {s : ClientSession}
    {nowNs : Nat} {reads : List ReadRes} {js : Bytes} (hs : m.sessions.lookup fd = some s)
    (hf : s.frame? nowNs reads = some js) :
    (∀ opt : CliOptions, opt.metrics = false → js = opt.payload →
      ((m.onReadable fd cfg vocab nowNs reads).2.adminRequest = false ↔
        ¬ (opt.prompt = bytes "metrics" ∧ (Closes (bytes "type") opt.id ∨ Closes (bytes "event") opt.id)))) ∧
    (WordsHarmless js → (m.onReadable fd cfg vocab nowNs reads).2.adminRequest = true → AsksMetrics js) := by
  rw [(onReadable_read hs).2, read_adminRequest hf]
  refine ⟨?_, fun hwords hadm => ?_⟩
  · rintro opt hopt rfl
    rw [← isAdminRequest_payload hopt, Bool.not_eq_true]
  · exact asksMetrics_of_reads hwords (isAdminRequest_iff.mp hadm)

/-- A request for the word itself is a generation request, and the client's
metrics request asks for the metrics. -/
theorem metrics_request_word :
    (oneSession.onReadable 7 {} small.vocab 1
        (framed (CliOptions.payload { id := bytes "r", prompt := bytes "metrics" }))).2.adminRequest = false ∧
      AsksMetrics (CliOptions.payload { metrics := true }) := by
  have hs : oneSession.sessions.lookup 7 = some { fd := 7 } := rfl
  constructor
  · refine ((metrics_request {} small.vocab hs ?_).1 { id := bytes "r", prompt := bytes "metrics" } rfl rfl).mpr ?_
    · decide +kernel
    · decide +kernel
  · have hf : ({ fd := 7 } : ClientSession).frame? 1 (framed (CliOptions.payload { metrics := true })) =
        some (CliOptions.payload { metrics := true }) := by decide +kernel
    refine (metrics_request {} small.vocab hs hf).2 ?_ (by decide +kernel)
    have htype : MemberAt (CliOptions.payload { metrics := true }) (bytes "type") ((bytes "metrics").map .raw) :=
      memberAt_ofStrings [] [] ((bytes "type").map .raw, (bytes "metrics").map .raw) (by decide +kernel)
        (by decide +kernel) (by decide +kernel)
    have hevent : find (quoted (bytes "event")) (CliOptions.payload { metrics := true }) = none := by decide +kernel
    simp only [WordsHarmless, List.forall_mem_cons]
    exact ⟨.inr (.inl ⟨_, htype⟩), .inl hevent, fun key hkey => (by cases hkey)⟩

/-- The id `type` turns the prompt `metrics` into a metrics request. -/
theorem metrics_request_mistaken :
    let opt : CliOptions := { id := bytes "type", prompt := bytes "metrics" }
    opt.metrics = false ∧ opt.prompt ≠ [] ∧
      ({ fd := 7 } : ClientSession).frame? 1 (framed opt.payload) = some opt.payload ∧
      (oneSession.onReadable 7 {} small.vocab 1 (framed opt.payload)).2.adminRequest = true := by
  decide +kernel

end Admin
end UmaServe
