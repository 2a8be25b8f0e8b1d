/-
The optional numbers of a request as the server reads them. `%f` writes six
decimals, and `extract_json_number` reads back what they come to
(`numberOf_stdToStringF`); a key that the id or the prompt closes is read at
the wrong place, where there is no number, and so is lost
(`preferences_payload`).
-/
import Mathlib.Data.List.TakeWhile
import UmaServe.Cli.Request
import UmaServe.Ipc.Events
import UmaServe.Umad.Preferences
import UmaServe.Util.Numbers

namespace UmaServe

open Lib (isDigit natOf signOf)

/-- The number a text begins with, behind blanks. -/
def numberOf (v : Bytes) : Option Double :=
  let num := (v.dropWhile isJsonSpace).takeWhile isNumberChar
  if num.isEmpty then none else strtod num

/-- What is read as a number behind a key: the one at the next colon. -/
def numberFrom (s : Bytes) : Option Double :=
  match s.dropWhile fun c => c ≠ chr ':' with
  | [] => none
  | _ :: rest => numberOf rest

/-- What the text of a `double` comes to: the `double` nearest to the millionths
it shows. -/
def Double.printed : Double → Option Double
  | .finite neg q => some (.ofScientific neg (micros q) (-6))
  | .inf _ | .nan _ => none

namespace CliOptions

/-- A member that is found where it was written. -/
def Shows (opt : CliOptions) (key : Bytes) : Prop := ¬ Closes key opt.id ∧ ¬ Closes key opt.prompt

instance (opt : CliOptions) (key : Bytes) : Decidable (opt.Shows key) := inferInstanceAs (Decidable (_ ∧ _))

/-- The preferences the server has of a client with these options. -/
def preferences (opt : CliOptions) : SamplingParams where
  temperature :=
    (if opt.hasTemperature ∧ opt.Shows (bytes "temperature") then opt.temperature.printed else none).getD
      ({} : ClientSession).temperature
  topP := (if opt.hasTopP ∧ opt.Shows (bytes "top_p") then opt.topP.printed else none).getD ({} : ClientSession).topP
  topK := ({} : ClientSession).topK

end CliOptions

/-! ## The search -/

section Search

variable {s v r key : Bytes} {c : UInt8} {l : List (Bytes × Bytes)}

theorem extractJsonNumber_eq : extractJsonNumber s key = (seek (quoted key) s).bind numberFrom := by
  unfold extractJsonNumber seek
  simp only [findFrom, List.drop_zero]
  cases hk : find (quoted key) s with
  | none => rfl
  | some k =>
    simp only [Option.map_some, Nat.add_zero, Option.bind_some, numberFrom]
    cases hc : find [chr ':'] (s.drop k) with
    | none => rw [find_byte_none hc]; rfl
    | some c =>
      have hcolon : s.drop (c + k) = (s.drop k).dropWhile fun b => b ≠ chr ':' := by
        rw [Nat.add_comm, ← List.drop_drop, find_byte_some hc]
      simp only [Option.map_some]
      rw [← hcolon, ← List.drop_drop]
      cases hrest : s.drop (c + k) with
      | nil =>
        -- The colon that was found stands there.
        obtain ⟨y, hy⟩ := find_prefix hc
        rw [List.drop_drop, Nat.add_comm, hrest] at hy
        cases hy
      | cons => rfl

theorem numberFrom_skip (h : chr ':' ∉ s) : numberFrom (s ++ r) = numberFrom r := by
  have hdrop : (s ++ r).dropWhile (fun c => c ≠ chr ':') = r.dropWhile fun c => c ≠ chr ':' :=
    List.dropWhile_append_of_pos fun c hc => by
      rw [decide_eq_true_eq]
      rintro rfl
      exact h hc
  rw [numberFrom, hdrop, numberFrom]

theorem numberFrom_colon : numberFrom (chr ':' :: v) = numberOf v := rfl

theorem numberOf_append (hs : isJsonSpace c = false) (hn : isNumberChar c = false) :
    numberOf (v ++ c :: r) = numberOf v := by
  have hdrop : (v ++ c :: r).dropWhile isJsonSpace = v.dropWhile isJsonSpace ++ c :: r := by
    induction v with
    | nil => exact List.dropWhile_cons_of_neg (by simp [hs])
    | cons b v ih =>
      rw [List.cons_append, List.dropWhile_cons, List.dropWhile_cons]
      split
      · exact ih
      · rfl
  have htake : ∀ w : Bytes, (w ++ c :: r).takeWhile isNumberChar = w.takeWhile isNumberChar := by
    intro w
    induction w with
    | nil => exact List.takeWhile_cons_of_neg (by simp [hn])
    | cons b w ih =>
      rw [List.cons_append, List.takeWhile_cons, List.takeWhile_cons, ih]
  rw [numberOf, hdrop, htake, numberOf]

end Search

/-! ## Six decimals -/

section Decimals

variable {n : Nat} {ds es v : Bytes} {d : Double}

theorem mem_decimal {c : UInt8} (h : c ∈ decimal n) : isDigit c = true := isDigit_toDigits h

theorem mem_fraction {c : UInt8} (h : c ∈ fraction n) : isDigit c = true := by
  rw [fraction, List.mem_append] at h
  rcases h with h | h
  · rw [List.eq_of_mem_replicate h]
    decide
  · exact mem_decimal h

theorem natOf_decimal (n : Nat) : natOf (decimal n) = n := natOf_toDigits n

theorem length_fraction (h : n < 10 ^ 6) : (fraction n).length = 6 := by
  have hle : (decimal n).length ≤ 6 := by
    rw [decimal, List.length_map, Nat.length_toDigits_le_iff (by decide) (by decide)]
    exact h
  rw [fraction, List.length_append, List.length_replicate]
  omega

theorem natOf_fraction (n : Nat) : natOf (fraction n) = n := by
  rw [fraction, Lib.natOf_append, show chr '0' = 48 from rfl, Lib.natOf_zeros, natOf_decimal, Nat.zero_mul,
    Nat.zero_add]

theorem decimal_ne_nil (n : Nat) : decimal n ≠ [] := by
  rw [decimal, Ne, List.map_eq_nil_iff]
  exact Nat.toDigits_ne_nil

theorem signOf_decimal (n : Nat) (v : Bytes) : signOf (decimal n ++ v) = (false, decimal n ++ v) := by
  obtain ⟨c, t, hd⟩ := List.exists_cons_of_ne_nil (decimal_ne_nil n)
  have hc : isDigit c = true := mem_decimal (by rw [hd]; exact List.mem_cons_self)
  rw [hd, List.cons_append, Lib.signOf_digit hc]

theorem takeWhile_digits {t : Bytes} (hds : ∀ c ∈ ds, isDigit c = true) :
    (ds ++ chr '.' :: t).takeWhile isDigit = ds ∧ (ds ++ chr '.' :: t).dropWhile isDigit = chr '.' :: t := by
  constructor
  · rw [List.takeWhile_append_of_pos hds, List.takeWhile_cons_of_neg (by decide), List.append_nil]
  · rw [List.dropWhile_append_of_pos hds, List.dropWhile_cons_of_neg (by decide)]

/-- **The text of `%f`** is read as what it says. -/
theorem strtod_decimals (neg : Bool) (m : Nat) :
    strtod ((if neg then [chr '-'] else []) ++ (decimal (m / 10 ^ 6) ++ chr '.' :: fraction (m % 10 ^ 6))) =
      some (.ofScientific neg m (-6)) := by
  have hsign : signOf ((if neg then [chr '-'] else []) ++ (decimal (m / 10 ^ 6) ++ chr '.' :: fraction (m % 10 ^ 6))) =
      (neg, decimal (m / 10 ^ 6) ++ chr '.' :: fraction (m % 10 ^ 6)) := by
    cases neg with
    | false => exact signOf_decimal _ _
    | true => rfl
  have hlen : (fraction (m % 10 ^ 6)).length = 6 := length_fraction (Nat.mod_lt _ (by decide))
  have hfrac : (fraction (m % 10 ^ 6)).takeWhile isDigit = fraction (m % 10 ^ 6) :=
    List.takeWhile_eq_self_iff.mpr fun c => mem_fraction
  have htail : (fraction (m % 10 ^ 6)).dropWhile isDigit = [] := List.dropWhile_eq_nil_iff.mpr fun c => mem_fraction
  have hdigits : natOf (decimal (m / 10 ^ 6) ++ fraction (m % 10 ^ 6)) = m := by
    rw [Lib.natOf_append, natOf_decimal, natOf_fraction, hlen, Nat.mul_comm]
    exact Nat.div_add_mod m (10 ^ 6)
  obtain ⟨hip, hafter⟩ := takeWhile_digits (t := fraction (m % 10 ^ 6)) fun c => mem_decimal (n := m / 10 ^ 6)
  have hne : (decimal (m / 10 ^ 6)).isEmpty = false := by
    rw [List.isEmpty_eq_false_iff]
    exact decimal_ne_nil _
  have hexp : exponentOf [] - (6 : Nat) = -6 := rfl
  simp only [strtod, hsign, hip, hafter, if_true, hfrac, htail, hdigits, hlen, hne, Bool.false_and, Bool.false_eq_true,
    if_false, hexp]

theorem signed_numberChars (neg : Bool) : ∀ c ∈ (if neg then [chr '-'] else [] : Bytes), isNumberChar c = true := by
  intro c hc
  cases neg with
  | false => cases hc
  | true =>
    rw [List.mem_singleton.mp hc]
    decide

theorem numberChar_not_space {c : UInt8} (h : isNumberChar c = true) : isJsonSpace c = false := by
  rw [Bool.eq_false_iff]
  intro hs
  simp only [isJsonSpace, Bool.or_eq_true, decide_eq_true_eq] at hs
  rcases hs with ((rfl | rfl) | rfl) | rfl <;> exact absurd h (by decide)

theorem numberOf_stdToStringF (d : Double) : numberOf (stdToStringF d) = d.printed := by
  cases d with
  | inf neg => cases neg <;> with_unfolding_all decide
  | nan neg => cases neg <;> with_unfolding_all decide
  | finite neg q =>
    have hall : ∀ c ∈ stdToStringF (.finite neg q), isNumberChar c = true := by
      intro c hc
      simp only [stdToStringF, List.mem_append, List.mem_cons] at hc
      rcases hc with (hc | hc) | rfl | hc
      · exact signed_numberChars neg c hc
      · simp [isNumberChar, mem_decimal hc]
      · decide
      · simp [isNumberChar, mem_fraction hc]
    have hne : stdToStringF (.finite neg q) ≠ [] := by simp [stdToStringF]
    have hdrop : (stdToStringF (.finite neg q)).dropWhile isJsonSpace = stdToStringF (.finite neg q) := by
      cases ht : stdToStringF (.finite neg q) with
      | nil => exact absurd ht hne
      | cons c t =>
        have hc := numberChar_not_space (hall c (by rw [ht]; exact List.mem_cons_self))
        exact List.dropWhile_cons_of_neg (by simp [hc])
    have htake : (stdToStringF (.finite neg q)).takeWhile isNumberChar = stdToStringF (.finite neg q) :=
      List.takeWhile_eq_self_iff.mpr hall
    simp only [numberOf, hdrop, htake]
    rw [if_neg (by simpa using hne), stdToStringF, List.append_assoc, strtod_decimals]
    rfl

end Decimals

/-! ## The payload -/

section Payload

variable {opt : CliOptions} {key k v : Bytes} {l : List (Bytes × Bytes)}

theorem numberFrom_closing (hkey : IsName key) :
    numberFrom (quoted key ++ (chr ':' :: v ++ [chr '\x7d'])) = numberOf v ∧
      ∀ r, numberFrom (quoted key ++ (chr ':' :: v ++ [chr ','] ++ r)) = numberOf v := by
  refine ⟨?_, fun r => ?_⟩
  · rw [numberFrom_skip (colon_notMem_quoted hkey.2.1), List.cons_append, numberFrom_colon]
    exact numberOf_append (by decide) (by decide)
  · rw [numberFrom_skip (colon_notMem_quoted hkey.2.1), List.append_assoc, List.cons_append, numberFrom_colon]
    exact numberOf_append (by decide) (by decide)

theorem number_closing (hkey : IsName key) (hl : ∀ f ∈ l, chr '"' ∉ f.2 ∧ (Closes key f.1 ↔ f.1 = key)) :
    (seek (quoted key) (fields (closing l))).bind numberFrom =
      (l.find? fun f => f.1 = key).bind fun f => numberOf f.2 := by
  induction l with
  | nil => rfl
  | cons f l ih =>
    obtain ⟨hv, hk⟩ := hl f List.mem_cons_self
    obtain ⟨w, hw, hquote⟩ := closing_cons (k := f.1) (l := l) hv
    have hgap : numberFrom (quoted key ++ (chr ':' :: w ++ fields (closing l))) = numberOf f.2 := by
      cases l with
      | nil =>
        have hw' : f.2 ++ [chr '\x7d'] = w := by simpa [closing] using hw
        rw [← hw', closing, fields, List.flatMap_nil, List.append_nil]
        exact (numberFrom_closing hkey).1
      | cons g l =>
        have hw' : f.2 ++ [chr ','] = w := by simpa [closing] using hw
        rw [← hw']
        exact (numberFrom_closing hkey).2 _
    rw [hw, seek_fields hkey (isGap_colon hquote), List.find?_cons]
    by_cases heq : f.1 = key
    · rw [if_pos (hk.mpr heq), Option.bind_some, hgap]
      simp [heq]
    · rw [if_neg (fun h => heq (hk.mp h))]
      simp only [heq, decide_false]
      exact ih fun f' hf' => hl f' (List.mem_cons_of_mem _ hf')

theorem numberFrom_comma (hkey : IsName key) (hk : IsName k) :
    numberFrom (quoted key ++ ([chr ','] ++ fields ((k, chr ':' :: v) :: l))) = numberOf (v ++ fields l) := by
  have hskip : chr ':' ∉ quoted key ++ ([chr ','] ++ quoted k) := by
    have h₁ := colon_notMem_quoted hkey.2.1
    have h₂ := colon_notMem_quoted hk.2.1
    have h₃ : chr ':' ∉ [chr ','] := by decide
    simp only [List.mem_append, not_or]
    exact ⟨h₁, h₃, h₂⟩
  have heq : quoted key ++ ([chr ','] ++ fields ((k, chr ':' :: v) :: l)) =
      (quoted key ++ ([chr ','] ++ quoted k)) ++ (chr ':' :: (v ++ fields l)) := by
    rw [fields_cons, jsonEscape_plain hk.1, quoted, quoted]
    simp
  rw [heq, numberFrom_skip hskip, numberFrom_colon]

theorem numberOf_word {c : UInt8} (hs : isJsonSpace c = false) (hn : isNumberChar c = false) :
    numberOf (c :: v) = none := by
  rw [numberOf, List.dropWhile_cons_of_neg (by simp [hs]), List.takeWhile_cons_of_neg (by simp [hn])]
  rfl

theorem closing_stream (opt : CliOptions) : ∃ c w,
    closing ((bytes "stream", opt.streamText) :: l) = (bytes "stream", chr ':' :: c :: w) :: closing l ∧
      isJsonSpace c = false ∧ isNumberChar c = false := by
  obtain ⟨c, t, htext, hs, hn⟩ :
      ∃ c t, opt.streamText = c :: t ∧ isJsonSpace c = false ∧ isNumberChar c = false := by
    rw [CliOptions.streamText]
    split
    · exact ⟨chr 't', bytes "rue", by with_unfolding_all decide, by decide, by decide⟩
    · exact ⟨chr 'f', bytes "alse", by with_unfolding_all decide, by decide, by decide⟩
  rw [htext]
  cases l with
  | nil => exact ⟨c, t ++ [chr '\x7d'], rfl, hs, hn⟩
  | cons f l => exact ⟨c, t ++ [chr ','], rfl, hs, hn⟩

/-- **A number of the request** is found unless the id or the prompt closes
its key. -/
theorem number_payload (h : opt.metrics = false) (hkey : IsName key)
    (hno : ∀ name ∈ [bytes "id", bytes "prompt", bytes "stream"], name ≠ key)
    (hname : ∀ name ∈ bytes "id" :: bytes "prompt" :: bareKeys, Closes key name ↔ name = key) :
    extractJsonNumber opt.payload key =
      if opt.Shows key then (opt.optionals.find? fun f => f.1 = key).bind fun f => numberOf f.2 else none := by
  have hbrace : chr '"' ∉ [chr '\x7b'] := by decide
  have hcolon : IsGap [chr ':'] := by decide
  have hcomma : IsGap [chr ','] := by decide
  have hprompt : IsName (bytes "prompt") := isName_of_mem (by simp)
  have hstream : IsName (bytes "stream") := isName_of_mem (by simp)
  have hid' : ¬ Closes key (bytes "id") := fun hc => hno _ (by simp) ((hname _ (by simp)).mp hc)
  have hprompt' : ¬ Closes key (bytes "prompt") := fun hc => hno _ (by simp) ((hname _ (by simp)).mp hc)
  have hseek : seek (quoted key) opt.payload = seek (quoted key) (fields opt.requestFields) := by
    rw [payload_eq h, ← List.singleton_append, quoted, List.cons_append, seek_append hbrace]
  rw [extractJsonNumber_eq, hseek, CliOptions.requestFields, seek_fields hkey hcolon, if_neg hid',
    seek_fields hkey hcomma]
  by_cases hci : Closes key opt.id
  · rw [if_pos hci, if_neg fun hs => hs.1 hci, Option.bind_some, numberFrom_comma hkey hprompt]
    rfl
  rw [if_neg hci, seek_fields hkey hcolon, if_neg hprompt', seek_fields hkey hcomma]
  by_cases hcp : Closes key opt.prompt
  · obtain ⟨c, w, hw, hs, hn⟩ := closing_stream (l := opt.optionals) opt
    rw [if_pos hcp, if_neg fun hs => hs.2 hcp, Option.bind_some, hw, numberFrom_comma hkey hstream]
    exact numberOf_word hs hn
  rw [if_neg hcp, if_pos ⟨hci, hcp⟩, number_closing hkey, List.find?_cons]
  · simp only [hno _ (show bytes "stream" ∈ [bytes "id", bytes "prompt", bytes "stream"] by simp), decide_false]
  · intro f hf
    rcases List.mem_cons.mp hf with rfl | hf
    · exact ⟨quote_notMem_streamText, hname _ (by simp [bareKeys])⟩
    · obtain ⟨hv, hmem⟩ := optionals_mem hf
      exact ⟨hv, hname _ (by simp [List.mem_of_mem_tail hmem])⟩

theorem number_names : ∀ key ∈ [bytes "temperature", bytes "top_p", bytes "top_k"], IsName key ∧
    (∀ name ∈ [bytes "id", bytes "prompt", bytes "stream"], name ≠ key) ∧
    ∀ name ∈ bytes "id" :: bytes "prompt" :: bareKeys, Closes key name ↔ name = key := by
  decide +kernel

theorem optionals_temperature :
    ((opt.optionals.find? fun f => f.1 = bytes "temperature").bind fun f => numberOf f.2) =
      if opt.hasTemperature then opt.temperature.printed else none := by
  have hmax : bytes "max_tokens" ≠ bytes "temperature" := by with_unfolding_all decide
  have htop : bytes "top_p" ≠ bytes "temperature" := by with_unfolding_all decide
  rw [← numberOf_stdToStringF, CliOptions.optionals]
  split <;> split <;> split <;> simp_all

theorem optionals_topP :
    ((opt.optionals.find? fun f => f.1 = bytes "top_p").bind fun f => numberOf f.2) =
      if opt.hasTopP then opt.topP.printed else none := by
  have hmax : bytes "max_tokens" ≠ bytes "top_p" := by with_unfolding_all decide
  have htemp : bytes "temperature" ≠ bytes "top_p" := by with_unfolding_all decide
  rw [← numberOf_stdToStringF, CliOptions.optionals]
  split <;> split <;> split <;> simp_all

theorem optionals_topK : (opt.optionals.find? fun f => f.1 = bytes "top_k") = none := by
  have hne : ∀ name ∈ bareKeys, name ≠ bytes "top_k" := by decide +kernel
  rw [List.find?_eq_none]
  intro f hf
  simpa using hne _ (List.mem_of_mem_tail (optionals_mem hf).2)

/-- **The preferences of a request** are those of the options, to six
decimals; the default stands for one that is not given, is no number, or
whose key the id or the prompt closes. -/
theorem preferences_payload (h : opt.metrics = false) : ownPreferences opt.payload = opt.preferences := by
  obtain ⟨ht, hp, hk⟩ := List.forall_mem_cons.mp number_names |>.imp_right List.forall_mem_cons.mp
  have hk := List.forall_mem_singleton.mp hk
  rw [ownPreferences, number_payload h ht.1 ht.2.1 ht.2.2, number_payload h hp.1 hp.2.1 hp.2.2,
    number_payload h hk.1 hk.2.1 hk.2.2, optionals_temperature, optionals_topP, optionals_topK, CliOptions.preferences]
  congr 1
  · congr 1
    split <;> split <;> simp_all
  · congr 1
    split <;> split <;> simp_all
  · split <;> rfl

end Payload
end UmaServe
