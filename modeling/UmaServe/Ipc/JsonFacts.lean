/-
What `extract_json_string` reads. The key search is a search for a suffix
(`seek`), the two searches after it skip to the next colon and the next quote
(`valueFrom`), and the scanner reads a JSON string item by item
(`scanString_items`), with `?` for a `\u` escape.

A quoted word without quotes and backslashes is found inside an escaped
string in one way only: the string ends with it, after a quote of its own or
after the opening one (`seek_string`).
-/
import UmaServe.Lib.Json
import UmaServe.Ipc.Json
import UmaServe.Ipc.Protocol

namespace UmaServe

open Lib.Json (Item)

/-! ## The searches -/

/-- The text from the first occurrence of `pat` on. -/
def seek (pat s : Bytes) : Option Bytes := (find pat s).map fun k => s.drop k

/-- What stands behind the next quote after the next colon. -/
def bodyFrom (s : Bytes) : Option Bytes :=
  match (s.dropWhile fun c => c ≠ chr ':').dropWhile fun c => c ≠ chr '"' with
  | [] => none
  | _ :: body => some body

/-- The body of the string behind a key, as the sources look for it. -/
def bodyAt (s key : Bytes) : Option Bytes := do
  let k ← findFrom (quoted key) s 0
  let colon ← findFrom [chr ':'] s k
  let q ← findFrom [chr '"'] s colon
  some (s.drop (q + 1))

/-- What is read behind a key: the string at the next quote after the next
colon. -/
def valueFrom (s : Bytes) : Bytes × Bool :=
  match (s.dropWhile fun c => c ≠ chr ':').dropWhile fun c => c ≠ chr '"' with
  | [] => ([], false)
  | _ :: body => scanString [] body

section Search

variable {pat s t key : Bytes} {c : UInt8} {k : Nat}

theorem seek_cons : seek pat (c :: s) = if pat.isPrefixOf (c :: s) then some (c :: s) else seek pat s := by
  rw [seek, find]
  split
  · rfl
  · rw [Option.map_map]
    rfl

theorem find_byte_none (h : find [c] s = none) : s.dropWhile (fun b => b ≠ c) = [] := by
  induction s with
  | nil => rfl
  | cons b s ih =>
    simp only [find, List.isPrefixOf, Bool.and_true, beq_iff_eq] at h
    split at h
    next => cases h
    next hne =>
      rw [Option.map_eq_none_iff] at h
      rw [List.dropWhile_cons_of_pos (by simpa using Ne.symm hne), ih h]

theorem find_byte_some (h : find [c] s = some k) : s.drop k = s.dropWhile (fun b => b ≠ c) := by
  induction s generalizing k with
  | nil => simp [find] at h
  | cons b s ih =>
    simp only [find, List.isPrefixOf, Bool.and_true, beq_iff_eq] at h
    split at h
    next heq =>
      cases h
      rw [List.dropWhile_cons_of_neg (by simpa using heq.symm)]
      rfl
    next hne =>
      obtain ⟨k, hk, rfl⟩ := Option.map_eq_some_iff.mp h
      rw [List.dropWhile_cons_of_pos (by simpa using Ne.symm hne), List.drop_succ_cons, ih hk]

theorem find_prefix (h : find pat s = some k) : ∃ y, s.drop k = pat ++ y := by
  induction s generalizing k with
  | nil =>
    rw [find] at h
    split at h
    next hnil => exact ⟨[], by simp [List.isEmpty_iff.mp hnil]⟩
    next => cases h
  | cons b s ih =>
    rw [find] at h
    split at h
    next hp =>
      cases h
      obtain ⟨y, hy⟩ := List.isPrefixOf_iff_prefix.mp hp
      exact ⟨y, hy.symm⟩
    next =>
      obtain ⟨k, hk, rfl⟩ := Option.map_eq_some_iff.mp h
      obtain ⟨y, hy⟩ := ih hk
      exact ⟨y, by rw [List.drop_succ_cons, hy]⟩

theorem bodyAt_eq : bodyAt s key = (seek (quoted key) s).bind bodyFrom := by
  unfold bodyAt seek
  simp only [findFrom, List.drop_zero, Option.bind_eq_bind]
  cases hk : find (quoted key) s with
  | none => rfl
  | some k =>
    simp only [Option.map_some, Nat.add_zero, Option.bind_some, bodyFrom]
    cases hc : find [chr ':'] (s.drop k) with
    | none => rw [find_byte_none hc]; rfl
    | some c =>
      have hcolon : s.drop (c + k) = (s.drop k).dropWhile fun b => b ≠ chr ':' := by
        rw [Nat.add_comm, ← List.drop_drop, find_byte_some hc]
      simp only [Option.map_some, Option.bind_some, hcolon]
      cases hq : find [chr '"'] ((s.drop k).dropWhile fun b => b ≠ chr ':') with
      | none => rw [find_byte_none hq]; rfl
      | some q =>
        have hquote : s.drop (q + (c + k)) =
            ((s.drop k).dropWhile fun b => b ≠ chr ':').dropWhile fun b => b ≠ chr '"' := by
          rw [Nat.add_comm, ← List.drop_drop, hcolon, find_byte_some hq]
        simp only [Option.map_some, Option.bind_some]
        rw [← hquote, ← List.drop_drop]
        cases hbody : s.drop (q + (c + k)) with
        | nil =>
          -- The quote that was found stands there.
          obtain ⟨y, hy⟩ := find_prefix hq
          rw [← hcolon, List.drop_drop, Nat.add_comm, hbody] at hy
          cases hy
        | cons => rfl

theorem valueFrom_eq : valueFrom s = ((bodyFrom s).map (scanString [])).getD ([], false) := by
  rw [valueFrom, bodyFrom]
  split <;> rfl

theorem extractJsonString_eq : extractJsonString s key = ((seek (quoted key) s).map valueFrom).getD ([], false) := by
  have hbody : extractJsonString s key = ((bodyAt s key).map (scanString [])).getD ([], false) := by
    unfold extractJsonString bodyAt
    cases findFrom (quoted key) s 0 with
    | none => rfl
    | some k =>
      simp only [Option.bind_eq_bind, Option.bind_some]
      cases findFrom [chr ':'] s k with
      | none => rfl
      | some c =>
        simp only [Option.bind_some]
        cases findFrom [chr '"'] s c <;> rfl
  rw [hbody, bodyAt_eq]
  cases seek (quoted key) s with
  | none => rfl
  | some t => exact valueFrom_eq.symm

theorem seek_append (h : c ∉ s) : seek (c :: pat) (s ++ t) = seek (c :: pat) t := by
  induction s with
  | nil => rfl
  | cons b s ih =>
    rw [List.mem_cons, not_or] at h
    have hne : (c == b) = false := by simpa using h.1
    rw [List.cons_append, seek_cons, List.isPrefixOf, hne, Bool.false_and, if_neg (by simp), ih h.2]

theorem bodyFrom_skip (h : chr ':' ∉ s) : bodyFrom (s ++ t) = bodyFrom t := by
  have hdrop : (s ++ t).dropWhile (fun c => c ≠ chr ':') = t.dropWhile fun c => c ≠ chr ':' := by
    induction s with
    | nil => rfl
    | cons b s ih =>
      rw [List.mem_cons, not_or] at h
      rw [List.cons_append, List.dropWhile_cons_of_pos (by simpa using Ne.symm h.1), ih h.2]
  rw [bodyFrom, hdrop, bodyFrom]

theorem valueFrom_skip (h : chr ':' ∉ s) : valueFrom (s ++ t) = valueFrom t := by
  rw [valueFrom_eq, bodyFrom_skip h, ← valueFrom_eq]

theorem ne_quote (h : chr '"' ∉ s) : ∀ b ∈ chr ':' :: s, decide (b ≠ chr '"') = true := by
  intro b hb
  rcases List.mem_cons.mp hb with rfl | hb
  · decide
  · simpa using fun he : b = chr '"' => h (he ▸ hb)

theorem bodyFrom_colon (h : chr '"' ∉ s) : bodyFrom (chr ':' :: s ++ chr '"' :: t) = some t := by
  have hdrop : (chr ':' :: s ++ chr '"' :: t).dropWhile (fun c => c ≠ chr '"') = chr '"' :: t := by
    rw [List.dropWhile_append_of_pos (ne_quote h), List.dropWhile_cons_of_neg (by simp)]
  rw [bodyFrom, List.cons_append, List.dropWhile_cons_of_neg (by simp), ← List.cons_append, hdrop]

theorem valueFrom_colon (h : chr '"' ∉ s) : valueFrom (chr ':' :: s ++ chr '"' :: t) = scanString [] t := by
  rw [valueFrom_eq, bodyFrom_colon h]
  rfl

theorem bodyFrom_none (h : chr '"' ∉ s) : bodyFrom (chr ':' :: s) = none := by
  have hdrop : (chr ':' :: s).dropWhile (fun c => c ≠ chr '"') = [] := by
    rw [← List.append_nil (chr ':' :: s), List.dropWhile_append_of_pos (ne_quote h)]
    rfl
  rw [bodyFrom, List.dropWhile_cons_of_neg (by simp), hdrop]

theorem dropWhile_ne (c : UInt8) (s : Bytes) :
    s.dropWhile (fun b => b ≠ c) = [] ∨
      ∃ gap rest, s = gap ++ c :: rest ∧ c ∉ gap ∧ s.dropWhile (fun b => b ≠ c) = c :: rest := by
  induction s with
  | nil => exact .inl rfl
  | cons b s ih =>
    by_cases hb : b = c
    · subst hb
      exact .inr ⟨[], s, rfl, by simp, by rw [List.dropWhile_cons_of_neg (by simp)]⟩
    · rw [List.dropWhile_cons_of_pos (by simpa using hb)]
      refine ih.imp_right ?_
      rintro ⟨gap, rest, rfl, hgap, hdrop⟩
      exact ⟨b :: gap, rest, rfl, by simp [hgap, Ne.symm hb], hdrop⟩

theorem valueFrom_inv {v : Bytes} (h : valueFrom s = (v, false)) (hne : v ≠ []) :
    ∃ gap₁ gap₂ body, s = gap₁ ++ chr ':' :: gap₂ ++ chr '"' :: body ∧ chr ':' ∉ gap₁ ∧ chr '"' ∉ gap₂ ∧
      scanString [] body = (v, false) := by
  have hnil : valueFrom s ≠ ([], false) := by
    rw [h]
    simpa using hne
  rw [valueFrom] at h hnil
  obtain hcolon | ⟨gap₁, rest, rfl, hgap₁, hcolon⟩ := dropWhile_ne (chr ':') s
  · rw [hcolon] at hnil
    exact absurd rfl hnil
  · have hskip : ∀ r : Bytes, (chr ':' :: r).dropWhile (fun b => b ≠ chr '"') = r.dropWhile fun b => b ≠ chr '"' :=
      fun r => List.dropWhile_cons_of_pos (by decide)
    rw [hcolon, hskip] at h hnil
    obtain hquote | ⟨gap₂, body, rfl, hgap₂, hquote⟩ := dropWhile_ne (chr '"') rest
    · rw [hquote] at hnil
      exact absurd rfl hnil
    · rw [hquote] at h
      exact ⟨gap₁, gap₂, body, by simp, hgap₁, hgap₂, h⟩

end Search

/-! ## The scanner -/

section Scan

variable {out rest : Bytes} {items : List Item}

theorem ascii_eq (c : Char) : Lib.Json.ascii c = chr c := rfl

theorem simpleEscape_eq (e : UInt8) : simpleEscape e = Lib.Json.escapeOf e := rfl

theorem raw_valid_iff {c : UInt8} : (Item.raw c).valid = true ↔ ¬ c < 0x20 ∧ c ≠ chr '"' ∧ c ≠ chr '\\' := by
  simp only [Item.valid, Bool.and_eq_true, decide_eq_true_eq, ne_eq, UInt8.not_lt, and_assoc]
  rfl

theorem scanString_item {i : Item} (h : i.valid = true) :
    scanString out (i.text ++ rest) = scanString (out ++ [i.byte (chr '?')]) rest := by
  cases i with
  | raw b =>
    obtain ⟨hlt, hq, hb⟩ := raw_valid_iff.mp h
    simp only [Item.text, List.singleton_append]
    rw [scanString.eq_def]
    simp [hlt, hq, hb, Item.byte]
  | escape e =>
    obtain ⟨b, hb⟩ := Option.isSome_iff_exists.mp h
    have hu : ¬ e = chr 'u' := by
      rintro rfl
      cases hb
    have hs : simpleEscape e = some b := hb
    simp only [Item.text, List.cons_append, List.nil_append]
    rw [scanString.eq_def]
    have hbyte : (Item.escape e).byte (chr '?') = b := by simp [Item.byte, hb]
    simp [ascii_eq, hu, hs, hbyte]
  | unicode h₁ h₂ h₃ h₄ =>
    have hhex : (isHex h₁ && isHex h₂ && isHex h₃ && isHex h₄) = true := h
    simp only [Item.text, List.cons_append, List.nil_append]
    rw [scanString.eq_def]
    simp only [ascii_eq, if_true]
    rw [if_pos hhex]
    rfl

theorem scanString_append (h : ∀ i ∈ items, i.valid = true) :
    scanString out (Lib.Json.body items ++ rest) = scanString (out ++ items.map (Item.byte (chr '?'))) rest := by
  induction items generalizing out with
  | nil => rw [Lib.Json.body_nil, List.nil_append, List.map_nil, List.append_nil]
  | cons i items ih =>
    rw [Lib.Json.body_cons, List.append_assoc, scanString_item (h i List.mem_cons_self),
      ih fun j hj => h j (List.mem_cons_of_mem _ hj), List.append_assoc]
    rfl

/-- **A JSON string** is read item by item, up to its closing quote. -/
theorem scanString_items (h : ∀ i ∈ items, i.valid = true) :
    scanString out (Lib.Json.body items ++ chr '"' :: rest) = (out ++ items.map (Item.byte (chr '?')), false) := by
  have hne : ¬ chr '"' = chr '\\' := by decide
  rw [scanString_append h, scanString.eq_def]
  simp [hne]

/-- The text of `items`, up to a quote or to the end of `s`. -/
def Spells (s : Bytes) (items : List Item) : Prop :=
  (∀ i ∈ items, i.valid = true) ∧
    ∃ tail, s = Lib.Json.body items ++ tail ∧ (tail = [] ∨ tail.head? = some (chr '"'))

theorem Spells.cons {s : Bytes} {i : Item} (h : Spells s items) (hi : i.valid = true) :
    Spells (i.text ++ s) (i :: items) := by
  obtain ⟨hv, tail, rfl, htail⟩ := h
  exact ⟨List.forall_mem_cons.mpr ⟨hi, hv⟩, tail, by simp, htail⟩

theorem scanString_spells {s : Bytes} (h : Spells s items) :
    scanString out s = (out ++ items.map (Item.byte (chr '?')), false) := by
  obtain ⟨hv, tail, rfl, htail⟩ := h
  cases tail with
  | nil =>
    rw [scanString_append hv, scanString]
  | cons c tail =>
    obtain rfl : c = chr '"' := by simpa using htail
    exact scanString_items hv

/-- **Whatever the scanner reads** without a complaint is spelled by items. -/
theorem scanString_inv {s v : Bytes} (h : scanString out s = (v, false)) :
    ∃ items, Spells s items ∧ v = out ++ items.map (Item.byte (chr '?')) := by
  fun_induction scanString out s
  case case1 out =>
    cases h
    exact ⟨[], ⟨by simp, [], rfl, .inl rfl⟩, by simp⟩
  case case2 | case4 | case5 | case7 | case9 => cases h
  case case3 out h₁ h₂ h₃ h₄ rest hhex ih =>
    obtain ⟨items, hs, rfl⟩ := ih h
    exact ⟨.unicode h₁ h₂ h₃ h₄ :: items, hs.cons hhex, by simp [Item.byte]⟩
  case case6 out e rest hu b hb ih =>
    obtain ⟨items, hs, rfl⟩ := ih h
    rw [simpleEscape_eq] at hb
    exact ⟨.escape e :: items, hs.cons (by simp [Item.valid, hb]), by simp [Item.byte, hb]⟩
  case case8 out rest hne =>
    cases h
    exact ⟨[], ⟨by simp, chr '"' :: rest, rfl, .inr rfl⟩, by simp⟩
  case case10 out c rest hback hquote hctl ih =>
    obtain ⟨items, hs, rfl⟩ := ih h
    exact ⟨.raw c :: items, hs.cons (raw_valid_iff.mpr ⟨hctl, hquote, hback⟩), by simp [Item.byte]⟩

end Scan

/-! ## The escaper -/

/-- The item `json_escape` writes for a byte. -/
def escapeItem (c : UInt8) : Item :=
  if c = chr '"' then .escape (chr '"')
  else if c = chr '\\' then .escape (chr '\\')
  else if c = chr '\n' then .escape (chr 'n')
  else if c = chr '\r' then .escape (chr 'r')
  else if c = chr '\t' then .escape (chr 't')
  else if c < 0x20 then .unicode (chr '0') (chr '0') (hexDigit (c.toNat / 16)) (hexDigit (c.toNat % 16))
  else .raw c

/-- What the scanner makes of a byte that was escaped. -/
def placeholder (c : UInt8) : UInt8 :=
  if c < 0x20 ∧ c ≠ chr '\n' ∧ c ≠ chr '\r' ∧ c ≠ chr '\t' then chr '?' else c

section Escape

variable {c : UInt8} {s key r x y : Bytes} {items : List Item}

theorem escapeByte_eq (c : UInt8) : escapeByte c = (escapeItem c).text := by
  have hu : bytes "\\u00" = [chr '\\', chr 'u', chr '0', chr '0'] := by with_unfolding_all decide
  unfold escapeByte escapeItem
  split
  · with_unfolding_all decide
  split
  · with_unfolding_all decide
  split
  · with_unfolding_all decide
  split
  · with_unfolding_all decide
  split
  · with_unfolding_all decide
  split
  · rw [uEscape, hu]
    rfl
  · rfl

theorem isHex_hexDigit : ∀ n < 16, Lib.Json.isHexDigit (hexDigit n) = true := by decide

theorem escapeItem_valid (c : UInt8) : (escapeItem c).valid = true := by
  unfold escapeItem
  split
  · rfl
  split
  · rfl
  split
  · rfl
  split
  · rfl
  split
  · rfl
  split
  next hctl =>
    have hlt : c.toNat < 32 := UInt8.lt_iff_toNat_lt.mp hctl
    simp only [Item.valid, isHex_hexDigit _ (show c.toNat / 16 < 16 by omega),
      isHex_hexDigit _ (show c.toNat % 16 < 16 by omega)]
    decide
  next hquote hback _ _ _ hctl => exact raw_valid_iff.mpr ⟨hctl, hquote, hback⟩

theorem escapeItem_byte (c : UInt8) : (escapeItem c).byte (chr '?') = placeholder c := by
  unfold escapeItem placeholder
  split
  next h => subst h; decide
  split
  next h => subst h; decide
  split
  next h => subst h; decide
  split
  next h => subst h; decide
  split
  next h => subst h; decide
  next hn hr ht =>
    split
    next hctl => rw [if_pos ⟨hctl, hn, hr, ht⟩]; rfl
    next hctl => rw [if_neg fun h => hctl h.1]; rfl

theorem jsonEscape_eq (s : Bytes) : jsonEscape s = Lib.Json.body (s.map escapeItem) := by
  rw [jsonEscape, Lib.Json.body, List.flatMap_map]
  exact congrArg (fun f => s.flatMap f) (funext escapeByte_eq)

/-- **The scanner inverts the escaper**, control characters apart. -/
theorem scanString_jsonEscape (s rest : Bytes) :
    scanString [] (jsonEscape s ++ chr '"' :: rest) = (s.map placeholder, false) := by
  rw [jsonEscape_eq, scanString_items, List.map_map]
  · simp only [Function.comp_def, escapeItem_byte, List.nil_append]
  · intro i hi
    obtain ⟨c, -, rfl⟩ := List.mem_map.mp hi
    exact escapeItem_valid c

/-- Bytes that stand for themselves in a JSON string. -/
def Plain (key : Bytes) : Prop := ∀ c ∈ key, (Item.raw c).valid = true

instance : Decidable (Plain key) := inferInstanceAs (Decidable (∀ c ∈ key, _))

theorem body_eq_plain (hv : ∀ i ∈ items, i.valid = true) (hkey : Plain key)
    (h : Lib.Json.body items ++ chr '"' :: x = key ++ chr '"' :: y) : items = key.map Item.raw ∧ x = y := by
  induction items generalizing key with
  | nil =>
    cases key with
    | nil => exact ⟨rfl, List.tail_eq_of_cons_eq h⟩
    | cons c key => exact absurd (List.head_eq_of_cons_eq h).symm (raw_valid_iff.mp (hkey c List.mem_cons_self)).2.1
  | cons i items ih =>
    have hvi := hv i List.mem_cons_self
    rw [Lib.Json.body_cons, List.append_assoc] at h
    cases key with
    | nil =>
      cases i with
      | raw b => exact absurd (List.head_eq_of_cons_eq h) (raw_valid_iff.mp hvi).2.1
      | escape | unicode => exact absurd (List.head_eq_of_cons_eq h) (by decide)
    | cons c key =>
      have hc := raw_valid_iff.mp (hkey c List.mem_cons_self)
      cases i with
      | raw b =>
        obtain rfl : b = c := List.head_eq_of_cons_eq h
        obtain ⟨hitems, hxy⟩ := ih (fun j hj => hv j (List.mem_cons_of_mem _ hj))
          (fun d hd => hkey d (List.mem_cons_of_mem _ hd)) (List.tail_eq_of_cons_eq h)
        exact ⟨by rw [hitems]; rfl, hxy⟩
      | escape | unicode => exact absurd (List.head_eq_of_cons_eq h).symm hc.2.2

theorem escapeItem_eq_raw {b : UInt8} (hb : (Item.raw b).valid = true) : escapeItem c = .raw b ↔ c = b := by
  obtain ⟨hctl, hq, hback⟩ := raw_valid_iff.mp hb
  constructor
  · intro h
    unfold escapeItem at h
    repeat' split at h
    all_goals cases h
    rfl
  · rintro rfl
    rw [escapeItem, if_neg hq, if_neg hback, if_neg hctl]
    split
    next h => subst h; exact absurd hctl (by decide)
    split
    next h => subst h; exact absurd hctl (by decide)
    split
    next h => subst h; exact absurd hctl (by decide)
    rfl

theorem map_escapeItem_eq (hkey : Plain key) : s.map escapeItem = key.map Item.raw ↔ s = key := by
  induction s generalizing key with
  | nil => cases key <;> simp
  | cons c s ih =>
    cases key with
    | nil => simp
    | cons k key =>
      rw [List.map_cons, List.map_cons, List.cons.injEq, List.cons.injEq,
        escapeItem_eq_raw (hkey k List.mem_cons_self), ih fun d hd => hkey d (List.mem_cons_of_mem _ hd)]

theorem jsonEscape_plain (hkey : Plain key) : jsonEscape key = key := by
  rw [jsonEscape_eq, (map_escapeItem_eq hkey).mpr rfl, Lib.Json.body_raw]

theorem string_plain (hkey : Plain key) (r : Bytes) :
    chr '"' :: jsonEscape key ++ chr '"' :: r = quoted key ++ r := by
  simp [jsonEscape_plain hkey, quoted]

theorem quote_notMem_escapeByte (hc : c ≠ chr '"') : chr '"' ∉ escapeByte c := by
  have hhex : ∀ n < 16, hexDigit n ≠ chr '"' := by decide
  unfold escapeByte
  rw [if_neg hc]
  split
  · with_unfolding_all decide
  split
  · with_unfolding_all decide
  split
  · with_unfolding_all decide
  split
  · with_unfolding_all decide
  split
  next hctl =>
    have hlt : c.toNat < 32 := UInt8.lt_iff_toNat_lt.mp hctl
    have hu : chr '"' ∉ bytes "\\u00" := by with_unfolding_all decide
    simp only [uEscape, List.mem_append, List.mem_cons, List.not_mem_nil, or_false, not_or]
    exact ⟨hu, (hhex _ (by omega)).symm, (hhex _ (by omega)).symm⟩
  next => simpa using hc.symm

theorem quoted_isPrefixOf (hkey : Plain key) :
    (quoted key).isPrefixOf (chr '"' :: jsonEscape s ++ chr '"' :: r) = true ↔ s = key := by
  rw [List.isPrefixOf_iff_prefix]
  constructor
  · intro ⟨y, hy⟩
    have hbody : Lib.Json.body (s.map escapeItem) ++ chr '"' :: r = key ++ chr '"' :: y := by
      rw [← jsonEscape_eq]
      simpa [quoted] using hy.symm
    refine (map_escapeItem_eq hkey).mp (body_eq_plain (fun i hi => ?_) hkey hbody).1
    obtain ⟨c, -, rfl⟩ := List.mem_map.mp hi
    exact escapeItem_valid c
  · rintro rfl
    exact ⟨r, (string_plain hkey r).symm⟩

theorem seek_string_of (hkey : Plain key)
    (h : seek (quoted key) (jsonEscape s ++ chr '"' :: r) =
      if chr '"' :: key <:+ s then some (quoted key ++ r) else seek (quoted key) (chr '"' :: r)) :
    seek (quoted key) (chr '"' :: jsonEscape s ++ chr '"' :: r) =
      if s = key ∨ chr '"' :: key <:+ s then some (quoted key ++ r) else seek (quoted key) (chr '"' :: r) := by
  rw [List.cons_append, seek_cons, ← List.cons_append]
  by_cases hs : s = key
  · rw [if_pos ((quoted_isPrefixOf hkey).mpr hs), if_pos (.inl hs), hs, string_plain hkey]
  · rw [if_neg (mt (quoted_isPrefixOf hkey).mp hs), h]
    simp only [hs, false_or]

theorem seek_escaped (hkey : Plain key) :
    seek (quoted key) (jsonEscape s ++ chr '"' :: r) =
      if chr '"' :: key <:+ s then some (quoted key ++ r) else seek (quoted key) (chr '"' :: r) := by
  induction s with
  | nil => simp [jsonEscape]
  | cons c s ih =>
    have hcons : jsonEscape (c :: s) = escapeByte c ++ jsonEscape s := rfl
    rw [hcons, List.append_assoc]
    by_cases hc : c = chr '"'
    · -- The escaped quote may open the word.
      subst hc
      have hesc : escapeByte (chr '"') = [chr '\\', chr '"'] := by with_unfolding_all decide
      have hback : chr '"' ∉ [chr '\\'] := by decide
      rw [hesc, show [chr '\\', chr '"'] = [chr '\\'] ++ [chr '"'] from rfl, List.append_assoc, quoted,
        List.cons_append, seek_append hback, ← List.cons_append, ← quoted, List.singleton_append, ← List.cons_append,
        seek_string_of hkey ih]
      simp only [List.suffix_cons_iff, List.cons.injEq, true_and, eq_comm]
    · rw [quoted, List.cons_append, seek_append (quote_notMem_escapeByte hc), ← List.cons_append, ← quoted, ih]
      have hiff : chr '"' :: key <:+ c :: s ↔ chr '"' :: key <:+ s := by
        rw [List.suffix_cons_iff, List.cons.injEq]
        exact or_iff_right fun h => hc h.1.symm
      simp only [hiff]

/-- **A plain word in quotes** is first found in a text that begins with a
string: at the end of the string, or behind it. -/
theorem seek_string (hkey : Plain key) (s r : Bytes) :
    seek (quoted key) (chr '"' :: jsonEscape s ++ chr '"' :: r) =
      if s = key ∨ chr '"' :: key <:+ s then some (quoted key ++ r) else seek (quoted key) (chr '"' :: r) :=
  seek_string_of hkey (seek_escaped hkey)

end Escape

/-! ## Members -/

/-- The string that is read for `key`: behind its first occurrence in quotes,
the next colon and the next quote. -/
def ValueAt (js key : Bytes) (items : List Item) : Prop :=
  ∃ k gap₁ gap₂ body, find (quoted key) js = some k ∧
    js.drop k = quoted key ++ gap₁ ++ chr ':' :: gap₂ ++ chr '"' :: body ∧ chr ':' ∉ gap₁ ∧ chr '"' ∉ gap₂ ∧
    Spells body items

/-- Where the quoted key first stands in `js`, it is the key of a top-level
member of an object, with the string `items` as its value. -/
def MemberAt (js key : Bytes) (items : List Item) : Prop :=
  ∃ k m, find (quoted key) js = some k ∧ Lib.Json.KeyAt js k m ∧ (∀ i ∈ items, i.valid = true) ∧
    m.value = Lib.Json.string items

section Members

variable {js key v : Bytes} {k : Nat} {m : Lib.Json.Member} {items : List Item}

theorem colon_notMem_quoted (hkey : chr ':' ∉ key) : chr ':' ∉ quoted key := by
  have hquote : chr ':' ≠ chr '"' := by decide
  simp [quoted, hkey, hquote]

/-- Whatever is read for a key without a complaint is a string of the
payload, or nothing. -/
theorem extract_valueAt (hkey : chr ':' ∉ key) (h : extractJsonString js key = (v, false)) (hne : v ≠ []) :
    ∃ items, ValueAt js key items ∧ v = items.map (Item.byte (chr '?')) := by
  have hskip := colon_notMem_quoted hkey
  rw [extractJsonString_eq, seek] at h
  cases hk : find (quoted key) js with
  | none =>
    rw [hk] at h
    cases h
    exact absurd rfl hne
  | some k =>
    obtain ⟨y, hy⟩ := find_prefix hk
    rw [hk, Option.map_some, Option.map_some, Option.getD_some, hy, valueFrom_skip hskip] at h
    obtain ⟨gap₁, gap₂, body, rfl, hgap₁, hgap₂, hbody⟩ := valueFrom_inv h hne
    obtain ⟨items, hs, rfl⟩ := scanString_inv hbody
    exact ⟨items, ⟨k, gap₁, gap₂, body, hk, by rw [hy]; simp, hgap₁, hgap₂, hs⟩, rfl⟩

theorem ValueAt.valid (h : ValueAt js key items) : ∀ i ∈ items, i.valid = true := by
  obtain ⟨-, -, -, -, -, -, -, -, hv, -⟩ := h
  exact hv

theorem ValueAt.extract (hkey : chr ':' ∉ key) (h : ValueAt js key items) :
    extractJsonString js key = (items.map (Item.byte (chr '?')), false) := by
  obtain ⟨k, gap₁, gap₂, body, hk, hdrop, hgap₁, hgap₂, hs⟩ := h
  have hskip : chr ':' ∉ quoted key ++ gap₁ := by
    rw [List.mem_append, not_or]
    exact ⟨colon_notMem_quoted hkey, hgap₁⟩
  have hvalue : js.drop k = (quoted key ++ gap₁) ++ (chr ':' :: gap₂ ++ chr '"' :: body) := by
    rw [hdrop]
    simp
  rw [extractJsonString_eq, seek, hk, Option.map_some, Option.map_some, Option.getD_some, hvalue, valueFrom_skip hskip,
    valueFrom_colon hgap₂, scanString_spells hs, List.nil_append]

theorem notMem_of_isWs {ws : Bytes} {c : UInt8} (h : Lib.Json.IsWs ws)
    (hc : c ≠ 0x20 ∧ c ≠ 0x09 ∧ c ≠ 0x0A ∧ c ≠ 0x0D) : c ∉ ws := by
  intro hmem
  rcases h c hmem with h | h | h | h
  · exact hc.1 h
  · exact hc.2.1 h
  · exact hc.2.2.1 h
  · exact hc.2.2.2 h

theorem keyAt_key (hkey : Plain key) (hk : find (quoted key) js = some k) (hat : Lib.Json.KeyAt js k m) :
    m.key = key.map Item.raw := by
  obtain ⟨⟨d, hok⟩, rest, hdrop⟩ := hat.drop
  obtain ⟨y, hy⟩ := find_prefix hk
  have hboth := hdrop.symm.trans hy
  simp only [Lib.Json.string, quoted, ascii_eq, List.cons_append, List.append_assoc, List.cons.injEq] at hboth
  exact (body_eq_plain hok.key hkey (by simpa using hboth.2)).1

theorem decode_raw (hkey : Plain key) : Lib.Json.decode (key.map Item.raw) = some key := by
  have hraw : ∀ i ∈ key.map Item.raw, i.valid = true ∧ i.isUnicode = false := by
    intro i hi
    obtain ⟨c, hc, rfl⟩ := List.mem_map.mp hi
    exact ⟨hkey c hc, rfl⟩
  rw [Lib.Json.decode_plain (chr '?') (fun i hi => (hraw i hi).1) fun i hi => (hraw i hi).2, List.map_map]
  exact congrArg some (List.map_id key)

/-- The object has a top-level member with this name and this string. -/
def HasMember (js key : Bytes) (items : List Item) : Prop :=
  ∃ ms, Lib.Json.ObjectText js ms ∧ ∃ m ∈ ms, Lib.Json.decode m.key = some key ∧ m.value = Lib.Json.string items

theorem MemberAt.hasMember (hkey : Plain key) (h : MemberAt js key items) : HasMember js key items := by
  obtain ⟨k, m, hk, hat, -, hval⟩ := h
  obtain ⟨ms, hobj, hm⟩ := hat.objectText
  exact ⟨ms, hobj, m, hm, by rw [keyAt_key hkey hk hat, decode_raw hkey], hval⟩

/-- **A top-level member** that is found is the one that is read. -/
theorem MemberAt.valueAt (hkey : Plain key) (h : MemberAt js key items) : ValueAt js key items := by
  obtain ⟨k, m, hk, hat, hv, hval⟩ := h
  obtain ⟨⟨d, hok⟩, rest, hdrop⟩ := hat.drop
  have hstring : Lib.Json.string m.key = quoted key := by
    rw [keyAt_key hkey hk hat, Lib.Json.string, Lib.Json.body_raw]
    rfl
  refine ⟨k, m.ws₂, m.ws₃, Lib.Json.body items ++ chr '"' :: rest, hk, ?_, notMem_of_isWs hok.ws₂ (by decide),
    notMem_of_isWs hok.ws₃ (by decide), hv, chr '"' :: rest, rfl, .inr rfl⟩
  rw [hdrop, hstring, hval, Lib.Json.string]
  simp [ascii_eq]

/-- Members of an object of strings. -/
theorem memberAt_ofStrings (before after : List (List Item × List Item)) (p : List Item × List Item)
    (hv : ∀ q ∈ before ++ p :: after, ∀ i ∈ q.1 ++ q.2, i.valid = true)
    (hjs : js = chr '\x7b' :: Lib.Json.members ((before ++ p :: after).map Lib.Json.Member.ofStrings) ++ [chr '\x7d'])
    (hk : find (quoted key) js =
      some (1 + ((before.map Lib.Json.Member.ofStrings).flatMap fun m => m.text ++ [chr ',']).length)) :
    MemberAt js key p.2 := by
  have hat := Lib.Json.keyAt_ofStrings hv
  simp only [ascii_eq, ← hjs] at hat
  exact ⟨_, _, hk, hat, fun i hi => hv p (by simp) i (List.mem_append_right _ hi), rfl⟩

theorem decode_of_notMem (hv : ∀ i ∈ items, i.valid = true) (hno : chr '?' ∉ items.map (Item.byte (chr '?'))) :
    Lib.Json.decode items = some (items.map (Item.byte (chr '?'))) := by
  refine Lib.Json.decode_plain (chr '?') hv fun i hi => ?_
  cases i with
  | raw | escape => rfl
  | unicode h₁ h₂ h₃ h₄ => exact absurd (List.mem_map.mpr ⟨_, hi, rfl⟩) hno

end Members
end UmaServe
