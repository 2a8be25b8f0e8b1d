/-
JSON texts (RFC 8259), over bytes. A string is a list of items between its
quotes; `decode` is what it denotes in UTF-8. A text is an object when it is
white space, the object, white space; `KeyAt` says where in it the key of a
top-level member stands.

The bytes from 0x80 on are taken as they come, so every RFC 8259 text is a
text here, and so is one whose strings are not UTF-8.
-/
import Mathlib.Data.List.Basic

namespace Lib.Json

abbrev Text := List UInt8

/-- The byte of an ASCII character. -/
def ascii (c : Char) : UInt8 := c.toNat.toUInt8

/-! ## Strings -/

/-- One character of a string as it is written. -/
inductive Item
  | raw (b : UInt8)
  | escape (e : UInt8)
  | unicode (h₁ h₂ h₃ h₄ : UInt8)
  deriving DecidableEq

/-- What a two-character escape denotes. -/
def escapeOf (e : UInt8) : Option UInt8 :=
  if e = ascii '"' then some (ascii '"')
  else if e = ascii '\\' then some (ascii '\\')
  else if e = ascii '/' then some (ascii '/')
  else if e = ascii 'b' then some 0x08
  else if e = ascii 'f' then some 0x0C
  else if e = ascii 'n' then some 0x0A
  else if e = ascii 'r' then some 0x0D
  else if e = ascii 't' then some 0x09
  else none

def isHexDigit (c : UInt8) : Bool :=
  (ascii '0' ≤ c && c ≤ ascii '9') || (ascii 'a' ≤ c && c ≤ ascii 'f') || (ascii 'A' ≤ c && c ≤ ascii 'F')

namespace Item

def text : Item → Text
  | raw b => [b]
  | escape e => [ascii '\\', e]
  | unicode h₁ h₂ h₃ h₄ => [ascii '\\', ascii 'u', h₁, h₂, h₃, h₄]

def valid : Item → Bool
  | raw b => 0x20 ≤ b && b ≠ ascii '"' && b ≠ ascii '\\'
  | escape e => (escapeOf e).isSome
  | unicode h₁ h₂ h₃ h₄ => isHexDigit h₁ && isHexDigit h₂ && isHexDigit h₃ && isHexDigit h₄

def isUnicode : Item → Bool
  | unicode _ _ _ _ => true
  | _ => false

/-- The byte an item denotes, and `p` for a `\u` escape. -/
def byte (p : UInt8) : Item → UInt8
  | raw b => b
  | escape e => (escapeOf e).getD p
  | unicode _ _ _ _ => p

end Item

/-- The text between the quotes of a string. -/
def body (items : List Item) : Text := items.flatMap Item.text

def string (items : List Item) : Text := ascii '"' :: body items ++ [ascii '"']

/-! ### What a string denotes -/

def hexValue (c : UInt8) : Nat :=
  if c ≤ ascii '9' then c.toNat - 48 else if c ≤ ascii 'F' then c.toNat - 55 else c.toNat - 87

/-- The code unit of a `\u` escape. -/
def codeUnit (h₁ h₂ h₃ h₄ : UInt8) : Nat :=
  ((hexValue h₁ * 16 + hexValue h₂) * 16 + hexValue h₃) * 16 + hexValue h₄

def isHighSurrogate (u : Nat) : Bool := 0xD800 ≤ u && u < 0xDC00

def isLowSurrogate (u : Nat) : Bool := 0xDC00 ≤ u && u < 0xE000

/-- The string value in UTF-8; none when a surrogate has no partner. -/
def decode : List Item → Option Text
  | [] => some []
  | .raw b :: items => (decode items).map (b :: ·)
  | .escape e :: items => do
    let b ← escapeOf e
    let t ← decode items
    some (b :: t)
  | .unicode h₁ h₂ h₃ h₄ :: items =>
    let u := codeUnit h₁ h₂ h₃ h₄
    if isHighSurrogate u then
      match items with
      | .unicode l₁ l₂ l₃ l₄ :: items =>
        let l := codeUnit l₁ l₂ l₃ l₄
        if isLowSurrogate l then
          (decode items).map
            (String.utf8EncodeChar (Char.ofNat (0x10000 + (u - 0xD800) * 0x400 + (l - 0xDC00))) ++ ·)
        else none
      | _ => none
    else if isLowSurrogate u then none
    else (decode items).map (String.utf8EncodeChar (Char.ofNat u) ++ ·)

/-! ## Texts -/

def IsWs (t : Text) : Prop := ∀ c ∈ t, c = 0x20 ∨ c = 0x09 ∨ c = 0x0A ∨ c = 0x0D

def IsDigits (t : Text) : Prop := t ≠ [] ∧ ∀ c ∈ t, ascii '0' ≤ c ∧ c ≤ ascii '9'

/-- A number: a sign, an integer without a leading zero, a fraction, an
exponent. -/
def IsNumber (t : Text) : Prop :=
  ∃ sign int frac exp : Text, t = sign ++ int ++ frac ++ exp ∧
    (sign = [] ∨ sign = [ascii '-']) ∧
    (IsDigits int ∧ (int.head? = some (ascii '0') → int = [ascii '0'])) ∧
    (frac = [] ∨ ∃ ds, IsDigits ds ∧ frac = ascii '.' :: ds) ∧
    (exp = [] ∨ ∃ (e : UInt8) (s ds : Text), (e = ascii 'e' ∨ e = ascii 'E') ∧
      (s = [] ∨ s = [ascii '+'] ∨ s = [ascii '-']) ∧ IsDigits ds ∧ exp = e :: s ++ ds)

def IsScalar (t : Text) : Prop :=
  t = "null".toUTF8.toList ∨ t = "true".toUTF8.toList ∨ t = "false".toUTF8.toList ∨ IsNumber t ∨
    ∃ items, (∀ i ∈ items, i.valid = true) ∧ t = string items

/-- A member of an object, with the white space around its parts. -/
structure Member where
  ws₁ : Text
  key : List Item
  ws₂ : Text
  ws₃ : Text
  value : Text
  ws₄ : Text

def Member.text (m : Member) : Text :=
  m.ws₁ ++ string m.key ++ m.ws₂ ++ ascii ':' :: m.ws₃ ++ m.value ++ m.ws₄

/-- A member whose value is in `V`. -/
structure Member.Ok (V : Text → Prop) (m : Member) : Prop where
  ws₁ : IsWs m.ws₁
  key : ∀ i ∈ m.key, i.valid = true
  ws₂ : IsWs m.ws₂
  ws₃ : IsWs m.ws₃
  value : V m.value
  ws₄ : IsWs m.ws₄

/-- The members with the commas between them. -/
def members : List Member → Text
  | [] => []
  | m :: ms => m.text ++ ms.flatMap fun m => ascii ',' :: m.text

def IsObject (V : Text → Prop) (ms : List Member) (t : Text) : Prop :=
  (∀ m ∈ ms, m.Ok V) ∧
    ∃ inner, t = ascii '\x7b' :: inner ++ [ascii '\x7d'] ∧ (ms = [] ∧ IsWs inner ∨ ms ≠ [] ∧ inner = members ms)

def IsArray (V : Text → Prop) (t : Text) : Prop :=
  ∃ inner, t = ascii '[' :: inner ++ [ascii ']'] ∧
    (IsWs inner ∨ ∃ e es, (∀ x ∈ e :: es, ∃ ws₁ v ws₂, IsWs ws₁ ∧ V v ∧ IsWs ws₂ ∧ x = ws₁ ++ v ++ ws₂) ∧
      inner = e ++ es.flatMap fun x => ascii ',' :: x)

/-- The values nested at most so deep. -/
def IsValue : Nat → Text → Prop
  | 0, t => IsScalar t
  | d + 1, t => IsScalar t ∨ IsArray (IsValue d) t ∨ ∃ ms, IsObject (IsValue d) ms t

/-- An object with the members `ms`, and white space around it. -/
def ObjectText (js : Text) (ms : List Member) : Prop :=
  ∃ d ws t ws', IsWs ws ∧ IsWs ws' ∧ IsObject (IsValue d) ms t ∧ js = ws ++ t ++ ws'

/-- The key of the top-level member `m` of the object `js` stands at
offset `k`. -/
def KeyAt (js : Text) (k : Nat) (m : Member) : Prop :=
  ∃ d ws t ws' before after, IsWs ws ∧ IsWs ws' ∧ IsObject (IsValue d) (before ++ m :: after) t ∧
    js = ws ++ t ++ ws' ∧
    k = (ws ++ ascii '\x7b' :: before.flatMap (fun m => m.text ++ [ascii ',']) ++ m.ws₁).length

/-! ## Facts -/

section Facts

variable {js : Text} {k : Nat} {m : Member} {i : Item} {items : List Item}

@[simp] theorem body_nil : body [] = [] := rfl

@[simp] theorem body_cons : body (i :: items) = i.text ++ body items := rfl

theorem body_raw (t : Text) : body (t.map Item.raw) = t := by
  simp [body, List.flatMap_map, Item.text]

theorem escapeOf_mem {e b : UInt8} (h : escapeOf e = some b) :
    b ∈ [ascii '"', ascii '\\', ascii '/', 0x08, 0x0C, 0x0A, 0x0D, 0x09] := by
  unfold escapeOf at h
  repeat' split at h
  all_goals first | (cases h; decide) | cases h

/-- A string is written without escapes when no escape could denote its
characters. -/
theorem eq_raw_of_byte {p : UInt8} {t : Text} (hv : ∀ i ∈ items, i.valid = true)
    (ht : ∀ b ∈ t, b ≠ p ∧ b ∉ [ascii '"', ascii '\\', ascii '/', 0x08, 0x0C, 0x0A, 0x0D, 0x09])
    (h : items.map (Item.byte p) = t) : items = t.map Item.raw := by
  subst h
  rw [List.map_map]
  refine (List.map_id items).symm.trans (List.map_congr_left fun i hi => ?_)
  have hi' := ht (i.byte p) (List.mem_map.mpr ⟨i, hi, rfl⟩)
  cases i with
  | raw b => rfl
  | escape e =>
    obtain ⟨b, hb⟩ := Option.isSome_iff_exists.mp (hv _ hi)
    have hbyte : (Item.escape e).byte p = b := by simp [Item.byte, hb]
    rw [hbyte] at hi'
    exact absurd (escapeOf_mem hb) hi'.2
  | unicode => exact absurd rfl hi'.1

theorem members_split (before after : List Member) :
    ∃ rest, members (before ++ m :: after) = before.flatMap (fun m => m.text ++ [ascii ',']) ++ m.text ++ rest := by
  cases before with
  | nil => exact ⟨_, rfl⟩
  | cons b before =>
    have hcomma : ∀ l : List Member, ∃ rest, (l ++ m :: after).flatMap (fun m => ascii ',' :: m.text) =
        ascii ',' :: l.flatMap (fun m => m.text ++ [ascii ',']) ++ m.text ++ rest := by
      intro l
      induction l with
      | nil => exact ⟨_, rfl⟩
      | cons b l ih =>
        obtain ⟨rest, hrest⟩ := ih
        exact ⟨rest, by simp [hrest]⟩
    obtain ⟨rest, hrest⟩ := hcomma before
    exact ⟨rest, by simp [members, hrest]⟩

theorem KeyAt.objectText (h : KeyAt js k m) : ∃ ms, ObjectText js ms ∧ m ∈ ms := by
  obtain ⟨d, ws, t, ws', before, after, hws, hws', hobj, hjs, -⟩ := h
  exact ⟨before ++ m :: after, ⟨d, ws, t, ws', hws, hws', hobj, hjs⟩, by simp⟩

/-- What stands at a top-level key: the key, a colon, and the value. -/
theorem KeyAt.drop (h : KeyAt js k m) :
    (∃ d, m.Ok (IsValue d)) ∧
      ∃ rest, js.drop k = string m.key ++ m.ws₂ ++ ascii ':' :: m.ws₃ ++ m.value ++ rest := by
  obtain ⟨d, ws, t, ws', before, after, -, -, ⟨hok, inner, ht, hin⟩, hjs, hk⟩ := h
  refine ⟨⟨d, hok m (by simp)⟩, ?_⟩
  rcases hin with ⟨hnil, -⟩ | ⟨-, hinner⟩
  · simp at hnil
  · obtain ⟨rest, hrest⟩ := members_split (m := m) before after
    refine ⟨m.ws₄ ++ rest ++ [ascii '\x7d'] ++ ws', ?_⟩
    have hsplit : js = (ws ++ ascii '\x7b' :: before.flatMap (fun m => m.text ++ [ascii ',']) ++ m.ws₁) ++
        (string m.key ++ m.ws₂ ++ ascii ':' :: m.ws₃ ++ m.value ++ (m.ws₄ ++ rest ++ [ascii '\x7d'] ++ ws')) := by
      rw [hjs, ht, hinner, hrest]
      simp [Member.text]
    rw [hsplit, hk, List.drop_left]

/-- A member whose value is a string, without white space. -/
def Member.ofStrings (p : List Item × List Item) : Member := ⟨[], p.1, [], [], string p.2, []⟩

/-- The keys of an object of strings. -/
theorem keyAt_ofStrings {before after : List (List Item × List Item)} {p : List Item × List Item}
    (hv : ∀ q ∈ before ++ p :: after, ∀ i ∈ q.1 ++ q.2, i.valid = true) :
    KeyAt (ascii '\x7b' :: members ((before ++ p :: after).map Member.ofStrings) ++ [ascii '\x7d'])
      (1 + ((before.map Member.ofStrings).flatMap fun m => m.text ++ [ascii ',']).length) (Member.ofStrings p) := by
  have hws : IsWs [] := fun c hc => (by cases hc)
  have hok : ∀ m ∈ (before ++ p :: after).map Member.ofStrings, m.Ok (IsValue 0) := by
    intro m hm
    obtain ⟨q, hq, rfl⟩ := List.mem_map.mp hm
    have hi := hv q hq
    refine ⟨hws, fun i h => hi i (List.mem_append_left _ h), hws, hws, ?_, hws⟩
    exact .inr (.inr (.inr (.inr ⟨q.2, fun i h => hi i (List.mem_append_right _ h), rfl⟩)))
  rw [List.map_append, List.map_cons] at hok ⊢
  refine ⟨0, [], _, [], before.map Member.ofStrings, after.map Member.ofStrings, hws, hws,
    ⟨hok, _, rfl, .inr ⟨by simp, rfl⟩⟩, by simp, ?_⟩
  simp [Member.ofStrings, Nat.add_comm]

theorem decode_plain (p : UInt8) (hv : ∀ i ∈ items, i.valid = true) (hu : ∀ i ∈ items, i.isUnicode = false) :
    decode items = some (items.map (Item.byte p)) := by
  induction items with
  | nil => rfl
  | cons i items ih =>
    have hrest := ih (fun j hj => hv j (List.mem_cons_of_mem _ hj)) fun j hj => hu j (List.mem_cons_of_mem _ hj)
    have hi := hv i List.mem_cons_self
    cases i with
    | raw b => simp [decode, hrest, Item.byte]
    | escape e =>
      obtain ⟨b, hb⟩ := Option.isSome_iff_exists.mp hi
      simp [decode, hrest, hb, Item.byte]
    | unicode => cases hu _ List.mem_cons_self

end Facts
end Lib.Json
