/-
A parser for JSON texts (RFC 8259): one value between white space. It takes
the bytes from 0x80 on as they come, and refuses what the grammar refuses; a
`\u` escape is decoded to UTF-8, and a surrogate without a partner refuses the
string. The fuel bounds the nesting and the number of members; the length of
the text is enough.
-/
import Mathlib.Algebra.Field.Rat
import UmaServe.Lib.Decimal
import UmaServe.Lib.Json

namespace Lib.Json

inductive Value
  | null
  | bool (b : Bool)
  | number (q : ℚ)
  | string (t : Text)
  | array (vs : List Value)
  | object (ms : List (Text × Value))

namespace Parse

def isSpace (c : UInt8) : Bool := c = 0x20 || c = 0x09 || c = 0x0A || c = 0x0D

def skipWs (t : Text) : Text := t.dropWhile isSpace

/-! ## Strings -/

/-- The items up to the closing quote, and what follows it. -/
def items : Text → Option (List Item × Text)
  | [] => none
  | c :: rest =>
    if c = ascii '"' then some ([], rest)
    else if c = ascii '\\' then
      match rest with
      | [] => none
      | e :: rest =>
        if e = ascii 'u' then
          match rest with
          | h₁ :: h₂ :: h₃ :: h₄ :: rest =>
            if isHexDigit h₁ && isHexDigit h₂ && isHexDigit h₃ && isHexDigit h₄ then
              (items rest).map fun (is, r) => (.unicode h₁ h₂ h₃ h₄ :: is, r)
            else none
          | _ => none
        else if (escapeOf e).isSome then (items rest).map fun (is, r) => (.escape e :: is, r)
        else none
    else if c < 0x20 then none
    else (items rest).map fun (is, r) => (.raw c :: is, r)

/-- A string from behind its opening quote. -/
def string (t : Text) : Option (Text × Text) :=
  (items t).bind fun (is, r) => (decode is).map fun s => (s, r)

/-! ## Numbers -/

/-- A run of digits, at least one. -/
def digits (t : Text) : Option (Text × Text) :=
  if t.takeWhile isDigit = [] then none else some (t.takeWhile isDigit, t.dropWhile isDigit)

/-- No leading zero. -/
def int (t : Text) : Option (Text × Text) :=
  (digits t).bind fun (ds, r) => if ds.head? = some (ascii '0') ∧ ds ≠ [ascii '0'] then none else some (ds, r)

def frac : Text → Option (Text × Text)
  | [] => some ([], [])
  | c :: r => if c = ascii '.' then digits r else some ([], c :: r)

def exp : Text → Option (Int × Text)
  | [] => some (0, [])
  | c :: r =>
    if c = ascii 'e' ∨ c = ascii 'E' then
      let (neg, r) := signOf r
      (digits r).map fun (ds, r) => (if neg then -(natOf ds : Int) else natOf ds, r)
    else some (0, c :: r)

/-- A number without its sign. -/
def unsigned (t : Text) : Option (ℚ × Text) := do
  let (i, t) ← int t
  let (f, t) ← frac t
  let (e, t) ← exp t
  some (natOf (i ++ f) * 10 ^ (e - f.length), t)

def number : Text → Option (ℚ × Text)
  | [] => none
  | c :: r => if c = ascii '-' then (unsigned r).map fun (q, r) => (-q, r) else unsigned (c :: r)

/-! ## Values -/

/-- The rest of a text behind a word. -/
def word (w : String) (t : Text) : Option Text :=
  if w.toUTF8.toList.isPrefixOf t then some (t.drop w.toUTF8.toList.length) else none

mutual

/-- A value, without the white space around it. -/
def value : Nat → Text → Option (Value × Text)
  | 0, _ => none
  | _ + 1, [] => none
  | n + 1, c :: rest =>
    if c = ascii '"' then (string rest).map fun (s, r) => (.string s, r)
    else if c = ascii '\x7b' then
      match skipWs rest with
      | [] => none
      | d :: r => if d = ascii '\x7d' then some (.object [], r)
        else (members n (d :: r)).map fun (ms, r) => (.object ms, r)
    else if c = ascii '[' then
      match skipWs rest with
      | [] => none
      | d :: r => if d = ascii ']' then some (.array [], r)
        else (elements n (d :: r)).map fun (vs, r) => (.array vs, r)
    else if c = ascii 'n' then (word "null" (c :: rest)).map fun r => (.null, r)
    else if c = ascii 't' then (word "true" (c :: rest)).map fun r => (.bool true, r)
    else if c = ascii 'f' then (word "false" (c :: rest)).map fun r => (.bool false, r)
    else (number (c :: rest)).map fun (q, r) => (.number q, r)

/-- The members of an object, at least one, up to the closing brace. -/
def members : Nat → Text → Option (List (Text × Value) × Text)
  | 0, _ => none
  | _ + 1, [] => none
  | n + 1, c :: rest =>
    if c = ascii '"' then do
      let (k, r) ← string rest
      match skipWs r with
      | [] => none
      | d :: r =>
        if d = ascii ':' then do
          let (v, r) ← value n (skipWs r)
          match skipWs r with
          | [] => none
          | e :: r =>
            if e = ascii '\x7d' then some ([(k, v)], r)
            else if e = ascii ',' then (members n (skipWs r)).map fun (ms, r) => ((k, v) :: ms, r)
            else none
        else none
    else none

/-- The elements of an array, at least one, up to the closing bracket. -/
def elements : Nat → Text → Option (List Value × Text)
  | 0, _ => none
  | n + 1, t => do
    let (v, r) ← value n t
    match skipWs r with
    | [] => none
    | e :: r =>
      if e = ascii ']' then some ([v], r)
      else if e = ascii ',' then (elements n (skipWs r)).map fun (vs, r) => (v :: vs, r)
      else none

end

/-! ## Facts -/

section Facts

variable {is : List Item} {i : Item} {s t r ds : Text} {n : Nat} {v : Value}

theorem items_item (h : i.valid = true) : items (i.text ++ r) = (items r).map fun p => (i :: p.1, p.2) := by
  cases i with
  | raw b =>
    simp only [Item.valid, Bool.and_eq_true, decide_eq_true_eq, ne_eq] at h
    obtain ⟨⟨hctl, hq⟩, hb⟩ := h
    rw [Item.text, List.singleton_append, items.eq_def]
    simp [hq, hb, UInt8.not_lt.mpr hctl]
  | escape e =>
    have hu : ¬ e = ascii 'u' := by
      rintro rfl
      cases h
    have hne : ¬ ascii '\\' = ascii '"' := by decide
    simp only [Item.text, List.cons_append, List.nil_append]
    rw [items.eq_def]
    simp only [hne, if_false, if_true, hu]
    exact if_pos h
  | unicode h₁ h₂ h₃ h₄ =>
    have hne : ¬ ascii '\\' = ascii '"' := by decide
    simp only [Item.text, List.cons_append, List.nil_append]
    rw [items.eq_def]
    simp only [hne, if_false, if_true]
    exact if_pos h

/-- **A string** is taken item by item, up to its closing quote. -/
theorem items_body (h : ∀ i ∈ is, i.valid = true) : items (body is ++ ascii '"' :: r) = some (is, r) := by
  induction is with
  | nil =>
    rw [body_nil, List.nil_append, items.eq_def]
    simp
  | cons i is ih =>
    rw [body_cons, List.append_assoc, items_item (h i List.mem_cons_self),
      ih fun j hj => h j (List.mem_cons_of_mem _ hj)]
    rfl

theorem string_body (h : ∀ i ∈ is, i.valid = true) (hd : decode is = some s) :
    string (body is ++ ascii '"' :: r) = some (s, r) := by
  rw [string, items_body h, Option.bind_some]
  simp [hd]

theorem value_string (h : ∀ i ∈ is, i.valid = true) (hd : decode is = some s) :
    value (n + 1) (Json.string is ++ r) = some (.string s, r) := by
  rw [Json.string, List.append_assoc, List.cons_append, List.singleton_append, value]
  simp [string_body h hd]

theorem value_object : value (n + 1) (ascii '\x7b' :: ascii '"' :: r) =
    (members n (ascii '"' :: r)).map fun p => (.object p.1, p.2) := by
  have hne : ¬ ascii '\x7b' = ascii '"' := by decide
  have hclose : ¬ ascii '"' = ascii '\x7d' := by decide
  have hws : skipWs (ascii '"' :: r) = ascii '"' :: r := List.dropWhile_cons_of_neg (by decide)
  rw [value, if_neg hne, if_pos rfl, hws]
  dsimp only
  rw [if_neg hclose]

/-- A member before the closing brace. -/
theorem members_last (h : ∀ i ∈ is, i.valid = true) (hd : decode is = some s)
    (hv : value n (skipWs t) = some (v, ascii '\x7d' :: r)) :
    members (n + 1) (Json.string is ++ ascii ':' :: t) = some ([(s, v)], r) := by
  have hcolon : skipWs (ascii ':' :: t) = ascii ':' :: t := List.dropWhile_cons_of_neg (by decide)
  have hclose : skipWs (ascii '\x7d' :: r) = ascii '\x7d' :: r := List.dropWhile_cons_of_neg (by decide)
  rw [Json.string, List.append_assoc, List.cons_append, List.singleton_append, members, if_pos rfl, string_body h hd]
  simp [hcolon, hv, hclose]

/-- A member before another. -/
theorem members_more (h : ∀ i ∈ is, i.valid = true) (hd : decode is = some s)
    (hv : value n (skipWs t) = some (v, ascii ',' :: r)) :
    members (n + 1) (Json.string is ++ ascii ':' :: t) = (members n (skipWs r)).map fun p => ((s, v) :: p.1, p.2) := by
  have hcolon : skipWs (ascii ':' :: t) = ascii ':' :: t := List.dropWhile_cons_of_neg (by decide)
  have hcomma : skipWs (ascii ',' :: r) = ascii ',' :: r := List.dropWhile_cons_of_neg (by decide)
  have hne : ¬ ascii ',' = ascii '\x7d' := by decide
  rw [Json.string, List.append_assoc, List.cons_append, List.singleton_append, members, if_pos rfl, string_body h hd]
  simp [hcolon, hv, hcomma, hne]

theorem digits_append (hds : ∀ d ∈ ds, isDigit d = true) (hne : ds ≠ []) (hr : ∀ c ∈ r.head?, isDigit c = false) :
    digits (ds ++ r) = some (ds, r) := by
  have htail : r.takeWhile isDigit = [] ∧ r.dropWhile isDigit = r := by
    cases r with
    | nil => exact ⟨rfl, rfl⟩
    | cons c r =>
      have hc : ¬ isDigit c = true := by simpa using hr c rfl
      exact ⟨List.takeWhile_cons_of_neg hc, List.dropWhile_cons_of_neg hc⟩
  rw [digits, List.takeWhile_append_of_pos hds, List.dropWhile_append_of_pos hds, htail.1, htail.2, List.append_nil,
    if_neg hne]

/-- An integer without a leading zero, before something that is not part of
a number. -/
theorem unsigned_nat (hds : ∀ d ∈ ds, isDigit d = true) (hne : ds ≠ [])
    (hzero : ds.head? = some (ascii '0') → ds = [ascii '0'])
    (hr : ∀ c ∈ r.head?, isDigit c = false ∧ c ≠ ascii '.' ∧ c ≠ ascii 'e' ∧ c ≠ ascii 'E') :
    unsigned (ds ++ r) = some ((natOf ds : ℚ), r) := by
  have hint : int (ds ++ r) = some (ds, r) := by
    rw [int, digits_append hds hne fun c hc => (hr c hc).1, Option.bind_some]
    exact if_neg fun h => h.2 (hzero h.1)
  have hfrac : frac r = some ([], r) := by
    cases r with
    | nil => rfl
    | cons c r => rw [frac, if_neg (hr c rfl).2.1]
  have hexp : exp r = some (0, r) := by
    cases r with
    | nil => rfl
    | cons c r => rw [exp, if_neg (not_or.mpr (hr c rfl).2.2)]
  simp [unsigned, hint, hfrac, hexp]

/-- A number with a fraction. -/
theorem unsigned_frac {fs : Text} (hds : ∀ d ∈ ds, isDigit d = true) (hne : ds ≠ [])
    (hzero : ds.head? = some (ascii '0') → ds = [ascii '0']) (hfs : ∀ d ∈ fs, isDigit d = true) (hfne : fs ≠ [])
    (hr : ∀ c ∈ r.head?, isDigit c = false ∧ c ≠ ascii 'e' ∧ c ≠ ascii 'E') :
    unsigned (ds ++ ascii '.' :: (fs ++ r)) = some ((natOf (ds ++ fs) : ℚ) / 10 ^ fs.length, r) := by
  have hint : int (ds ++ ascii '.' :: (fs ++ r)) = some (ds, ascii '.' :: (fs ++ r)) := by
    rw [int, digits_append hds hne fun c hc => by cases hc; decide, Option.bind_some]
    exact if_neg fun h => h.2 (hzero h.1)
  have hfrac : frac (ascii '.' :: (fs ++ r)) = some (fs, r) := by
    rw [frac, if_pos rfl, digits_append hfs hfne fun c hc => (hr c hc).1]
  have hexp : exp r = some (0, r) := by
    cases r with
    | nil => rfl
    | cons c r => rw [exp, if_neg (not_or.mpr (hr c rfl).2)]
  simp [unsigned, hint, hfrac, hexp, div_eq_mul_inv]

theorem value_number {c : UInt8} (hc : c = ascii '-' ∨ isDigit c = true) :
    value (n + 1) (c :: t) = (number (c :: t)).map fun p => (.number p.1, p.2) := by
  have hne : ∀ d, d ≠ ascii '-' ∧ isDigit d = false → c ≠ d := by
    rintro d ⟨hminus, hdigit⟩ rfl
    rcases hc with h | h
    · exact hminus h
    · rw [hdigit] at h
      cases h
  rw [value, if_neg (hne _ (by decide)), if_neg (hne _ (by decide)), if_neg (hne _ (by decide)),
    if_neg (hne _ (by decide)), if_neg (hne _ (by decide)), if_neg (hne _ (by decide))]

end Facts

end Parse

/-- A text: one value, and white space around it. -/
def parse (t : Text) : Option Value :=
  (Parse.value (t.length + 1) (Parse.skipWs t)).bind fun (v, r) =>
    if Parse.skipWs r = [] then some v else none

end Lib.Json
