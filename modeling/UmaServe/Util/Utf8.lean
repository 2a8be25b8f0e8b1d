/-
`util/utf8.h`: the loop of `is_valid_utf8` accepts exactly the encodings of
lists of scalar values (`isValidUtf8_iff`), and what it makes of escapes: a
JSON string as it is written is valid exactly when what the scanner reads
from it is (`isValidUtf8_items`), because an escape and what it stands for
are both ASCII.
-/
import UmaServe.Bytes
import UmaServe.Lib.Json

namespace UmaServe

/-- The locals of the loop of `is_valid_utf8`. -/
structure Utf8State where
  remaining : Nat := 0
  lead : UInt8 := 0
  pos : Nat := 0
  deriving DecidableEq

/-- One turn of the loop; none where it returns false. -/
def Utf8State.step (st : Utf8State) (c : UInt8) : Option Utf8State :=
  if st.remaining = 0 then
    if c ≤ 0x7F then some st
    else if 0xC2 ≤ c ∧ c ≤ 0xDF then some { remaining := 1, lead := c, pos := 0 }
    else if 0xE0 ≤ c ∧ c ≤ 0xEF then some { remaining := 2, lead := c, pos := 0 }
    else if 0xF0 ≤ c ∧ c ≤ 0xF4 then some { remaining := 3, lead := c, pos := 0 }
    else none -- overlong leads C0/C1 or > F4
  else if c &&& 0xC0 ≠ 0x80 then none
  else
    let pos := st.pos + 1
    -- first continuation has extra constraints for some leads
    if pos = 1 ∧ st.lead = 0xE0 ∧ c < 0xA0 then none
    else if pos = 1 ∧ st.lead = 0xED ∧ 0x9F < c then none
    else if pos = 1 ∧ st.lead = 0xF0 ∧ c < 0x90 then none
    else if pos = 1 ∧ st.lead = 0xF4 ∧ 0x8F < c then none
    else if st.remaining - 1 = 0 then some { remaining := 0, lead := 0, pos := 0 }
    else some { st with remaining := st.remaining - 1, pos := pos }

/-- `is_valid_utf8`. -/
def isValidUtf8 (s : Bytes) : Bool := (s.foldlM Utf8State.step {}).any fun st => st.remaining = 0

/-! ## The validator against the encoding -/

section Encoding

variable {st st' : Utf8State} {c lead : UInt8} {s t : Bytes} {k pos : Nat}

/-- The rest of a text is accepted from a state of the loop. -/
def Utf8State.Accepts (st : Utf8State) (s : Bytes) : Prop :=
  (s.foldlM Utf8State.step st).any (fun st => st.remaining = 0) = true

theorem accepts_cons : st.Accepts (c :: s) ↔ ∃ st', st.step c = some st' ∧ st'.Accepts s := by
  unfold Utf8State.Accepts
  rw [List.foldlM_cons]
  cases st.step c with
  | none => simp
  | some st' => simp

theorem continuation_iff (c : UInt8) : c &&& 0xC0 = 0x80 ↔ 0x80 ≤ c.toNat ∧ c.toNat ≤ 0xBF := by
  have hall : ∀ n < 256, n.toUInt8 &&& 0xC0 = 0x80 ↔ 0x80 ≤ n ∧ n ≤ 0xBF := by decide +kernel
  simpa using hall c.toNat c.toNat_lt

/-- A continuation byte of a character, the first of them at position 0. -/
structure Continues (lead : UInt8) (pos : Nat) (c : UInt8) : Prop where
  ge : 0x80 ≤ c.toNat
  le : c.toNat ≤ 0xBF
  first : pos = 0 → (lead.toNat = 0xE0 → 0xA0 ≤ c.toNat) ∧ (lead.toNat = 0xED → c.toNat ≤ 0x9F) ∧
    (lead.toNat = 0xF0 → 0x90 ≤ c.toNat) ∧ (lead.toNat = 0xF4 → c.toNat ≤ 0x8F)

theorem step_start : ({} : Utf8State).step c = some st' ↔
    c.toNat ≤ 0x7F ∧ st' = {} ∨
    (0xC2 ≤ c.toNat ∧ c.toNat ≤ 0xDF) ∧ st' = { remaining := 1, lead := c, pos := 0 } ∨
    (0xE0 ≤ c.toNat ∧ c.toNat ≤ 0xEF) ∧ st' = { remaining := 2, lead := c, pos := 0 } ∨
    (0xF0 ≤ c.toNat ∧ c.toNat ≤ 0xF4) ∧ st' = { remaining := 3, lead := c, pos := 0 } := by
  simp only [Utf8State.step, if_true, UInt8.le_iff_toNat_le, UInt8.reduceToNat]
  split
  · grind
  split
  · grind
  split
  · grind
  split
  · grind
  · grind

theorem step_more : ({ remaining := k + 1, lead, pos } : Utf8State).step c = some st' ↔
    Continues lead pos c ∧ st' = if k = 0 then {} else { remaining := k, lead, pos := pos + 1 } := by
  have hl : ∀ b : UInt8, lead = b ↔ lead.toNat = b.toNat := fun b => UInt8.toNat_inj.symm
  simp only [Utf8State.step, Nat.succ_ne_zero, if_false, ne_eq, continuation_iff, Nat.add_sub_cancel, hl,
    UInt8.lt_iff_toNat_lt, UInt8.reduceToNat]
  by_cases hc : 0x80 ≤ c.toNat ∧ c.toNat ≤ 0xBF
  · rw [if_neg (not_not.mpr hc)]
    constructor
    · intro h
      split at h
      · cases h
      split at h
      · cases h
      split at h
      · cases h
      split at h
      · cases h
      refine ⟨⟨hc.1, hc.2, fun hp => ?_⟩, ?_⟩
      · subst hp
        omega
      · split at h <;> simp_all
    · rintro ⟨h, rfl⟩
      have hf := h.first
      rw [if_neg (by omega), if_neg (by omega), if_neg (by omega), if_neg (by omega)]
      split <;> simp_all
  · rw [if_pos hc]
    constructor
    · rintro ⟨⟩
    · rintro ⟨h, -⟩
      exact absurd ⟨h.ge, h.le⟩ hc

theorem accepts_more : ({ remaining := k + 1, lead, pos } : Utf8State).Accepts s ↔
    ∃ b t, s = b :: t ∧ Continues lead pos b ∧
      (if k = 0 then {} else { remaining := k, lead, pos := pos + 1 } : Utf8State).Accepts t := by
  cases s with
  | nil => simp [Utf8State.Accepts]
  | cons b t =>
    rw [accepts_cons]
    simp only [step_more, List.cons.injEq]
    constructor
    · rintro ⟨st', ⟨hb, rfl⟩, ht⟩
      exact ⟨b, t, ⟨rfl, rfl⟩, hb, ht⟩
    · rintro ⟨b, t, ⟨rfl, rfl⟩, hb, ht⟩
      exact ⟨_, ⟨hb, rfl⟩, ht⟩

theorem exists_char {n : Nat} (h : n < 0xD800 ∨ 0xDFFF < n ∧ n < 0x110000) : ∃ ch : Char, ch.val.toNat = n :=
  ⟨Char.ofNatAux n h, rfl⟩

theorem ofNat_eq {n : Nat} (h : n = c.toNat) : UInt8.ofNat n = c := by
  rw [h, UInt8.ofNat_toNat]

/-- **Between characters**, what is accepted is one character and what is
accepted after it. -/
theorem valid_cons (h : ({} : Utf8State).Accepts (c :: s)) :
    ∃ (ch : Char) (t : Bytes), c :: s = String.utf8EncodeChar ch ++ t ∧ ({} : Utf8State).Accepts t := by
  obtain ⟨st', hstep, hs⟩ := accepts_cons.mp h
  rcases step_start.mp hstep with ⟨hc, rfl⟩ | ⟨hc, rfl⟩ | ⟨hc, rfl⟩ | ⟨hc, rfl⟩
  · obtain ⟨ch, hch⟩ := exists_char (n := c.toNat) (by omega)
    refine ⟨ch, s, ?_, hs⟩
    simp [String.utf8EncodeChar, hch, hc]
  · obtain ⟨b₁, t, rfl, h₁, ht⟩ := accepts_more.mp hs
    obtain ⟨hge₁, hle₁, hfirst⟩ := h₁
    obtain ⟨ch, hch⟩ := exists_char (n := (c.toNat - 0xC0) * 64 + (b₁.toNat - 0x80)) (by omega)
    refine ⟨ch, t, ?_, ht⟩
    simp only [String.utf8EncodeChar, hch]
    rw [if_neg (by omega), if_pos (by omega), ofNat_eq (c := c) (by omega), ofNat_eq (c := b₁) (by omega)]
    rfl
  · obtain ⟨b₁, t, rfl, h₁, ht⟩ := accepts_more.mp hs
    obtain ⟨b₂, t, rfl, h₂, ht⟩ := accepts_more.mp ht
    obtain ⟨hge₁, hle₁, hfirst⟩ := h₁
    obtain ⟨hge₂, hle₂, -⟩ := h₂
    have hfirst := hfirst rfl
    obtain ⟨ch, hch⟩ := exists_char
      (n := (c.toNat - 0xE0) * 4096 + (b₁.toNat - 0x80) * 64 + (b₂.toNat - 0x80)) (by omega)
    refine ⟨ch, t, ?_, ht⟩
    simp only [String.utf8EncodeChar, hch]
    rw [if_neg (by omega), if_neg (by omega), if_pos (by omega), ofNat_eq (c := c) (by omega),
      ofNat_eq (c := b₁) (by omega), ofNat_eq (c := b₂) (by omega)]
    rfl
  · obtain ⟨b₁, t, rfl, h₁, ht⟩ := accepts_more.mp hs
    obtain ⟨b₂, t, rfl, h₂, ht⟩ := accepts_more.mp ht
    obtain ⟨b₃, t, rfl, h₃, ht⟩ := accepts_more.mp ht
    obtain ⟨hge₁, hle₁, hfirst⟩ := h₁
    obtain ⟨hge₂, hle₂, -⟩ := h₂
    obtain ⟨hge₃, hle₃, -⟩ := h₃
    have hfirst := hfirst rfl
    obtain ⟨ch, hch⟩ := exists_char (n := (c.toNat - 0xF0) * 262144 + (b₁.toNat - 0x80) * 4096 +
      (b₂.toNat - 0x80) * 64 + (b₃.toNat - 0x80)) (by omega)
    refine ⟨ch, t, ?_, ht⟩
    simp only [String.utf8EncodeChar, hch]
    rw [if_neg (by omega), if_neg (by omega), if_neg (by omega), ofNat_eq (c := c) (by omega),
      ofNat_eq (c := b₁) (by omega), ofNat_eq (c := b₂) (by omega), ofNat_eq (c := b₃) (by omega)]
    rfl

theorem toNat_byte {n : Nat} (h : n < 256) : (UInt8.ofNat n).toNat = n := by
  rw [UInt8.toNat_ofNat']
  exact Nat.mod_eq_of_lt h

theorem valid_encode (ch : Char) (ht : ({} : Utf8State).Accepts t) :
    ({} : Utf8State).Accepts (String.utf8EncodeChar ch ++ t) := by
  have hvalid : ch.val.toNat < 0xD800 ∨ 0xDFFF < ch.val.toNat ∧ ch.val.toNat < 0x110000 := ch.valid
  simp only [String.utf8EncodeChar]
  split
  · exact accepts_cons.mpr ⟨_, step_start.mpr (.inl ⟨by rw [toNat_byte (by omega)]; omega, rfl⟩), ht⟩
  split
  · refine accepts_cons.mpr ⟨_, step_start.mpr (.inr (.inl ⟨?_, rfl⟩)), ?_⟩
    · rw [toNat_byte (by omega)]; omega
    refine accepts_more.mpr ⟨_, _, rfl, ⟨?_, ?_, ?_⟩, ht⟩
    all_goals rw [toNat_byte (by omega)]
    · omega
    · omega
    · rw [toNat_byte (by omega)]; omega
  split
  · refine accepts_cons.mpr ⟨_, step_start.mpr (.inr (.inr (.inl ⟨?_, rfl⟩))), ?_⟩
    · rw [toNat_byte (by omega)]; omega
    refine accepts_more.mpr ⟨_, _, rfl, ⟨?_, ?_, ?_⟩, accepts_more.mpr ⟨_, _, rfl, ⟨?_, ?_, by rintro ⟨⟩⟩, ht⟩⟩
    all_goals rw [toNat_byte (by omega)]
    · omega
    · omega
    · rw [toNat_byte (by omega)]; omega
    · omega
    · omega
  · refine accepts_cons.mpr ⟨_, step_start.mpr (.inr (.inr (.inr ⟨?_, rfl⟩))), ?_⟩
    · rw [toNat_byte (by omega)]; omega
    refine accepts_more.mpr ⟨_, _, rfl, ⟨?_, ?_, ?_⟩, accepts_more.mpr ⟨_, _, rfl, ⟨?_, ?_, by rintro ⟨⟩⟩,
      accepts_more.mpr ⟨_, _, rfl, ⟨?_, ?_, by rintro ⟨⟩⟩, ht⟩⟩⟩
    all_goals rw [toNat_byte (by omega)]
    · omega
    · omega
    · rw [toNat_byte (by omega)]; omega
    · omega
    · omega
    · omega
    · omega

/-- **The validator is exact**: it accepts the encodings of the lists of
scalar values, and nothing else. -/
theorem isValidUtf8_iff (s : Bytes) :
    isValidUtf8 s = true ↔ ∃ chars : List Char, s = chars.flatMap String.utf8EncodeChar := by
  change ({} : Utf8State).Accepts s ↔ _
  constructor
  · intro h
    induction hn : s.length using Nat.strong_induction_on generalizing s with
    | h n ih =>
      cases s with
      | nil => exact ⟨[], rfl⟩
      | cons c s =>
        obtain ⟨ch, t, hsplit, ht⟩ := valid_cons h
        have hlen := congrArg List.length hsplit
        rw [List.length_append, String.length_utf8EncodeChar] at hlen
        have hpos := ch.utf8Size_pos
        obtain ⟨chars, rfl⟩ := ih t.length (by omega) t ht rfl
        exact ⟨ch :: chars, by rw [hsplit, List.flatMap_cons]⟩
  · rintro ⟨chars, rfl⟩
    induction chars with
    | nil => exact rfl
    | cons ch chars ih =>
      rw [List.flatMap_cons]
      exact valid_encode ch ih

end Encoding

/-! ## Escapes -/

section Utf8

open Lib.Json (Item)

variable {st : Utf8State} {c : UInt8} {t : Bytes}

theorem step_ascii (hc : c ≤ 0x7F) : st.step c = if st.remaining = 0 then some st else none := by
  have hlead : ∀ n < 128, n.toUInt8 &&& 0xC0 ≠ 0x80 := by decide +kernel
  have hlt : c.toNat < 128 := Nat.lt_succ_of_le (UInt8.le_iff_toNat_le.mp hc)
  have hcont : c &&& 0xC0 ≠ 0x80 := by simpa using hlead c.toNat hlt
  unfold Utf8State.step
  by_cases hz : st.remaining = 0
  · rw [if_pos hz, if_pos hz, if_pos hc]
  · rw [if_neg hz, if_neg hz, if_pos hcont]

theorem foldlM_ascii (ht : ∀ c ∈ t, c ≤ 0x7F) (hne : t ≠ []) :
    t.foldlM Utf8State.step st = if st.remaining = 0 then some st else none := by
  induction t with
  | nil => exact absurd rfl hne
  | cons c t ih =>
    obtain ⟨hc, ht⟩ := List.forall_mem_cons.mp ht
    rw [List.foldlM_cons, step_ascii hc]
    split
    next hz =>
      rw [Option.bind_eq_bind, Option.bind_some]
      cases t with
      | nil => rfl
      | cons d t => rw [ih ht (by simp), if_pos hz]
    next => rfl

theorem step_zero {st' : Utf8State} (hst : st.remaining = 0 → st = {}) (h : st.step c = some st')
    (hz : st'.remaining = 0) : st' = {} := by
  obtain ⟨n, lead, pos⟩ := st
  cases n with
  | zero =>
    rw [hst rfl] at h
    rcases step_start.mp h with ⟨-, rfl⟩ | ⟨-, rfl⟩ | ⟨-, rfl⟩ | ⟨-, rfl⟩
    · rfl
    all_goals cases hz
  | succ k =>
    obtain ⟨-, rfl⟩ := step_more.mp h
    split at hz
    next hk => rw [if_pos hk]
    next hk => exact absurd hz hk

theorem foldlM_zero {st' : Utf8State} (hst : st.remaining = 0 → st = {}) (h : t.foldlM Utf8State.step st = some st')
    (hz : st'.remaining = 0) : st' = {} := by
  induction t generalizing st with
  | nil =>
    obtain rfl : st = st' := Option.some.inj h
    exact hst hz
  | cons c t ih =>
    rw [List.foldlM_cons, Option.bind_eq_bind, Option.bind_eq_some_iff] at h
    obtain ⟨st₁, hstep, h⟩ := h
    exact ih (step_zero hst hstep) h

/-- **Around ASCII text**, a text is valid exactly when both sides are. -/
theorem isValidUtf8_ascii (s r : Bytes) (ht : ∀ c ∈ t, c ≤ 0x7F) (hne : t ≠ []) :
    isValidUtf8 (s ++ (t ++ r)) = (isValidUtf8 s && isValidUtf8 r) := by
  unfold isValidUtf8
  rw [List.foldlM_append, Option.bind_eq_bind]
  cases hs : s.foldlM Utf8State.step {} with
  | none => rfl
  | some st =>
    rw [Option.bind_some, List.foldlM_append, foldlM_ascii ht hne]
    by_cases hz : st.remaining = 0
    · rw [if_pos hz, foldlM_zero (fun _ => rfl) hs hz]
      simp
    · rw [if_neg hz]
      simp [hz]

theorem escapeOf_ascii {e b : UInt8} (h : Lib.Json.escapeOf e = some b) : e ≤ 0x7F ∧ b ≤ 0x7F := by
  unfold Lib.Json.escapeOf at h
  repeat' split at h
  all_goals first | (cases h; subst_vars; decide) | cases h

theorem isHexDigit_ascii (h : Lib.Json.isHexDigit c = true) : c ≤ 0x7F := by
  simp only [Lib.Json.isHexDigit, Bool.or_eq_true, Bool.and_eq_true, decide_eq_true_eq] at h
  rcases h with (⟨-, h⟩ | ⟨-, h⟩) | ⟨-, h⟩
  all_goals exact UInt8.le_trans h (by decide)

theorem foldlM_item {i : Item} (hi : i.valid = true) :
    i.text.foldlM Utf8State.step st = st.step (i.byte (chr '?')) := by
  have hback : Lib.Json.ascii '\\' ≤ 0x7F := by decide
  cases i with
  | raw b =>
    rw [Item.text, List.foldlM_cons]
    exact bind_pure _
  | escape e =>
    obtain ⟨b, hb⟩ := Option.isSome_iff_exists.mp hi
    obtain ⟨he, hle⟩ := escapeOf_ascii hb
    have hbyte : (Item.escape e).byte (chr '?') = b := by simp [Item.byte, hb]
    rw [hbyte, step_ascii hle, Item.text, foldlM_ascii _ (by simp)]
    simp [hback, he]
  | unicode h₁ h₂ h₃ h₄ =>
    simp only [Item.valid, Bool.and_eq_true] at hi
    obtain ⟨⟨⟨hx₁, hx₂⟩, hx₃⟩, hx₄⟩ := hi
    have hu : Lib.Json.ascii 'u' ≤ 0x7F := by decide
    rw [Item.byte, step_ascii (by decide), Item.text, foldlM_ascii _ (by simp)]
    simp [hback, hu, isHexDigit_ascii hx₁, isHexDigit_ascii hx₂, isHexDigit_ascii hx₃, isHexDigit_ascii hx₄]

/-- **Escapes do not matter**: the text of a string is valid exactly when
what is read from it is. -/
theorem isValidUtf8_items {items : List Item} (hv : ∀ i ∈ items, i.valid = true) :
    isValidUtf8 (items.map (Item.byte (chr '?'))) = isValidUtf8 (Lib.Json.body items) := by
  have hfold : ∀ st : Utf8State, (items.map (Item.byte (chr '?'))).foldlM Utf8State.step st =
      (Lib.Json.body items).foldlM Utf8State.step st := by
    induction items with
    | nil => exact fun _ => rfl
    | cons i items ih =>
      obtain ⟨hi, hv⟩ := List.forall_mem_cons.mp hv
      intro st
      rw [List.map_cons, List.foldlM_cons, Lib.Json.body_cons, List.foldlM_append, foldlM_item hi]
      exact congrArg _ (funext (ih hv))
  rw [isValidUtf8, isValidUtf8, hfold]

end Utf8
end UmaServe
