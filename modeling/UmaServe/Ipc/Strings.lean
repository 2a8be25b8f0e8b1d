/-
JSON text as it is written here: strings, and gaps without quotes between
them. A quoted name is found only at the end of one of the strings
(`seek_fields`), and the string behind it is the next one after a colon
(`bodyFrom_fields`, `bodyFrom_comma`).
-/
import UmaServe.Ipc.JsonFacts

namespace UmaServe

/-- Strings, each with the text up to the next one. -/
def fields (l : List (Bytes × Bytes)) : Bytes := l.flatMap fun f => chr '"' :: jsonEscape f.1 ++ chr '"' :: f.2

/-- Text between two strings of an object. -/
def IsGap (g : Bytes) : Prop := chr '"' ∉ g ∧ (g.head? = some (chr ':') ∨ g.head? = some (chr ','))

/-- A word that can be a key here. -/
def IsName (key : Bytes) : Prop := Plain key ∧ chr ':' ∉ key ∧ chr ',' ∉ key

/-- The string closes a quoted `key`: it is the key, or it ends in the key
with a quote of its own before it. -/
def Closes (key s : Bytes) : Prop := s = key ∨ chr '"' :: key <:+ s

section Fields

variable {key s g v : Bytes} {l : List (Bytes × Bytes)}

instance : Decidable (IsGap g) := inferInstanceAs (Decidable (_ ∧ _))

instance : Decidable (IsName key) := inferInstanceAs (Decidable (_ ∧ _))

instance : Decidable (Closes key s) := inferInstanceAs (Decidable (_ ∨ _))

theorem fields_cons : fields ((s, g) :: l) = chr '"' :: jsonEscape s ++ chr '"' :: (g ++ fields l) := by
  simp [fields]

theorem seek_gap (hkey : IsName key) (hg : IsGap g) :
    seek (quoted key) (chr '"' :: (g ++ v)) = seek (quoted key) v := by
  obtain ⟨-, hcolon, hcomma⟩ := hkey
  obtain ⟨hquote, hhead⟩ := hg
  have hnot : ¬ (quoted key).isPrefixOf (chr '"' :: (g ++ v)) = true := by
    cases g with
    | nil => simp at hhead
    | cons c g =>
      cases key with
      | nil =>
        have hc : chr '"' ≠ c := fun h => hquote (h ▸ List.mem_cons_self)
        simp [quoted, hc]
      | cons k key =>
        have hc : k ≠ c := by
          rintro rfl
          rcases hhead with h | h <;> cases h
          · exact hcolon List.mem_cons_self
          · exact hcomma List.mem_cons_self
        simp [quoted, hc]
  rw [seek_cons, if_neg hnot, quoted, List.cons_append, seek_append hquote]

/-- **A name** is found at the end of the first string that closes it. -/
theorem seek_fields (hkey : IsName key) (hg : IsGap g) :
    seek (quoted key) (fields ((s, g) :: l)) =
      if Closes key s then some (quoted key ++ (g ++ fields l)) else seek (quoted key) (fields l) := by
  rw [fields_cons, seek_string hkey.1, seek_gap hkey hg]
  rfl

/-- Behind a colon, the next string is the value. -/
theorem bodyFrom_fields (hv : chr '"' ∉ v) :
    bodyFrom (chr ':' :: v ++ fields l) =
      match l with
      | [] => none
      | (s, g) :: l => some (jsonEscape s ++ chr '"' :: (g ++ fields l)) := by
  cases l with
  | nil => rw [show fields [] = [] from rfl, List.append_nil, bodyFrom_none hv]
  | cons f l =>
    obtain ⟨s, g⟩ := f
    rw [fields_cons, List.cons_append (a := chr '"'), bodyFrom_colon hv]

theorem bodyFrom_comma (hkey : IsName key) :
    bodyFrom (chr ',' :: fields ((key, g) :: l)) = bodyFrom (g ++ fields l) := by
  obtain ⟨hplain, hcolon, -⟩ := hkey
  have hskip : chr ':' ∉ chr ',' :: quoted key := by
    rw [List.mem_cons, not_or]
    exact ⟨by decide, colon_notMem_quoted hcolon⟩
  rw [fields_cons, string_plain hplain, ← List.cons_append, bodyFrom_skip hskip]

theorem bodyFrom_quoted (hkey : IsName key) : bodyFrom (quoted key ++ v) = bodyFrom v :=
  bodyFrom_skip (colon_notMem_quoted hkey.2.1)

end Fields
end UmaServe
