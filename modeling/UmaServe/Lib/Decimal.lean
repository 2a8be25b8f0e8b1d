/-
Decimal digits in ASCII, and the number a run of them spells.
-/
import Mathlib.Data.List.Basic
import Mathlib.Tactic.Ring

namespace Lib

def isDigit (c : UInt8) : Bool := 48 ≤ c && c ≤ 57

/-- The value of a run of digits. -/
def natOf (ds : List UInt8) : Nat := ds.foldl (fun n c => 10 * n + (c.toNat - 48)) 0

/-- A sign, if there is one, and the rest. -/
def signOf : List UInt8 → Bool × List UInt8
  | [] => (false, [])
  | c :: cs => if c = 45 then (true, cs) else if c = 43 then (false, cs) else (false, c :: cs)

variable {c : UInt8} {ds es : List UInt8}

theorem isDigit_iff : isDigit c = true ↔ 48 ≤ c.toNat ∧ c.toNat ≤ 57 := by
  rw [isDigit, Bool.and_eq_true, decide_eq_true_eq, decide_eq_true_eq, UInt8.le_iff_toNat_le, UInt8.le_iff_toNat_le]
  rfl

theorem signOf_digit (h : isDigit c = true) (cs : List UInt8) : signOf (c :: cs) = (false, c :: cs) := by
  have hlow := (isDigit_iff.mp h).1
  have hminus : c ≠ 45 := by
    rintro rfl
    exact absurd hlow (by decide)
  have hplus : c ≠ 43 := by
    rintro rfl
    exact absurd hlow (by decide)
  rw [signOf, if_neg hminus, if_neg hplus]

theorem natOf_append : natOf (ds ++ es) = natOf ds * 10 ^ es.length + natOf es := by
  have hfold : ∀ (es : List UInt8) (n : Nat), es.foldl (fun n c => 10 * n + (c.toNat - 48)) n =
      n * 10 ^ es.length + natOf es := by
    intro es
    induction es with
    | nil => simp [natOf]
    | cons c es ih =>
      intro n
      rw [List.foldl_cons, ih, show natOf (c :: es) = _ from (ih _), List.length_cons]
      ring
  rw [natOf, List.foldl_append, hfold]
  rfl

theorem natOf_zeros (k : Nat) : natOf (List.replicate k 48) = 0 := by
  induction k with
  | zero => rfl
  | succ k ih =>
    rw [List.replicate_succ', natOf_append, ih]
    rfl

end Lib
