/-
Integers on the command line and in the environment: `strtoul`, `strtol` and
`atoi`, on a system whose `long` has 64 bits. What `to_string` writes is read
back (`strtoul_stdToString`, `strtol_stdToString`).
-/
import Mathlib.Data.List.TakeWhile
import UmaServe.Ipc.Events

namespace UmaServe

open Lib (isDigit natOf signOf)

/-- `isspace`, in the C locale. -/
def isSpace (c : UInt8) : Bool := c = chr ' ' || (9 ≤ c && c ≤ 13)

/-- The sign and the digits a text begins with, behind white space. Without
digits the value is 0. -/
def leading (s : Bytes) : Bool × Nat :=
  let (neg, body) := signOf (s.dropWhile isSpace)
  (neg, natOf (body.takeWhile isDigit))

/-- `std::strtoul(s, nullptr, 10)`, and `std::strtoull`. -/
def strtoul (s : Bytes) : Nat :=
  let (neg, n) := leading s
  if 2 ^ 64 ≤ n then 2 ^ 64 - 1 else if neg then subU64 0 n else n

/-- `std::strtol(s, nullptr, 10)`. -/
def strtol (s : Bytes) : Int :=
  let (neg, n) := leading s
  if neg then max (-n) (-2 ^ 63) else min n (2 ^ 63 - 1)

/-- The cast to `uint32_t`. -/
def toU32 (n : Nat) : Nat := n % 2 ^ 32

/-- The cast to `int32_t`. -/
def toI32 (i : Int) : Int := i.bmod (2 ^ 32)

/-- `std::atoi`. Out of range it is what the cast of `strtol` makes of it. -/
def atoi (s : Bytes) : Int := toI32 (strtol s)

section Numbers

variable {n : Nat} {i : Int}

theorem natOf_toDigits (n : Nat) : natOf ((Nat.toDigits 10 n).map chr) = n := by
  have hdig : ∀ c ∈ Nat.toDigits 10 n, c.isDigit = true := fun c =>
    Nat.isDigit_of_mem_toDigits (by decide) (by decide)
  rw [natOf, natOf_map_chr hdig, Nat.ofDigitChars_ten_toDigits]

theorem isDigit_toDigits {c : UInt8} (h : c ∈ (Nat.toDigits 10 n).map chr) : isDigit c = true := by
  obtain ⟨u, hu, rfl⟩ := List.mem_map.mp h
  exact isDigit_chr (Nat.isDigit_of_mem_toDigits (by decide) (by decide) hu)

theorem digit_not_space {c : UInt8} (h : isDigit c = true) : isSpace c = false := by
  have hlow := (Lib.isDigit_iff.mp h).1
  rw [isSpace, Bool.or_eq_false_iff, decide_eq_false_iff_not, Bool.and_eq_false_iff, decide_eq_false_iff_not,
    decide_eq_false_iff_not]
  refine ⟨fun hc => ?_, .inr fun hle => ?_⟩
  · rw [hc] at hlow
    exact absurd hlow (by decide)
  · have hle : c.toNat ≤ 13 := UInt8.le_iff_toNat_le.mp hle
    omega

theorem leading_digits {ds : Bytes} (hne : ds ≠ []) (hds : ∀ c ∈ ds, isDigit c = true) :
    leading ds = (false, natOf ds) ∧ leading (chr '-' :: ds) = (true, natOf ds) := by
  have htake : ds.takeWhile isDigit = ds := List.takeWhile_eq_self_iff.mpr hds
  constructor
  · obtain ⟨c, t, rfl⟩ := List.exists_cons_of_ne_nil hne
    have hc := hds c List.mem_cons_self
    rw [leading, List.dropWhile_cons_of_neg (by simp [digit_not_space hc]), Lib.signOf_digit hc]
    simp only [htake]
  · have hsign : signOf (chr '-' :: ds) = (true, ds) := rfl
    rw [leading, List.dropWhile_cons_of_neg (by decide), hsign]
    simp only [htake]

theorem leading_stdToString (i : Int) : leading (stdToString i) = (decide (i < 0), i.natAbs) := by
  have hne : (Nat.toDigits 10 i.natAbs).map chr ≠ [] := fun h => Nat.toDigits_ne_nil (List.map_eq_nil_iff.mp h)
  obtain ⟨hpos, hneg⟩ := leading_digits hne fun c hc => isDigit_toDigits hc
  rw [natOf_toDigits] at hpos hneg
  unfold stdToString
  split
  next h => rw [hneg, decide_eq_true h]
  next h => rw [hpos, decide_eq_false h]

/-- **A number** in the range of the type is read as it was written. -/
theorem strtoul_stdToString (h : n < 2 ^ 64) : strtoul (stdToString n) = n := by
  rw [strtoul, leading_stdToString]
  simp only [Int.natAbs_natCast, decide_eq_false (Int.not_lt.mpr (Int.natCast_nonneg n)), if_neg (Nat.not_le.mpr h),
    Bool.false_eq_true, if_false]

theorem strtol_stdToString (h : -2 ^ 63 ≤ i ∧ i < 2 ^ 63) : strtol (stdToString i) = i := by
  rw [strtol, leading_stdToString]
  by_cases hi : i < 0
  · simp only [decide_eq_true hi, if_true]
    omega
  · simp only [decide_eq_false hi, Bool.false_eq_true, if_false]
    omega

theorem toU32_of_lt (h : n < 2 ^ 32) : toU32 n = n := Nat.mod_eq_of_lt h

theorem toI32_of_range (h : -2 ^ 31 ≤ i ∧ i < 2 ^ 31) : toI32 i = i := by
  rw [toI32, Int.bmod_eq_of_le] <;> omega

theorem atoi_stdToString (h : -2 ^ 31 ≤ i ∧ i < 2 ^ 31) : atoi (stdToString i) = i := by
  rw [atoi, strtol_stdToString (by omega), toI32_of_range h]

end Numbers
end UmaServe
