/-
The values of a `double`, `std::strtod` and the cast to `int32_t`. A decimal
number is rounded as `Float` does it: to the nearest of 53 bits, ties to even,
down to the subnormal numbers and zero, and to infinity where it is too large.
-/
import Mathlib.Data.NNRat.Defs
import Mathlib.Data.Rat.Floor
import UmaServe.Bytes

namespace UmaServe

open Lib (isDigit natOf signOf)

/-- The values of a `double`. A NaN has no payload. -/
inductive Double
  | finite (neg : Bool) (abs : ℚ≥0)
  | inf (neg : Bool)
  | nan (neg : Bool)
  deriving DecidableEq

namespace Double

/-- The value of a finite number. -/
def signed (neg : Bool) (abs : ℚ≥0) : ℚ := if neg then -abs else abs

/-- The `double` nearest to `m * 10 ^ e`. -/
def ofScientific (neg : Bool) (m : Nat) (e : Int) : Double :=
  match (Float.Model.ofScientific m e).unpack with
  | .finite _ k x _ => .finite neg (.divNat (k * 2 ^ x.toNat) (2 ^ (-x).toNat))
  | .zero _ => .finite neg 0
  | .infinity _ => .inf neg
  | .notANumber => .nan neg

/-- `a <= b`: a NaN compares with nothing, and the zeros are equal. -/
def le : Double → Double → Bool
  | .nan _, _ | _, .nan _ => false
  | .inf true, _ | _, .inf false => true
  | .inf false, _ | _, .inf true => false
  | .finite n₁ a, .finite n₂ b => signed n₁ a ≤ signed n₂ b

instance : LE Double := ⟨fun a b => le a b = true⟩

instance (a b : Double) : Decidable (a ≤ b) := inferInstanceAs (Decidable (_ = true))

instance : Zero Double := ⟨.finite false 0⟩

end Double

/-- The exponent of a decimal number: `e`, a sign, at least one digit;
anything else is no exponent. -/
def exponentOf : Bytes → Int
  | c :: cs =>
    if c = chr 'e' ∨ c = chr 'E' then
      let (neg, rest) := signOf cs
      let ds := rest.takeWhile isDigit
      if ds.isEmpty then 0 else if neg then -(natOf ds : Int) else natOf ds
    else 0
  | [] => 0

/-- `std::strtod` on the characters `extract_json_number` collects: the
longest prefix that is a decimal number, if there is one, rounded. -/
def strtod (num : Bytes) : Option Double :=
  let (neg, body) := signOf num
  let ip := body.takeWhile isDigit
  let afterInt := body.dropWhile isDigit
  let (fp, tail) := match afterInt with
    | c :: cs => if c = chr '.' then (cs.takeWhile isDigit, cs.dropWhile isDigit) else ([], afterInt)
    | [] => ([], [])
  if ip.isEmpty && fp.isEmpty then none
  else some (.ofScientific neg (natOf (ip ++ fp)) (exponentOf tail - fp.length))

/-- The decimals of 0.8 that a `double` does not hold change nothing. -/
example : strtod (bytes "0.80000000000000001") = strtod (bytes "0.8") := by decide +kernel

/-- `(int32_t) v` of a `double`: truncation towards zero. Out of range, where
C++ leaves the value open, it is what the conversion of AArch64 gives, the
nearest value of the type; and 0 of a NaN. -/
def truncInt : Double → Int
  | .finite neg q => max (-2 ^ 31) (min (if neg then -(q.num / q.den : Nat) else (q.num / q.den : Nat)) (2 ^ 31 - 1))
  | .inf neg => if neg then -2 ^ 31 else 2 ^ 31 - 1
  | .nan _ => 0

example : truncInt (.ofScientific true 199 (-2)) = -1 := by decide +kernel

end UmaServe
