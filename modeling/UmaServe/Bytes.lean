/-
Byte strings, for `std::string` and `std::vector<uint8_t>` alike, with the
few operations of the standard library the sources call on them.
-/
import Mathlib.Data.List.Basic
import UmaServe.Lib.Decimal

namespace UmaServe

abbrev Bytes := List UInt8

/-- The bytes of a literal of the sources. -/
def bytes (s : String) : Bytes := s.toUTF8.toList

/-- The byte of an ASCII character. -/
def chr (c : Char) : UInt8 := c.toNat.toUInt8

/-- `s.find(pat)`: the first index at which `pat` occurs. -/
def find (pat : Bytes) : Bytes → Option Nat
  | [] => if pat.isEmpty then some 0 else none
  | c :: cs => if pat.isPrefixOf (c :: cs) then some 0 else (find pat cs).map (· + 1)

/-- `s.find(pat, pos)`. -/
def findFrom (pat s : Bytes) (pos : Nat) : Option Nat := (find pat (s.drop pos)).map (· + pos)

/-- `std::to_string` of an `int`. -/
def stdToString (i : Int) : Bytes :=
  if i < 0 then chr '-' :: (Nat.toDigits 10 i.natAbs).map chr else (Nat.toDigits 10 i.natAbs).map chr

/-- `a - b` in `uint64_t`. -/
def subU64 (a b : Nat) : Nat := (a + 2 ^ 64 - b) % 2 ^ 64

end UmaServe
