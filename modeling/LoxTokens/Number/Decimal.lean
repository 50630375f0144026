import LoxTokens.Number.Binary64

/-!
# Decimals

A decimal is a natural together with the number of its digits that stand behind the
point. It is what the digits of a number in a source say exactly, and what a double
is written as.
-/

namespace LoxTokens

/-- The number whose digits, when `places` of them stand behind the point, are those
of `digits`. -/
structure Decimal where
  digits : Nat
  places : Nat
deriving DecidableEq

namespace Decimal

/-- How many units of the last of `places` places make one. -/
def unit (places : Nat) : Nat := Nat.pow 10 places

/-- The decimal written with the digits `whole` before and `fraction` behind the
point. -/
def ofParts (whole fraction : List Char) : Decimal :=
  ⟨Nat.ofDigitChars 10 (whole ++ fraction) 0, fraction.length⟩

def toBinary64 (d : Decimal) : Binary64 := .ofRatio d.digits (unit d.places)

/-- The digits before the point, without superfluous zeros. -/
def whole (d : Decimal) : List Char := Nat.toDigits 10 (d.digits / unit d.places)

/-- The digits behind the point, as many as the decimal has places. -/
def fraction (d : Decimal) : List Char :=
  if d.places = 0 then []
  else (Nat.toDigits 10 (d.digits % unit d.places)).leftpad d.places '0'

/-- The written form: digits, and when there are places a point and more digits. -/
def text (d : Decimal) : String :=
  String.ofList (if d.places = 0 then d.whole else d.whole ++ '.' :: d.fraction)

/-- The decimal with the given digits and places, without the zeros at the end of its
fraction. -/
def trimmed (digits : Nat) : Nat → Decimal
  | 0 => ⟨digits, 0⟩
  | places + 1 =>
      if digits % 10 = 0 then trimmed (digits / 10) places else ⟨digits, places + 1⟩

/-- A whole number, written with one place: `7` is `7.0`. -/
def ofNat (n : Nat) : Decimal := ⟨10 * n, 1⟩

end Decimal

end LoxTokens
