import LoxTokens.Number.Decimal

/-!
# The decimal of a double

A whole double is written exactly, with one zero behind the point. Any other finite
double is written with the fewest digits that read back as the same double; of those
the nearest, and of two equally near the larger.

The search goes through the places behind the point, from the first that a digit
other than zero can take. On the grid of each place only the two neighbours of the
double need to be tried: the numbers that read back as it form an interval around
it, so if any point of the grid lies in there, one of the two does. At the place
where the expansion of the double ends it lies on the grid itself, so the search
never comes back empty.
-/

namespace LoxTokens

namespace Binary64

/-- Whether a decimal reads back as the magnitude of `x`. -/
def isReadFrom (x : Binary64) (d : Decimal) : Bool :=
  d.toBinary64.bits == x.magnitude.bits

/-- The number of places of the exact decimal expansion of a finite double. -/
def exactPlaces (x : Binary64) : Nat := 1075 - x.binade

/-- The first place behind the point at which a digit other than zero can stand. -/
def firstPlace (x : Binary64) : Nat :=
  (Nat.toDigits 10 ((x.denominator - 1) / x.numerator)).length

/-- The largest decimal with the given places that is not above the magnitude. -/
def floorAt (x : Binary64) (places : Nat) : Decimal :=
  ⟨x.numerator * Decimal.unit places / x.denominator, places⟩

/-- Whether the magnitude lies in the upper half, its middle included, of the step
from `floorAt` to the next decimal with the given places. -/
def upperHalfAt (x : Binary64) (places : Nat) : Bool :=
  x.denominator ≤ 2 * (x.numerator * Decimal.unit places % x.denominator)

/-- The nearest decimal with the given places that reads back as the magnitude. -/
def nearestAt? (x : Binary64) (places : Nat) : Option Decimal :=
  let below := x.floorAt places
  let above : Decimal := ⟨below.digits + 1, places⟩
  if x.isReadFrom above && (x.upperHalfAt places || !x.isReadFrom below) then some above
  else if x.isReadFrom below then some below
  else none

/-- The shortest decimal that reads back as the magnitude of a finite double that is
not whole. -/
def shortest (x : Binary64) : Decimal :=
  let places := List.range' x.firstPlace (x.exactPlaces - x.firstPlace)
  let found := (places.findSome? x.nearestAt?).getD (x.floorAt x.exactPlaces)
  .trimmed found.digits found.places

/-- The decimal that the magnitude of a finite double is written as. -/
def decimal (x : Binary64) : Decimal :=
  if x.isIntegral then .ofNat (x.numerator / x.denominator) else x.shortest

/-- The written form of a double, without an exponent. -/
def text (x : Binary64) : String :=
  if x.isNaN then "NaN"
  else (if x.isNegative then "-" else "") ++ (if x.isFinite then x.decimal.text else "inf")

end Binary64

end LoxTokens
