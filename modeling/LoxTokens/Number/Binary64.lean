import LoxTokens.Number.Rounding

/-!
# Doubles as words

A number literal denotes a double of the IEEE 754 format binary64. It is kept as its
64-bit word, and everything about it is computed on naturals: the fields of the
word, the exact magnitude as a quotient of two naturals, and the double nearest to
a given quotient.

The words of the magnitudes are ordered as the magnitudes are, and neighbours differ
by one. A rounding that carries into the next power of two, or past the largest
finite double, therefore needs no case of its own.
-/

namespace LoxTokens

/-- A double, given by its 64-bit word. -/
structure Binary64 where
  bits : UInt64
deriving DecidableEq

namespace Binary64

/-- Whether the sign bit is set; negative zero is negative. -/
def isNegative (x : Binary64) : Bool := x.bits.toNat >>> 63 == 1

def exponentField (x : Binary64) : Nat := (x.bits.toNat >>> 52) % (1 <<< 11)

def fractionField (x : Binary64) : Nat := x.bits.toNat % (1 <<< 52)

/-- Whether the word denotes a number, and not an infinity or no number at all. -/
def isFinite (x : Binary64) : Bool := x.exponentField != 2047

def isNaN (x : Binary64) : Bool := x.exponentField == 2047 && x.fractionField != 0

def magnitude (x : Binary64) : Binary64 := ⟨UInt64.ofNat (x.bits.toNat % (1 <<< 63))⟩

/-- The significand as a natural: subnormal doubles lack the leading one. -/
def significand (x : Binary64) : Nat :=
  if x.exponentField = 0 then x.fractionField else (1 <<< 52) + x.fractionField

/-- The exponent field, with the subnormal doubles counted to the lowest power of
two. A finite magnitude is its significand times two to the power `binade - 1075`. -/
def binade (x : Binary64) : Nat := max 1 x.exponentField

/-- The numerator of the magnitude of a finite double. -/
def numerator (x : Binary64) : Nat := x.significand <<< (x.binade - 1075)

/-- The denominator of the magnitude of a finite double, a power of two. -/
def denominator (x : Binary64) : Nat := 1 <<< (1075 - x.binade)

/-- Whether the magnitude of a finite double is a whole number. -/
def isIntegral (x : Binary64) : Bool := x.numerator % x.denominator == 0

/-- The word of positive infinity, the first that is too large to be finite. -/
def infinityWord : Nat := 2047 <<< 52

/-- The double nearest to `num / den`, ties to the even significand; infinity when
that is beyond the finite doubles. The power of two is chosen so that the rounded
significand has 53 bits, or fewer at the lower end of the format. -/
def ofRatio (num den : Nat) : Binary64 :=
  let power := ((num <<< 1022) / den).log2
  let significand := roundHalfEven (num <<< (1074 - power)) (den <<< (power - 1074))
  ⟨UInt64.ofNat (min infinityWord ((power <<< 52) + significand))⟩

/-- Equality of doubles as numbers: the two zeros are equal, and what is no number is
equal to nothing. -/
instance : BEq Binary64 where
  beq x y := !x.isNaN && !y.isNaN &&
    (x.bits == y.bits || (x.magnitude.bits == 0 && y.magnitude.bits == 0))

end Binary64

end LoxTokens
