/-!
# Rounding a quotient to an integer

Numbers are rounded in one place only: the quotient of two naturals goes to the
nearest natural, and a quotient half-way between two goes to the even one.
-/

namespace LoxTokens

/-- The natural nearest to `num / den`; of two that are equally near, the even one. -/
def roundHalfEven (num den : Nat) : Nat :=
  let below := num / den
  let twice := 2 * (num % den)
  if twice < den then below
  else if den < twice then below + 1
  else below + below % 2

end LoxTokens
