import LoxTokens.Token.Basic

/-!
# Listings of tokens

A listing shows tokens one after another, each on a line of its own. Text that comes
from the source is shown as it is, so a string that holds a newline takes several
lines.
-/

namespace LoxTokens

/-- The written forms of the tokens, each followed by a newline. -/
def Token.listing (tokens : List Token) : String :=
  String.join (tokens.map fun t => t.text ++ "\n")

end LoxTokens
