/-!
# Diagnostics

A scan finds fault with two things: a string without its closing quote, and a
character that begins no token. A diagnostic is such a fault together with the line
it is reported for.
-/

namespace LoxTokens

/-- What can be wrong with the text of a source. -/
inductive Fault where
  | unterminatedString
  | unexpectedCharacter
deriving DecidableEq

def Fault.text : Fault → String
  | unterminatedString => "Unterminated string."
  | unexpectedCharacter => "Unexpected character."

structure Diagnostic where
  fault : Fault
  line : Nat
deriving DecidableEq

/-- The message of a diagnostic: its line, then the wording of the fault. -/
def Diagnostic.message (d : Diagnostic) : String :=
  "[line " ++ toString d.line ++ "] Error: " ++ d.fault.text

end LoxTokens
