/-!
# Commands

The program does one of two things with a source: it lists the tokens, or it only
looks for faults.
-/

namespace LoxTokens

/-- What the program can be told to do with a source. -/
inductive Command where
  | tokens
  | check
deriving DecidableEq

namespace Command

def word : Command → String
  | tokens => "tokens"
  | check => "check"

def ofWord? (word : String) : Option Command :=
  [tokens, check].find? fun c => c.word == word

/-- One line on what a command does. -/
def summary : Command → String
  | tokens => "Print the tokens of a .lox file, one per line"
  | check => "Check a .lox file for lexical errors without printing tokens"

end Command

end LoxTokens
