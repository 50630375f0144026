import LoxTokens.CommandLine.Command
import LoxTokens.CommandLine.Declaration

/-!
# Invocations

The program has two commands. Each takes one path, and the switch on unknown characters
may stand in front of the command and behind it. What a parser finds is an invocation.
-/

namespace LoxTokens

def Command.declaration (c : Command) : Declaration where
  word := c.word
  versioned := false
  switches := []
  values := ["PATH"]
  commands := []

/-- What the program declares of its arguments. -/
def Declaration.program : Declaration where
  word := "lox"
  versioned := true
  switches := ["skip-unknown"]
  values := []
  commands := [Command.tokens.declaration, Command.check.declaration]

/-- A command to run, on the input that `path` names. -/
structure Invocation where
  command : Command
  path : String
  skipUnknown : Bool
deriving DecidableEq

namespace Invocation

/-- The invocation that was found, when command and path were. -/
def ofMatches (m : Matches) : Except Stop Invocation :=
  match m.words with
  | [] => .error (.misuse .missingCommand)
  | word :: _ =>
      match Command.ofWord? word, m.values with
      | none, _ => .error (.misuse .unknownCommand)
      | some _, [] => .error (.misuse .missingValue)
      | some command, path :: _ => .ok ⟨command, path, m.isSet "skip-unknown"⟩

/-- The invocation that a parser finds in the arguments. -/
def ofArguments (parse : Parser) (arguments : List String) : Except Stop Invocation := do
  ofMatches (← parse .program arguments)

end Invocation

end LoxTokens
