/-!
# Declared command lines

A program does not read its arguments itself. It declares what they may be, and a parser
that is given the declaration returns what it found, or why to stop. The parser is not
this program's, so all that depends on it takes it as a parameter.

Declarations have the few things that are needed here: switches, values that must be
given, and commands of which one must be given.
-/

namespace LoxTokens

/-- What the arguments may be: of a program, or of a command behind its word. A switch is
set by a double dash and its name, and the commands know it as well. -/
structure Declaration where
  word : String
  versioned : Bool
  switches : List String
  values : List String
  commands : List Declaration

/-- The declaration of a command that knows the switches in front of it. -/
def Declaration.inherit (c : Declaration) (switches : List String) : Declaration :=
  { c with switches := switches ++ c.switches }

/-- How a switch is spelled as an argument. -/
def spelled (switch : String) : String := "--" ++ switch

/-- An argument that is no flag: a single dash, or what does not begin with a dash. -/
def IsFree (argument : String) : Prop := argument = "-" ∨ argument.toList.head? ≠ some '-'

instance (argument : String) : Decidable (IsFree argument) :=
  inferInstanceAs (Decidable (_ ∨ _))

/-- What was found among the arguments: whether a switch is set, in front of a command or
behind it, the words of the commands, the outermost first, and the values. -/
structure Matches where
  isSet : String → Bool
  words : List String
  values : List String

namespace Matches

def nothing : Matches := ⟨fun _ => false, [], []⟩

def set (m : Matches) (switch : String) : Matches :=
  { m with isSet := fun s => s == switch || m.isSet s }

def addValue (m : Matches) (value : String) : Matches := { m with values := value :: m.values }

def behind (m : Matches) (word : String) : Matches := { m with words := word :: m.words }

end Matches

inductive Misuse where
  | nothingAsked
  | missingCommand
  | unknownCommand
  | missingValue
  | unexpectedArgument
  | unexpectedValue
  | repeatedSwitch
deriving DecidableEq

/-- Why the arguments do not lead to a command being run. Help is asked for on the program
or on one of its commands, which is told by its word. -/
inductive Stop where
  | help (word : String)
  | version
  | misuse (m : Misuse)
deriving DecidableEq

abbrev Parser := Declaration → List String → Except Stop Matches

end LoxTokens
