import LoxTokens.CommandLine.Declaration

/-!
# Reading arguments in order

The parser that the executable runs with reads the arguments from left to right, and the
first thing that settles the matter does: a request for help or for the version, or a
misuse. In front of a command nothing may follow a double dash: a word that selects a
command is out of place there, any other selects none.
-/

namespace LoxTokens

/-- An argument by its form. A double dash alone separates; with a name behind it, it
is a long flag, and what stands behind an equals sign is its value. A single dash
with letters behind it is a row of short flags, of which the first decides. All else
is free, the single dash included. -/
inductive Argument where
  | separator
  | long (name : String) (value : Option String)
  | short (letter : Char)
  | free (text : String)
deriving DecidableEq

def Argument.ofString (argument : String) : Argument :=
  match argument.toList with
  | ['-', '-'] => separator
  | '-' :: '-' :: cs =>
      long (String.ofList (cs.takeWhile (· != '=')))
        (match cs.dropWhile (· != '=') with
          | [] => none
          | _ :: value => some (String.ofList value))
  | '-' :: c :: _ => short c
  | _ => free argument

inductive Flag where
  | switch
  | help
  | version
deriving DecidableEq

namespace Declaration

variable (d : Declaration)

/-- The flag with a long name. Help is known everywhere. -/
def longFlag? (name : String) : Option Flag :=
  if name ∈ d.switches then some .switch
  else if name = "help" then some .help
  else if name = "version" ∧ d.versioned then some .version
  else none

/-- Reads a long flag and goes on when it is a switch. Those of the same level in front of
it are `given`. -/
def readLong (given : List String) (name : String) (value : Option String) :
    Except Stop Unit :=
  match d.longFlag? name, value with
  | none, _ => .error (.misuse .unexpectedArgument)
  | some _, some _ => .error (.misuse .unexpectedValue)
  | some .help, none => .error (.help d.word)
  | some .version, none => .error .version
  | some .switch, none => if name ∈ given then .error (.misuse .repeatedSwitch) else .ok ()

def readShort (letter : Char) : Stop :=
  if letter = 'h' then .help d.word
  else if letter = 'V' ∧ d.versioned then .version
  else .misuse .unexpectedArgument

def command? (word : String) : Option Declaration := d.commands.find? fun c => c.word == word

/-- Reads the words behind the word for help: a command to explain, or the help itself. -/
def readHelp (d : Declaration) : List String → Stop
  | [] => .help d.word
  | word :: rest =>
      match d.command? word with
      | some c => readHelp c rest
      | none =>
          if word = "help" ∧ rest.isEmpty ∧ !d.commands.isEmpty then .help "help"
          else .misuse .unknownCommand

/-- Takes all arguments for values. -/
def readValues (arguments : List String) : Except Stop Matches :=
  if arguments.length < d.values.length then .error (.misuse .missingValue)
  else if d.values.length < arguments.length then .error (.misuse .unexpectedArgument)
  else .ok { Matches.nothing with values := arguments }

/-- What is wrong when no command is given. -/
def withoutCommand (given : List String) : Misuse :=
  if given.isEmpty then .nothingAsked else .missingCommand

/-- What is wrong with the arguments behind a double dash in front of a command. -/
def misplaced (given : List String) : List String → Misuse
  | [] => withoutCommand given
  | word :: _ =>
      if word = "help" ∨ (d.command? word).isSome then .unexpectedArgument else .unknownCommand

/-- Reads the arguments of one level, and of the next behind the word of a command. The
switches read so far on this level are `given`. -/
def read (d : Declaration) (given : List String) : List String → Except Stop Matches
  | [] =>
      if d.commands.isEmpty then d.readValues []
      else .error (.misuse (withoutCommand given))
  | a :: rest =>
      match Argument.ofString a with
      | .separator =>
          if d.commands.isEmpty then d.readValues rest
          else .error (.misuse (d.misplaced given rest))
      | .free text =>
          if d.commands.isEmpty then
            match d.values with
            | [] => .error (.misuse .unexpectedArgument)
            | _ :: values => do return (← read { d with values } given rest).addValue text
          else
            match d.command? text with
            | some c => do return (← read (c.inherit d.switches) [] rest).behind text
            | none => .error (if text = "help" then d.readHelp rest else .misuse .unknownCommand)
      | .long name value => do
          d.readLong given name value
          return (← read d (name :: given) rest).set name
      | .short letter => .error (d.readShort letter)

end Declaration

def readInOrder : Parser := fun d arguments => d.read [] arguments

end LoxTokens
