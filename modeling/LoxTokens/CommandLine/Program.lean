import LoxTokens.CommandLine.Help
import LoxTokens.CommandLine.Invocation
import LoxTokens.Files.Tree
import LoxTokens.Source.Scan
import LoxTokens.Token.Listing

/-!
# The program

Running a command means scanning one source. Diagnostics are printed as they are
found; `tokens` prints the listing of the tokens, `check` a line of approval when there
was nothing to report. The exit code tells what became of it, and it is the same for
both commands.
-/

namespace LoxTokens

/-- What a run leaves behind: an exit code, and what was printed. -/
structure Outcome where
  code : Nat
  stdout : String
  stderr : String
deriving DecidableEq

def successCode : Nat := 0

def usageCode : Nat := 2

def faultCode : Nat := 65

def noInputCode : Nat := 66

/-- What a scan has printed about faults so far, and whether there was one. -/
structure Transcript where
  text : String
  failed : Bool
deriving DecidableEq

namespace Transcript

def empty : Transcript := ⟨"", false⟩

/-- Prints the message of a diagnostic on a line of its own. -/
def report (t : Transcript) (d : Diagnostic) : Transcript :=
  ⟨t.text ++ d.message ++ "\n", true⟩

/-- The exit code that a scan with this transcript leads to. -/
def code (t : Transcript) : Nat := if t.failed then faultCode else successCode

end Transcript

/-- Scans a source and prints what is wrong with it. -/
def scanPrinting (policy : Policy) (source : String) : List Token × Transcript :=
  scanInto policy Transcript.report .empty source

/-- Lists the tokens of a source, whether or not there are faults in it. -/
def listTokens (policy : Policy) (source : String) : Outcome :=
  let (tokens, transcript) := scanPrinting policy source
  ⟨transcript.code, Token.listing tokens, transcript.text⟩

/-- Checks a source, and approves of it under the name `path` when nothing is wrong. -/
def checkSource (policy : Policy) (path source : String) : Outcome :=
  let transcript := (scanPrinting policy source).2
  ⟨transcript.code, "",
    transcript.text ++ if transcript.failed then "" else "OK: " ++ path ++ "\n"⟩

/-- Runs a command on what reading its input came to: a source, or a message that says
why there is none. -/
def Command.run (command : Command) (policy : Policy) (path : String) :
    Except String String → Outcome
  | .error message => ⟨noInputCode, "", message ++ "\n"⟩
  | .ok source =>
      match command with
      | .tokens => listTokens policy source
      | .check => checkSource policy path source

namespace Invocation

def policy (i : Invocation) : Policy := if i.skipUnknown then .skip else .report

def input (i : Invocation) : Input := .ofPath i.path

/-- Runs what was asked for, given what reading the input came to. -/
def run (i : Invocation) (source : Except ReadError String) : Outcome :=
  i.command.run i.policy i.path (source.mapError (ReadError.message i.input))

end Invocation

/-- The outcome when no command is run: help and the version are an answer, a misuse is a
fault of its own. Who asks for nothing is shown the help; what the parser has to say about
any other misuse is left out. -/
def Stop.outcome : Stop → Outcome
  | help word => ⟨successCode, helpText word, ""⟩
  | version => ⟨successCode, versionText, ""⟩
  | misuse .nothingAsked => ⟨usageCode, "", programHelpText⟩
  | misuse _ => ⟨usageCode, "", ""⟩

/-- A whole run of the program, with the arguments as `parse` reads them and the files of
`tree`. -/
def runIn (parse : Parser) (tree : FileTree) (here : List String) (standardInput : ByteArray)
    (arguments : List String) : Outcome :=
  match Invocation.ofArguments parse arguments with
  | .ok i => i.run (tree.readInput here standardInput i.input)
  | .error stop => stop.outcome

end LoxTokens
