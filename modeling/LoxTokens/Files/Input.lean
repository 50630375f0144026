/-!
# Inputs

A source is read from a file or from standard input, which is named by a single
dash. Reading fails for one of a few causes, and each has its wording; a file that is
not there is worth a message of its own.
-/

namespace LoxTokens

/-- Where a source comes from. -/
inductive Input where
  | standardInput
  | file (path : String)
deriving DecidableEq

/-- The input that a path on the command line names. -/
def Input.ofPath (path : String) : Input :=
  if path = "-" then .standardInput else .file path

inductive ReadError where
  | notFound
  | isDirectory
  | notDirectory
  | nameTooLong
  | permissionDenied
  | zeroByteInName
  | notText
  | other (cause : String)
deriving DecidableEq

namespace ReadError

def text : ReadError → String
  | notFound => "No such file or directory (os error 2)"
  | isDirectory => "Is a directory (os error 21)"
  | notDirectory => "Not a directory (os error 20)"
  | nameTooLong => "File name too long (os error 36)"
  | permissionDenied => "Permission denied (os error 13)"
  | zeroByteInName => "file name contained an unexpected NUL byte"
  | notText => "stream did not contain valid UTF-8"
  | other cause => cause

/-- The message for an input that could not be read. -/
def message (input : Input) (e : ReadError) : String :=
  match input, e with
  | .standardInput, e => "Error reading stdin: " ++ e.text
  | .file path, .notFound => "Error: file not found: " ++ path
  | .file path, e => "Error reading " ++ path ++ ": " ++ e.text

end ReadError

/-- The text that bytes hold in UTF-8. Nothing is stripped and nothing replaced. -/
def decodeText (bytes : ByteArray) : Except ReadError String :=
  match String.fromUTF8? bytes with
  | some text => .ok text
  | none => .error .notText

end LoxTokens
