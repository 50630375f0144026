import LoxTokens.CommandLine.Program
import LoxTokens.CommandLine.Reader

/-!
# The executable

Reads the input that the arguments name, runs the command and prints what it leaves
behind. All decisions are made by the functions it calls.
-/

namespace LoxTokens

/-- The number of a system error, which may come with either sign. -/
def systemErrorNumber (code : UInt32) : Nat :=
  if code.toNat < 1 <<< 31 then code.toNat else (1 <<< 32) - code.toNat

/-- The cause behind a failure of the operating system. -/
def ReadError.ofSystem (e : IO.Error) : ReadError :=
  match e with
  | .noFileOrDirectory _ _ _ => .notFound
  | .permissionDenied _ _ _ => .permissionDenied
  | .inappropriateType _ code _ | .invalidArgument _ code _ =>
      match systemErrorNumber code with
      | 20 => .notDirectory
      | 21 => .isDirectory
      | 36 => .nameTooLong
      | _ => .other (toString e)
  | _ => .other (toString e)

/-- Reads an input to its end. -/
def Input.read (input : Input) : IO (Except ReadError String) := do
  let bytes ← match input with
    | .standardInput => (IO.getStdin >>= (·.readBinToEnd) : IO ByteArray).toBaseIO
    | .file path =>
        if path.toList.contains '\x00' then return .error .zeroByteInName
        else (IO.FS.readBinFile path).toBaseIO
  match bytes with
  | .ok bytes => return decodeText bytes
  | .error e => return .error (.ofSystem e)

end LoxTokens

open LoxTokens in
def main (arguments : List String) : IO UInt32 := do
  let outcome ← match Invocation.ofArguments readInOrder arguments with
    | .error stop => pure stop.outcome
    | .ok invocation => do pure (invocation.run (← invocation.input.read))
  IO.eprint outcome.stderr
  IO.print outcome.stdout
  return outcome.code.toUInt32
