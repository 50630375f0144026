import LoxTokens.CommandLine.Command

/-!
# Help texts

What is printed about the program, about each command and about the help is fixed text.
-/

namespace LoxTokens

def versionText : String := "lox 0.1.0\n"

def Command.helpText (c : Command) : String :=
  c.summary ++ "\n\n" ++
  "Usage: lox " ++ c.word ++ " [OPTIONS] <PATH>\n\n" ++
  "Arguments:\n" ++
  "  <PATH>  Input .lox file, or \x60-\x60 for stdin\n\n" ++
  "Options:\n" ++
  "      --skip-unknown  " ++
  "Silently skip characters that start no token instead of reporting them\n" ++
  "  -h, --help          Print help\n"

def programHelpText : String :=
  "Lox scanner: turn Lox source into tokens\n\n" ++
  "Usage: lox [OPTIONS] <COMMAND>\n\n" ++
  "Commands:\n" ++
  "  tokens  " ++ Command.tokens.summary ++ "\n" ++
  "  check   " ++ Command.check.summary ++ "\n" ++
  "  help    Print this message or the help of the given subcommand(s)\n\n" ++
  "Options:\n" ++
  "      --skip-unknown  " ++
  "Silently skip characters that start no token instead of reporting them\n" ++
  "  -h, --help          Print help\n" ++
  "  -V, --version       Print version\n"

/-- The help on a command, on the help itself, or on the program. -/
def helpText (word : String) : String :=
  match Command.ofWord? word with
  | some c => c.helpText
  | none =>
      if word = "help" then
        "Print this message or the help of the given subcommand(s)\n\n" ++
        "Usage: lox help [COMMAND]...\n\n" ++
        "Arguments:\n" ++
        "  [COMMAND]...  Print help for the subcommand(s)\n"
      else programHelpText

end LoxTokens
