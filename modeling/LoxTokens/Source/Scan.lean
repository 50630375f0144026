import LoxTokens.Diagnostic.Log
import LoxTokens.Source.Piece

/-!
# Scanning

A scan goes through the pieces of a source once, from the first to the last. It keeps
its position, the tokens made so far and a sink: any state at all, together with the
way it takes a diagnostic. A piece makes one token, or one diagnostic, or neither.

Whoever wants the diagnostics chooses the sink. `scan` collects them in a log, and
`tokenize` stops at the first.
-/

namespace LoxTokens

universe u

variable {σ : Type u}

/-- What to do with a character that begins no token: report it, or pass it over. -/
inductive Policy where
  | report
  | skip
deriving DecidableEq

/-- Without a choice, such characters are reported. -/
instance : Inhabited Policy := ⟨.report⟩

namespace Piece

/-- The token a piece makes at `p`, if it makes one. -/
def token? (p : Position) : Piece → Option Token
  | lexeme l => some (l.tokenAt p)
  | _ => none

/-- The diagnostic a piece gives rise to at `p`. A string that is never closed is
reported for the line on which the source ends. -/
def diagnostic? (policy : Policy) (p : Position) : Piece → Option Diagnostic
  | unknown _ =>
      match policy with
      | .report => some ⟨.unexpectedCharacter, p.line⟩
      | .skip => none
  | openString body => some ⟨.unterminatedString, (p.after ('"' :: body)).line⟩
  | _ => none

end Piece

/-- The state of a scan between two pieces. -/
structure Progress (σ : Type u) where
  position : Position
  tokens : Array Token
  sink : σ

namespace Progress

def start (sink : σ) : Progress σ := ⟨.start, #[], sink⟩

def step (policy : Policy) (report : σ → Diagnostic → σ) (s : Progress σ) (piece : Piece) :
    Progress σ where
  position := s.position.after piece.text
  tokens := (piece.token? s.position).elim s.tokens s.tokens.push
  sink := (piece.diagnostic? policy s.position).elim s.sink (report s.sink)

end Progress

/-- Scans a source, giving each diagnostic to the sink as it is found. The tokens end
with the mark that ends every scan. -/
def scanInto (policy : Policy) (report : σ → Diagnostic → σ) (sink : σ) (source : String) :
    List Token × σ :=
  let done := (pieces source.toList).foldl (Progress.step policy report) (.start sink)
  ((done.tokens.push (.endAt done.position)).toList, done.sink)

/-- Scans a source, adding the diagnostics to a log. -/
def Log.scan (log : Log) (policy : Policy) (source : String) : List Token × Log :=
  scanInto policy Log.report log source

/-- The tokens of a source, and a log of the diagnostics. -/
def scan (policy : Policy) (source : String) : List Token × Log :=
  Log.empty.scan policy source

/-- The tokens of a source in which there is no fault, and otherwise the first
diagnostic. -/
def tokenize (source : String) : Except Diagnostic (List Token) :=
  let (tokens, log) := scan default source
  match log.toList with
  | [] => .ok tokens
  | d :: _ => .error d

end LoxTokens
