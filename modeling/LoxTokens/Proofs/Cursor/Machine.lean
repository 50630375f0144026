import Mathlib
import LoxTokens.Source.Scan

/-!
# A cursor over the bytes of a source

A scan can be done by a machine that keeps nothing of the source but byte offsets: where
the current lexeme begins, and how far it has read. It looks at one character behind its
cursor, at one place at two, and takes the text of a token out of the source by its two
ends. Each step changes one of its numbers at most.

Two things could stop such a machine. An offset may lie beyond the end of the source or
inside a character, and then there is no text to take; and a sum or a difference may
leave the numbers that fit into a machine word. In either case `Machine.step` has no
result.
-/

namespace LoxTokens

variable {σ : Type}

/-- The text between two byte offsets, when both are places of the source in this order. -/
def slice? (source : String) (first last : Nat) : Option String :=
  if h : first ≤ last ∧ String.Pos.Raw.IsValid source ⟨first⟩ ∧
      String.Pos.Raw.IsValid source ⟨last⟩ then
    some (source.extract ⟨⟨first⟩, h.2.1⟩ ⟨⟨last⟩, h.2.2⟩)
  else none

/-- The value of digits with or without a point among them. -/
def numeralValue (text : String) : Binary64 :=
  let digits := text.toList
  (Decimal.ofParts (digits.takeWhile (· != '.'))
    ((digits.dropWhile (· != '.')).drop 1)).toBinary64

/-- What the machine does next. `head` is the head of its main loop, and `choose` goes on
as the first character of a lexeme says. `comment`, `string`, `whole`, `fraction` and
`word` are the loops that read on, `newline` takes a newline of a string that has been
counted, `quote` and `point` look at what ended the loop in front of them. `symbol`,
`close`, `number` and `name` make a token of what was read. -/
inductive Task where
  | head
  | markStart
  | markLine
  | first
  | choose (c : Char)
  | operator (plain longer : Symbol)
  | slash
  | comment
  | string
  | newline
  | quote
  | whole
  | point
  | fraction
  | word
  | symbol (s : Symbol)
  | close
  | number
  | name
  | stop
deriving DecidableEq

/-- The state of the machine: what it does next, the byte offsets of the lexeme it reads and
of its cursor, the lines of both, and what it has made so far. -/
structure Cursor (σ : Type) where
  task : Task
  start : Nat
  current : Nat
  startLine : Nat
  line : Nat
  tokens : Array Token
  sink : σ

namespace Cursor

def initial (sink : σ) : Cursor σ := ⟨.head, 0, 0, 1, 1, #[], sink⟩

def goto (s : Cursor σ) (task : Task) : Cursor σ := { s with task }

/-- The cursor behind the character `c`. -/
def passed (s : Cursor σ) (c : Char) (task : Task) : Cursor σ :=
  { s with task, current := s.current + c.utf8Size }

/-- The cursor with its line counted up. -/
def counted (s : Cursor σ) (task : Task) : Cursor σ := { s with task, line := s.line + 1 }

end Cursor

/-- What a machine is given: the width of its words, one bit more than `bits`, what it does
with characters that begin nothing, the way it reports, and the source. -/
structure Machine (σ : Type) where
  bits : Nat
  policy : Policy
  report : σ → Diagnostic → σ
  source : String

namespace Machine

variable (m : Machine σ)

/-- The sum, when it fits into a word. -/
def add? (k n : Nat) : Option Nat :=
  if k + n < 2 ^ (m.bits + 1) then some (k + n) else none

/-- The difference, when it is not below zero. -/
def sub? (k n : Nat) : Option Nat :=
  if n ≤ k then some (k - n) else none

def atEnd (s : Cursor σ) : Bool := m.source.utf8ByteSize ≤ s.current

/-- The character behind the cursor, if there is one. -/
def peek (s : Cursor σ) : Option (Option Char) := do
  let rest ← slice? m.source s.current m.source.utf8ByteSize
  some rest.toList.head?

/-- The second character behind the cursor. -/
def peekNext (s : Cursor σ) : Option (Option Char) := do
  let rest ← slice? m.source s.current m.source.utf8ByteSize
  some rest.toList[1]?

/-- Moves the cursor behind the next character, and yields that character. At the end of
the source it stays. -/
def advance (s : Cursor σ) : Option (Option Char × Cursor σ) := do
  match ← m.peek s with
  | none => some (none, s)
  | some c =>
      let current ← m.add? s.current c.utf8Size
      some (some c, { s with current })

/-- The text from the beginning of the lexeme up to the cursor. -/
def lexeme (s : Cursor σ) : Option String := slice? m.source s.start s.current

/-- Makes a token of the lexeme. -/
def push (kind : Kind) (literal : Option Literal) (s : Cursor σ) : Option (Cursor σ) := do
  let text ← m.lexeme s
  let token : Token := ⟨kind, text, literal, s.startLine, ⟨s.start, s.current⟩⟩
  some { s with task := .head, tokens := s.tokens.push token }

/-- Puts the mark that ends the tokens behind them. -/
def finish (s : Cursor σ) : Cursor σ :=
  let mark : Token := ⟨.endOfSource, "", none, s.line,
    ⟨m.source.utf8ByteSize, m.source.utf8ByteSize⟩⟩
  { s with task := .stop, tokens := s.tokens.push mark }

def countLine (task : Task) (s : Cursor σ) : Option (Cursor σ) := do
  let line ← m.add? s.line 1
  some { s with task, line }

def tell (fault : Fault) (s : Cursor σ) : Cursor σ :=
  { s with task := .head, sink := m.report s.sink ⟨fault, s.line⟩ }

/-- Passes over one character, and goes on with `task`. -/
def pass (task : Task) (s : Cursor σ) : Option (Cursor σ) := do
  let (_, s) ← m.advance s
  some (s.goto task)

/-- Passes over the next character if it is `c`. -/
def passIf (c : Char) (task otherwise : Task) (s : Cursor σ) : Option (Cursor σ) := do
  if (← m.peek s) = some c then m.pass task s else some (s.goto otherwise)

/-- Passes over one more character that satisfies `p` and stays at its task, or goes on
with `task` when there is none. -/
def passWhile (p : Char → Bool) (task : Task) (s : Cursor σ) : Option (Cursor σ) := do
  if (← m.peek s).any p then m.pass s.task s else some (s.goto task)

/-- Goes on behind the first character `c` of a lexeme. -/
def choose (c : Char) (s : Cursor σ) : Option (Cursor σ) :=
  match Symbol.ofChar? c with
  | some .slash => some (s.goto .slash)
  | some plain =>
      match plain.withEqual? with
      | some longer => some (s.goto (.operator plain longer))
      | none => some (s.goto (.symbol plain))
  | none =>
      if c = ' ' ∨ c = '\r' ∨ c = '\t' then some (s.goto .head)
      else if c = '\n' then m.countLine .head s
      else if c = '"' then some (s.goto .string)
      else if c.isDigit then some (s.goto .whole)
      else if c.isAlphanum then some (s.goto .word)
      else
        match m.policy with
        | .report => some (m.tell .unexpectedCharacter s)
        | .skip => some (s.goto .head)

/-- Reads one more character of a string. -/
def readString (s : Cursor σ) : Option (Cursor σ) := do
  match ← m.peek s with
  | none => some (s.goto .quote)
  | some c =>
      if c = '"' then some (s.goto .quote)
      else if c = '\n' then m.countLine .newline s
      else m.pass .string s

/-- Takes the quote that ends a string. Where there is none the source has ended. -/
def readQuote (s : Cursor σ) : Option (Cursor σ) :=
  if m.atEnd s then some (m.tell .unterminatedString s) else m.pass .close s

/-- Makes a token of a string, whose value stands between the quotes. -/
def closeString (s : Cursor σ) : Option (Cursor σ) := do
  let first ← m.add? s.start 1
  let last ← sub? s.current 1
  let content ← slice? m.source first last
  m.push .string (some (.string content)) s

/-- Takes the point of a number when a digit stands behind it. -/
def readPoint (s : Cursor σ) : Option (Cursor σ) := do
  if (← m.peek s) = some '.' then
    if (← m.peekNext s).any Char.isDigit then m.pass .fraction s
    else some (s.goto .number)
  else some (s.goto .number)

/-- One step of the machine, and no result where it would read outside the source, inside
a character, or calculate outside its words. -/
def step (s : Cursor σ) : Option (Cursor σ) :=
  match s.task with
  | .head => if m.atEnd s then some (m.finish s) else some (s.goto .markStart)
  | .markStart => some { s with task := .markLine, start := s.current }
  | .markLine => some { s with task := .first, startLine := s.line }
  | .first => do
      match ← m.advance s with
      | (none, s) => some (s.goto .head)
      | (some c, s) => some (s.goto (.choose c))
  | .choose c => m.choose c s
  | .operator plain longer => m.passIf '=' (.symbol longer) (.symbol plain) s
  | .slash => m.passIf '/' .comment (.symbol .slash) s
  | .comment => m.passWhile (· != '\n') .head s
  | .string => m.readString s
  | .newline => m.pass .string s
  | .quote => m.readQuote s
  | .whole => m.passWhile Char.isDigit .point s
  | .point => m.readPoint s
  | .fraction => m.passWhile Char.isDigit .number s
  | .word => m.passWhile Char.isAlphanum .name s
  | .symbol t => m.push (.symbol t) none s
  | .close => m.closeString s
  | .number => do
      let text ← m.lexeme s
      m.push .number (some (.number (numeralValue text))) s
  | .name => do
      let text ← m.lexeme s
      m.push (.ofWord text) none s
  | .stop => some s

/-- That many steps. -/
def run : Nat → Cursor σ → Option (Cursor σ)
  | 0, s => some s
  | n + 1, s => do run n (← m.step s)

end Machine

end LoxTokens
