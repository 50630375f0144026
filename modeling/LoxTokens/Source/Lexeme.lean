import LoxTokens.Token.Basic

/-!
# Lexemes

A lexeme is a stretch of the source that makes a token, taken apart: a symbol, a
string by what stands between its quotes, a number by its digits before and behind
the point, a word by its letters and digits. Its text, its kind and its value are
functions of these parts, so a token's value depends on nothing but its text.
-/

namespace LoxTokens

/-- A stretch of the source that makes a token. A number without a point has no
digits in its `fraction`. -/
inductive Lexeme where
  | symbol (s : Symbol)
  | string (content : List Char)
  | number (whole fraction : List Char)
  | word (letters : List Char)
deriving DecidableEq

namespace Lexeme

def text : Lexeme → List Char
  | symbol s => s.text
  | string content => '"' :: content ++ ['"']
  | number whole [] => whole
  | number whole fraction => whole ++ '.' :: fraction
  | word letters => letters

def kind : Lexeme → Kind
  | symbol s => .symbol s
  | string _ => .string
  | number _ _ => .number
  | word letters => .ofWord (String.ofList letters)

/-- The value of a lexeme, when it is a literal. -/
def literal : Lexeme → Option Literal
  | string content => some (.string (String.ofList content))
  | number whole fraction => some (.number (Decimal.ofParts whole fraction).toBinary64)
  | symbol _ | word _ => none

def tokenAt (p : Position) (l : Lexeme) : Token :=
  ⟨l.kind, String.ofList l.text, l.literal, p.line, ⟨p.offset, (p.after l.text).offset⟩⟩

theorem text_number_ne_nil (d : Char) (ds fraction : List Char) :
    (number (d :: ds) fraction).text ≠ [] := by
  cases fraction <;> simp [text]

end Lexeme

end LoxTokens
