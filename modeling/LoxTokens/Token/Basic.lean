import LoxTokens.Text.Position
import LoxTokens.Text.Span
import LoxTokens.Token.Kind
import LoxTokens.Token.Literal

/-!
# Tokens

A token keeps its kind, the text it was read from, the value of that text when it is
a literal, and where it stands. A scan only makes tokens whose parts agree; a token
put together by hand may combine any parts.
-/

namespace LoxTokens

/-- A token. `line` is the line on which its text begins. -/
structure Token where
  kind : Kind
  lexeme : String
  literal : Option Literal
  line : Nat
  span : Span

namespace Token

/-- The mark that ends a scan: no text, at the end of the source. -/
def endAt (p : Position) : Token :=
  ⟨.endOfSource, "", none, p.line, ⟨p.offset, p.offset⟩⟩

def isEnd (t : Token) : Bool := t.kind == .endOfSource

/-- The written form: kind, text and value with single blanks between them, and the
word for nothing when there is no value. -/
def text (t : Token) : String :=
  t.kind.name ++ " " ++ t.lexeme ++ " " ++ (t.literal.map Literal.text).getD "null"

/-- Tokens are equal when all their parts are, literals by their value. -/
instance : BEq Token where
  beq s t := s.kind == t.kind && s.lexeme == t.lexeme && s.literal == t.literal &&
    s.line == t.line && s.span == t.span

end Token

end LoxTokens
