import LoxTokens.Source.Lexeme

/-!
# Pieces of a source

Every source falls into pieces: blanks, comments, lexemes, characters that begin no
token, and possibly, at the end, a string that is never closed. `Piece.first` reads
the piece a source begins with. The first character tells how to go on, a slash
together with the next one, and each kind of piece then takes as much as it can.

`Piece.first_append` says that the first piece and what follows it make up the source
again. What follows is therefore shorter, reading comes to an end, and `pieces` puts
the whole source into a list, which `flatMap_text_pieces` says holds all of it.
-/

namespace LoxTokens

/-- A piece of a source. `comment body` lacks the two slashes and the newline that
ends it, `openString body` the opening quote. -/
inductive Piece where
  | blank (c : Char)
  | comment (body : List Char)
  | lexeme (l : Lexeme)
  | unknown (c : Char)
  | openString (body : List Char)
deriving DecidableEq

namespace Piece

def text : Piece → List Char
  | blank c => [c]
  | comment body => '/' :: '/' :: body
  | lexeme l => l.text
  | unknown c => [c]
  | openString body => '"' :: body

/-- What a quote opens: a string up to the next quote, or to the end when there is
none. -/
def quoted (cs : List Char) : Piece × List Char :=
  match cs.dropWhile (· != '"') with
  | [] => (openString cs, [])
  | _ :: rest => (lexeme (.string (cs.takeWhile (· != '"'))), rest)

/-- The digits behind a point. The point belongs to the number only when a digit
follows it. -/
def fraction : List Char → List Char × List Char
  | '.' :: cs =>
      match cs.takeWhile Char.isDigit with
      | [] => ([], '.' :: cs)
      | d :: ds => (d :: ds, cs.dropWhile Char.isDigit)
  | cs => ([], cs)

/-- The number whose first digit is `d`. -/
def number (d : Char) (cs : List Char) : Piece × List Char :=
  let behind := fraction (cs.dropWhile Char.isDigit)
  (lexeme (.number (d :: cs.takeWhile Char.isDigit) behind.1), behind.2)

/-- The word whose first letter is `c`. -/
def word (c : Char) (cs : List Char) : Piece × List Char :=
  (lexeme (.word (c :: cs.takeWhile Char.isAlphanum)), cs.dropWhile Char.isAlphanum)

/-- What a symbol opens: two slashes a comment up to the end of the line, an operator
and an equals sign its longer form. -/
def symbol (s : Symbol) : List Char → Piece × List Char
  | '/' :: cs =>
      if s = .slash then (comment (cs.takeWhile (· != '\n')), cs.dropWhile (· != '\n'))
      else (lexeme (.symbol s), '/' :: cs)
  | '=' :: cs =>
      match s.withEqual? with
      | some t => (lexeme (.symbol t), cs)
      | none => (lexeme (.symbol s), '=' :: cs)
  | cs => (lexeme (.symbol s), cs)

/-- The first piece of the source `c :: cs`, and what follows it. -/
def first (c : Char) (cs : List Char) : Piece × List Char :=
  if c.isWhitespace then (blank c, cs)
  else if c = '"' then quoted cs
  else if c.isDigit then number c cs
  else if c.isAlpha then word c cs
  else
    match Symbol.ofChar? c with
    | some s => symbol s cs
    | none => (unknown c, cs)

theorem quoted_append (cs : List Char) :
    (quoted cs).1.text ++ (quoted cs).2 = '"' :: cs := by
  unfold quoted
  split
  next => simp [text]
  next c rest h =>
    have hq : c = '"' := by
      have := List.head?_dropWhile_not (· != '"') cs
      simpa [h] using this
    have hcs := List.takeWhile_append_dropWhile (p := (· != '"')) (l := cs)
    rw [h, hq] at hcs
    simpa [text, Lexeme.text] using hcs

theorem fraction_append (whole cs : List Char) :
    (Lexeme.number whole (fraction cs).1).text ++ (fraction cs).2 = whole ++ cs := by
  unfold fraction
  split
  next rest =>
    split
    next => simp [Lexeme.text]
    next d ds h =>
      have hcs := List.takeWhile_append_dropWhile (p := Char.isDigit) (l := rest)
      rw [h] at hcs
      simpa [Lexeme.text] using hcs
  next => simp [Lexeme.text]

theorem number_append (d : Char) (cs : List Char) :
    (number d cs).1.text ++ (number d cs).2 = d :: cs := by
  have hcs := List.takeWhile_append_dropWhile (p := Char.isDigit) (l := cs)
  simpa [number, text, hcs] using
    fraction_append (d :: cs.takeWhile Char.isDigit) (cs.dropWhile Char.isDigit)

theorem word_append (c : Char) (cs : List Char) :
    (word c cs).1.text ++ (word c cs).2 = c :: cs := by
  simp [word, text, Lexeme.text]

theorem symbol_append (s : Symbol) (cs : List Char) :
    (symbol s cs).1.text ++ (symbol s cs).2 = s.text ++ cs := by
  unfold symbol
  split
  next rest =>
    split
    next h => subst h; simp [text, Symbol.text]
    next => simp [text, Lexeme.text]
  next rest =>
    split
    next t h => simp [text, Lexeme.text, Symbol.text_of_withEqual? h]
    next => simp [text, Lexeme.text]
  next => simp [text, Lexeme.text]

theorem first_append (c : Char) (cs : List Char) :
    (first c cs).1.text ++ (first c cs).2 = c :: cs := by
  unfold first
  split
  next => simp [text]
  split
  next _ h => subst h; exact quoted_append cs
  split
  next => exact number_append c cs
  split
  next => exact word_append c cs
  split
  next s h =>
    have hs := symbol_append s cs
    rwa [Symbol.text_of_ofChar? h] at hs
  next => simp [text]

theorem quoted_text_ne_nil (cs : List Char) : (quoted cs).1.text ≠ [] := by
  unfold quoted
  split <;> simp [text, Lexeme.text]

theorem symbol_text_ne_nil (s : Symbol) (cs : List Char) : (symbol s cs).1.text ≠ [] := by
  unfold symbol
  split
  next => split <;> simp [text, Lexeme.text, Symbol.text_ne_nil]
  next => split <;> simp [text, Lexeme.text, Symbol.text_ne_nil]
  next => simp [text, Lexeme.text, Symbol.text_ne_nil]

theorem first_text_ne_nil (c : Char) (cs : List Char) : (first c cs).1.text ≠ [] := by
  unfold first
  split
  next => simp [text]
  split
  next => exact quoted_text_ne_nil cs
  split
  next => exact Lexeme.text_number_ne_nil c _ _
  split
  next => simp [word, text, Lexeme.text]
  split
  next s _ => exact symbol_text_ne_nil s cs
  next => simp [text]

theorem length_first (c : Char) (cs : List Char) : (first c cs).2.length < cs.length + 1 := by
  have hlen := congrArg List.length (first_append c cs)
  have hpos := List.length_pos_iff.2 (first_text_ne_nil c cs)
  simp only [List.length_append, List.length_cons] at hlen
  omega

end Piece

/-- What holds of the empty source, and of any other because it holds of what follows the
first piece, holds of every source. -/
theorem source_induction {motive : List Char → Prop} (nil : motive [])
    (cons : ∀ c cs, motive (Piece.first c cs).2 → motive (c :: cs)) :
    ∀ source, motive source
  | [] => nil
  | c :: cs => cons c cs (source_induction nil cons (Piece.first c cs).2)
termination_by source => source.length
decreasing_by exact Piece.length_first c cs

/-- Reads pieces behind those already read, which stand in reverse. -/
def piecesAfter (read : List Piece) : List Char → List Piece
  | [] => read.reverse
  | c :: cs => piecesAfter ((Piece.first c cs).1 :: read) (Piece.first c cs).2
termination_by cs => cs.length
decreasing_by exact Piece.length_first c cs

def pieces (source : List Char) : List Piece := piecesAfter [] source

theorem piecesAfter_eq (read : List Piece) (source : List Char) :
    piecesAfter read source = read.reverse ++ pieces source := by
  induction source using source_induction generalizing read with
  | nil => simp [pieces, piecesAfter]
  | cons c cs ih =>
    rw [pieces, piecesAfter, piecesAfter, ih, ih [(Piece.first c cs).1]]
    simp

@[simp] theorem pieces_nil : pieces [] = [] := by simp [pieces, piecesAfter]

theorem pieces_cons (c : Char) (cs : List Char) :
    pieces (c :: cs) = (Piece.first c cs).1 :: pieces (Piece.first c cs).2 := by
  rw [pieces, piecesAfter, piecesAfter_eq]
  simp

theorem flatMap_text_pieces (source : List Char) :
    (pieces source).flatMap Piece.text = source := by
  induction source using source_induction with
  | nil => simp
  | cons c cs ih => rw [pieces_cons, List.flatMap_cons, ih, Piece.first_append]

end LoxTokens
