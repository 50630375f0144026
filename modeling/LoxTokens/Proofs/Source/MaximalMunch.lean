import LoxTokens.Proofs.Source.Legible
import LoxTokens.Proofs.Source.Outline

/-!
# The longest lexical element comes next

`LexicalElement` lists the texts that mean something by themselves, each with the kind
and the value it stands for. `Munch` takes from a source, again and again, the longest
of these texts that it begins with. Neither of them mentions characters looked ahead
at, or an order in which kinds of elements are tried.

`munch_iff_scanInto` says that a scan does the same. It leaves out the lines of tokens.
-/

namespace LoxTokens

universe u

variable {σ : Type u}

/-- A token without its line. -/
structure Content where
  kind : Kind
  lexeme : String
  literal : Option Literal
  span : Span

def Token.content (t : Token) : Content := ⟨t.kind, t.lexeme, t.literal, t.span⟩

/-- The texts that are lexical elements, with the kind and the value of the token that
each stands for. Blanks and comments stand for none. -/
inductive LexicalElement : List Char → Option (Kind × Option Literal) → Prop
  | blank {c : Char} (hc : c ∈ blankCharacters) : LexicalElement [c] none
  | comment {body : List Char} (hbody : '\n' ∉ body) : LexicalElement ('/' :: '/' :: body) none
  | symbol (s : Symbol) : LexicalElement s.text (some (.symbol s, none))
  | string {content : List Char} (hcontent : '"' ∉ content) :
      LexicalElement ('"' :: content ++ ['"'])
        (some (.string, some (.string (String.ofList content))))
  | whole {digits : List Char} (hne : digits ≠ []) (hdigits : ∀ c ∈ digits, c.isDigit = true) :
      LexicalElement digits
        (some (.number, some (.number (Decimal.ofParts digits []).toBinary64)))
  | fractional {digits places : List Char} (hne : digits ≠ [])
      (hdigits : ∀ c ∈ digits, c.isDigit = true) (hne' : places ≠ [])
      (hplaces : ∀ c ∈ places, c.isDigit = true) :
      LexicalElement (digits ++ '.' :: places)
        (some (.number, some (.number (Decimal.ofParts digits places).toBinary64)))
  | keyword (k : Keyword) : LexicalElement k.word.toList (some (.keyword k, none))
  | identifier {c : Char} {cs : List Char} (hc : c.isAlpha = true)
      (hcs : ∀ d ∈ cs, d.isAlphanum = true) (hkeyword : ∀ k : Keyword, k.word.toList ≠ c :: cs) :
      LexicalElement (c :: cs) (some (.identifier, none))

/-- The source begins with no lexical element longer than `text`. -/
def NoneLonger (text source : List Char) : Prop :=
  ∀ other made, LexicalElement other made → other <+: source → other.length ≤ text.length

/-- The source begins with no lexical element at all. -/
def NoneAtAll (source : List Char) : Prop :=
  ∀ other made, LexicalElement other made → ¬ other <+: source

/-- The token that `text` stands for at `offset`, when it stands for one. -/
def contentAt (offset : Nat) (text : List Char) (made : Option (Kind × Option Literal)) :
    List Content :=
  (made.map fun m => ⟨m.1, String.ofList text, m.2,
    ⟨offset, offset + (String.ofList text).utf8ByteSize⟩⟩).toList

/-- Taking the longest lexical element as long as there is something left. Where there
is none, a quote takes all that is left and any other character goes alone, and
neither of them makes a token. -/
inductive Munch : Nat → List Char → List Content → Prop
  | done {offset : Nat} : Munch offset [] [⟨.endOfSource, "", none, ⟨offset, offset⟩⟩]
  | element {offset : Nat} {text rest : List Char} {made : Option (Kind × Option Literal)}
      {contents : List Content} (htext : LexicalElement text made)
      (hlongest : NoneLonger text (text ++ rest))
      (hrest : Munch (offset + (String.ofList text).utf8ByteSize) rest contents) :
      Munch offset (text ++ rest) (contentAt offset text made ++ contents)
  | openString {offset : Nat} {rest : List Char} {contents : List Content}
      (hnone : NoneAtAll ('"' :: rest))
      (hrest : Munch (offset + (String.ofList ('"' :: rest)).utf8ByteSize) [] contents) :
      Munch offset ('"' :: rest) contents
  | unknown {offset : Nat} {c : Char} {rest : List Char} {contents : List Content}
      (hnone : NoneAtAll (c :: rest)) (hc : c ≠ '"')
      (hrest : Munch (offset + c.utf8Size) rest contents) : Munch offset (c :: rest) contents

namespace Piece

/-- Everything but a character that begins nothing and a string left open. -/
def IsElement : Piece → Prop
  | unknown _ | openString _ => False
  | _ => True

def made : Piece → Option (Kind × Option Literal)
  | lexeme l => some (l.kind, l.literal)
  | _ => none

theorem endsBefore_nil (x : Piece) : x.EndsBefore [] := by
  cases x with
  | lexeme l => exact l.endsBefore_nil
  | comment => exact RunEnds.nil _
  | openString => rfl
  | _ => trivial

/-- A text is one well-formed piece at most. -/
theorem eq_of_text_eq {x y : Piece} (hx : x.WellFormed) (hy : y.WellFormed)
    (h : x.text = y.text) : x = y := by
  cases hcs : y.text with
  | nil => exact absurd hcs hy.text_ne_nil
  | cons c cs =>
    have hfx : first c cs = (x, []) :=
      first_of_endsBefore hx x.endsBefore_nil (by simp [h, hcs])
    have hfy : first c cs = (y, []) :=
      first_of_endsBefore hy y.endsBefore_nil (by simp [hcs])
    exact congrArg Prod.fst (hfx.symm.trans hfy)

end Piece

theorem Keyword.isAlpha_word (k : Keyword) : k.word.toList.all Char.isAlpha = true := by
  cases k <;> rfl

theorem Keyword.word_eq_cons (k : Keyword) : ∃ c cs, k.word.toList = c :: cs ∧
    c.isAlpha = true ∧ ∀ d ∈ cs, d.isAlphanum = true := by
  have hall := k.isAlpha_word
  cases hk : k.word.toList with
  | nil => cases k <;> cases hk
  | cons c cs =>
    rw [hk, List.all_cons, Bool.and_eq_true, List.all_eq_true] at hall
    exact ⟨c, cs, rfl, hall.1, fun d hd => isAlphanum_of_isAlpha (hall.2 d hd)⟩

theorem Kind.ofWord_word (k : Keyword) : Kind.ofWord k.word = .keyword k := by
  cases k <;> decide

theorem Kind.ofWord_eq_identifier {word : String} (h : ∀ k : Keyword, k.word ≠ word) :
    Kind.ofWord word = .identifier := by
  have hnone : Keyword.ofWord? word = none := by
    apply List.find?_eq_none.mpr
    intro k _
    simpa using h k
  simp [Kind.ofWord, hnone]

theorem LexicalElement.exists_piece {text : List Char} {made : Option (Kind × Option Literal)}
    (h : LexicalElement text made) :
    ∃ x : Piece, x.WellFormed ∧ x.IsElement ∧ x.text = text ∧ x.made = made := by
  cases h with
  | blank hc => exact ⟨.blank _, .blank (isWhitespace_iff.mpr hc), trivial, rfl, rfl⟩
  | comment hbody => exact ⟨.comment _, .comment hbody, trivial, rfl, rfl⟩
  | symbol s => exact ⟨.lexeme (.symbol s), .lexeme (.symbol s), trivial, rfl, rfl⟩
  | string hcontent =>
    exact ⟨.lexeme (.string _), .lexeme (.string hcontent), trivial, rfl, rfl⟩
  | @whole digits hne hdigits =>
    obtain ⟨d, ds, rfl⟩ := List.exists_cons_of_ne_nil hne
    have hds := List.forall_mem_cons.mp hdigits
    exact ⟨.lexeme (.number (d :: ds) []), .lexeme (.number hds.1 hds.2 (by simp)), trivial,
      rfl, rfl⟩
  | @fractional digits places hne hdigits hne' hplaces =>
    obtain ⟨d, ds, rfl⟩ := List.exists_cons_of_ne_nil hne
    obtain ⟨e, es, rfl⟩ := List.exists_cons_of_ne_nil hne'
    have hds := List.forall_mem_cons.mp hdigits
    exact ⟨.lexeme (.number (d :: ds) (e :: es)), .lexeme (.number hds.1 hds.2 hplaces), trivial,
      rfl, rfl⟩
  | keyword k =>
    obtain ⟨c, cs, hk, hc, hcs⟩ := k.word_eq_cons
    refine ⟨.lexeme (.word (c :: cs)), .lexeme (.word hc hcs), trivial, hk.symm, ?_⟩
    rw [← hk, Piece.made, Lexeme.kind, String.ofList_toList, Kind.ofWord_word]
    rfl
  | @identifier c cs hc hcs hkeyword =>
    refine ⟨.lexeme (.word (c :: cs)), .lexeme (.word hc hcs), trivial, rfl, ?_⟩
    have hword : ∀ k : Keyword, k.word ≠ String.ofList (c :: cs) := by
      intro k hk
      exact hkeyword k (by rw [hk, String.toList_ofList])
    rw [Piece.made, Lexeme.kind, Kind.ofWord_eq_identifier hword]
    rfl

namespace Piece

theorem lexicalElement_text {x : Piece} (hx : x.WellFormed) (helement : x.IsElement) :
    LexicalElement x.text x.made := by
  cases hx with
  | blank hc => exact .blank (isWhitespace_iff.mp hc)
  | comment hbody => exact .comment hbody
  | unknown => exact helement.elim
  | openString => exact helement.elim
  | lexeme hl =>
    cases hl with
    | symbol s => exact .symbol s
    | string hcontent => exact .string hcontent
    | @number d ds fraction hd hds hfraction =>
      have hdigits : ∀ c ∈ d :: ds, c.isDigit = true := List.forall_mem_cons.mpr ⟨hd, hds⟩
      cases fraction with
      | nil => exact .whole (List.cons_ne_nil d ds) hdigits
      | cons e es =>
        exact .fractional (List.cons_ne_nil d ds) hdigits (List.cons_ne_nil e es) hfraction
    | @word c cs hc hcs =>
      by_cases hk : ∃ k : Keyword, k.word.toList = c :: cs
      · obtain ⟨k, hk⟩ := hk
        have hword := LexicalElement.keyword k
        rw [← Kind.ofWord_word, ← String.ofList_toList (s := k.word), hk,
          String.toList_ofList] at hword
        exact hword
      · have hkind : Kind.ofWord (String.ofList (c :: cs)) = .identifier := by
          refine Kind.ofWord_eq_identifier fun k hw => hk ⟨k, ?_⟩
          rw [hw, String.toList_ofList]
        have hword := LexicalElement.identifier hc hcs (not_exists.mp hk)
        rw [← hkind] at hword
        exact hword

theorem isElement_symbol (s : Symbol) (cs : List Char) : (symbol s cs).1.IsElement := by
  unfold symbol
  split
  next => split <;> trivial
  next => split <;> trivial
  next => trivial

theorem length_number_text (whole fraction : List Char) :
    whole.length ≤ (Lexeme.number whole fraction).text.length := by
  cases fraction <;> simp [Lexeme.text]

/-- If a source begins with an element, then its first piece is an element, and no
shorter. Where the element ends this is the piece itself; otherwise it is a run that
goes on, or a symbol of one character. -/
theorem element_le_first {x : Piece} (hx : x.WellFormed) (helement : x.IsElement) {c : Char}
    {rest cs : List Char} (hcs : x.text ++ rest = c :: cs) :
    (first c cs).1.IsElement ∧ x.text.length ≤ (first c cs).1.text.length := by
  by_cases hends : x.EndsBefore rest
  · rw [first_of_endsBefore hx hends hcs]
    exact ⟨helement, Nat.le_refl _⟩
  cases hx with
  | blank => exact absurd trivial hends
  | unknown => exact helement.elim
  | openString => exact helement.elim
  | @comment body hbody =>
    simp only [text, List.cons_append, List.cons.injEq] at hcs
    obtain ⟨rfl, rfl⟩ := hcs
    rw [first_symbol rfl]
    simp only [symbol, if_true, List.takeWhile_append_of_pos (ne_of_not_mem hbody)]
    simp [IsElement, text]
  | lexeme hl =>
    cases hl with
    | string => exact absurd trivial hends
    | symbol s =>
      rcases symbol_cases s with ⟨d, hd, hs⟩ | ⟨d, t, hd, ht, hs⟩
      · have hpos := List.length_pos_iff.mpr (first_text_ne_nil c cs)
        have hlen : (lexeme (.symbol s)).text.length = 1 := by simp [text, Lexeme.text, hs]
        simp only [text, Lexeme.text, hs, List.cons_append, List.nil_append,
          List.cons.injEq] at hcs
        obtain ⟨rfl, rfl⟩ := hcs
        refine ⟨?_, by omega⟩
        rw [first_symbol hd]
        exact isElement_symbol s rest
      · exact absurd (endsBefore_withEqual ht rest) hends
    | @number d ds fraction hd hds hfraction =>
      cases fraction with
      | nil =>
        obtain ⟨rfl, rfl⟩ := List.cons.inj hcs
        rw [first_digit hd]
        refine ⟨trivial, Nat.le_trans ?_ (length_number_text _ _)⟩
        simp [text, Lexeme.text, List.takeWhile_append_of_pos hds]
      | cons e es =>
        let longer := Lexeme.number (d :: ds) (e :: es ++ rest.takeWhile Char.isDigit)
        have hlonger : longer.WellFormed := by
          refine .number hd hds fun b hb => ?_
          rcases List.mem_append.mp hb with hb | hb
          · exact hfraction b hb
          · exact all_takeWhile b hb
        have hends' : longer.EndsBefore (rest.dropWhile Char.isDigit) :=
          ⟨RunEnds.dropWhile _ _, fun hnil => by cases hnil⟩
        rw [first_lexeme hlonger hends' (by simpa [longer, text, Lexeme.text] using hcs)]
        exact ⟨trivial, by simp [longer, text, Lexeme.text]⟩
    | @word b bs hb hbs =>
      simp only [text, Lexeme.text, List.cons_append, List.cons.injEq] at hcs
      obtain ⟨rfl, rfl⟩ := hcs
      rw [first_letter hb]
      simp only [word, List.takeWhile_append_of_pos hbs]
      simp [IsElement, text, Lexeme.text]

/-- A source that begins with no element begins with nothing, or a quote opens a string
that holds all the rest. -/
theorem first_of_not_isElement {c : Char} {cs : List Char} (h : ¬ (first c cs).1.IsElement) :
    (c ≠ '"' ∧ first c cs = (unknown c, cs)) ∨ (c = '"' ∧ first c cs = (openString cs, [])) := by
  cases hfirst : first c cs with
  | mk x rest =>
    obtain ⟨hwell, hends, happend⟩ := first_eq_iff.mp hfirst
    rw [hfirst] at h
    cases hwell with
    | @unknown b hb =>
      obtain ⟨rfl, rfl⟩ := List.cons.inj happend
      exact Or.inl ⟨(beginsNothing_iff.mp hb).2.1, rfl⟩
    | @openString body hbody =>
      obtain rfl : rest = [] := hends
      obtain ⟨rfl, hcs⟩ := List.cons.inj happend
      obtain rfl : body = cs := by simpa using hcs
      exact Or.inr ⟨rfl, rfl⟩
    | _ => exact absurd trivial h

theorem contentAt_made (p : Position) (x : Piece) :
    contentAt p.offset x.text x.made = (x.token? p).toList.map Token.content := by
  cases x with
  | lexeme l =>
    simp [contentAt, made, token?, text, Token.content, Lexeme.tokenAt, Position.after_offset]
  | _ => rfl

theorem noneLonger_first {c : Char} {cs : List Char} :
    NoneLonger (first c cs).1.text (c :: cs) := by
  rintro other made hother ⟨rest, hrest⟩
  obtain ⟨x, hx, helement, rfl, rfl⟩ := hother.exists_piece
  exact (element_le_first hx helement hrest).2

theorem noneAtAll_iff {c : Char} {cs : List Char} :
    NoneAtAll (c :: cs) ↔ ¬ (first c cs).1.IsElement := by
  constructor
  · intro hnone helement
    exact hnone _ _ (lexicalElement_text (wellFormed_first c cs) helement)
      ⟨_, first_append c cs⟩
  · rintro hfirst other made hother ⟨rest, hrest⟩
    obtain ⟨x, hx, helement, rfl, rfl⟩ := hother.exists_piece
    exact hfirst (element_le_first hx helement hrest).1

/-- An element of a source that leaves none longer is its first piece. -/
theorem first_of_noneLonger {text rest : List Char} {made : Option (Kind × Option Literal)}
    (htext : LexicalElement text made) (hlongest : NoneLonger text (text ++ rest)) {c : Char}
    {cs : List Char} (hcs : text ++ rest = c :: cs) :
    (first c cs).1.text = text ∧ (first c cs).1.made = made ∧ (first c cs).2 = rest := by
  obtain ⟨x, hx, helement, rfl, rfl⟩ := htext.exists_piece
  have hwell := wellFormed_first c cs
  have happend := (first_append c cs).trans hcs.symm
  obtain ⟨hfirst, hle⟩ := element_le_first hx helement hcs
  have hge := hlongest _ _ (lexicalElement_text hwell hfirst) ⟨_, happend⟩
  obtain ⟨htexts, hrest⟩ := List.append_inj happend (Nat.le_antisymm hge hle)
  rw [eq_of_text_eq hwell hx htexts]
  exact ⟨rfl, rfl, hrest⟩

end Piece

/-- Taking the longest element once is reading the first piece. -/
theorem munch_cons_iff {offset : Nat} {c : Char} {cs : List Char} {contents : List Content} :
    Munch offset (c :: cs) contents ↔ ∃ later,
      Munch (offset + (String.ofList (Piece.first c cs).1.text).utf8ByteSize)
        (Piece.first c cs).2 later ∧
      contents = contentAt offset (Piece.first c cs).1.text (Piece.first c cs).1.made ++ later := by
  constructor
  · intro h
    generalize hs : c :: cs = source at h
    cases h with
    | done => cases hs
    | element htext hlongest hrest =>
      obtain ⟨htexts, hmade, hrests⟩ := Piece.first_of_noneLonger htext hlongest hs.symm
      rw [htexts, hmade, hrests]
      exact ⟨_, hrest, rfl⟩
    | openString hnone hrest =>
      obtain ⟨rfl, rfl⟩ := List.cons.inj hs
      rcases Piece.first_of_not_isElement (Piece.noneAtAll_iff.mp hnone) with h | h
      · exact absurd rfl h.1
      · rw [h.2]
        exact ⟨_, hrest, rfl⟩
    | unknown hnone hc hrest =>
      obtain ⟨rfl, rfl⟩ := List.cons.inj hs
      rcases Piece.first_of_not_isElement (Piece.noneAtAll_iff.mp hnone) with h | h
      · rw [h.2]
        refine ⟨_, ?_, rfl⟩
        rwa [Piece.text, ← String.singleton_eq_ofList, String.utf8ByteSize_singleton]
      · exact absurd h.1 hc
  · rintro ⟨later, hlater, rfl⟩
    by_cases helement : (Piece.first c cs).1.IsElement
    · have hmunch := Munch.element
        (Piece.lexicalElement_text (Piece.wellFormed_first c cs) helement)
        (by rw [Piece.first_append]; exact Piece.noneLonger_first) hlater
      rwa [Piece.first_append] at hmunch
    · have hnone := Piece.noneAtAll_iff.mpr helement
      rcases Piece.first_of_not_isElement helement with ⟨hc, hfirst⟩ | ⟨rfl, hfirst⟩
      · rw [hfirst] at hlater ⊢
        rw [Piece.text, ← String.singleton_eq_ofList, String.utf8ByteSize_singleton] at hlater
        exact .unknown hnone hc hlater
      · rw [hfirst] at hlater ⊢
        exact .openString hnone hlater

theorem munch_nil_iff {offset : Nat} {contents : List Content} :
    Munch offset [] contents ↔ contents = [⟨.endOfSource, "", none, ⟨offset, offset⟩⟩] := by
  constructor
  · intro h
    generalize hs : ([] : List Char) = source at h
    cases h with
    | done => rfl
    | element htext =>
      obtain ⟨x, hx, -, rfl, -⟩ := htext.exists_piece
      exact absurd (List.append_eq_nil_iff.mp hs.symm).1 hx.text_ne_nil
    | openString => cases hs
    | unknown => cases hs
  · rintro rfl
    exact .done

/-- Not by induction on `Munch`: both directions go on behind the same first piece. -/
theorem munch_iff (p : Position) (source : List Char) (contents : List Content) :
    Munch p.offset source contents ↔
      contents =
        (tokensAt p (pieces source) ++ [Token.endAt (p.after source)]).map Token.content := by
  induction source using source_induction generalizing p contents with
  | nil =>
    rw [munch_nil_iff, pieces_nil]
    rfl
  | cons c cs ih =>
    have hafter : p.after (c :: cs) =
        (p.after (Piece.first c cs).1.text).after (Piece.first c cs).2 := by
      rw [← Position.after_append, Piece.first_append]
    rw [munch_cons_iff, pieces_cons, hafter, ← Position.after_offset]
    simp only [ih, exists_eq_left, Piece.contentAt_made, tokensAt, gather, List.append_assoc,
      List.map_append]

/-- A scan makes the tokens that taking the longest lexical element makes, and it alone:
whatever the policy and the sink, the kinds, texts, values and spans are those. -/
theorem munch_iff_scanInto (policy : Policy) (report : σ → Diagnostic → σ) (sink : σ)
    (source : String) (contents : List Content) : Munch 0 source.toList contents ↔
      contents = (scanInto policy report sink source).1.map Token.content := by
  rw [scanInto_eq]
  exact munch_iff .start source.toList contents

end LoxTokens
