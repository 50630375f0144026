import LoxTokens.Proofs.Source.Characters
import LoxTokens.Source.Piece

/-!
# Where a piece ends

A piece is well-formed when it has the characters of its kind, and it ends before what
follows when nothing of that would have been read as part of it. Both conditions look
at one piece and at what stands behind it, and not at how reading goes on.

`Piece.first_eq_iff` says that they tell the first piece of a source: reading finds a
piece that satisfies them, and whatever satisfies them is what reading finds.
-/

namespace LoxTokens

namespace Lexeme

/-- The characters of the lexeme are of its kind. -/
inductive WellFormed : Lexeme → Prop
  | symbol (s : Symbol) : WellFormed (.symbol s)
  | string {content : List Char} (hcontent : '"' ∉ content) : WellFormed (.string content)
  | number {d : Char} {ds fraction : List Char} (hd : d.isDigit = true)
      (hds : ∀ c ∈ ds, c.isDigit = true) (hfraction : ∀ c ∈ fraction, c.isDigit = true) :
      WellFormed (.number (d :: ds) fraction)
  | word {c : Char} {cs : List Char} (hc : c.isAlpha = true)
      (hcs : ∀ d ∈ cs, d.isAlphanum = true) : WellFormed (.word (c :: cs))

/-- A lexeme that is no string is made of letters, digits and symbols, and of a slash only
when it is one. -/
theorem WellFormed.letter_or_symbol {l : Lexeme} (hl : l.WellFormed)
    (hstring : ∀ content, l ≠ .string content) {c : Char} (hc : c ∈ l.text) :
    c.isAlphanum = true ∨
      ∃ s, Symbol.ofChar? c = some s ∧ (s = .slash → l = .symbol .slash) := by
  cases hl with
  | symbol s =>
    have hall : ∀ c ∈ s.text, ∃ t, Symbol.ofChar? c = some t ∧ (t = .slash → s = .slash) := by
      cases s <;> simp [Symbol.text, Symbol.ofChar?]
    obtain ⟨t, ht, hslash⟩ := hall c hc
    exact Or.inr ⟨t, ht, fun h => congrArg Lexeme.symbol (hslash h)⟩
  | @string content _ => exact absurd rfl (hstring content)
  | @number d ds fraction hd hds hfraction =>
    have hwhole : ∀ c ∈ d :: ds, c.isDigit = true := List.forall_mem_cons.mpr ⟨hd, hds⟩
    cases fraction with
    | nil => exact Or.inl (isAlphanum_of_isDigit (hwhole c hc))
    | cons e es =>
      rcases List.mem_append.mp hc with hc | hc
      · exact Or.inl (isAlphanum_of_isDigit (hwhole c hc))
      · rcases List.mem_cons.mp hc with rfl | hc
        · exact Or.inr ⟨.dot, rfl, Symbol.noConfusion⟩
        · exact Or.inl (isAlphanum_of_isDigit (hfraction c hc))
  | @word b bs hb hbs =>
    have hall : ∀ c ∈ b :: bs, c.isAlphanum = true :=
      List.forall_mem_cons.mpr ⟨isAlphanum_of_isAlpha hb, hbs⟩
    exact Or.inl (hall c hc)

/-- Only a string among the lexemes holds idle characters. -/
theorem WellFormed.idle_of_mem_text {l : Lexeme} (hl : l.WellFormed)
    (hstring : ∀ content, l ≠ .string content) {c : Char} (hc : c ∈ l.text) : idle c = false := by
  rcases hl.letter_or_symbol hstring hc with halphanum | ⟨s, hs, -⟩
  · exact idle_of_isAlphanum halphanum
  · exact idle_of_mem_symbolCharacters (mem_symbolCharacters hs)

theorem count_newline_text {l : Lexeme} (hl : l.WellFormed)
    (hstring : ∀ content, l ≠ .string content) : l.text.count '\n' = 0 := by
  refine List.count_eq_zero.mpr fun hm => ?_
  exact absurd (hl.idle_of_mem_text hstring hm) (by decide)

/-- Nothing of `rest` would have been read as part of the lexeme in front of it. A
number without a point looks two characters ahead, everything else one or none. -/
def EndsBefore : Lexeme → List Char → Prop
  | symbol s, rest => (s.withEqual? ≠ none → rest.head? ≠ some '=') ∧
      (s = .slash → rest.head? ≠ some '/')
  | string _, _ => True
  | number _ fraction, rest => RunEnds Char.isDigit rest ∧
      (fraction = [] → ∀ d cs, rest = '.' :: d :: cs → d.isDigit = false)
  | word _, rest => RunEnds Char.isAlphanum rest

theorem endsBefore_nil (l : Lexeme) : l.EndsBefore [] := by
  cases l with
  | symbol s => exact ⟨fun _ => by simp, fun _ => by simp⟩
  | string => trivial
  | number => exact ⟨RunEnds.nil _, fun _ d cs h => by cases h⟩
  | word => exact RunEnds.nil _

theorem endsBefore_idle (l : Lexeme) {c : Char} (hc : idle c = true) (rest : List Char) :
    l.EndsBefore (c :: rest) := by
  obtain ⟨hsymbol, hdigit, halphanum⟩ := plain_of_idle hc
  have hne : ∀ d ∈ symbolCharacters, c ≠ d := fun d hd he => hsymbol (he ▸ hd)
  cases l with
  | symbol s =>
    exact ⟨fun _ => by simpa using hne '=' (by decide), fun _ => by simpa using hne '/' (by decide)⟩
  | string => trivial
  | number =>
    refine ⟨RunEnds.cons_iff.mpr hdigit, fun _ d ds h => ?_⟩
    exact absurd (List.cons.inj h).1 (hne '.' (by decide))
  | word => exact RunEnds.cons_iff.mpr halphanum

/-- No lexeme goes on with a blank. -/
theorem endsBefore_blank (l : Lexeme) {c : Char} (hc : c ∈ blankCharacters)
    (rest : List Char) : l.EndsBefore (c :: rest) :=
  l.endsBefore_idle (idle_of_mem_blankCharacters hc) rest

/-- The texts are the same up to a place where each of them is at its end or goes on with
an idle character. -/
inductive SameToIdle : List Char → List Char → Prop
  | stop {cs ds : List Char} (hcs : RunEnds (fun c => !idle c) cs)
      (hds : RunEnds (fun c => !idle c) ds) : SameToIdle cs ds
  | cons (c : Char) {cs ds : List Char} (h : SameToIdle cs ds) : SameToIdle (c :: cs) (c :: ds)

theorem endsBefore_of_runEnds (l : Lexeme) {cs : List Char}
    (h : RunEnds (fun c => !idle c) cs) : l.EndsBefore cs := by
  cases cs with
  | nil => exact l.endsBefore_nil
  | cons c cs => exact l.endsBefore_idle (by simpa using RunEnds.cons_iff.mp h) cs

/-- A lexeme sees no farther than to the next idle character. -/
theorem EndsBefore.sameToIdle {l : Lexeme} {cs ds : List Char} (h : l.EndsBefore cs)
    (hsame : SameToIdle cs ds) : l.EndsBefore ds := by
  cases hsame with
  | stop _ hds => exact l.endsBefore_of_runEnds hds
  | @cons c cs ds hsame =>
    cases l with
    | symbol => exact h
    | string => trivial
    | word => exact RunEnds.cons_iff.mpr (RunEnds.cons_iff.mp h)
    | number whole fraction =>
      refine ⟨RunEnds.cons_iff.mpr (RunEnds.cons_iff.mp h.1), fun hnil d rest hd => ?_⟩
      obtain ⟨rfl, rfl⟩ := List.cons.inj hd
      cases hsame with
      | stop _ hds =>
        have hidle : idle d = true := by simpa using RunEnds.cons_iff.mp hds
        exact (plain_of_idle hidle).2.1
      | cons d _ => exact h.2 hnil d _ rfl

/-- Where a lexeme ends, it also ends when a blank and anything behind it are put there. -/
theorem EndsBefore.append_blank {l : Lexeme} {xs : List Char} (h : l.EndsBefore xs) {c : Char}
    (hc : c ∈ blankCharacters) (ys : List Char) : l.EndsBefore (xs ++ c :: ys) := by
  have hsame : SameToIdle xs (xs ++ c :: ys) := by
    clear h
    induction xs with
    | nil =>
      refine .stop (RunEnds.nil _) (RunEnds.cons_iff.mpr ?_)
      simp [idle_of_mem_blankCharacters hc]
    | cons x xs ih => exact .cons x ih
  exact h.sameToIdle hsame

end Lexeme

namespace Piece

/-- The characters of the piece are of its kind. -/
inductive WellFormed : Piece → Prop
  | blank {c : Char} (hc : c.isWhitespace = true) : WellFormed (.blank c)
  | comment {body : List Char} (hbody : '\n' ∉ body) : WellFormed (.comment body)
  | lexeme {l : Lexeme} (hl : l.WellFormed) : WellFormed (.lexeme l)
  | unknown {c : Char} (hc : beginsNothing c = true) : WellFormed (.unknown c)
  | openString {body : List Char} (hbody : '"' ∉ body) : WellFormed (.openString body)

theorem WellFormed.text_ne_nil {p : Piece} (h : p.WellFormed) : p.text ≠ [] := by
  cases h with
  | lexeme hl =>
    cases hl with
    | symbol s => exact s.text_ne_nil
    | string => simp [text, Lexeme.text]
    | number => exact Lexeme.text_number_ne_nil _ _ _
    | word => simp [text, Lexeme.text]
  | _ => simp [text]

/-- Nothing of `rest` would have been read as part of the piece in front of it. -/
def EndsBefore : Piece → List Char → Prop
  | blank _, _ => True
  | comment _, rest => RunEnds (· != '\n') rest
  | lexeme l, rest => l.EndsBefore rest
  | unknown _, _ => True
  | openString _, rest => rest = []

theorem wellFormed_quoted (cs : List Char) : (quoted cs).1.WellFormed := by
  unfold quoted
  split
  next h =>
    refine .openString fun hq => ?_
    have hall := List.dropWhile_eq_nil_iff.mp h '"' hq
    simp at hall
  next => exact .lexeme (.string (not_mem_takeWhile_ne '"' cs))

theorem endsBefore_quoted (cs : List Char) : (quoted cs).1.EndsBefore (quoted cs).2 := by
  unfold quoted
  split
  next => rfl
  next => trivial

theorem isDigit_fraction (cs : List Char) : ∀ c ∈ (fraction cs).1, c.isDigit = true := by
  unfold fraction
  split
  next rest =>
    split
    next => simp
    next d ds h =>
      rw [← h]
      exact all_takeWhile
  next => simp

/-- Behind the digits of a number and its fraction no more of it follows. -/
theorem endsBefore_fraction (whole : List Char) {cs : List Char}
    (hcs : RunEnds Char.isDigit cs) :
    (Lexeme.number whole (fraction cs).1).EndsBefore (fraction cs).2 := by
  unfold fraction
  split
  next rest =>
    split
    next h =>
      refine ⟨hcs, fun _ d ds hd => ?_⟩
      obtain rfl := (List.cons.inj hd).2
      by_contra hdigit
      simp [List.takeWhile_cons, hdigit] at h
    next d ds h =>
      exact ⟨RunEnds.dropWhile _ _, fun hnil => by cases hnil⟩
  next hpoint =>
    exact ⟨hcs, fun _ d ds hd => absurd hd (hpoint (d :: ds))⟩

theorem wellFormed_number {d : Char} (hd : d.isDigit = true) (cs : List Char) :
    (number d cs).1.WellFormed :=
  .lexeme (.number hd all_takeWhile (isDigit_fraction _))

theorem endsBefore_number (d : Char) (cs : List Char) :
    (number d cs).1.EndsBefore (number d cs).2 :=
  endsBefore_fraction (d :: cs.takeWhile Char.isDigit) (RunEnds.dropWhile _ _)

theorem wellFormed_word {c : Char} (hc : c.isAlpha = true) (cs : List Char) :
    (word c cs).1.WellFormed :=
  .lexeme (.word hc all_takeWhile)

theorem endsBefore_word (c : Char) (cs : List Char) : (word c cs).1.EndsBefore (word c cs).2 :=
  RunEnds.dropWhile _ _

theorem wellFormed_symbol (s : Symbol) (cs : List Char) : (symbol s cs).1.WellFormed := by
  unfold symbol
  split
  next rest =>
    split
    next => exact .comment (not_mem_takeWhile_ne '\n' rest)
    next => exact .lexeme (.symbol s)
  next =>
    split
    next t _ => exact .lexeme (.symbol t)
    next => exact .lexeme (.symbol s)
  next => exact .lexeme (.symbol s)

/-- The longer form of a symbol has none that is longer still. -/
theorem endsBefore_withEqual {s t : Symbol} (h : s.withEqual? = some t) (rest : List Char) :
    (Lexeme.symbol t).EndsBefore rest := by
  cases s <;> simp [Symbol.withEqual?] at h <;> subst h <;>
    simp [Lexeme.EndsBefore, Symbol.withEqual?]

theorem endsBefore_symbol (s : Symbol) (cs : List Char) :
    (symbol s cs).1.EndsBefore (symbol s cs).2 := by
  unfold symbol
  split
  next rest =>
    split
    next => exact RunEnds.dropWhile _ _
    next hs => exact ⟨fun _ => by simp, fun h => absurd h hs⟩
  next rest =>
    split
    next t ht => exact endsBefore_withEqual ht rest
    next hs =>
      refine ⟨fun h => absurd hs h, fun _ => by simp⟩
  next hslash hequal =>
    constructor
    · intro _ h
      obtain ⟨rest, hrest⟩ := List.head?_eq_some_iff.mp h
      exact hequal rest hrest
    · intro _ h
      obtain ⟨rest, hrest⟩ := List.head?_eq_some_iff.mp h
      exact hslash rest hrest

theorem wellFormed_first (c : Char) (cs : List Char) : (first c cs).1.WellFormed := by
  unfold first
  split
  next h => exact .blank h
  split
  next => exact wellFormed_quoted cs
  split
  next h => exact wellFormed_number h cs
  split
  next h => exact wellFormed_word h cs
  split
  next s _ => exact wellFormed_symbol s cs
  next hblank hquote hdigit halpha _ hsymbol =>
    refine .unknown (beginsNothing_iff.mpr ⟨?_, hquote, ?_, ?_, hsymbol⟩)
    · simpa using hblank
    · simpa using hdigit
    · simpa using halpha

theorem endsBefore_first (c : Char) (cs : List Char) :
    (first c cs).1.EndsBefore (first c cs).2 := by
  unfold first
  split
  next => trivial
  split
  next => exact endsBefore_quoted cs
  split
  next => exact endsBefore_number c cs
  split
  next => exact endsBefore_word c cs
  split
  next s _ => exact endsBefore_symbol s cs
  next => trivial

theorem first_blank {c : Char} (hc : c.isWhitespace = true) (cs : List Char) :
    first c cs = (blank c, cs) := by
  simp [first, hc]

theorem first_quote (cs : List Char) : first '"' cs = quoted cs := rfl

theorem first_digit {d : Char} (hd : d.isDigit = true) (cs : List Char) :
    first d cs = number d cs := by
  obtain ⟨hblank, hquote, -⟩ := plain_of_isAlphanum (isAlphanum_of_isDigit hd)
  simp [first, hblank, hquote, hd]

theorem first_letter {c : Char} (hc : c.isAlpha = true) (cs : List Char) :
    first c cs = word c cs := by
  obtain ⟨hblank, hquote, -⟩ := plain_of_isAlphanum (isAlphanum_of_isAlpha hc)
  simp [first, hblank, hquote, isDigit_of_isAlpha hc, hc]

theorem first_symbol {c : Char} {s : Symbol} (hs : Symbol.ofChar? c = some s)
    (cs : List Char) : first c cs = symbol s cs := by
  obtain ⟨hblank, hquote, hdigit, halpha⟩ := plain_of_ofChar? hs
  simp [first, hblank, hquote, hdigit, halpha, hs]

theorem first_unknown {c : Char} (hc : beginsNothing c = true) (cs : List Char) :
    first c cs = (unknown c, cs) := by
  obtain ⟨hblank, hquote, hdigit, halpha, hs⟩ := beginsNothing_iff.mp hc
  simp [first, hblank, hquote, hdigit, halpha, hs]

theorem quoted_string {content : List Char} (h : '"' ∉ content) (rest : List Char) :
    quoted (content ++ '"' :: rest) = (lexeme (.string content), rest) := by
  have hends : RunEnds (· != '"') ('"' :: rest) := RunEnds.cons_iff.mpr (by simp)
  simp [quoted, hends.dropWhile_append (ne_of_not_mem h), hends.takeWhile_append (ne_of_not_mem h)]

theorem quoted_openString {body : List Char} (h : '"' ∉ body) :
    quoted body = (openString body, []) := by
  have hdrop : body.dropWhile (· != '"') = [] :=
    List.dropWhile_eq_nil_iff.mpr (ne_of_not_mem h)
  simp [quoted, hdrop]

theorem fraction_nil {cs : List Char}
    (h : ∀ d ds, cs = '.' :: d :: ds → d.isDigit = false) : fraction cs = ([], cs) := by
  unfold fraction
  split
  next rest =>
    split
    next => rfl
    next d ds hd =>
      cases rest with
      | nil => simp at hd
      | cons e es => simp [h e es rfl] at hd
  next => rfl

theorem fraction_cons {d : Char} {ds rest : List Char} (hds : ∀ c ∈ d :: ds, c.isDigit = true)
    (hrest : RunEnds Char.isDigit rest) :
    fraction ('.' :: (d :: ds ++ rest)) = (d :: ds, rest) := by
  simp only [fraction, hrest.takeWhile_append hds, hrest.dropWhile_append hds]

theorem number_of_endsBefore {d : Char} {ds fraction rest : List Char}
    (hds : ∀ c ∈ ds, c.isDigit = true) (hfraction : ∀ c ∈ fraction, c.isDigit = true)
    (hends : (Lexeme.number (d :: ds) fraction).EndsBefore rest) {cs : List Char}
    (hcs : (Lexeme.number (d :: ds) fraction).text ++ rest = d :: cs) :
    number d cs = (lexeme (.number (d :: ds) fraction), rest) := by
  obtain ⟨hrun, hpoint⟩ := hends
  cases fraction with
  | nil =>
    obtain rfl : ds ++ rest = cs := (List.cons.inj hcs).2
    simp only [number, hrun.takeWhile_append hds, hrun.dropWhile_append hds,
      fraction_nil (hpoint rfl)]
  | cons e es =>
    obtain rfl : ds ++ '.' :: (e :: es ++ rest) = cs := by
      simpa [Lexeme.text] using (List.cons.inj hcs).2
    have hdot : RunEnds Char.isDigit ('.' :: (e :: es ++ rest)) :=
      RunEnds.cons_iff.mpr (by decide)
    simp only [number, hdot.takeWhile_append hds, hdot.dropWhile_append hds,
      fraction_cons hfraction hrun]

theorem word_of_endsBefore {c : Char} {cs rest : List Char}
    (hcs : ∀ d ∈ cs, d.isAlphanum = true) (hrest : RunEnds Char.isAlphanum rest) :
    word c (cs ++ rest) = (lexeme (.word (c :: cs)), rest) := by
  simp only [word, hrest.takeWhile_append hcs, hrest.dropWhile_append hcs]

/-- A symbol is written with the one character it is told by, or is the longer form of
one that is. -/
theorem symbol_cases (s : Symbol) :
    (∃ c, Symbol.ofChar? c = some s ∧ s.text = [c]) ∨
      ∃ c t, Symbol.ofChar? c = some t ∧ t.withEqual? = some s ∧ s.text = [c, '='] := by
  cases s
  case bangEqual => exact Or.inr ⟨'!', .bang, rfl, rfl, rfl⟩
  case equalEqual => exact Or.inr ⟨'=', .equal, rfl, rfl, rfl⟩
  case greaterEqual => exact Or.inr ⟨'>', .greater, rfl, rfl, rfl⟩
  case lessEqual => exact Or.inr ⟨'<', .less, rfl, rfl, rfl⟩
  all_goals exact Or.inl ⟨_, rfl, rfl⟩

theorem symbol_of_endsBefore {s : Symbol} {rest : List Char}
    (hends : (Lexeme.symbol s).EndsBefore rest) :
    symbol s rest = (lexeme (.symbol s), rest) := by
  obtain ⟨hequal, hslash⟩ := hends
  unfold symbol
  split
  next cs =>
    have hs : s ≠ .slash := fun hs => hslash hs rfl
    rw [if_neg hs]
  next cs =>
    split
    next t ht => exact absurd rfl (hequal (by simp [ht]))
    next => rfl
  next => rfl

theorem first_comment {body rest : List Char} (hbody : '\n' ∉ body)
    (hrest : RunEnds (· != '\n') rest) :
    first '/' ('/' :: (body ++ rest)) = (comment body, rest) := by
  rw [first_symbol rfl]
  simp [symbol, hrest.takeWhile_append (ne_of_not_mem hbody),
    hrest.dropWhile_append (ne_of_not_mem hbody)]

/-- A lexeme that ends where it stands is what is read there. -/
theorem first_lexeme {l : Lexeme} (hl : l.WellFormed) {rest : List Char}
    (hends : l.EndsBefore rest) {c : Char} {cs : List Char} (hcs : l.text ++ rest = c :: cs) :
    first c cs = (lexeme l, rest) := by
  cases hl with
  | symbol s =>
    rcases symbol_cases s with ⟨d, hd, hs⟩ | ⟨d, t, hd, ht, hs⟩
    · simp only [Lexeme.text, hs, List.cons_append, List.nil_append, List.cons.injEq] at hcs
      obtain ⟨rfl, rfl⟩ := hcs
      rw [first_symbol hd, symbol_of_endsBefore hends]
    · simp only [Lexeme.text, hs, List.cons_append, List.nil_append, List.cons.injEq] at hcs
      obtain ⟨rfl, rfl⟩ := hcs
      rw [first_symbol hd]
      simp [symbol, ht]
  | string hcontent =>
    simp only [Lexeme.text, List.cons_append, List.append_assoc, List.nil_append,
      List.cons.injEq] at hcs
    obtain ⟨rfl, rfl⟩ := hcs
    rw [first_quote, quoted_string hcontent]
  | @number d ds fraction hd hds hfraction =>
    obtain rfl : d = c := by
      cases fraction <;> simpa [Lexeme.text] using (List.cons.inj hcs).1
    rw [first_digit hd, number_of_endsBefore hds hfraction hends hcs]
  | word hc hcs' =>
    simp only [Lexeme.text, List.cons_append, List.cons.injEq] at hcs
    obtain ⟨rfl, rfl⟩ := hcs
    rw [first_letter hc, word_of_endsBefore hcs' hends]

/-- A piece that ends where it stands is what is read there. -/
theorem first_of_endsBefore {p : Piece} (hp : p.WellFormed) {rest : List Char}
    (hends : p.EndsBefore rest) {c : Char} {cs : List Char} (hcs : p.text ++ rest = c :: cs) :
    first c cs = (p, rest) := by
  cases hp with
  | blank hc =>
    obtain ⟨rfl, rfl⟩ := List.cons.inj hcs
    exact first_blank hc rest
  | comment hbody =>
    obtain ⟨rfl, rfl⟩ := List.cons.inj hcs
    exact first_comment hbody hends
  | lexeme hl => exact first_lexeme hl hends hcs
  | unknown hc =>
    obtain ⟨rfl, rfl⟩ := List.cons.inj hcs
    exact first_unknown hc rest
  | openString hbody =>
    obtain rfl : rest = [] := hends
    rw [List.append_nil] at hcs
    obtain ⟨rfl, rfl⟩ := List.cons.inj hcs
    rw [first_quote, quoted_openString hbody]

/-- The first piece of a source and what follows it are told by three conditions. -/
theorem first_eq_iff {p : Piece} {rest : List Char} {c : Char} {cs : List Char} :
    first c cs = (p, rest) ↔ p.WellFormed ∧ p.EndsBefore rest ∧ p.text ++ rest = c :: cs := by
  constructor
  · intro h
    have hwell := wellFormed_first c cs
    have hends := endsBefore_first c cs
    have happend := first_append c cs
    rw [h] at hwell hends happend
    exact ⟨hwell, hends, happend⟩
  · rintro ⟨hwell, hends, happend⟩
    exact first_of_endsBefore hwell hends happend

/-- Where a piece ends, it also ends before less. -/
theorem EndsBefore.of_append {p : Piece} {xs ys : List Char} (h : p.EndsBefore (xs ++ ys)) :
    p.EndsBefore xs := by
  cases p with
  | blank => trivial
  | comment => exact RunEnds.of_append h
  | unknown => trivial
  | openString => exact (List.append_eq_nil_iff.mp h).1
  | lexeme l =>
    cases l with
    | symbol s =>
      cases xs with
      | nil => exact (Lexeme.symbol s).endsBefore_nil
      | cons x xs => exact h
    | string => trivial
    | number whole fraction =>
      refine ⟨RunEnds.of_append h.1, fun hnil d ds hd => h.2 hnil d (ds ++ ys) ?_⟩
      rw [hd]
      rfl
    | word => exact RunEnds.of_append h

end Piece

end LoxTokens
