import LoxTokens.Proofs.Source.Legible
import LoxTokens.Proofs.Source.Outline

/-!
# Sources written another way

A source can be rewritten character by character. That is harmless when what tokens are made
of, outside strings, stays as it is, when blanks stay blanks and newlines their number, and
when a character that begins nothing becomes another such. Such a source is read in step
with the old one. Only the offsets drift apart, and in front of a newline a comment may take
some blanks that stand apart in other places.

`scan_respell` says so for every harmless spelling. `scan_crlf` is about sources whose
lines end with two characters, `scan_map` about other characters beyond ASCII.
-/

namespace LoxTokens

/-- What is put for each character is harmless. Strings and comments may change with it,
other tokens may not. -/
structure Harmless (k : Char → List Char) : Prop where
  plain : ∀ c, idle c = false → k c = [c]
  blank : ∀ c ∈ blankCharacters, k c ≠ [] ∧ ∀ d ∈ k c, d ∈ blankCharacters
  unknown : ∀ c, beginsNothing c = true → ∃ d, beginsNothing d = true ∧ k c = [d]
  newline : ∀ c, (k c).count '\n' = [c].count '\n'

namespace Harmless

variable {k : Char → List Char} (hk : Harmless k)
include hk

theorem exists_of_idle {c : Char} (hc : idle c = true) :
    ∃ d ds, k c = d :: ds ∧ ∀ e ∈ d :: ds, idle e = true := by
  by_cases hblank : c ∈ blankCharacters
  · obtain ⟨hne, hall⟩ := hk.blank c hblank
    obtain ⟨d, ds, hd⟩ := List.exists_cons_of_ne_nil hne
    exact ⟨d, ds, hd, fun e he => idle_of_mem_blankCharacters (hall e (hd ▸ he))⟩
  · obtain ⟨d, hd, hkc⟩ := hk.unknown c (by simpa [idle, hblank] using hc)
    refine ⟨d, [], hkc, fun e he => ?_⟩
    rw [List.mem_singleton.mp he]
    exact idle_of_beginsNothing hd

theorem flatMap_plain {cs : List Char} (h : ∀ c ∈ cs, idle c = false) : cs.flatMap k = cs := by
  have hsingle : cs.flatMap k = cs.flatMap fun c => [c] :=
    List.flatMap_congr fun c hc => hk.plain c (h c hc)
  rw [hsingle, List.flatMap_singleton']

theorem count_newline (cs : List Char) : (cs.flatMap k).count '\n' = cs.count '\n' := by
  induction cs with
  | nil => rfl
  | cons c cs ih =>
    rw [List.flatMap_cons, List.count_append, hk.newline, ih, ← List.count_append]
    rfl

theorem newline_not_mem {cs : List Char} (h : '\n' ∉ cs) : '\n' ∉ cs.flatMap k := by
  rw [← List.count_eq_zero] at h ⊢
  rw [hk.count_newline, h]

theorem quote_not_mem {cs : List Char} (h : '"' ∉ cs) : '"' ∉ cs.flatMap k := by
  intro hm
  obtain ⟨c, hc, hquote⟩ := List.mem_flatMap.mp hm
  cases hidle : idle c with
  | false =>
    rw [hk.plain c hidle, List.mem_singleton] at hquote
    exact h (hquote ▸ hc)
  | true =>
    obtain ⟨d, ds, hkc, hall⟩ := hk.exists_of_idle hidle
    exact absurd (hall '"' (hkc ▸ hquote)) (by decide)

theorem sameToIdle (cs : List Char) : Lexeme.SameToIdle cs (cs.flatMap k) := by
  induction cs with
  | nil => exact .stop (RunEnds.nil _) (RunEnds.nil _)
  | cons c cs ih =>
    rw [List.flatMap_cons]
    cases hc : idle c with
    | false =>
      rw [hk.plain c hc]
      exact .cons c ih
    | true =>
      obtain ⟨d, ds, hkc, hall⟩ := hk.exists_of_idle hc
      rw [hkc]
      refine .stop (RunEnds.cons_iff.mpr ?_) (RunEnds.cons_iff.mpr ?_)
      · simp [hc]
      · simp [hall d List.mem_cons_self]

/-- What is put for the end of a line has blanks in front of its newline, which a comment
takes. -/
theorem exists_line_end {rest : List Char} (h : RunEnds (· != '\n') rest) :
    ∃ space tail, rest.flatMap k = space ++ tail ∧ (∀ c ∈ space, c ∈ blankCharacters) ∧
      '\n' ∉ space ∧ RunEnds (· != '\n') tail := by
  cases rest with
  | nil => exact ⟨[], [], rfl, by simp, by simp, RunEnds.nil _⟩
  | cons c cs =>
    obtain rfl : c = '\n' := by simpa using RunEnds.cons_iff.mp h
    have hmem : '\n' ∈ k '\n' := by
      rw [← List.count_pos_iff, hk.newline]
      decide
    obtain ⟨space, tail, hkn, hspace⟩ := List.eq_append_cons_of_mem hmem
    refine ⟨space, '\n' :: (tail ++ cs.flatMap k), ?_, fun c hc => ?_, hspace,
      RunEnds.cons_iff.mpr (by decide)⟩
    · rw [List.flatMap_cons, hkn, List.append_assoc, List.cons_append]
    · refine (hk.blank '\n' (by decide)).2 c ?_
      rw [hkn]
      exact List.mem_append_left _ hc

end Harmless

namespace Lexeme

/-- The lexeme with `k c` for each character `c` of a string. -/
def respelt (k : Char → List Char) : Lexeme → Lexeme
  | string content => string (content.flatMap k)
  | l => l

variable {k : Char → List Char}

theorem text_respelt (hk : Harmless k) {l : Lexeme} (hl : l.WellFormed) :
    (l.respelt k).text = l.text.flatMap k := by
  have hquote : k '"' = ['"'] := hk.plain '"' (by decide)
  by_cases hstring : ∃ content, l = string content
  · obtain ⟨content, rfl⟩ := hstring
    simp [respelt, text, hquote]
  · have hplain : ∀ c ∈ l.text, idle c = false :=
      fun c hc => hl.idle_of_mem_text (fun content h => hstring ⟨content, h⟩) hc
    rw [hk.flatMap_plain hplain]
    cases l with
    | string content => exact absurd ⟨content, rfl⟩ hstring
    | _ => rfl

theorem wellFormed_respelt (hk : Harmless k) {l : Lexeme} (hl : l.WellFormed) :
    (l.respelt k).WellFormed := by
  cases hl with
  | symbol s => exact .symbol s
  | string hcontent => exact .string (hk.quote_not_mem hcontent)
  | number hd hds hfraction => exact .number hd hds hfraction
  | word hc hcs => exact .word hc hcs

theorem endsBefore_respelt (hk : Harmless k) {l : Lexeme} {cs : List Char}
    (h : l.EndsBefore cs) : (l.respelt k).EndsBefore (cs.flatMap k) := by
  have hends := h.sameToIdle (hk.sameToIdle cs)
  cases l with
  | string => trivial
  | _ => exact hends

end Lexeme

/-- The pieces that come of a piece with `k c` for each character `c`. -/
def Piece.respelt (k : Char → List Char) : Piece → List Piece
  | blank c => (k c).map blank
  | comment body => [comment (body.flatMap k)]
  | lexeme l => [lexeme (l.respelt k)]
  | unknown c => (k c).map unknown
  | openString body => [openString (body.flatMap k)]

theorem pieces_blanks {space : List Char} (hspace : ∀ c ∈ space, c ∈ blankCharacters)
    (cs : List Char) : pieces (space ++ cs) = space.map .blank ++ pieces cs := by
  induction space with
  | nil => rfl
  | cons c space ih =>
    obtain ⟨hc, hspace⟩ := List.forall_mem_cons.mp hspace
    rw [List.cons_append, pieces_cons, Piece.first_blank (isWhitespace_iff.mpr hc), ih hspace]
    rfl

section Gather

variable {α : Type} {k : Char → List Char} {f : Position → Piece → Option α}

theorem flatMap_text_respelt (hk : Harmless k) {x : Piece} (hx : x.WellFormed) :
    (x.respelt k).flatMap Piece.text = x.text.flatMap k := by
  have hslash : k '/' = ['/'] := hk.plain '/' (by decide)
  have hquote : k '"' = ['"'] := hk.plain '"' (by decide)
  cases hx with
  | blank => simp [Piece.respelt, Piece.text, flatMap_text_blank]
  | comment => simp [Piece.respelt, Piece.text, hslash]
  | lexeme hl => simp [Piece.respelt, Piece.text, Lexeme.text_respelt hk hl]
  | unknown hc =>
    obtain ⟨d, -, hd⟩ := hk.unknown _ hc
    simp [Piece.respelt, Piece.text, hd]
  | openString => simp [Piece.respelt, Piece.text, hquote]

variable (hk : Harmless k) (hblank : ∀ p c, f p (.blank c) = none)
  (hcomment : ∀ p body, f p (.comment body) = none)
include hk hblank hcomment

/-- The comment may be longer by the blanks at the end of its line. That makes no
difference to what the pieces yield. -/
theorem gather_comment_append {body rest : List Char} (hbody : '\n' ∉ body)
    (hrest : RunEnds (· != '\n') rest) (p : Position) :
    gather f p (pieces ('/' :: '/' :: (body ++ rest.flatMap k))) =
      gather f p (.comment body :: pieces (rest.flatMap k)) := by
  obtain ⟨space, tail, htext, hspace, hnewline, htail⟩ := hk.exists_line_end hrest
  have hlong : '\n' ∉ body ++ space := by simp [hbody, hnewline]
  have hafter : p.after (Piece.comment (body ++ space)).text =
      (p.after (Piece.comment body).text).after space := by
    rw [← Position.after_append]
    rfl
  rw [htext, ← List.append_assoc, pieces_cons, Piece.first_comment hlong htail,
    pieces_blanks hspace, gather, gather, hcomment, hcomment, gather_append,
    gather_blank_map hblank, flatMap_text_blank, hafter]
  rfl

/-- A piece and what follows it, both written another way, are read in turn. -/
theorem gather_respelt_append {x : Piece} (hx : x.WellFormed) {rest : List Char}
    (hends : x.EndsBefore rest) (p : Position) :
    gather f p (pieces (x.text.flatMap k ++ rest.flatMap k)) =
      gather f p (x.respelt k ++ pieces (rest.flatMap k)) := by
  have hslash : k '/' = ['/'] := hk.plain '/' (by decide)
  have hquote : k '"' = ['"'] := hk.plain '"' (by decide)
  cases hx with
  | @blank c hc =>
    rw [Piece.text, List.flatMap_singleton,
      pieces_blanks (hk.blank c (isWhitespace_iff.mp hc)).2]
    rfl
  | @comment body hbody =>
    have htext : (Piece.comment body).text.flatMap k = '/' :: '/' :: body.flatMap k := by
      simp [Piece.text, hslash]
    rw [htext]
    exact gather_comment_append hk hblank hcomment (hk.newline_not_mem hbody) hends p
  | lexeme hl =>
    rw [Piece.text, ← Lexeme.text_respelt hk hl,
      pieces_lexeme (Lexeme.wellFormed_respelt hk hl) (Lexeme.endsBefore_respelt hk hends)]
    rfl
  | @unknown c hc =>
    obtain ⟨d, hd, hkc⟩ := hk.unknown c hc
    rw [Piece.text, List.flatMap_singleton, Piece.respelt, hkc, List.singleton_append, pieces_cons,
      Piece.first_unknown hd]
    rfl
  | @openString body hbody =>
    obtain rfl : rest = [] := hends
    have htext : (Piece.openString body).text.flatMap k = '"' :: body.flatMap k := by
      simp [Piece.text, hquote]
    rw [List.flatMap_nil, List.append_nil, htext, pieces_cons, Piece.first_quote,
      Piece.quoted_openString (hk.quote_not_mem hbody)]
    rfl

/-- What holds between the yields of each piece and of those that come of it holds between
all that the two sources yield. -/
theorem forall₂_gather_respelt {R : α → α → Prop} {source : List Char}
    (hpiece : ∀ front x back, source = front ++ (x.text ++ back) → x.WellFormed →
      List.Forall₂ R (f (Position.start.after front) x).toList
        (gather f (Position.start.after (front.flatMap k)) (x.respelt k))) :
    List.Forall₂ R (gather f .start (pieces source))
      (gather f .start (pieces (source.flatMap k))) := by
  have hbehind : ∀ cs front, source = front ++ cs →
      List.Forall₂ R (gather f (Position.start.after front) (pieces cs))
        (gather f (Position.start.after (front.flatMap k)) (pieces (cs.flatMap k))) := by
    intro cs
    induction cs using source_induction with
    | nil =>
      intro front _
      rw [List.flatMap_nil, pieces_nil]
      exact .nil
    | cons c cs ih =>
      intro front hsource
      have hwell := Piece.wellFormed_first c cs
      have hends := Piece.endsBefore_first c cs
      have htext := Piece.first_append c cs
      rw [← htext] at hsource
      have hrest := ih (front ++ (Piece.first c cs).1.text) (by rw [hsource, List.append_assoc])
      rw [Position.after_append, List.flatMap_append, Position.after_append] at hrest
      rw [pieces_cons, ← htext, List.flatMap_append,
        gather_respelt_append hk hblank hcomment hwell hends, gather_append,
        flatMap_text_respelt hk hwell]
      exact List.rel_append (hpiece front _ _ hsource hwell) hrest
  exact hbehind source [] rfl

end Gather

/-- The value of a literal, when the text of a string is rewritten by `g`. -/
def Literal.rewrite (g : String → String) : Literal → Literal
  | number value => number value
  | string content => string (g content)

/-- What a token of `source` becomes when the source is rewritten by `g`. It keeps its kind
and its line, and its texts are rewritten as the source is. Its ends are told by what the
text in front of them is rewritten to. -/
structure Token.Rewritten (g : String → String) (source : String) (t t' : Token) : Prop where
  kind_eq : t'.kind = t.kind
  line_eq : t'.line = t.line
  lexeme_eq : t'.lexeme = g t.lexeme
  literal_eq : t'.literal = t.literal.map (Literal.rewrite g)
  span_eq : ∃ front back, source = front ++ (t.lexeme ++ back) ∧
    t.span = ⟨front.utf8ByteSize, (front ++ t.lexeme).utf8ByteSize⟩ ∧
    t'.span = ⟨(g front).utf8ByteSize, (g (front ++ t.lexeme)).utf8ByteSize⟩

/-- The text with `k c` in place of each character `c`. -/
def respell (k : Char → List Char) (text : String) : String :=
  String.ofList (text.toList.flatMap k)

section Scan

variable {k : Char → List Char}

theorem respell_ofList (cs : List Char) :
    respell k (String.ofList cs) = String.ofList (cs.flatMap k) := by
  rw [respell, String.toList_ofList]

theorem Harmless.line_after_flatMap (hk : Harmless k) {p q : Position} (h : q.line = p.line)
    (cs : List Char) : (q.after (cs.flatMap k)).line = (p.after cs).line := by
  rw [Position.after_line, Position.after_line, hk.count_newline, h]

theorem Harmless.after_flatMap (hk : Harmless k) (cs : List Char) :
    Position.start.after (cs.flatMap k) =
      ⟨(respell k (String.ofList cs)).utf8ByteSize, (Position.start.after cs).line⟩ := by
  rw [← hk.line_after_flatMap rfl cs, respell_ofList, Position.after_eq_shift, Position.shift,
    Position.start, Nat.zero_add]

theorem Lexeme.literal_respelt (l : Lexeme) :
    (l.respelt k).literal = l.literal.map (Literal.rewrite (respell k)) := by
  cases l with
  | string content => simp [respelt, literal, Literal.rewrite, respell_ofList]
  | _ => rfl

/-- The token of a lexeme that is written another way, behind a text that is as well. -/
theorem Lexeme.rewritten_tokenAt (hk : Harmless k) {l : Lexeme} (hl : l.WellFormed)
    {source front back : List Char} (hsource : source = front ++ (l.text ++ back)) :
    Token.Rewritten (respell k) (String.ofList source)
      (l.tokenAt (Position.start.after front))
      ((l.respelt k).tokenAt (Position.start.after (front.flatMap k))) := by
  have hkind : (l.respelt k).kind = l.kind := by cases l <;> rfl
  have hfront := hk.after_flatMap front
  have hboth := hk.after_flatMap (front ++ l.text)
  refine ⟨hkind, ?_, ?_, l.literal_respelt, String.ofList front, String.ofList back, ?_, ?_, ?_⟩
  · rw [hfront]
    rfl
  · rw [tokenAt, tokenAt, text_respelt hk hl, respell_ofList]
  · rw [hsource, tokenAt, String.ofList_append, String.ofList_append]
  · rw [tokenAt, ← Position.after_append, ← String.ofList_append, Position.after_offset,
      Position.after_offset, Position.start, Nat.zero_add, Nat.zero_add]
  · rw [tokenAt, tokenAt, text_respelt hk hl, ← Position.after_append, ← List.flatMap_append,
      ← String.ofList_append, hfront, hboth]

theorem diagnosticsAt_respelt (hk : Harmless k) (policy : Policy) (source : List Char) :
    diagnosticsAt policy .start (pieces (source.flatMap k)) =
      diagnosticsAt policy .start (pieces source) := by
  have hall : List.Forall₂ Eq (diagnosticsAt policy .start (pieces source))
      (diagnosticsAt policy .start (pieces (source.flatMap k))) := by
    refine forall₂_gather_respelt hk (fun _ _ => rfl) (fun _ _ => rfl) fun front x _ _ hx => ?_
    have hline := hk.line_after_flatMap (rfl : Position.start.line = _) front
    cases hx with
    | blank =>
      rw [Piece.respelt, gather_blank_map fun _ _ => rfl]
      exact .nil
    | comment => exact .nil
    | lexeme => exact .nil
    | unknown hc =>
      obtain ⟨d, -, hkc⟩ := hk.unknown _ hc
      rw [Piece.respelt, hkc]
      cases policy with
      | skip => exact .nil
      | report => exact .cons (congrArg (Diagnostic.mk _) hline.symm) .nil
    | @openString body =>
      have hquote : k '"' = ['"'] := hk.plain '"' (by decide)
      have hclose := hk.line_after_flatMap hline ('"' :: body)
      rw [List.flatMap_cons, hquote, List.singleton_append] at hclose
      exact .cons (congrArg (Diagnostic.mk _) hclose.symm) .nil
  rw [List.forall₂_eq_eq_eq] at hall
  exact hall.symm

theorem tokensAt_respelt (hk : Harmless k) (source : List Char) :
    List.Forall₂ (Token.Rewritten (respell k) (String.ofList source))
      (tokensAt .start (pieces source)) (tokensAt .start (pieces (source.flatMap k))) := by
  refine forall₂_gather_respelt hk (fun _ _ => rfl) (fun _ _ => rfl)
    fun front x back hsource hx => ?_
  cases hx with
  | blank =>
    rw [Piece.respelt, gather_blank_map fun _ _ => rfl]
    exact .nil
  | comment => exact .nil
  | lexeme hl => exact .cons (Lexeme.rewritten_tokenAt hk hl hsource) .nil
  | unknown hc =>
    obtain ⟨d, -, hkc⟩ := hk.unknown _ hc
    rw [Piece.respelt, hkc]
    exact .nil
  | openString => exact .nil

theorem Token.rewritten_endAt (hk : Harmless k) (source : String) :
    Rewritten (respell k) source (endAt (Position.start.after source.toList))
      (endAt (Position.start.after (source.toList.flatMap k))) := by
  have hend := hk.after_flatMap source.toList
  have hsource := Position.start_after_toList source
  rw [String.ofList_toList] at hend
  refine ⟨rfl, ?_, ?_, rfl, source, "", ?_, ?_, ?_⟩
  · rw [hend]
    rfl
  · rfl
  · simp [endAt]
  · rw [endAt, hsource]
    simp [Position.shift, Position.start]
  · simp [endAt, hend]

/-- A harmless spelling changes nothing about the diagnostics of a scan, and about its tokens
only their texts and the places that these texts move. -/
theorem scan_respell (hk : Harmless k) (policy : Policy) (source : String) :
    (scan policy (respell k source)).2.toList = (scan policy source).2.toList ∧
      List.Forall₂ (Token.Rewritten (respell k) source) (scan policy source).1
        (scan policy (respell k source)).1 := by
  have htokens := tokensAt_respelt hk source.toList
  rw [String.ofList_toList] at htokens
  constructor
  · rw [toList_scan, toList_scan, respell, String.toList_ofList, diagnosticsAt_respelt hk]
  · rw [tokens_scan, tokens_scan, respell, String.toList_ofList]
    exact List.rel_append htokens (.cons (Token.rewritten_endAt hk source) .nil)

end Scan

def withReturn (c : Char) : List Char := if c = '\n' then ['\r', '\n'] else [c]

/-- The text with a carriage return put in front of every newline. -/
def crlf (text : String) : String := respell withReturn text

theorem withReturn_of_ne {c : Char} (hc : c ≠ '\n') : withReturn c = [c] := if_neg hc

theorem harmless_withReturn : Harmless withReturn where
  plain c hc := by
    refine withReturn_of_ne ?_
    rintro rfl
    exact absurd hc (by decide)
  blank := by simp [blankCharacters, withReturn]
  unknown c hc := by
    refine ⟨c, hc, withReturn_of_ne ?_⟩
    rintro rfl
    exact absurd hc (by decide)
  newline c := by
    by_cases hc : c = '\n'
    · subst hc
      rfl
    · rw [withReturn_of_ne hc]

/-- Lines that end with a carriage return and a newline are scanned as lines that end with a
newline alone. Texts that go over several lines have the carriage returns in them. -/
theorem scan_crlf (policy : Policy) (source : String) :
    (scan policy (crlf source)).2.toList = (scan policy source).2.toList ∧
      List.Forall₂ (Token.Rewritten crlf source) (scan policy source).1
        (scan policy (crlf source)).1 :=
  scan_respell harmless_withReturn policy source

/-- Behind a comment the carriage return belongs to it, behind a string it stands alone. -/
example : pieces (crlf "//a\n\"\n\"\n").toList =
    [.comment ['a', '\r'], .blank '\n', .lexeme (.string ['\r', '\n']), .blank '\r',
      .blank '\n'] := by
  decide +kernel

theorem map_eq_respell (f : Char → Char) : String.map f = respell fun c => [f c] := by
  funext text
  apply String.toList_injective
  rw [String.toList_map, respell, String.toList_ofList, List.map_eq_flatMap]

theorem harmless_of_ascii {f : Char → Char} (hascii : ∀ c, c.isAscii = true → f c = c)
    (hother : ∀ c, c.isAscii = false → (f c).isAscii = false) : Harmless fun c => [f c] where
  plain c hc := by
    cases hc' : c.isAscii with
    | true => rw [hascii c hc']
    | false =>
      rw [idle_of_beginsNothing (beginsNothing_of_isAscii hc')] at hc
      cases hc
  blank := by simp [blankCharacters, hascii, Char.isAscii]
  unknown c hc := by
    refine ⟨f c, ?_, rfl⟩
    cases hc' : c.isAscii with
    | true => rwa [hascii c hc']
    | false => exact beginsNothing_of_isAscii (hother c hc')
  newline c := by
    cases hc : c.isAscii with
    | true => rw [hascii c hc]
    | false =>
      have hnewline : ∀ d : Char, d.isAscii = false → [d].count '\n' = 0 := by
        intro d hd
        refine List.count_eq_zero.mpr fun hm => ?_
        rw [← List.mem_singleton.mp hm] at hd
        cases hd
      rw [hnewline c hc, hnewline (f c) (hother c hc)]

/-- One character beyond ASCII is as good as another: in a string it is part of the text, in
a comment it is passed over, and anywhere else it begins nothing. The scan tells them apart
by their bytes only. -/
theorem scan_map (f : Char → Char) (hascii : ∀ c, c.isAscii = true → f c = c)
    (hother : ∀ c, c.isAscii = false → (f c).isAscii = false) (policy : Policy)
    (source : String) :
    (scan policy (source.map f)).2.toList = (scan policy source).2.toList ∧
      List.Forall₂ (Token.Rewritten (String.map f) source) (scan policy source).1
        (scan policy (source.map f)).1 := by
  have h := scan_respell (harmless_of_ascii hascii hother) policy source
  rwa [← map_eq_respell] at h

/-- The character, or one of four bytes in place of all that are beyond ASCII. -/
def widened (c : Char) : Char := if c.isAscii then c else '😀'

/-- Characters of two and of three bytes in a string, in a comment, by themselves and in a
string that stays open. -/
theorem scan_map_widened :
    (∀ c, c.isAscii = true → widened c = c) ∧
      (∀ c, c.isAscii = false → (widened c).isAscii = false) ∧
      (scan .report ("\"é\n\"ß1.5//€\n€\"ü".map widened)).2.toList =
        (scan .report "\"é\n\"ß1.5//€\n€\"ü").2.toList ∧
      List.Forall₂ (Token.Rewritten (String.map widened) "\"é\n\"ß1.5//€\n€\"ü")
        (scan .report "\"é\n\"ß1.5//€\n€\"ü").1
        (scan .report ("\"é\n\"ß1.5//€\n€\"ü".map widened)).1 := by
  have hascii : ∀ c, c.isAscii = true → widened c = c := fun c hc => if_pos hc
  have hother : ∀ c, c.isAscii = false → (widened c).isAscii = false := by
    intro c hc
    rw [widened, if_neg (by simp [hc])]
    decide
  exact ⟨hascii, hother, scan_map widened hascii hother .report _⟩

end LoxTokens
