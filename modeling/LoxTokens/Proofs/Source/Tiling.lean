import LoxTokens.Proofs.Source.Cut
import LoxTokens.Proofs.Source.MaximalMunch
import LoxTokens.Proofs.Text.Place

/-!
# Tokens tile the source

Between two tokens of a scan, in front of the first and behind the last stands a gap.
`Gap` lists what a gap is made of: blanks, characters that begin nothing, comments, and,
with nothing behind it, a string that is never closed. `Tiled` lays gaps and tokens one
behind the other, each token at the bytes that its span names.

`tiling_scan` says that a scan tiles its source, and that its diagnostics are told by the
gaps: one for every character in them that begins nothing, and one for an open string.
-/

namespace LoxTokens

/-- What a gap ends with: a token that stands behind it, the end of the source, or a
string that is never closed. -/
inductive Ending where
  | token
  | source
  | openString
deriving DecidableEq

/-- Text that makes no token. `unknowns` counts the characters in it, outside comments
and strings, that begin nothing. A comment goes up to a newline of the same gap, or up
to the end of the source. -/
inductive Gap : (text : List Char) → (unknowns : Nat) → Ending → Prop
  | token : Gap [] 0 .token
  | source : Gap [] 0 .source
  | openString {body : List Char} (hbody : '"' ∉ body) : Gap ('"' :: body) 0 .openString
  | blank {c : Char} {gap : List Char} {unknowns : Nat} {ending : Ending}
      (hc : c ∈ blankCharacters) (hgap : Gap gap unknowns ending) :
      Gap (c :: gap) unknowns ending
  | unknown {c : Char} {gap : List Char} {unknowns : Nat} {ending : Ending}
      (hc : beginsNothing c = true) (hgap : Gap gap unknowns ending) :
      Gap (c :: gap) (unknowns + 1) ending
  | comment {body gap : List Char} {unknowns : Nat} {ending : Ending} (hbody : '\n' ∉ body)
      (hgap : Gap gap unknowns ending)
      (hends : gap.head? = some '\n' ∨ gap = [] ∧ ending = .source) :
      Gap ('/' :: '/' :: (body ++ gap)) unknowns ending

/-- From `offset` on the source is `text`, and that is gap, token, gap, token and so on up
to a last gap, behind which the mark stands that ends the scan. `unknowns` counts over
all gaps, `ending` is that of the last. -/
inductive Tiled : (offset : Nat) → (text : List Char) → List Token → (unknowns : Nat) →
    Ending → Prop
  | last {offset line unknowns : Nat} {gap : List Char} {ending : Ending}
      (hgap : Gap gap unknowns ending) (hending : ending ≠ .token) :
      Tiled offset gap [.endAt ⟨offset + (String.ofList gap).utf8ByteSize, line⟩] unknowns ending
  | token {offset unknowns later : Nat} {gap rest : List Char} {ending : Ending} {t : Token}
      {ts : List Token} (hgap : Gap gap unknowns .token) (hkind : t.kind ≠ .endOfSource)
      (hlexeme : t.lexeme ≠ "")
      (hstart : t.span.start = offset + (String.ofList gap).utf8ByteSize)
      (hstop : t.span.stop = t.span.start + t.lexeme.utf8ByteSize)
      (hrest : Tiled t.span.stop rest ts later ending) :
      Tiled offset (gap ++ (t.lexeme.toList ++ rest)) (t :: ts) (unknowns + later) ending

namespace Tiled

variable {offset unknowns : Nat} {text : List Char} {ts : List Token} {ending : Ending}

/-- The mark stands at the end of the text, and nowhere else. -/
theorem exists_end (h : Tiled offset text ts unknowns ending) : ∃ front line,
    ts = front ++ [.endAt ⟨offset + (String.ofList text).utf8ByteSize, line⟩] ∧
      ∀ t ∈ front, t.kind ≠ .endOfSource := by
  induction h with
  | @last offset line _ gap _ => exact ⟨[], line, rfl, by simp⟩
  | @token offset _ _ gap rest _ t ts _ hkind _ hstart hstop _ ih =>
    obtain ⟨front, line, rfl, hfront⟩ := ih
    refine ⟨t :: front, line, ?_, List.forall_mem_cons.mpr ⟨hkind, hfront⟩⟩
    rw [String.ofList_append, String.ofList_append, String.ofList_toList,
      String.utf8ByteSize_append, String.utf8ByteSize_append, hstop, hstart, Nat.add_assoc,
      Nat.add_assoc]
    rfl

/-- Every token but the mark stands in the source where its span says, and is not empty. -/
theorem holds {source : String} {front : List Char} (h : Tiled offset text ts unknowns ending)
    (hsource : source.toList = front ++ text)
    (hoffset : offset = (String.ofList front).utf8ByteSize) :
    ∀ t ∈ ts, t.kind ≠ .endOfSource → t.span.Holds source t.lexeme ∧
      t.span.start < t.span.stop ∧ t.span.length? = some t.lexeme.utf8ByteSize := by
  induction h generalizing front with
  | last =>
    intro t ht hkind
    rw [List.mem_singleton.mp ht] at hkind
    exact absurd rfl hkind
  | @token offset _ _ gap rest _ t ts _ _ hlexeme hstart hstop _ ih =>
    have hsource' : source.toList = (front ++ gap ++ t.lexeme.toList) ++ rest := by
      rw [hsource]
      simp only [List.append_assoc]
    have hstart' : t.span.start = (String.ofList (front ++ gap)).utf8ByteSize := by
      rw [hstart, hoffset, String.ofList_append, String.utf8ByteSize_append]
    refine List.forall_mem_cons.mpr ⟨fun _ => ⟨?_, ?_, ?_⟩, ih hsource' ?_⟩
    · have happend : source = String.ofList (front ++ gap) ++
          (t.lexeme ++ String.ofList rest) := by
        apply String.toList_injective
        simp [hsource]
      have hholds := Span.holds_of_append happend
      rwa [← hstart', ← hstop] at hholds
    · have hpos : t.lexeme.utf8ByteSize ≠ 0 := by
        rwa [Ne, String.utf8ByteSize_eq_zero_iff]
      omega
    · rw [Span.length?, if_pos (by omega), hstop, Nat.add_sub_cancel_left]
    · rw [String.ofList_append, String.utf8ByteSize_append, ← hstart', String.ofList_toList, hstop]

theorem offset_le_start (h : Tiled offset text ts unknowns ending) :
    ∀ t ∈ ts, offset ≤ t.span.start := by
  induction h with
  | last =>
    intro t ht
    rw [List.mem_singleton.mp ht]
    exact Nat.le_add_right _ _
  | token _ _ _ hstart hstop _ ih =>
    refine List.forall_mem_cons.mpr ⟨by omega, fun u hu => ?_⟩
    have hle := ih u hu
    omega

/-- No token begins before the one in front of it ends. -/
theorem pairwise (h : Tiled offset text ts unknowns ending) :
    ts.Pairwise fun t u => t.span.stop ≤ u.span.start := by
  induction h with
  | last => exact List.pairwise_singleton _ _
  | token _ _ _ _ _ hrest ih => exact List.pairwise_cons.mpr ⟨hrest.offset_le_start, ih⟩

end Tiled

theorem Lexeme.head?_text {l : Lexeme} (hl : l.WellFormed) :
    ∃ c, l.text.head? = some c ∧ c ∉ blankCharacters := by
  cases hcs : l.text with
  | nil => exact absurd hcs (Piece.WellFormed.lexeme hl).text_ne_nil
  | cons c cs =>
    refine ⟨c, rfl, fun hc => ?_⟩
    have hfirst : Piece.first c cs = (.lexeme l, []) :=
      Piece.first_lexeme hl (Piece.endsBefore_nil (.lexeme l)) (by rw [hcs, List.append_nil])
    rw [Piece.first_blank (isWhitespace_iff.mpr hc)] at hfirst
    cases hfirst

/-- Text put in front of a tiling goes into its first gap, when that may begin with it. In
front of a token whose gap is still empty this may depend on how the token begins. -/
theorem Tiled.prepend {offset unknowns : Nat} {xs text : List Char} {ts : List Token}
    {ending : Ending} (more : Nat)
    (h : Tiled (offset + (String.ofList xs).utf8ByteSize) text ts unknowns ending)
    (hbegins : ∀ t ∈ ts, t.kind ≠ .endOfSource →
      ∃ c, t.lexeme.toList.head? = some c ∧ c ∉ blankCharacters)
    (hgap : ∀ gap m e, Gap gap m e → gap <+: text →
      (gap = [] → e = .token → ∃ c, text.head? = some c ∧ c ∉ blankCharacters) →
      Gap (xs ++ gap) (m + more) e) :
    Tiled offset (xs ++ text) ts (unknowns + more) ending := by
  have hsize : ∀ gap : List Char, (String.ofList (xs ++ gap)).utf8ByteSize =
      (String.ofList xs).utf8ByteSize + (String.ofList gap).utf8ByteSize := by
    intro gap
    rw [String.ofList_append, String.utf8ByteSize_append]
  cases h with
  | last hg hending =>
    rw [Nat.add_assoc, ← hsize]
    exact .last (hgap _ _ _ hg (List.prefix_refl _) fun _ he => absurd he hending) hending
  | @token _ unknowns later gap rest _ t ts hg hkind hlexeme hstart hstop hrest =>
    rw [Nat.add_assoc, ← hsize] at hstart
    rw [← List.append_assoc, Nat.add_right_comm]
    refine .token (hgap _ _ _ hg (List.prefix_append _ _) ?_) hkind hlexeme hstart hstop hrest
    rintro rfl -
    obtain ⟨c, hc, hblank⟩ := hbegins t List.mem_cons_self hkind
    obtain ⟨cs, hcs⟩ := List.head?_eq_some_iff.mp hc
    exact ⟨c, by rw [hcs]; rfl, hblank⟩

/-- A comment may begin any gap in front of text in which it would have ended. -/
theorem Gap.prepend_comment {body gap text : List Char} {unknowns : Nat} {ending : Ending}
    (hgap : Gap gap unknowns ending) (hbody : '\n' ∉ body) (hends : RunEnds (· != '\n') text)
    (hfront : gap <+: text)
    (hbegins : gap = [] → ending = .token → ∃ c, text.head? = some c ∧ c ∉ blankCharacters) :
    Gap ('/' :: '/' :: (body ++ gap)) unknowns ending := by
  refine .comment hbody hgap ?_
  have hnewline : ∀ c, text.head? = some c → c = '\n' := by
    intro c hc
    simpa using hends c hc
  cases gap with
  | cons c cs =>
    obtain ⟨rest, rfl⟩ := hfront
    exact Or.inl (congrArg some (hnewline c rfl))
  | nil =>
    cases ending with
    | source => exact Or.inr ⟨rfl, rfl⟩
    | openString => cases hgap
    | token =>
      obtain ⟨c, hc, hblank⟩ := hbegins rfl rfl
      rw [hnewline c hc] at hblank
      exact absurd (by decide) hblank

/-- The faults that gaps give rise to: their characters that begin nothing, unless these
are passed over, and then a string that is never closed. -/
def Gap.faults (policy : Policy) (unknowns : Nat) (ending : Ending) : List Fault :=
  List.replicate (if policy = .report then unknowns else 0) .unexpectedCharacter ++
    if ending = .openString then [.unterminatedString] else []

theorem head?_lexeme_of_mem {ps : List Piece} (hps : Legible ps) {p q : Position} :
    ∀ t ∈ tokensAt p ps ++ [.endAt q], t.kind ≠ .endOfSource →
      ∃ c, t.lexeme.toList.head? = some c ∧ c ∉ blankCharacters := by
  intro t ht hkind
  rcases List.mem_append.mp ht with ht | ht
  · obtain ⟨xs, l, ys, rfl, rfl⟩ := exists_lexeme_of_mem ht
    have hl := hps.wellFormed (.lexeme l) (by simp)
    cases hl with
    | lexeme hl =>
      rw [Lexeme.tokenAt, String.toList_ofList]
      exact Lexeme.head?_text hl
  · rw [List.mem_singleton.mp ht] at hkind
    exact absurd rfl hkind

/-- A lexeme becomes a token with no gap in front of it. -/
theorem Tiled.cons_lexeme {l : Lexeme} (hl : l.WellFormed) {p : Position} {rest : List Char}
    {ts : List Token} {unknowns : Nat} {ending : Ending}
    (h : Tiled (p.after l.text).offset rest ts unknowns ending) :
    Tiled p.offset (l.text ++ rest) (l.tokenAt p :: ts) unknowns ending := by
  have hlexeme : (l.tokenAt p).lexeme ≠ "" := by
    rw [Lexeme.tokenAt, Ne, String.ofList_eq_empty_iff]
    exact (Piece.WellFormed.lexeme hl).text_ne_nil
  have htoken := Tiled.token .token l.kind_ne_endOfSource hlexeme rfl
    (Position.after_offset p l.text) h
  rwa [Nat.zero_add, List.nil_append, Lexeme.tokenAt, String.toList_ofList] at htoken

theorem Tiled.openString {body : List Char} (hbody : '"' ∉ body) (p : Position) :
    Tiled p.offset ('"' :: body) [.endAt (p.after ('"' :: body))] 0 .openString := by
  have hend : p.after ('"' :: body) = ⟨p.offset + (String.ofList ('"' :: body)).utf8ByteSize,
      (p.after ('"' :: body)).line⟩ := by
    rw [← Position.after_offset]
  rw [hend]
  exact .last (.openString hbody) (by decide)

/-- Pieces tile what they make up: a lexeme is a token, and the text of any other piece
goes into the gap in front of the next. -/
theorem tiled_of_legible {ps : List Piece} (hps : Legible ps) (p : Position) :
    ∃ unknowns ending,
      Tiled p.offset (ps.flatMap Piece.text)
        (tokensAt p ps ++ [.endAt (p.after (ps.flatMap Piece.text))]) unknowns ending ∧
      ∀ policy, (diagnosticsAt policy p ps).map Diagnostic.fault =
        Gap.faults policy unknowns ending := by
  induction hps generalizing p with
  | nil => exact ⟨0, .source, .last .source (by decide), fun policy => by cases policy <;> rfl⟩
  | @cons x xs hx hends hxs ih =>
    obtain ⟨unknowns, ending, htiled, hfaults⟩ := ih (p.after x.text)
    have hbegins := head?_lexeme_of_mem hxs (p := p.after x.text)
      (q := (p.after x.text).after (xs.flatMap Piece.text))
    rw [List.flatMap_cons, Position.after_append]
    cases hx with
    | @blank c hc =>
      rw [Position.after_offset] at htiled
      refine ⟨unknowns, ending, htiled.prepend 0 hbegins fun gap m e hgap _ _ => ?_, hfaults⟩
      exact .blank (isWhitespace_iff.mp hc) hgap
    | @comment body hbody =>
      rw [Position.after_offset] at htiled
      refine ⟨unknowns, ending, htiled.prepend 0 hbegins fun gap m e hgap hfront hb => ?_,
        hfaults⟩
      exact hgap.prepend_comment hbody hends hfront hb
    | @unknown c hc =>
      rw [Position.after_offset] at htiled
      refine ⟨unknowns + 1, ending,
        htiled.prepend 1 hbegins fun gap m e hgap _ _ => .unknown hc hgap, fun policy => ?_⟩
      have hrest := hfaults policy
      cases policy with
      | report => exact congrArg (Fault.unexpectedCharacter :: ·) hrest
      | skip => exact hrest
    | @openString body hbody =>
      obtain rfl := hxs.eq_nil_of_text hends
      refine ⟨0, .openString, ?_, fun policy => by cases policy <;> rfl⟩
      rw [List.flatMap_nil, List.append_nil]
      exact .openString hbody p
    | @lexeme l hl => exact ⟨unknowns, ending, htiled.cons_lexeme hl, hfaults⟩

/-- How the tokens of a scan cover its source. The tokens and the gaps between them make
it up in order. The mark that ends the scan stands at the very end, and is the only one.
Every other token is a stretch of the source, with the length of its text, and begins
where the one in front of it ends or later. The diagnostics follow from the gaps. -/
structure Tiling (policy : Policy) (source : String) (unknowns : Nat) (ending : Ending) :
    Prop where
  tiled : Tiled 0 source.toList (scan policy source).1 unknowns ending
  last : ∃ front line, (scan policy source).1 = front ++
    [⟨.endOfSource, "", none, line, ⟨source.utf8ByteSize, source.utf8ByteSize⟩⟩] ∧
      ∀ t ∈ front, t.kind ≠ .endOfSource
  holds : ∀ t ∈ (scan policy source).1, t.kind ≠ .endOfSource →
    t.span.Holds source t.lexeme ∧ t.span.start < t.span.stop ∧
      t.span.length? = some t.lexeme.utf8ByteSize
  ordered : (scan policy source).1.Pairwise fun t u => t.span.stop ≤ u.span.start
  faults : (scan policy source).2.toList.map Diagnostic.fault = Gap.faults policy unknowns ending

/-- The tokens of a scan tile its source, under either policy with the same gaps. -/
theorem tiling_scan (source : String) :
    ∃ unknowns ending, ∀ policy, Tiling policy source unknowns ending := by
  obtain ⟨unknowns, ending, htiled, hfaults⟩ :=
    tiled_of_legible (legible_pieces source.toList) .start
  rw [flatMap_text_pieces] at htiled
  refine ⟨unknowns, ending, fun policy => ?_⟩
  rw [← tokens_scan policy] at htiled
  refine ⟨htiled, ?_, htiled.holds (List.nil_append _).symm rfl, htiled.pairwise, ?_⟩
  · obtain ⟨front, line, hfront, hkind⟩ := htiled.exists_end
    rw [String.ofList_toList, Position.start, Nat.zero_add] at hfront
    exact ⟨front, line, hfront, hkind⟩
  · rw [toList_scan]
    exact hfaults policy

end LoxTokens
