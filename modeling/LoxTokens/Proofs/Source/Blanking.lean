import LoxTokens.Proofs.Diagnostic.Policy

/-!
# Blanks in place of what begins nothing

A character that begins no token ends whatever stands in front of it and is then passed
over, as a blank is. So such characters can be replaced by blanks, as many as they have
bytes, without moving anything. Only inside tokens they must stay, for there they are part
of a string.

`blankUnknowns` does this with the spans of tokens, character by character, and knows no
pieces. `scan_blankUnknowns` says that the tokens stay what they are, and that what is
reported is what had been reported with these characters passed over.
-/

namespace LoxTokens

def blanksFor (c : Char) : List Char := List.replicate c.utf8Size ' '

def Span.covers (s : Span) (offset : Nat) : Bool := s.start ≤ offset && offset < s.stop

/-- The text, when it stands at `offset`, with blanks in place of every character that
begins nothing and lies in the span of none of the tokens. -/
def blankOutside (tokens : List Token) (offset : Nat) : List Char → List Char
  | [] => []
  | c :: cs =>
      (if beginsNothing c && !tokens.any fun t => t.span.covers offset then blanksFor c else [c]) ++
        blankOutside tokens (offset + c.utf8Size) cs

/-- The source with blanks in place of every character that begins nothing and lies in no
token of its scan. -/
def blankUnknowns (policy : Policy) (source : String) : String :=
  String.ofList (blankOutside (scan policy source).1 0 source.toList)

/-- The text with blanks in place of every character that begins nothing. -/
def blanked (cs : List Char) : List Char :=
  cs.flatMap fun c => if beginsNothing c then blanksFor c else [c]

theorem mem_of_mem_blanked {d : Char} {cs : List Char} (h : d ∈ blanked cs) :
    d = ' ' ∨ d ∈ cs := by
  obtain ⟨c, hc, hd⟩ := List.mem_flatMap.mp h
  by_cases hbegins : beginsNothing c = true
  · rw [if_pos hbegins] at hd
    exact Or.inl (List.eq_of_mem_replicate hd)
  · rw [if_neg hbegins, List.mem_singleton] at hd
    exact Or.inr (hd ▸ hc)

theorem after_blanks (n : Nat) (p : Position) :
    p.after (List.replicate n ' ') = ⟨p.offset + n, p.line⟩ := by
  induction n generalizing p with
  | zero => rfl
  | succ n ih =>
    rw [List.replicate_succ, Position.after_cons, ih]
    simp [Position.next, Char.utf8Size, Nat.add_assoc, Nat.add_comm 1 n]

theorem after_blanksFor {c : Char} (hc : beginsNothing c = true) (p : Position) :
    p.after (blanksFor c) = p.next c := by
  have hn : c ≠ '\n' := by
    rintro rfl
    exact absurd hc (by decide)
  rw [blanksFor, after_blanks, Position.next, if_neg hn]

/-- Some characters of the first text that begin nothing are blanks in the second. -/
inductive Blanking : List Char → List Char → Prop
  | nil : Blanking [] []
  | keep (c : Char) {cs ds : List Char} (h : Blanking cs ds) : Blanking (c :: cs) (c :: ds)
  | blank {c : Char} (hc : beginsNothing c = true) {cs ds : List Char} (h : Blanking cs ds) :
      Blanking (c :: cs) (blanksFor c ++ ds)

namespace Blanking

theorem refl (cs : List Char) : Blanking cs cs := by
  induction cs with
  | nil => exact .nil
  | cons c cs ih => exact .keep c ih

theorem append {cs ds cs' ds' : List Char} (h : Blanking cs ds) (h' : Blanking cs' ds') :
    Blanking (cs ++ cs') (ds ++ ds') := by
  induction h with
  | nil => exact h'
  | keep c _ ih => exact .keep c ih
  | blank hc _ ih =>
    rw [List.append_assoc]
    exact .blank hc ih

theorem of_blanked (cs : List Char) : Blanking cs (blanked cs) := by
  induction cs with
  | nil => exact .nil
  | cons c cs ih =>
    rw [blanked, List.flatMap_cons]
    by_cases hc : beginsNothing c = true
    · rw [if_pos hc]
      exact .blank hc ih
    · rw [if_neg hc]
      exact .keep c ih

/-- Nothing behind the text is moved. -/
theorem after_eq {cs ds : List Char} (h : Blanking cs ds) (p : Position) :
    p.after ds = p.after cs := by
  induction h generalizing p with
  | nil => rfl
  | keep c _ ih => exact ih _
  | blank hc _ ih => rw [Position.after_append, after_blanksFor hc, ih, Position.after_cons]

theorem sameToIdle {cs ds : List Char} (h : Blanking cs ds) : Lexeme.SameToIdle cs ds := by
  induction h with
  | nil => exact .stop (RunEnds.nil _) (RunEnds.nil _)
  | keep c _ ih => exact .cons c ih
  | @blank c hc cs ds _ _ =>
    obtain ⟨n, hn⟩ := Nat.exists_eq_succ_of_ne_zero c.utf8Size_pos.ne'
    rw [blanksFor, hn, List.replicate_succ, List.cons_append]
    refine .stop (RunEnds.cons_iff.mpr ?_) (RunEnds.cons_iff.mpr (by decide))
    simp [idle_of_beginsNothing hc]

/-- A piece that ends before the text ends before it with the blanks as well. A comment ends
at a newline, which is never replaced. -/
theorem endsBefore {cs ds : List Char} (h : Blanking cs ds) {x : Piece}
    (hends : x.EndsBefore cs) : x.EndsBefore ds := by
  cases x with
  | blank => trivial
  | unknown => trivial
  | lexeme l => exact Lexeme.EndsBefore.sameToIdle hends h.sameToIdle
  | comment body =>
    cases h with
    | nil => exact hends
    | keep c _ =>
      intro d hd
      exact hends d hd
    | @blank c hc cs =>
      have hnewline : RunEnds (· != '\n') (c :: cs) := hends
      obtain rfl : c = '\n' := by simpa using RunEnds.cons_iff.mp hnewline
      exact absurd hc (by decide)
  | openString body =>
    obtain rfl : cs = [] := hends
    cases h
    rfl

end Blanking

namespace Piece

/-- The pieces that come of a piece when all in it that begins nothing is replaced, unless
it is a lexeme. -/
def blankedOut : Piece → List Piece
  | blank c => [blank c]
  | comment body => [comment (blanked body)]
  | lexeme l => [lexeme l]
  | unknown c => List.replicate c.utf8Size (blank ' ')
  | openString body => [openString (blanked body)]

theorem flatMap_text_blanks (n : Nat) :
    (List.replicate n (blank ' ')).flatMap text = List.replicate n ' ' := by
  rw [← List.map_replicate, flatMap_text_blank]

theorem blanking_blankedOut {x : Piece} (hx : x.WellFormed) :
    Blanking x.text (x.blankedOut.flatMap text) := by
  cases hx with
  | blank => exact .refl _
  | @comment body =>
    rw [blankedOut, List.flatMap_singleton]
    exact .keep '/' (.keep '/' (.of_blanked body))
  | lexeme =>
    rw [blankedOut, List.flatMap_singleton]
    exact .refl _
  | unknown hc =>
    have hblank := Blanking.blank hc .nil
    rw [List.append_nil] at hblank
    rw [blankedOut, flatMap_text_blanks]
    exact hblank
  | @openString body =>
    rw [blankedOut, List.flatMap_singleton]
    exact .keep '"' (.of_blanked body)

end Piece

theorem Blanking.of_pieces {ps : List Piece} (hps : ∀ x ∈ ps, x.WellFormed) :
    Blanking (ps.flatMap Piece.text) ((ps.flatMap Piece.blankedOut).flatMap Piece.text) := by
  induction ps with
  | nil => exact .nil
  | cons x xs ih =>
    obtain ⟨hx, hxs⟩ := List.forall_mem_cons.mp hps
    rw [List.flatMap_cons, List.flatMap_cons, List.flatMap_append]
    exact (Piece.blanking_blankedOut hx).append (ih hxs)

theorem Legible.blanks_append {ps : List Piece} (hps : Legible ps) (n : Nat) :
    Legible (List.replicate n (.blank ' ') ++ ps) := by
  induction n with
  | zero => exact hps
  | succ n ih =>
    rw [List.replicate_succ, List.cons_append]
    exact .cons (.blank (by decide)) trivial ih

/-- Pieces still read back when blanks have been put into them. -/
theorem Legible.blankedOut {ps : List Piece} (hps : Legible ps) :
    Legible (ps.flatMap Piece.blankedOut) := by
  induction hps with
  | nil => exact .nil
  | @cons x xs hx hends hxs ih =>
    have hends' := (Blanking.of_pieces hxs.wellFormed).endsBefore hends
    rw [List.flatMap_cons]
    cases hx with
    | blank hc => exact .cons (.blank hc) trivial ih
    | lexeme hl => exact .cons (.lexeme hl) hends' ih
    | unknown hc => exact ih.blanks_append _
    | comment hbody =>
      refine .cons (.comment fun hn => ?_) hends' ih
      rcases mem_of_mem_blanked hn with h | h
      · exact absurd h (by decide)
      · exact hbody h
    | openString hbody =>
      refine .cons (.openString fun hq => ?_) hends' ih
      rcases mem_of_mem_blanked hq with h | h
      · exact absurd h (by decide)
      · exact hbody h

theorem gather_blanks {α : Type} {f : Position → Piece → Option α}
    (hblank : ∀ p c, f p (.blank c) = none) (n : Nat) (p : Position) :
    gather f p (List.replicate n (.blank ' ')) = [] := by
  rw [← List.map_replicate, gather_blank_map hblank]

theorem tokensAt_blankedOut {ps : List Piece} (hps : ∀ x ∈ ps, x.WellFormed) (p : Position) :
    tokensAt p (ps.flatMap Piece.blankedOut) = tokensAt p ps := by
  refine gather_flatMap (fun x _ q => ?_)
    (fun x hx q => (Piece.blanking_blankedOut (hps x hx)).after_eq q) p
  cases x with
  | blank => rfl
  | comment => rfl
  | lexeme => rfl
  | unknown => exact gather_blanks (fun _ _ => rfl) _ q
  | openString => rfl

/-- What is reported about the blanks is what is reported about the characters when these
are skipped. -/
theorem diagnosticsAt_blankedOut {ps : List Piece} (hps : ∀ x ∈ ps, x.WellFormed)
    (p : Position) :
    diagnosticsAt .report p (ps.flatMap Piece.blankedOut) = diagnosticsAt .skip p ps := by
  refine gather_flatMap (fun x hx q => ?_)
    (fun x hx q => (Piece.blanking_blankedOut (hps x hx)).after_eq q) p
  cases x with
  | blank => rfl
  | comment => rfl
  | lexeme => rfl
  | unknown => exact gather_blanks (fun _ _ => rfl) _ q
  | openString body =>
    have hend := (Blanking.keep '"' (.of_blanked body)).after_eq q
    simp [Piece.blankedOut, gather, Piece.diagnostic?, hend]

section Outside

variable {tokens : List Token}

theorem blankOutside_append (p : Position) (xs ys : List Char) :
    blankOutside tokens p.offset (xs ++ ys) =
      blankOutside tokens p.offset xs ++ blankOutside tokens (p.after xs).offset ys := by
  induction xs generalizing p with
  | nil => rfl
  | cons c cs ih =>
    have hrest := ih (p.next c)
    rw [List.cons_append, blankOutside, blankOutside, List.append_assoc]
    exact congrArg _ hrest

/-- In the span of a token nothing is replaced. -/
theorem blankOutside_of_covered {t : Token} (ht : t ∈ tokens) {p : Position} {xs : List Char}
    (hstart : t.span.start ≤ p.offset) (hstop : (p.after xs).offset ≤ t.span.stop) :
    blankOutside tokens p.offset xs = xs := by
  induction xs generalizing p with
  | nil => rfl
  | cons c cs ih =>
    have hlt : p.offset < (p.after (c :: cs)).offset := Position.lt_after (List.cons_ne_nil c cs) p
    have hcovers : t.span.covers p.offset = true := by
      simp only [Span.covers, Bool.and_eq_true, decide_eq_true_eq]
      omega
    have hany : (tokens.any fun t => t.span.covers p.offset) = true :=
      List.any_eq_true.mpr ⟨t, ht, hcovers⟩
    have hnext : t.span.start ≤ (p.next c).offset := hstart.trans (p.le_after [c])
    have hrest := ih hnext hstop
    rw [blankOutside, hany, Bool.not_true, Bool.and_false, if_neg Bool.false_ne_true]
    exact congrArg (c :: ·) hrest

/-- Where no span reaches, everything that begins nothing is replaced. -/
theorem blankOutside_of_apart {p : Position} {xs : List Char}
    (h : ∀ t ∈ tokens, t.span.stop ≤ p.offset ∨ (p.after xs).offset ≤ t.span.start) :
    blankOutside tokens p.offset xs = blanked xs := by
  induction xs generalizing p with
  | nil => rfl
  | cons c cs ih =>
    have hlt : p.offset < (p.after (c :: cs)).offset := Position.lt_after (List.cons_ne_nil c cs) p
    have hany : (tokens.any fun t => t.span.covers p.offset) = false := by
      apply List.any_eq_false.mpr
      intro t ht hcovers
      have hapart := h t ht
      simp only [Span.covers, Bool.and_eq_true, decide_eq_true_eq] at hcovers
      omega
    have hnext : ∀ t ∈ tokens, t.span.stop ≤ (p.next c).offset ∨
        ((p.next c).after cs).offset ≤ t.span.start := by
      intro t ht
      exact (h t ht).imp_left fun hstop => hstop.trans (p.le_after [c])
    have hrest := ih hnext
    rw [blankOutside, hany, Bool.not_false, Bool.and_true, blanked, List.flatMap_cons]
    exact congrArg _ hrest

end Outside

theorem Piece.blanked_text {x : Piece} (hx : x.WellFormed) (hlexeme : ∀ l, x ≠ .lexeme l) :
    blanked x.text = x.blankedOut.flatMap text := by
  have hslash : beginsNothing '/' = false := by decide
  have hquote : beginsNothing '"' = false := by decide
  cases hx with
  | @blank c hc =>
    have hbegins : beginsNothing c = false := by
      simp [beginsNothing, isWhitespace_iff.mp hc]
    simp [blanked, blankedOut, text, hbegins]
  | comment => simp [blanked, blankedOut, text, hslash]
  | @lexeme l => exact absurd rfl (hlexeme l)
  | unknown hc => simp [blanked, blankedOut, text, hc, flatMap_text_blanks, blanksFor]
  | openString => simp [blanked, blankedOut, text, hquote]

/-- A piece is covered by the token it makes, and apart from all others. -/
theorem blankOutside_piece {tokens : List Token} {x : Piece} (hx : x.WellFormed) {p : Position}
    (hall : ∀ t, x.token? p = some t → t ∈ tokens)
    (hapart : ∀ t ∈ tokens, x.token? p = some t ∨ t.span.stop ≤ p.offset ∨
      (p.after x.text).offset ≤ t.span.start) :
    blankOutside tokens p.offset x.text = x.blankedOut.flatMap Piece.text := by
  by_cases hlexeme : ∃ l, x = .lexeme l
  · obtain ⟨l, rfl⟩ := hlexeme
    rw [Piece.blankedOut, List.flatMap_singleton]
    exact blankOutside_of_covered (hall _ rfl) (Nat.le_refl _) (Nat.le_refl _)
  · have hlexeme' : ∀ l, x ≠ .lexeme l := fun l hl => hlexeme ⟨l, hl⟩
    have hnone : x.token? p = none := by
      cases x with
      | lexeme l => exact absurd rfl (hlexeme' l)
      | _ => rfl
    rw [← Piece.blanked_text hx hlexeme']
    apply blankOutside_of_apart
    intro t ht
    rcases hapart t ht with hsome | happart
    · rw [hnone] at hsome
      cases hsome
    · exact happart

theorem Piece.stop_of_token? {p : Position} {x : Piece} {t : Token} (h : x.token? p = some t) :
    t.span.stop = (p.after x.text).offset := by
  cases x with
  | lexeme l =>
    obtain rfl : l.tokenAt p = t := Option.some.inj h
    rfl
  | _ => cases h

/-- Told by the spans of the tokens, the characters to replace are those outside lexemes. -/
theorem blankOutside_flatMap {tokens : List Token} {ps : List Piece}
    (hps : ∀ x ∈ ps, x.WellFormed) {p : Position} (hall : ∀ t ∈ tokensAt p ps, t ∈ tokens)
    (hapart : ∀ t ∈ tokens, t ∈ tokensAt p ps ∨ t.span.stop ≤ p.offset ∨
      (p.after (ps.flatMap Piece.text)).offset ≤ t.span.start) :
    blankOutside tokens p.offset (ps.flatMap Piece.text) =
      (ps.flatMap Piece.blankedOut).flatMap Piece.text := by
  induction ps generalizing p with
  | nil => rfl
  | cons x xs ih =>
    obtain ⟨hx, hxs⟩ := List.forall_mem_cons.mp hps
    have hmem : ∀ t, t ∈ tokensAt p (x :: xs) ↔
        x.token? p = some t ∨ t ∈ tokensAt (p.after x.text) xs := by
      intro t
      rw [tokensAt, gather, List.mem_append, Option.mem_toList]
      rfl
    simp only [hmem] at hall hapart
    rw [List.flatMap_cons, Position.after_append] at hapart
    have hpiece : ∀ t ∈ tokens, x.token? p = some t ∨ t.span.stop ≤ p.offset ∨
        (p.after x.text).offset ≤ t.span.start := by
      intro t ht
      rcases hapart t ht with (hsome | hlater) | hstop | hstart
      · exact Or.inl hsome
      · exact Or.inr (Or.inr (le_start_of_mem_tokensAt hlater))
      · exact Or.inr (Or.inl hstop)
      · exact Or.inr (Or.inr ((Position.le_after _ _).trans hstart))
    have hrest : ∀ t ∈ tokens, t ∈ tokensAt (p.after x.text) xs ∨
        t.span.stop ≤ (p.after x.text).offset ∨
        ((p.after x.text).after (xs.flatMap Piece.text)).offset ≤ t.span.start := by
      intro t ht
      rcases hapart t ht with (hsome | hlater) | hstop | hstart
      · exact Or.inr (Or.inl (Piece.stop_of_token? hsome).le)
      · exact Or.inl hlater
      · exact Or.inr (Or.inl (hstop.trans (p.le_after x.text)))
      · exact Or.inr (Or.inr hstart)
    rw [List.flatMap_cons, List.flatMap_cons, List.flatMap_append, blankOutside_append,
      blankOutside_piece hx (fun t ht => hall t (Or.inl ht)) hpiece,
      ih hxs (fun t ht => hall t (Or.inr ht)) hrest]

theorem pieces_blankUnknowns (policy : Policy) (source : String) :
    pieces (blankUnknowns policy source).toList =
      (pieces source.toList).flatMap Piece.blankedOut := by
  have hlegible := legible_pieces source.toList
  have htext := flatMap_text_pieces source.toList
  have hall : ∀ t ∈ tokensAt .start (pieces source.toList), t ∈ (scan policy source).1 := by
    intro t ht
    rw [tokens_scan]
    exact List.mem_append_left _ ht
  have hapart : ∀ t ∈ (scan policy source).1, t ∈ tokensAt .start (pieces source.toList) ∨
      t.span.stop ≤ Position.start.offset ∨
      (Position.start.after ((pieces source.toList).flatMap Piece.text)).offset ≤
        t.span.start := by
    intro t ht
    rw [tokens_scan, List.mem_append, List.mem_singleton] at ht
    rcases ht with ht | rfl
    · exact Or.inl ht
    · rw [htext]
      exact Or.inr (Or.inr (Nat.le_refl _))
  have hblank := blankOutside_flatMap hlegible.wellFormed hall hapart
  rw [htext] at hblank
  rw [blankUnknowns, String.toList_ofList]
  exact pieces_eq_iff.mpr ⟨hlegible.blankedOut, hblank.symm⟩

/-- Blanks in place of the characters that begin nothing, except inside tokens, leave every
token as it is and where it is. What is then reported is what is reported without them
when such characters are passed over: an open string at most. -/
theorem scan_blankUnknowns (policy : Policy) (source : String) :
    (scan .report (blankUnknowns policy source)).1 = (scan policy source).1 ∧
      (scan .report (blankUnknowns policy source)).2.toList = (scan .skip source).2.toList ∧
      ((scan .skip source).2.toList = [] ∨
        ∃ line, (scan .skip source).2.toList = [⟨.unterminatedString, line⟩]) := by
  have hlegible := legible_pieces source.toList
  have hwell := hlegible.wellFormed
  have hpieces := pieces_blankUnknowns policy source
  have hblanking := Blanking.of_pieces hwell
  rw [← hpieces, flatMap_text_pieces, flatMap_text_pieces] at hblanking
  refine ⟨?_, ?_, ?_⟩
  · rw [tokens_scan, tokens_scan, hpieces, tokensAt_blankedOut hwell, hblanking.after_eq]
  · rw [toList_scan, toList_scan, hpieces, diagnosticsAt_blankedOut hwell]
  · rw [toList_scan]
    exact (diagnosticsAt_skip_cases hlegible .start).imp_right fun h => ⟨_, h⟩

/-- In a string and in a word behind a character of two bytes nothing moves. -/
example : (blankUnknowns .report "é\"é\"//@\n#x").toList = "  \"é\"// \n x".toList := by
  decide +kernel

end LoxTokens
