import LoxTokens.Proofs.Source.Legible
import LoxTokens.Proofs.Source.Outline

/-!
# Cutting a source behind a token

A piece in front of a cut cannot tell what was behind it, because it ends before less
as well, and a piece behind the cut never knew what stood in front. So a source that is
cut behind one of its tokens falls into two sources whose scans are the two parts of
its own, the second moved to its place.
-/

namespace LoxTokens

variable {α : Type}

/-- What is found at an index was yielded by one piece, and all before it by the pieces
in front of that one. -/
theorem exists_piece_of_getElem? {f : Position → Piece → Option α} {p : Position}
    {ps : List Piece} {i : Nat} {a : α} (h : (gather f p ps)[i]? = some a) :
    ∃ xs x ys, ps = xs ++ x :: ys ∧ (gather f p xs).length = i ∧
      f (p.after (xs.flatMap Piece.text)) x = some a := by
  induction ps generalizing p i with
  | nil => simp [gather] at h
  | cons y ys ih =>
    rw [gather] at h
    cases hy : f p y with
    | none =>
      rw [hy, Option.toList_none, List.nil_append] at h
      obtain ⟨xs, x, zs, rfl, hlen, hx⟩ := ih h
      refine ⟨y :: xs, x, zs, rfl, ?_, ?_⟩
      · rw [gather, hy, Option.toList_none, List.nil_append, hlen]
      · rwa [List.flatMap_cons, Position.after_append]
    | some b =>
      rw [hy, Option.toList_some, List.singleton_append] at h
      cases i with
      | zero =>
        rw [List.getElem?_cons_zero, Option.some.injEq] at h
        subst h
        exact ⟨[], y, ys, rfl, rfl, hy⟩
      | succ i =>
        rw [List.getElem?_cons_succ] at h
        obtain ⟨xs, x, zs, rfl, hlen, hx⟩ := ih h
        refine ⟨y :: xs, x, zs, rfl, ?_, ?_⟩
        · rw [gather, hy, Option.toList_some, List.singleton_append, List.length_cons, hlen]
        · rwa [List.flatMap_cons, Position.after_append]

theorem exists_piece_of_mem {f : Position → Piece → Option α} {p : Position} {ps : List Piece}
    {a : α} (h : a ∈ gather f p ps) :
    ∃ xs x ys, ps = xs ++ x :: ys ∧ f (p.after (xs.flatMap Piece.text)) x = some a := by
  obtain ⟨i, hi⟩ := List.mem_iff_getElem?.mp h
  obtain ⟨xs, x, ys, hps, -, hx⟩ := exists_piece_of_getElem? hi
  exact ⟨xs, x, ys, hps, hx⟩

/-- A word makes an identifier or a keyword. -/
theorem Lexeme.kind_word (letters : List Char) : (word letters).kind = .identifier ∨
    ∃ k, (word letters).kind = .keyword k := by
  rw [kind, Kind.ofWord]
  split
  next k _ => exact Or.inr ⟨k, rfl⟩
  next => exact Or.inl rfl

theorem Lexeme.kind_ne_endOfSource (l : Lexeme) : l.kind ≠ .endOfSource := by
  cases l with
  | word letters =>
    rcases Lexeme.kind_word letters with h | ⟨k, h⟩
    · simp [h]
    · simp [h]
  | _ => simp [Lexeme.kind]

/-- A token comes from a lexeme, and stands where the text in front of that one ends. -/
theorem exists_lexeme_of_mem {p : Position} {ps : List Piece} {t : Token}
    (ht : t ∈ tokensAt p ps) : ∃ xs l ys, ps = xs ++ .lexeme l :: ys ∧
      t = l.tokenAt (p.after (xs.flatMap Piece.text)) := by
  obtain ⟨xs, x, ys, hps, hx⟩ := exists_piece_of_mem ht
  cases x with
  | lexeme l => exact ⟨xs, l, ys, hps, (Option.some.inj hx).symm⟩
  | _ => cases hx

/-- A token of a scan that is not its end comes from a lexeme of the source. -/
theorem exists_lexeme_of_token {policy : Policy} {source : String} {i : Nat} {t : Token}
    (ht : (scan policy source).1[i]? = some t) (hend : t.kind ≠ .endOfSource) :
    ∃ xs l ys, pieces source.toList = xs ++ .lexeme l :: ys ∧
      (tokensAt .start xs).length = i ∧
      t = l.tokenAt (Position.start.after (xs.flatMap Piece.text)) := by
  rw [tokens_scan] at ht
  rcases Nat.lt_or_ge i (tokensAt .start (pieces source.toList)).length with hi | hi
  · rw [List.getElem?_append_left hi] at ht
    obtain ⟨xs, x, ys, hps, hlen, hx⟩ := exists_piece_of_getElem? ht
    cases x with
    | lexeme l => exact ⟨xs, l, ys, hps, hlen, (Option.some.inj hx).symm⟩
    | _ => cases hx
  · rw [List.getElem?_append_right hi] at ht
    have hlast : t = Token.endAt (Position.start.after source.toList) := by
      simpa using (List.mem_of_getElem? ht)
    exact absurd (congrArg Token.kind hlast) hend

/-- The pieces of a source fall into those up to a token of its scan, the token included,
and those behind it. -/
theorem exists_pieces_behind_token {policy : Policy} {source : String} {i : Nat} {t : Token}
    (ht : (scan policy source).1[i]? = some t) (hend : t.kind ≠ .endOfSource) :
    ∃ ps qs, pieces source.toList = ps ++ qs ∧ (tokensAt .start ps).length = i + 1 ∧
      (String.ofList (ps.flatMap Piece.text)).utf8ByteSize = t.span.stop := by
  obtain ⟨xs, l, ys, hps, hlen, rfl⟩ := exists_lexeme_of_token ht hend
  refine ⟨xs ++ [.lexeme l], ys, ?_, ?_, ?_⟩
  · rw [hps, List.append_assoc, List.singleton_append]
  · rw [tokensAt_append, List.length_append, hlen]
    rfl
  · have hoffset := Position.after_offset .start ((xs ++ [Piece.lexeme l]).flatMap Piece.text)
    rw [List.flatMap_append, Position.after_append] at hoffset
    simpa [Lexeme.tokenAt, Position.start, Piece.text] using hoffset.symm

/-- The source falls into `front` and `back` behind the token `t`, which its scan has at
index `i`. The part in front makes the tokens up to this one and a mark that ends it
there. The part behind makes the others and the end, and the diagnostics fall to the
two parts in order. -/
structure CutBehind (policy : Policy) (source : String) (i : Nat) (t : Token)
    (front back : String) : Prop where
  source_eq : source = front ++ back
  size_front : front.utf8ByteSize = t.span.stop
  tokens_front : (scan policy front).1 = (scan policy source).1.take (i + 1) ++
    [⟨.endOfSource, "", none, 1 + front.toList.count '\n', ⟨t.span.stop, t.span.stop⟩⟩]
  tokens_back : (scan policy back).1.map
      (Token.shift t.span.stop (front.toList.count '\n')) = (scan policy source).1.drop (i + 1)
  diagnostics : (scan policy source).2.toList = (scan policy front).2.toList ++
    (scan policy back).2.toList.map (Diagnostic.shift (front.toList.count '\n'))

/-- A source can be cut behind any token of its scan that is not its end. -/
theorem scan_cut_behind_token (policy : Policy) (source : String) (i : Nat) (t : Token)
    (ht : (scan policy source).1[i]? = some t) (hend : t.kind ≠ .endOfSource) :
    ∃ front back, CutBehind policy source i t front back := by
  obtain ⟨ps, qs, hpieces, hcount, hstop⟩ := exists_pieces_behind_token ht hend
  have hlegible : Legible (ps ++ qs) := hpieces ▸ legible_pieces source.toList
  let front := String.ofList (ps.flatMap Piece.text)
  let back := String.ofList (qs.flatMap Piece.text)
  have hfront : pieces front.toList = ps := by
    rw [String.toList_ofList, pieces_flatMap hlegible.of_append_left]
  have hback : pieces back.toList = qs := by
    rw [String.toList_ofList, pieces_flatMap hlegible.of_append_right]
  have hsource : source = front ++ back := by
    have hflat := flatMap_text_pieces source.toList
    rw [hpieces, List.flatMap_append] at hflat
    rw [← String.ofList_append, hflat, String.ofList_toList]
  have htokens : (scan policy front).1 = tokensAt .start ps ++
      [.endAt (Position.start.after front.toList)] := by
    rw [tokens_scan, hfront]
  obtain ⟨hscan, hdiagnostics⟩ := scan_append policy (a := front) (b := back) (by
    rw [← hsource, hpieces, hfront, hback])
  rw [← hsource] at hscan hdiagnostics
  rw [htokens, List.dropLast_concat] at hscan
  have hstop' : front.utf8ByteSize = t.span.stop := hstop
  refine ⟨front, back, hsource, hstop', ?_, ?_, hdiagnostics⟩
  · rw [htokens, hscan, List.take_left' hcount, Position.start_after_toList, ← hstop',
      Token.endAt, Position.shift, Position.start, Nat.zero_add]
  · rw [hscan, List.drop_left' hcount, hstop']

/-- The number behind a string of two lines, with a comment and more behind it. -/
theorem scan_cut_behind_number :
    (scan .report "\"é\n\"1.5//@\n.2@").1[1]? =
        some ((Lexeme.number ['1'] ['5']).tokenAt ⟨5, 2⟩) ∧
      ∃ front back, CutBehind .report "\"é\n\"1.5//@\n.2@" 1
        ((Lexeme.number ['1'] ['5']).tokenAt ⟨5, 2⟩) front back := by
  have hpieces : pieces "\"é\n\"1.5//@\n.2@".toList =
      [.lexeme (.string ['é', '\n']), .lexeme (.number ['1'] ['5']), .comment ['@'],
        .blank '\n', .lexeme (.symbol .dot), .lexeme (.number ['2'] []), .unknown '@'] := by
    decide +kernel
  have ht : (scan .report "\"é\n\"1.5//@\n.2@").1[1]? =
      some ((Lexeme.number ['1'] ['5']).tokenAt ⟨5, 2⟩) := by
    rw [tokens_scan, hpieces]
    rfl
  exact ⟨ht, scan_cut_behind_token .report _ 1 _ ht (by decide)⟩

end LoxTokens
