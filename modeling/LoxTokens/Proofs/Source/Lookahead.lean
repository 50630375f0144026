import LoxTokens.Proofs.Source.Cut
import LoxTokens.Proofs.Text.Place

/-!
# How far reading looks ahead

A piece that has ended may depend on what stands behind it, but never on more than two
characters: a number looks at a point and at the character behind that, everything else
at one character or at none. An open string ends at the end of the source alone, so
nothing stands behind it.

`scan_take_of_two_behind` says what follows for a text that grows: a token with two
characters behind it stays as it is, and so does everything in front of it.
-/

namespace LoxTokens

/-- Where a piece ends with two characters behind it, it ends there whatever comes next. -/
theorem Piece.EndsBefore.append_of_two_le {x : Piece} {xs : List Char} (h : x.EndsBefore xs)
    (hlen : 2 ≤ xs.length) (more : List Char) : x.EndsBefore (xs ++ more) := by
  obtain ⟨c, d, cs, rfl⟩ : ∃ c d cs, xs = c :: d :: cs := by
    match xs, hlen with
    | c :: d :: cs, _ => exact ⟨c, d, cs, rfl⟩
  cases x with
  | blank => trivial
  | comment => exact fun e he => h e he
  | unknown => trivial
  | openString => cases h
  | lexeme l =>
    cases l with
    | symbol => exact h
    | string => trivial
    | word => exact RunEnds.cons_iff.mpr (RunEnds.cons_iff.mp h)
    | number whole fraction =>
      refine ⟨RunEnds.cons_iff.mpr (RunEnds.cons_iff.mp h.1), fun hnil e es he => ?_⟩
      obtain ⟨hpoint, he⟩ := List.cons.inj he
      obtain ⟨rfl, -⟩ := List.cons.inj he
      exact h.2 hnil d cs (by rw [hpoint])

/-- Pieces in front of two characters do not change when the text goes on. -/
theorem Legible.append_more {ps qs : List Piece} (h : Legible (ps ++ qs))
    (hlen : 2 ≤ (qs.flatMap Piece.text).length) (more : List Char) :
    Legible (ps ++ pieces (qs.flatMap Piece.text ++ more)) := by
  induction ps with
  | nil => exact legible_pieces _
  | cons p ps ih =>
    rw [List.cons_append] at h
    cases h with
    | cons hp hends hps =>
      rw [List.cons_append]
      refine .cons hp ?_ (ih hps)
      rw [List.flatMap_append] at hends ⊢
      rw [flatMap_text_pieces, ← List.append_assoc]
      exact hends.append_of_two_le (by rw [List.length_append]; omega) more

theorem pieces_append_more {xs : List Char} {ps qs : List Piece} (h : pieces xs = ps ++ qs)
    (hlen : 2 ≤ (qs.flatMap Piece.text).length) (more : List Char) :
    pieces (xs ++ more) = ps ++ pieces (qs.flatMap Piece.text ++ more) := by
  have hlegible : Legible (ps ++ qs) := h ▸ legible_pieces xs
  have hxs : xs = ps.flatMap Piece.text ++ qs.flatMap Piece.text := by
    rw [← List.flatMap_append, ← h, flatMap_text_pieces]
  refine pieces_eq_iff.mpr ⟨hlegible.append_more hlen more, ?_⟩
  rw [List.flatMap_append, flatMap_text_pieces, hxs, List.append_assoc]

/-- A token that ends where `back` begins, with two characters or more in `back`, is final:
whatever `more` is, the scan of the longer text has it at the same index, and the same
tokens in front of it. -/
theorem scan_take_of_two_behind (policy : Policy) (front back more : String) (i : Nat)
    (t : Token) (ht : (scan policy (front ++ back)).1[i]? = some t)
    (hend : t.kind ≠ .endOfSource) (hstop : t.span.stop = front.utf8ByteSize)
    (htwo : 2 ≤ back.length) :
    (scan policy (front ++ back ++ more)).1.take (i + 1) =
      (scan policy (front ++ back)).1.take (i + 1) := by
  obtain ⟨ps, qs, hpieces, hcount, hsize⟩ := exists_pieces_behind_token ht hend
  have hsplit : front ++ back =
      String.ofList (ps.flatMap Piece.text) ++ String.ofList (qs.flatMap Piece.text) := by
    rw [← String.ofList_append, ← List.flatMap_append, ← hpieces, flatMap_text_pieces,
      String.ofList_toList]
  obtain ⟨-, hback⟩ := eq_of_append_eq rfl hsplit (hstop.symm.trans hsize.symm)
  have hlen : 2 ≤ (qs.flatMap Piece.text).length := by
    rwa [hback, String.length_ofList] at htwo
  have hmore : pieces (front ++ back ++ more).toList =
      ps ++ pieces (qs.flatMap Piece.text ++ more.toList) := by
    rw [String.toList_append]
    exact pieces_append_more hpieces hlen more.toList
  rw [tokens_scan, tokens_scan, hmore, hpieces, tokensAt_append, tokensAt_append,
    List.append_assoc, List.append_assoc, List.take_left' hcount, List.take_left' hcount]

/-- A number in front of a point that no digit follows, behind a string, when the text goes
on with digits and a quote. -/
theorem scan_take_number_before_point :
    (scan .report ("\"é\"1" ++ ".+")).1[1]? =
        some ((Lexeme.number ['1'] []).tokenAt ⟨4, 1⟩) ∧
      (scan .report ("\"é\"1" ++ ".+" ++ "5\"")).1.take 2 =
        (scan .report ("\"é\"1" ++ ".+")).1.take 2 := by
  have hpieces : pieces ("\"é\"1" ++ ".+").toList =
      [.lexeme (.string ['é']), .lexeme (.number ['1'] []), .lexeme (.symbol .dot),
        .lexeme (.symbol .plus)] := by
    decide +kernel
  have ht : (scan .report ("\"é\"1" ++ ".+")).1[1]? =
      some ((Lexeme.number ['1'] []).tokenAt ⟨4, 1⟩) := by
    rw [tokens_scan, hpieces]
    rfl
  exact ⟨ht, scan_take_of_two_behind .report "\"é\"1" ".+" "5\"" 1 _ ht (by decide)
    (by decide) (by decide)⟩

/-- One character behind a token is not enough: a digit may still join the number. -/
example : pieces "1.".toList = [.lexeme (.number ['1'] []), .lexeme (.symbol .dot)] ∧
    pieces "1.5".toList = [.lexeme (.number ['1'] ['5'])] := by
  decide +kernel

end LoxTokens
