import LoxTokens.Proofs.Source.Boundary

/-!
# Lists of pieces that read back as themselves

Any characters can be called pieces of a source. A list of pieces is what the source
they make up is really read as when each of them is well-formed and ends before the
others that follow it.

`pieces_eq_iff` says that this determines the pieces of a source. What is said about
sources that are cut, joined or changed rests on it, and opens no reader again.
-/

namespace LoxTokens

/-- Every piece of the list has the characters of its kind and ends before the others
that follow it. -/
inductive Legible : List Piece → Prop
  | nil : Legible []
  | cons {p : Piece} {ps : List Piece} (hp : p.WellFormed)
      (hends : p.EndsBefore (ps.flatMap Piece.text)) (hps : Legible ps) : Legible (p :: ps)

namespace Legible

theorem of_append_left {ps qs : List Piece} (h : Legible (ps ++ qs)) : Legible ps := by
  induction ps with
  | nil => exact nil
  | cons p ps ih =>
    rw [List.cons_append] at h
    cases h with
    | cons hp hends hps =>
      rw [List.flatMap_append] at hends
      exact cons hp hends.of_append (ih hps)

theorem of_append_right {ps qs : List Piece} (h : Legible (ps ++ qs)) : Legible qs := by
  induction ps with
  | nil => exact h
  | cons p ps ih =>
    rw [List.cons_append] at h
    cases h with
    | cons _ _ hps => exact ih hps

theorem wellFormed {ps : List Piece} (h : Legible ps) : ∀ x ∈ ps, x.WellFormed := by
  induction h with
  | nil => simp
  | cons hp _ _ ih => exact List.forall_mem_cons.mpr ⟨hp, ih⟩

theorem eq_nil_of_text {ps : List Piece} (h : Legible ps)
    (htext : ps.flatMap Piece.text = []) : ps = [] := by
  cases h with
  | nil => rfl
  | cons hp =>
    rw [List.flatMap_cons] at htext
    exact absurd (List.append_eq_nil_iff.mp htext).1 hp.text_ne_nil

end Legible

/-- Reading a source gives pieces that read back. -/
theorem legible_pieces (source : List Char) : Legible (pieces source) := by
  induction source using source_induction with
  | nil => simpa using Legible.nil
  | cons c cs ih =>
    rw [pieces_cons]
    refine .cons (Piece.wellFormed_first c cs) ?_ ih
    rw [flatMap_text_pieces]
    exact Piece.endsBefore_first c cs

/-- Pieces that read back are the pieces of what they make up. -/
theorem pieces_flatMap {ps : List Piece} (h : Legible ps) :
    pieces (ps.flatMap Piece.text) = ps := by
  induction h with
  | nil => simp
  | @cons p ps hp hends hps ih =>
    rw [List.flatMap_cons]
    cases hcs : p.text ++ ps.flatMap Piece.text with
    | nil => exact absurd (List.append_eq_nil_iff.mp hcs).1 hp.text_ne_nil
    | cons c cs =>
      rw [pieces_cons, Piece.first_of_endsBefore hp hends hcs, ih]

/-- The pieces of a source are the one legible list of pieces that make it up. -/
theorem pieces_eq_iff {source : List Char} {ps : List Piece} :
    pieces source = ps ↔ Legible ps ∧ ps.flatMap Piece.text = source := by
  constructor
  · rintro rfl
    exact ⟨legible_pieces source, flatMap_text_pieces source⟩
  · rintro ⟨hps, rfl⟩
    exact pieces_flatMap hps

/-- A lexeme that ends where it stands is the first piece, and what follows is read by
itself. -/
theorem pieces_lexeme {l : Lexeme} (hl : l.WellFormed) {rest : List Char}
    (hends : l.EndsBefore rest) : pieces (l.text ++ rest) = .lexeme l :: pieces rest := by
  refine pieces_eq_iff.mpr ⟨.cons (.lexeme hl) ?_ (legible_pieces rest), ?_⟩
  · rwa [flatMap_text_pieces]
  · rw [List.flatMap_cons, flatMap_text_pieces]
    rfl

end LoxTokens
