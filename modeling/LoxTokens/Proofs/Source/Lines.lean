import LoxTokens.Proofs.Cursor.Safety
import LoxTokens.Proofs.Source.Cut

/-!
# Lines of tokens

The line goes up in two places only: at a newline that stands by itself, and at the
newlines of a string. A comment leaves the newline that ends it to be read by itself,
and no other piece holds one. `Piece.newlines` counts in this way, piece by piece.

`lineCount_scanInto` says that the count comes out right between any two pieces, and
that every token has the line on which it begins, also one behind a string of several
lines.
-/

namespace LoxTokens

universe u

variable {σ : Type u}

/-- The newlines that are counted while a piece is read. -/
def Piece.newlines : Piece → Nat
  | blank c => if c = '\n' then 1 else 0
  | lexeme (.string content) => content.count '\n'
  | openString body => body.count '\n'
  | comment _ | unknown _ | lexeme _ => 0

theorem Piece.count_newline_text {x : Piece} (hx : x.WellFormed) :
    x.text.count '\n' = x.newlines := by
  cases hx with
  | blank => simp [text, newlines, List.count_singleton]
  | comment hbody => simp [text, newlines, List.count_eq_zero.mpr hbody]
  | openString => simp [text, newlines]
  | unknown hc =>
    have hn : ∀ c, beginsNothing c = true → c ≠ '\n' := by
      rintro c hc rfl
      exact absurd hc (by decide)
    simp [text, newlines, hn _ hc]
  | lexeme hl =>
    cases hl with
    | string => simp [text, newlines, Lexeme.text, List.count_append]
    | symbol s => exact Lexeme.count_newline_text (.symbol s) (fun _ => Lexeme.noConfusion)
    | number hd hds hfraction =>
      exact Lexeme.count_newline_text (.number hd hds hfraction) (fun _ => Lexeme.noConfusion)
    | word hc hcs => exact Lexeme.count_newline_text (.word hc hcs) (fun _ => Lexeme.noConfusion)

namespace Progress

variable {policy : Policy} {report : σ → Diagnostic → σ}

/-- One more piece moves the line by the newlines counted while it is read. -/
theorem line_step {x : Piece} (hx : x.WellFormed) (s : Progress σ) :
    (s.step policy report x).position.line = s.position.line + x.newlines := by
  rw [← Piece.count_newline_text hx]
  exact Position.after_line s.position x.text

theorem line_foldl {ps : List Piece} (hps : ∀ x ∈ ps, x.WellFormed) (s : Progress σ) :
    (ps.foldl (step policy report) s).position.line =
      s.position.line + (ps.map Piece.newlines).sum := by
  induction ps generalizing s with
  | nil => rfl
  | cons x xs ih =>
    obtain ⟨hx, hxs⟩ := List.forall_mem_cons.mp hps
    rw [List.foldl_cons, ih hxs, line_step hx, List.map_cons, List.sum_cons, Nat.add_assoc]

end Progress

theorem line_le_of_mem {p : Position} {ps : List Piece} {t : Token}
    (ht : t ∈ tokensAt p ps ++ [.endAt (p.after (ps.flatMap Piece.text))]) :
    p.line ≤ t.line := by
  rcases List.mem_append.mp ht with ht | ht
  · obtain ⟨xs, l, ys, -, rfl⟩ := exists_lexeme_of_mem ht
    exact (Nat.le_add_right _ _).trans_eq (p.after_line _).symm
  · rw [List.mem_singleton.mp ht]
    exact (Nat.le_add_right _ _).trans_eq (p.after_line _).symm

/-- Whatever stands behind a token has a line that counts the newlines inside it. -/
theorem pairwise_line (p : Position) (ps : List Piece) :
    (tokensAt p ps ++ [Token.endAt (p.after (ps.flatMap Piece.text))]).Pairwise
      fun t u => t.line + t.lexeme.toList.count '\n' ≤ u.line := by
  induction ps generalizing p with
  | nil => exact List.pairwise_singleton _ _
  | cons x xs ih =>
    have hrest := ih (p.after x.text)
    rw [List.flatMap_cons, Position.after_append]
    cases x with
    | lexeme l =>
      refine List.pairwise_cons.mpr ⟨fun u hu => ?_, hrest⟩
      have hle := line_le_of_mem hu
      rw [Position.after_line] at hle
      rwa [Lexeme.tokenAt, String.toList_ofList]
    | _ => exact hrest

/-- The lines of a scan are right. Every token, the end included, stands at a place of
the source and has the line of that place. Behind a string of several lines they go on
from the last of these. Between any two pieces the scan has counted the lines in front, and
so has the machine whenever it is at the head of its loop. -/
structure LineCount (policy : Policy) (report : σ → Diagnostic → σ) (sink : σ)
    (source : String) : Prop where
  token : ∀ t ∈ (scanInto policy report sink source).1,
    Position.LiesIn ⟨t.span.start, t.line⟩ source
  last : ∃ front t, (scanInto policy report sink source).1 = front ++ [t] ∧
    t.span.start = source.utf8ByteSize ∧ t.line = 1 + source.toList.count '\n'
  later : (scanInto policy report sink source).1.Pairwise
    fun t u => t.line + t.lexeme.toList.count '\n' ≤ u.line
  position : ∀ read unread, pieces source.toList = read ++ unread →
    (read.foldl (Progress.step policy report) (.start sink)).position.LiesIn source
  counted : ∀ read unread, pieces source.toList = read ++ unread →
    (read.foldl (Progress.step policy report) (.start sink)).position.line =
      1 + (read.map Piece.newlines).sum
  head : ∀ {τ : Type} (m : Machine τ) (start : τ), m.source = source →
    source.utf8ByteSize < 2 ^ m.bits → ∀ n s, m.run n (.initial start) = some s →
      s.task = .head → Position.LiesIn ⟨s.current, s.line⟩ source

theorem lineCount_scanInto (policy : Policy) (report : σ → Diagnostic → σ) (sink : σ)
    (source : String) : LineCount policy report sink source := by
  have htext := flatMap_text_pieces source.toList
  have hlegible := legible_pieces source.toList
  constructor
  · intro t ht
    rw [scanInto_eq] at ht
    rcases List.mem_append.mp ht with ht | ht
    · obtain ⟨xs, l, ys, hps, rfl⟩ := exists_lexeme_of_mem ht
      rw [hps, List.flatMap_append] at htext
      exact Position.liesIn_start_after htext.symm
    · rw [List.mem_singleton.mp ht]
      exact Position.liesIn_start_after (List.append_nil source.toList).symm
  · rw [scanInto_eq]
    refine ⟨_, _, rfl, ?_, ?_⟩
    · rw [Position.start_after_toList]
      exact Nat.zero_add _
    · exact Position.after_line .start source.toList
  · have hpairwise := pairwise_line .start (pieces source.toList)
    rw [htext] at hpairwise
    rw [scanInto_eq]
    exact hpairwise
  · intro read unread hps
    rw [foldl_step]
    rw [hps, List.flatMap_append] at htext
    exact Position.liesIn_start_after htext.symm
  · intro read unread hps
    rw [hps] at hlegible
    exact Progress.line_foldl hlegible.of_append_left.wellFormed (.start sink)
  · rintro τ m start rfl hsize n s hrun hhead
    have hinitial : m.Between (.initial start) [] m.source.toList := ⟨rfl, rfl⟩
    obtain ⟨read, unread, hps, hprogress⟩ :=
      Machine.exists_read hsize (.initial m start) rfl hinitial hrun hhead
    rw [hps, List.flatMap_append] at htext
    have hplace : s.place = Position.after .start (read.flatMap Piece.text) := by
      have hposition := congrArg Progress.position hprogress
      rwa [foldl_step] at hposition
    rw [Cursor.place] at hplace
    rw [hplace]
    exact Position.liesIn_start_after htext.symm

end LoxTokens
