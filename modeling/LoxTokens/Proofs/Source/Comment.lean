import LoxTokens.Proofs.Source.Cut
import LoxTokens.Proofs.Source.Newline

/-!
# The text of a comment

Two slashes behind a source that leaves no string open begin a comment, wherever that
source stops: a number, a word or an operator ends there, and only a slash at its very
end or a comment that is still open is drawn in, so that the comment begins earlier.
In either case the text behind the slashes is all comment, up to the newline.

`scan_comment_text` says that this text has no influence. Two scans that differ in it
have the same tokens and diagnostics; what moves is the place of the tokens behind it.
-/

namespace LoxTokens

/-- Where a lexeme ends, it also ends when two slashes are put there, unless it is a slash
with nothing behind it. -/
theorem Lexeme.EndsBefore.append_slashes {l : Lexeme} {xs : List Char} (h : l.EndsBefore xs)
    (hslash : xs = [] → l ≠ .symbol .slash) (cs : List Char) :
    l.EndsBefore (xs ++ '/' :: '/' :: cs) := by
  have hdigit : Char.isDigit '/' = false := by decide
  have hletter : Char.isAlphanum '/' = false := by decide
  cases xs with
  | nil =>
    cases l with
    | symbol s => exact ⟨fun _ => by simp, fun hs => absurd (congrArg _ hs) (hslash rfl)⟩
    | string => trivial
    | number => exact ⟨RunEnds.cons_iff.mpr hdigit, fun _ d ds hd => by simp at hd⟩
    | word => exact RunEnds.cons_iff.mpr hletter
  | cons x xs =>
    cases l with
    | symbol => exact h
    | string => trivial
    | word => exact RunEnds.cons_iff.mpr (RunEnds.cons_iff.mp h)
    | number whole fraction =>
      refine ⟨RunEnds.cons_iff.mpr (RunEnds.cons_iff.mp h.1), fun hnil d ds hd => ?_⟩
      obtain ⟨hpoint, hd⟩ := List.cons.inj hd
      cases xs with
      | nil =>
        obtain ⟨rfl, -⟩ := List.cons.inj hd
        exact hdigit
      | cons y ys =>
        obtain ⟨rfl, -⟩ := List.cons.inj hd
        exact h.2 hnil y ys (by rw [hpoint])

theorem Piece.EndsBefore.append_slashes {x : Piece} {xs : List Char} (h : x.EndsBefore xs)
    (hopen : ∀ body, x ≠ .openString body)
    (hlast : xs = [] → (∀ body, x ≠ .comment body) ∧ x ≠ .lexeme (.symbol .slash))
    (cs : List Char) : x.EndsBefore (xs ++ '/' :: '/' :: cs) := by
  cases x with
  | blank => trivial
  | unknown => trivial
  | openString body => exact absurd rfl (hopen body)
  | lexeme l =>
    exact Lexeme.EndsBefore.append_slashes h
      (fun hnil hl => (hlast hnil).2 (congrArg Piece.lexeme hl)) cs
  | comment body =>
    cases xs with
    | nil => exact absurd rfl ((hlast rfl).1 body)
    | cons y ys => exact fun d hd => h d hd

/-- Behind pieces that leave no string open two slashes begin a comment. It may draw in the
last piece, and it takes whatever text follows up to a newline. -/
theorem Legible.exists_comment {qs : List Piece} (h : Legible qs)
    (hopen : ∀ body, .openString body ∉ qs) :
    ∃ ps opening, ps.flatMap Piece.text ++ '/' :: '/' :: opening =
        qs.flatMap Piece.text ++ ['/', '/'] ∧
      (∀ body, .openString body ∉ ps) ∧
      ∀ cs, '\n' ∉ cs → Legible (ps ++ [.comment (opening ++ cs)]) := by
  have hcomment : ∀ body, '\n' ∉ body → Legible [.comment body] :=
    fun body hbody => .cons (.comment hbody) (RunEnds.nil _) .nil
  induction h with
  | nil => exact ⟨[], [], rfl, by simp, hcomment⟩
  | @cons x xs hx hends hxs ih =>
    by_cases hdrawn : xs = [] ∧ ((∃ body, x = .comment body) ∨ x = .lexeme (.symbol .slash))
    · obtain ⟨rfl, ⟨body, rfl⟩ | rfl⟩ := hdrawn
      · cases hx with
        | comment hbody =>
          refine ⟨[], body ++ ['/', '/'], by simp [Piece.text], by simp, fun cs hcs => ?_⟩
          exact hcomment _ (by simp [hbody, hcs])
      · refine ⟨[], ['/'], rfl, by simp, fun cs hcs => ?_⟩
        exact hcomment _ (by simp [hcs])
    · have hx' : ∀ body, x ≠ .openString body :=
        fun body hb => hopen body (hb ▸ List.mem_cons_self)
      obtain ⟨ps, opening, htext, hps, hlegible⟩ :=
        ih fun body hm => hopen body (List.mem_cons_of_mem x hm)
      refine ⟨x :: ps, opening, ?_, fun body hm => ?_, fun cs hcs => ?_⟩
      · rw [List.flatMap_cons, List.flatMap_cons, List.append_assoc, htext, List.append_assoc]
      · rcases List.mem_cons.mp hm with hm | hm
        · exact hx' body hm.symm
        · exact hps body hm
      · have hlast : xs.flatMap Piece.text = [] →
            (∀ body, x ≠ .comment body) ∧ x ≠ .lexeme (.symbol .slash) := by
          intro hnil
          have hxs' := hxs.eq_nil_of_text hnil
          exact ⟨fun body hb => hdrawn ⟨hxs', Or.inl ⟨body, hb⟩⟩,
            fun hs => hdrawn ⟨hxs', Or.inr hs⟩⟩
        have hrest : (ps ++ [Piece.comment (opening ++ cs)]).flatMap Piece.text =
            xs.flatMap Piece.text ++ '/' :: '/' :: cs := by
          have happend := congrArg (· ++ cs) htext
          simpa [Piece.text] using happend
        rw [List.cons_append]
        refine .cons hx ?_ (hlegible cs hcs)
        rw [hrest]
        exact hends.append_slashes hx' hlast cs

/-- A token begins in front of the place where the pieces it comes from end. -/
theorem start_lt_of_mem_tokensAt {ps : List Piece} (hps : ∀ x ∈ ps, x.WellFormed)
    {p : Position} {t : Token} (ht : t ∈ tokensAt p ps) :
    t.span.start < (p.after (ps.flatMap Piece.text)).offset := by
  obtain ⟨xs, l, ys, rfl, rfl⟩ := exists_lexeme_of_mem ht
  have hl := (hps (.lexeme l) (by simp)).text_ne_nil
  rw [List.flatMap_append, List.flatMap_cons, Position.after_append]
  exact Position.lt_after (List.append_ne_nil_of_left_ne_nil hl _) _

/-- What a scan makes of a source with a comment behind it does not depend on the text of
the comment, and begins within the source. -/
theorem scan_open_comment (policy : Policy) {a : String}
    (hopen : ∀ body, .openString body ∉ pieces a.toList) :
    ∃ front diagnostics, (∀ t ∈ front, t.span.start < a.utf8ByteSize) ∧
      ∀ c : String, '\n' ∉ c.toList →
        (∀ body, .openString body ∉ pieces (a ++ "//" ++ c).toList) ∧
        (scan policy (a ++ "//" ++ c)).1.dropLast = front ∧
        (scan policy (a ++ "//" ++ c)).2.toList = diagnostics := by
  obtain ⟨ps, opening, htext, hps, hlegible⟩ := (legible_pieces a.toList).exists_comment hopen
  rw [flatMap_text_pieces] at htext
  refine ⟨tokensAt .start ps, diagnosticsAt policy .start ps, fun t ht => ?_, fun c hc => ?_⟩
  · have hwell := (hlegible [] (by simp)).of_append_left.wellFormed
    have hlt := start_lt_of_mem_tokensAt hwell ht
    have hsize := congrArg (fun xs => (String.ofList xs).utf8ByteSize) htext
    simp only [String.ofList_append, String.ofList_cons, String.utf8ByteSize_append,
      String.utf8ByteSize_singleton, String.ofList_toList, String.ofList_nil,
      String.utf8ByteSize_empty] at hsize
    rw [Position.after_offset, Position.start, Nat.zero_add] at hlt
    omega
  · have hpieces : pieces (a ++ "//" ++ c).toList = ps ++ [.comment (opening ++ c.toList)] := by
      refine pieces_eq_iff.mpr ⟨hlegible c.toList hc, ?_⟩
      have happend := congrArg (· ++ c.toList) htext
      simpa [Piece.text, String.toList_append] using happend
    refine ⟨fun body hm => ?_, ?_, ?_⟩
    · rw [hpieces, List.mem_append, List.mem_singleton] at hm
      rcases hm with hm | hm
      · exact hps body hm
      · cases hm
    · rw [tokens_scan, List.dropLast_concat, hpieces, tokensAt_append]
      exact List.append_nil _
    · rw [toList_scan, hpieces, diagnosticsAt_append]
      exact List.append_nil _

/-- The tokens agree in everything but their place. In front of `place` that is the same as
well; from there on both ends are as far apart as `bytes` and `bytes'`. -/
structure Token.MovesBehind (place bytes bytes' : Nat) (t t' : Token) : Prop where
  kind_eq : t'.kind = t.kind
  lexeme_eq : t'.lexeme = t.lexeme
  literal_eq : t'.literal = t.literal
  line_eq : t'.line = t.line
  in_front : t'.span.start < place ↔ t.span.start < place
  span_eq : t.span.start < place → t'.span = t.span
  start_add : place ≤ t.span.start → t'.span.start + bytes = t.span.start + bytes'
  stop_add : place ≤ t.span.start → t'.span.stop + bytes = t.span.stop + bytes'

namespace Token.MovesBehind

variable {place bytes bytes' : Nat} {t : Token}

theorem refl (h : t.span.start < place) : MovesBehind place bytes bytes' t t := by
  refine ⟨rfl, rfl, rfl, rfl, Iff.rfl, fun _ => rfl, fun hle => ?_, fun hle => ?_⟩
  · exact absurd h (Nat.not_lt.mpr hle)
  · exact absurd h (Nat.not_lt.mpr hle)

theorem shift (gap lines : Nat) : MovesBehind place bytes bytes'
    (t.shift (place + (gap + bytes)) lines) (t.shift (place + (gap + bytes')) lines) := by
  refine ⟨rfl, rfl, rfl, rfl, ?_, fun h => ?_, fun _ => ?_, fun _ => ?_⟩ <;>
    simp only [Token.shift] at * <;> omega

end Token.MovesBehind

theorem utf8ByteSize_append_comment (a c : String) :
    (a ++ "//" ++ c).utf8ByteSize + 1 = a.utf8ByteSize + (3 + c.utf8ByteSize) := by
  have hslashes : "//".utf8ByteSize = 2 := rfl
  rw [String.utf8ByteSize_append, String.utf8ByteSize_append, hslashes]
  omega

theorem count_newline_append_comment (a : String) {c : String} (hc : '\n' ∉ c.toList) :
    (a ++ "//" ++ c).toList.count '\n' = a.toList.count '\n' := by
  rw [String.toList_append, String.toList_append, List.count_append, List.count_append,
    List.count_eq_zero.mpr hc]
  rfl

/-- Two texts for one comment make no difference to the diagnostics of a scan, nor to its
tokens but for the place of those behind the comment, which is told by the number of bytes
in the text. -/
theorem scan_comment_text (policy : Policy) (a b c c' : String)
    (h : ∀ d ∈ (scan policy a).2.toList, d.fault ≠ .unterminatedString)
    (hc : '\n' ∉ c.toList) (hc' : '\n' ∉ c'.toList) :
    List.Forall₂ (Token.MovesBehind a.utf8ByteSize c.utf8ByteSize c'.utf8ByteSize)
        (scan policy (a ++ "//" ++ c ++ "\n" ++ b)).1
        (scan policy (a ++ "//" ++ c' ++ "\n" ++ b)).1 ∧
      (scan policy (a ++ "//" ++ c' ++ "\n" ++ b)).2.toList =
        (scan policy (a ++ "//" ++ c ++ "\n" ++ b)).2.toList := by
  obtain ⟨front, diagnostics, hfront, hcomment⟩ :=
    scan_open_comment policy (openString_not_mem_pieces h)
  obtain ⟨hopen, htokens, hreports⟩ := hcomment c hc
  obtain ⟨hopen', htokens', hreports'⟩ := hcomment c' hc'
  obtain ⟨hscan, hdiagnostics⟩ := scan_append_newline policy hopen b
  obtain ⟨hscan', hdiagnostics'⟩ := scan_append_newline policy hopen' b
  rw [htokens, utf8ByteSize_append_comment, count_newline_append_comment a hc] at hscan
  rw [htokens', utf8ByteSize_append_comment, count_newline_append_comment a hc'] at hscan'
  rw [hreports, count_newline_append_comment a hc] at hdiagnostics
  rw [hreports', count_newline_append_comment a hc'] at hdiagnostics'
  refine ⟨?_, hdiagnostics'.trans hdiagnostics.symm⟩
  rw [hscan, hscan']
  refine List.rel_append (List.forall₂_same.mpr fun t ht => .refl (hfront t ht)) ?_
  rw [List.forall₂_map_left_iff, List.forall₂_map_right_iff, List.forall₂_same]
  exact fun t _ => .shift 3 _

/-- A comment that draws in the slash in front of it, with a quote and with unknown
characters for its text. -/
theorem scan_comment_behind_slash :
    (∀ d ∈ (scan .report "@1./").2.toList, d.fault ≠ .unterminatedString) ∧
      '\n' ∉ "\"é".toList ∧ '\n' ∉ "@ 9#".toList ∧
      List.Forall₂ (Token.MovesBehind 4 3 4)
        (scan .report ("@1./" ++ "//" ++ "\"é" ++ "\n" ++ "5 \"x")).1
        (scan .report ("@1./" ++ "//" ++ "@ 9#" ++ "\n" ++ "5 \"x")).1 ∧
      (scan .report ("@1./" ++ "//" ++ "@ 9#" ++ "\n" ++ "5 \"x")).2.toList =
        (scan .report ("@1./" ++ "//" ++ "\"é" ++ "\n" ++ "5 \"x")).2.toList := by
  have hpieces : pieces "@1./".toList =
      [.unknown '@', .lexeme (.number ['1'] []), .lexeme (.symbol .dot),
        .lexeme (.symbol .slash)] := by
    decide +kernel
  have h : ∀ d ∈ (scan .report "@1./").2.toList, d.fault ≠ .unterminatedString := by
    rw [toList_scan, hpieces]
    simp [diagnosticsAt, gather, Piece.diagnostic?]
  have hc : '\n' ∉ "\"é".toList := by decide
  have hc' : '\n' ∉ "@ 9#".toList := by decide
  exact ⟨h, hc, hc', scan_comment_text .report "@1./" "5 \"x" "\"é" "@ 9#" h hc hc'⟩

end LoxTokens
