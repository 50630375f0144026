import LoxTokens.Proofs.Source.Legible
import LoxTokens.Proofs.Source.Outline

/-!
# Joining sources at a newline

A newline ends whatever stands in front of it, unless that is a string. It ends a
comment, and nothing else goes on with a blank: an operator finds no second character,
a point no digit, a word no letter. So behind a source that leaves no string open, a
newline and a second source are read as if each of the two stood alone.

`scan_join_newline` says what this makes of a scan.
-/

namespace LoxTokens

/-- Where a piece ends, it also ends in front of the same text with a line behind it. A
string that is never closed is the exception: it would go on into that line. -/
theorem Piece.EndsBefore.append_newline {x : Piece} {xs : List Char} (h : x.EndsBefore xs)
    (hopen : ∀ body, x ≠ .openString body) (ys : List Char) :
    x.EndsBefore (xs ++ '\n' :: ys) := by
  cases x with
  | blank => trivial
  | unknown => trivial
  | openString body => exact absurd rfl (hopen body)
  | lexeme l => exact Lexeme.EndsBefore.append_blank h (by decide) ys
  | comment =>
    cases xs with
    | nil => exact RunEnds.cons_iff.mpr (by decide)
    | cons c cs =>
      intro d hd
      exact h d hd

theorem Legible.append_newline {ps qs : List Piece} (hps : Legible ps)
    (hopen : ∀ body, .openString body ∉ ps) (hqs : Legible qs) :
    Legible (ps ++ .blank '\n' :: qs) := by
  induction hps with
  | nil => exact .cons (.blank (by decide)) trivial hqs
  | @cons x xs hx hends _ ih =>
    have hopen' : ∀ body, .openString body ∉ xs :=
      fun body hm => hopen body (List.mem_cons_of_mem x hm)
    rw [List.cons_append]
    refine .cons hx ?_ (ih hopen')
    rw [List.flatMap_append, List.flatMap_cons]
    exact hends.append_newline (fun body he => hopen body (he ▸ List.mem_cons_self)) _

/-- A line behind a source that leaves no string open is read apart from it. -/
theorem pieces_append_newline {xs : List Char} (hopen : ∀ body, .openString body ∉ pieces xs)
    (ys : List Char) : pieces (xs ++ '\n' :: ys) = pieces xs ++ .blank '\n' :: pieces ys := by
  refine pieces_eq_iff.mpr ⟨(legible_pieces xs).append_newline hopen (legible_pieces ys), ?_⟩
  rw [List.flatMap_append, List.flatMap_cons, flatMap_text_pieces, flatMap_text_pieces]
  rfl

/-- A string that is never closed is reported, whatever the policy. -/
theorem exists_unterminated_of_mem (policy : Policy) {ps : List Piece} {body : List Char}
    (h : .openString body ∈ ps) (p : Position) :
    ∃ d ∈ diagnosticsAt policy p ps, d.fault = .unterminatedString := by
  obtain ⟨xs, ys, rfl⟩ := List.append_of_mem h
  refine ⟨⟨.unterminatedString,
    ((p.after (xs.flatMap Piece.text)).after ('"' :: body)).line⟩, ?_, rfl⟩
  rw [diagnosticsAt_append]
  exact List.mem_append_right _ List.mem_cons_self

/-- A source for which no string is reported as open has none among its pieces. -/
theorem openString_not_mem_pieces {policy : Policy} {source : String}
    (h : ∀ d ∈ (scan policy source).2.toList, d.fault ≠ .unterminatedString) :
    ∀ body, .openString body ∉ pieces source.toList := by
  intro body hm
  obtain ⟨d, hd, hfault⟩ := exists_unterminated_of_mem policy hm .start
  rw [toList_scan] at h
  exact h d hd hfault

theorem pieces_newline {a : String} (hopen : ∀ body, .openString body ∉ pieces a.toList) :
    pieces (a ++ "\n").toList = pieces a.toList ++ [.blank '\n'] := by
  rw [String.toList_append]
  exact (pieces_append_newline hopen []).trans (by rw [pieces_nil])

/-- A newline at the end of a source adds neither a token nor a diagnostic. -/
theorem scan_newline (policy : Policy) {a : String}
    (hopen : ∀ body, .openString body ∉ pieces a.toList) :
    (scan policy (a ++ "\n")).1.dropLast = (scan policy a).1.dropLast ∧
      (scan policy (a ++ "\n")).2.toList = (scan policy a).2.toList := by
  constructor
  · rw [tokens_scan, tokens_scan, List.dropLast_concat, List.dropLast_concat,
      pieces_newline hopen, tokensAt_append]
    exact List.append_nil _
  · rw [toList_scan, toList_scan, pieces_newline hopen, diagnosticsAt_append]
    exact List.append_nil _

/-- The scan of two sources with a newline between them, when the first leaves no string
open. -/
theorem scan_append_newline (policy : Policy) {a : String}
    (hopen : ∀ body, .openString body ∉ pieces a.toList) (b : String) :
    (scan policy (a ++ "\n" ++ b)).1 = (scan policy a).1.dropLast ++
        (scan policy b).1.map (Token.shift (a.utf8ByteSize + 1) (1 + a.toList.count '\n')) ∧
      (scan policy (a ++ "\n" ++ b)).2.toList = (scan policy a).2.toList ++
        (scan policy b).2.toList.map (Diagnostic.shift (1 + a.toList.count '\n')) := by
  have hjoin : pieces (a ++ "\n" ++ b).toList =
      pieces (a ++ "\n").toList ++ pieces b.toList := by
    rw [pieces_newline hopen, String.toList_append, String.toList_append, List.append_assoc,
      List.append_assoc]
    exact pieces_append_newline hopen b.toList
  have hsize : (a ++ "\n").utf8ByteSize = a.utf8ByteSize + 1 := String.utf8ByteSize_append
  have hcount : (a ++ "\n").toList.count '\n' = 1 + a.toList.count '\n' := by
    rw [String.toList_append, List.count_append, Nat.add_comm]
    rfl
  obtain ⟨htokens, hdiagnostics⟩ := scan_append policy hjoin
  obtain ⟨hfront, hreports⟩ := scan_newline policy hopen
  rw [hsize, hcount, hfront] at htokens
  rw [hcount, hreports] at hdiagnostics
  exact ⟨htokens, hdiagnostics⟩

/-- When a scan of the first source reports no open string, the scan of two sources with
a newline between them has the tokens of the first without its end, then those of the
second, moved by the bytes and lines in front of it, and the diagnostics in the same
way. -/
theorem scan_join_newline (policy : Policy) (a b : String)
    (h : ∀ d ∈ (scan policy a).2.toList, d.fault ≠ .unterminatedString) :
    (scan policy (a ++ "\n" ++ b)).1 = (scan policy a).1.dropLast ++
        (scan policy b).1.map (Token.shift (a.utf8ByteSize + 1) (1 + a.toList.count '\n')) ∧
      (scan policy (a ++ "\n" ++ b)).2.toList = (scan policy a).2.toList ++
        (scan policy b).2.toList.map (Diagnostic.shift (1 + a.toList.count '\n')) :=
  scan_append_newline policy (openString_not_mem_pieces h) b

/-- A number with a point and an open comment with a quote in it, joined with a source
whose string stays open. -/
theorem scan_join_comment :
    (∀ d ∈ (scan .report "@1. //\"é").2.toList, d.fault ≠ .unterminatedString) ∧
      (scan .report ("@1. //\"é" ++ "\n" ++ "5\"\n@")).1 =
        (scan .report "@1. //\"é").1.dropLast ++
          (scan .report "5\"\n@").1.map (Token.shift 10 1) ∧
      (scan .report ("@1. //\"é" ++ "\n" ++ "5\"\n@")).2.toList =
        (scan .report "@1. //\"é").2.toList ++
          (scan .report "5\"\n@").2.toList.map (Diagnostic.shift 1) := by
  have hpieces : pieces "@1. //\"é".toList =
      [.unknown '@', .lexeme (.number ['1'] []), .lexeme (.symbol .dot), .blank ' ',
        .comment ['"', 'é']] := by
    decide +kernel
  have h : ∀ d ∈ (scan .report "@1. //\"é").2.toList, d.fault ≠ .unterminatedString := by
    rw [toList_scan, hpieces]
    simp [diagnosticsAt, gather, Piece.diagnostic?]
  exact ⟨h, scan_join_newline .report "@1. //\"é" "5\"\n@" h⟩

end LoxTokens
