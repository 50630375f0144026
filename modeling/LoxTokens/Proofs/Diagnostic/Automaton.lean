import LoxTokens.Proofs.Source.Legible
import LoxTokens.Proofs.Source.Outline

/-!
# An automaton for diagnostics

The diagnostics of a source can be told without reading tokens. An automaton with four
modes goes through the characters one by one; all it remembers besides its mode is the
line. It knows no numbers, no words and no operators, and it never looks ahead.

`scanInto_sink_eq_watch` says that what it emits is what a scan gives to its sink.
-/

namespace LoxTokens

universe u

variable {σ : Type u}

namespace Watch

/-- Where in a source a character can stand: in code, in code behind a slash that may
open a comment, in a comment, in a string. -/
inductive Mode where
  | code
  | slash
  | comment
  | string
deriving DecidableEq

def Mode.next : Mode → Char → Mode
  | code, c => if c = '/' then slash else if c = '"' then string else code
  | slash, c => if c = '/' then comment else if c = '"' then string else code
  | comment, c => if c = '\n' then code else comment
  | string, c => if c = '"' then code else string

/-- What is emitted for a character. Only in code, behind a slash or not, can it be one
that begins nothing. -/
def emit (policy : Policy) (mode : Mode) (line : Nat) (c : Char) : List Diagnostic :=
  if (mode = .code ∨ mode = .slash) ∧ beginsNothing c ∧ policy = .report then
    [⟨.unexpectedCharacter, line⟩]
  else []

/-- What is emitted from a mode and a line on. A string that is still open at the end is
reported there, whatever the policy. -/
def run (policy : Policy) : Mode → Nat → List Char → List Diagnostic
  | mode, line, [] => if mode = .string then [⟨.unterminatedString, line⟩] else []
  | mode, line, c :: cs =>
      emit policy mode line c ++
        run policy (mode.next c) (if c = '\n' then line + 1 else line) cs

end Watch

def watch (policy : Policy) (source : String) : List Diagnostic :=
  Watch.run policy .code 1 source.toList

namespace Watch

variable {policy : Policy} {line : Nat} {rest : List Char}

/-- A character that changes neither the mode of code nor the line, and for which
nothing is emitted. -/
def Plain (c : Char) : Prop := c ≠ '/' ∧ c ≠ '"' ∧ c ≠ '\n' ∧ beginsNothing c = false

theorem plain_of_isAlphanum {c : Char} (h : c.isAlphanum = true) : Plain c := by
  obtain ⟨hblank, hquote, hsymbol⟩ := LoxTokens.plain_of_isAlphanum h
  refine ⟨?_, hquote, ?_, by simp [beginsNothing, h]⟩
  · rintro rfl
    exact hsymbol (by decide)
  · rintro rfl
    exact absurd hblank (by decide)

theorem plain_of_ofChar? {c : Char} {s : Symbol} (h : Symbol.ofChar? c = some s)
    (hs : s ≠ .slash) : Plain c := by
  obtain ⟨hblank, hquote, -⟩ := LoxTokens.plain_of_ofChar? h
  refine ⟨?_, hquote, ?_, by simp [beginsNothing, mem_symbolCharacters h]⟩
  · rintro rfl
    exact hs (Option.some.inj h).symm
  · rintro rfl
    cases hblank

theorem run_plain {xs : List Char} (h : ∀ c ∈ xs, Plain c) :
    run policy .code line (xs ++ rest) = run policy .code line rest := by
  induction xs with
  | nil => rfl
  | cons c cs ih =>
    obtain ⟨hslash, hquote, hnewline, hbegins⟩ := h c List.mem_cons_self
    rw [List.cons_append, run, emit, Mode.next, if_neg (by simp [hbegins]), if_neg hslash,
      if_neg hquote, if_neg hnewline]
    exact ih fun d hd => h d (List.mem_cons_of_mem c hd)

theorem run_comment {body : List Char} (h : '\n' ∉ body) :
    run policy .comment line (body ++ rest) = run policy .comment line rest := by
  induction body with
  | nil => rfl
  | cons c cs ih =>
    obtain ⟨hc, hcs⟩ := not_or.mp (fun hm => h (List.mem_cons.mpr hm))
    rw [List.cons_append, run, emit, Mode.next, if_neg (by simp), if_neg (Ne.symm hc),
      if_neg (Ne.symm hc)]
    exact ih hcs

/-- A comment ends before a newline, which belongs to the code behind it. -/
theorem run_comment_end (h : RunEnds (· != '\n') rest) :
    run policy .comment line rest = run policy .code line rest := by
  cases rest with
  | nil => rfl
  | cons c cs =>
    obtain rfl : c = '\n' := by simpa using RunEnds.cons_iff.mp h
    have hbegins : beginsNothing '\n' = false := by decide
    simp [run, emit, Mode.next, hbegins]

/-- A slash that no other follows was code. -/
theorem run_slash (h : rest.head? ≠ some '/') :
    run policy .slash line rest = run policy .code line rest := by
  cases rest with
  | nil => rfl
  | cons c cs =>
    have hc : c ≠ '/' := by simpa using h
    simp [run, emit, Mode.next, hc]

theorem run_string {content : List Char} (h : '"' ∉ content) :
    run policy .string line (content ++ rest) =
      run policy .string (line + content.count '\n') rest := by
  induction content generalizing line with
  | nil => rfl
  | cons c cs ih =>
    obtain ⟨hc, hcs⟩ := not_or.mp (fun hm => h (List.mem_cons.mpr hm))
    rw [List.cons_append, run, emit, Mode.next, if_neg (by simp), if_neg (Ne.symm hc),
      List.nil_append, ih hcs, List.count_cons]
    congr 1
    by_cases hn : c = '\n'
    · simp only [hn, if_true, beq_self_eq_true]
      omega
    · simp [hn]

theorem plain_of_mem_text {l : Lexeme} (hl : l.WellFormed)
    (hstring : ∀ content, l ≠ .string content) (hslash : l ≠ .symbol .slash) :
    ∀ c ∈ l.text, Plain c := by
  intro c hc
  rcases hl.letter_or_symbol hstring hc with halphanum | ⟨s, hs, honly⟩
  · exact plain_of_isAlphanum halphanum
  · exact plain_of_ofChar? hs fun h => hslash (honly h)

theorem count_newline_of_plain {xs : List Char} (h : ∀ c ∈ xs, Plain c) :
    xs.count '\n' = 0 := by
  apply List.count_eq_zero.mpr
  intro hm
  exact (h '\n' hm).2.2.1 rfl

theorem run_lexeme {l : Lexeme} (hl : l.WellFormed) (hends : l.EndsBefore rest) :
    run policy .code line (l.text ++ rest) =
      run policy .code (line + l.text.count '\n') rest := by
  by_cases hslash : l = .symbol .slash
  · subst hslash
    have hnext := hends.2 rfl
    rw [Lexeme.text, Symbol.text, List.singleton_append, run, ← run_slash hnext]
    rfl
  by_cases hstring : ∃ content, l = .string content
  · obtain ⟨content, rfl⟩ := hstring
    cases hl with
    | string hcontent =>
      have hopen : run policy .code line ('"' :: (content ++ '"' :: rest)) =
          run policy .string line (content ++ '"' :: rest) := rfl
      have hclose : run policy .string (line + content.count '\n') ('"' :: rest) =
          run policy .code (line + content.count '\n') rest := rfl
      rw [Lexeme.text, List.cons_append, List.cons_append, List.append_assoc,
        List.singleton_append, hopen, run_string hcontent, hclose]
      simp [List.count_append]
  · have hplain := plain_of_mem_text hl (fun content hc => hstring ⟨content, hc⟩) hslash
    rw [run_plain hplain, count_newline_of_plain hplain, Nat.add_zero]

/-- The automaton reads a piece from code to code, and emits what the piece gives rise
to. Which of its modes it goes through is a matter of the piece alone. -/
theorem run_piece {x : Piece} (hx : x.WellFormed) (hends : x.EndsBefore rest) (p : Position) :
    run policy .code p.line (x.text ++ rest) =
      (x.diagnostic? policy p).toList ++ run policy .code (p.after x.text).line rest := by
  rw [Position.after_line]
  cases hx with
  | @blank c hc =>
    have hall : ∀ b ∈ blankCharacters, b ≠ '/' ∧ b ≠ '"' ∧ beginsNothing b = false := by
      simp [blankCharacters, beginsNothing]
    obtain ⟨hslash, hquote, hbegins⟩ := hall c (isWhitespace_iff.mp hc)
    rw [Piece.text, List.singleton_append, run, emit, Mode.next, if_neg (by simp [hbegins]),
      if_neg hslash, if_neg hquote, List.count_singleton]
    by_cases hn : c = '\n' <;> simp [Piece.diagnostic?, hn]
  | @comment body hbody =>
    have hopen : run policy .code p.line ('/' :: '/' :: (body ++ rest)) =
        run policy .comment p.line (body ++ rest) := by
      simp [run, emit, Mode.next, beginsNothing, symbolCharacters]
    rw [Piece.text, List.cons_append, List.cons_append, hopen, run_comment hbody,
      run_comment_end hends]
    simp [Piece.diagnostic?, List.count_eq_zero.mpr hbody]
  | @lexeme l hl =>
    rw [Piece.text, run_lexeme hl hends]
    rfl
  | @unknown c hc =>
    obtain ⟨hblank, hquote, -, -, hsymbol⟩ := beginsNothing_iff.mp hc
    have hslash : c ≠ '/' := by
      rintro rfl
      cases hsymbol
    have hn : c ≠ '\n' := by
      rintro rfl
      exact absurd hblank (by decide)
    rw [Piece.text, List.singleton_append, run, emit, Mode.next, if_neg hslash, if_neg hquote,
      if_neg hn, List.count_singleton]
    cases policy <;> simp [Piece.diagnostic?, hc, hn]
  | @openString body hbody =>
    obtain rfl : rest = [] := hends
    have hopen : run policy .code p.line ('"' :: body) = run policy .string p.line body := rfl
    have hrun : run policy .string p.line (body ++ []) =
        run policy .string (p.line + body.count '\n') [] := run_string hbody
    rw [List.append_nil] at hrun
    rw [Piece.text, List.append_nil, hopen, hrun]
    simp [run, Piece.diagnostic?, Position.after_line, Position.next]

theorem run_flatMap {ps : List Piece} (h : Legible ps) (p : Position) :
    run policy .code p.line (ps.flatMap Piece.text) = diagnosticsAt policy p ps := by
  induction h generalizing p with
  | nil => rfl
  | cons hx hends _ ih =>
    rw [List.flatMap_cons, run_piece hx hends, ih]
    rfl

end Watch

theorem diagnosticsAt_pieces (policy : Policy) (source : String) :
    diagnosticsAt policy .start (pieces source.toList) = watch policy source := by
  rw [← Watch.run_flatMap (legible_pieces source.toList), flatMap_text_pieces]
  rfl

/-- A scan gives its sink exactly what the automaton emits, in the same order. A source
without a fault is therefore one for which it emits nothing, and otherwise the first
diagnostic is the first emitted. -/
theorem scanInto_sink_eq_watch (policy : Policy) (report : σ → Diagnostic → σ) (sink : σ)
    (source : String) :
    (scanInto policy report sink source).2 = (watch policy source).foldl report sink ∧
      (tokenize source = match watch .report source with
        | [] => .ok (scan .report source).1
        | d :: _ => .error d) := by
  constructor
  · rw [scanInto_eq, diagnosticsAt_pieces]
  · have hlog := toList_scan .report source
    rw [diagnosticsAt_pieces] at hlog
    rw [← hlog]
    rfl

end LoxTokens
