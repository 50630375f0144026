import LoxTokens.Proofs.Cursor.Invariant
import LoxTokens.Proofs.Source.Legible

/-!
# One turn of the loop reads one piece

From the head of its loop the machine takes the first piece of what stands behind its
cursor, makes of it what the piece makes, and is at the head again. `Cursor.reading` is its
state on the way, with a part of the piece read; each inner loop moves on over the rest of
a run of characters. `Machine.leads_behind` puts the ways of all kinds of pieces together.
-/

namespace LoxTokens

variable {σ : Type} {m : Machine σ} {s : Cursor σ} {front text more rest : List Char} {c : Char}

namespace Cursor

/-- The place of the cursor, with the line counted so far. -/
def place (s : Cursor σ) : Position := ⟨s.current, s.line⟩

/-- At `task`, with `text` read of a piece that begins where `s` stands. -/
def reading (s : Cursor σ) (text : List Char) (task : Task) : Cursor σ :=
  { s with
    task, start := s.current, startLine := s.line
    current := (s.place.after text).offset, line := (s.place.after text).line }

/-- At the head of the loop, behind the piece `x` that begins where `s` stands. -/
def behind (m : Machine σ) (s : Cursor σ) (x : Piece) : Cursor σ :=
  { s.reading x.text .head with
    tokens := (x.token? s.place).elim s.tokens s.tokens.push
    sink := (x.diagnostic? m.policy s.place).elim s.sink (m.report s.sink) }

/-- In the turn that begins at `b`, before the machine is at the head of its loop again,
nothing has been made. -/
structure Within (s b : Cursor σ) : Prop where
  task : s.task ≠ .head
  tokens : s.tokens = b.tokens
  sink : s.sink = b.sink

theorem Within.reading {task : Task} (h : task ≠ .head) : (s.reading text task).Within s :=
  ⟨h, rfl, rfl⟩

theorem reading_passed (hc : c ≠ '\n') (text : List Char) (task task' : Task) :
    (s.reading text task).passed c task' = s.reading (text ++ [c]) task' := by
  simp [reading, passed, Position.after_append, Position.next, hc]

/-- The line has been counted already when a newline is passed over. -/
theorem reading_counted_passed (text : List Char) (task task' task'' : Task) :
    ((s.reading text task).counted task').passed '\n' task'' =
      s.reading (text ++ ['\n']) task'' := by
  simp [reading, counted, passed, Position.after_append, Position.next]

end Cursor

theorem utf8ByteSize_append_quote (xs : List Char) :
    (String.ofList (xs ++ ['"'])).utf8ByteSize = (String.ofList xs).utf8ByteSize + 1 := by
  rw [String.ofList_append, String.utf8ByteSize_append]
  rfl

/-- The digits in front of the point and behind it are found again in the text. -/
theorem numeralValue_text {d : Char} {ds fraction : List Char} (hd : d.isDigit = true)
    (hds : ∀ c ∈ ds, c.isDigit = true) :
    numeralValue (String.ofList (Lexeme.number (d :: ds) fraction).text) =
      (Decimal.ofParts (d :: ds) fraction).toBinary64 := by
  have hdigits : ∀ c ∈ d :: ds, c.isDigit = true := List.forall_mem_cons.mpr ⟨hd, hds⟩
  have hpoint : ∀ c ∈ d :: ds, (c != '.') = true :=
    ne_of_not_mem fun hmem => absurd (hdigits '.' hmem) (by decide)
  rw [numeralValue, String.toList_ofList]
  cases fraction with
  | nil =>
    have hends := RunEnds.nil (· != '.')
    have htake := hends.takeWhile_append hpoint
    have hdrop := hends.dropWhile_append hpoint
    rw [List.append_nil] at htake hdrop
    simp only [Lexeme.text, htake, hdrop, List.drop_nil]
  | cons e es =>
    have hends : RunEnds (· != '.') ('.' :: e :: es) := RunEnds.cons_iff.mpr (by simp)
    simp only [Lexeme.text, hends.takeWhile_append hpoint, hends.dropWhile_append hpoint,
      List.drop_one, List.tail_cons]

namespace Machine

open Cursor (reading_passed reading_counted_passed)

/-- In the turn that begins at `b` the machine comes from `s` to `t`. -/
inductive Leads (m : Machine σ) (b : Cursor σ) : Cursor σ → Cursor σ → Prop
  | refl (s : Cursor σ) : m.Leads b s s
  | step {s t u : Cursor σ} (hwithin : s.Within b) (hstep : m.step s = some t)
      (h : m.Leads b t u) : m.Leads b s u

namespace Leads

variable {b t u : Cursor σ}

theorem single (hwithin : s.Within b) (hstep : m.step s = some t) : m.Leads b s t :=
  .step hwithin hstep (.refl t)

theorem trans (hst : m.Leads b s t) (htu : m.Leads b t u) : m.Leads b s u := by
  induction hst with
  | refl => exact htu
  | step hwithin hstep _ ih => exact .step hwithin hstep (ih htu)

end Leads

namespace Between

theorem reading (hs : m.Between s front (text ++ rest)) (task : Task) :
    m.Between (s.reading text task) (front ++ text) rest := by
  refine ⟨by rw [hs.source, List.append_assoc], ?_⟩
  rw [String.ofList_append, String.utf8ByteSize_append, ← hs.current]
  exact Position.after_offset s.place text

theorem lexeme (hs : m.Between s front (text ++ rest)) (task : Task) :
    m.lexeme (s.reading text task) = some (String.ofList text) := by
  have hslice := slice?_eq_some hs.source
  rwa [← (hs.reading task).current, ← hs.current] at hslice

theorem push_lexeme {l : Lexeme} (hs : m.Between s front (l.text ++ rest)) (task : Task) :
    m.push l.kind l.literal (s.reading l.text task) = some (s.behind m (.lexeme l)) := by
  simp only [push, hs.lexeme task, Option.bind_eq_bind, Option.bind_some]
  rfl

end Between

theorem choose_blank (hc : c = ' ' ∨ c = '\r' ∨ c = '\t') : m.choose c s = some (s.goto .head) := by
  rcases hc with rfl | rfl | rfl <;> rfl

/-- What a character opens that is no blank, no quote and no symbol. -/
theorem choose_plain (hblank : c.isWhitespace = false) (hquote : c ≠ '"')
    (hnone : Symbol.ofChar? c = none) : m.choose c s =
      if c.isDigit then some (s.goto .whole)
      else if c.isAlphanum then some (s.goto .word)
      else if m.policy = .report then some (m.tell .unexpectedCharacter s)
      else some (s.goto .head) := by
  simp only [Char.isWhitespace, Bool.or_eq_false_iff, decide_eq_false_iff_not] at hblank
  cases hpolicy : m.policy <;> simp [choose, hnone, hblank, hquote, hpolicy]

theorem choose_digit (hc : c.isDigit = true) : m.choose c s = some (s.goto .whole) := by
  obtain ⟨hblank, hquote, hsymbol⟩ := plain_of_isAlphanum (isAlphanum_of_isDigit hc)
  rw [choose_plain hblank hquote (ofChar?_eq_none_iff.mpr hsymbol), if_pos hc]

theorem choose_letter (hc : c.isAlpha = true) : m.choose c s = some (s.goto .word) := by
  obtain ⟨hblank, hquote, hsymbol⟩ := plain_of_isAlphanum (isAlphanum_of_isAlpha hc)
  rw [choose_plain hblank hquote (ofChar?_eq_none_iff.mpr hsymbol),
    if_neg (Bool.eq_false_iff.mp (isDigit_of_isAlpha hc)), if_pos (isAlphanum_of_isAlpha hc)]

theorem choose_unknown (hc : beginsNothing c = true) : m.choose c s =
    if m.policy = .report then some (m.tell .unexpectedCharacter s) else some (s.goto .head) := by
  obtain ⟨hblank, hquote, hdigit, halpha, hnone⟩ := beginsNothing_iff.mp hc
  rw [choose_plain hblank hquote hnone, if_neg (Bool.eq_false_iff.mp hdigit),
    if_neg (by simp [Char.isAlphanum, hdigit, halpha])]

theorem choose_operator {t longer : Symbol} (hc : Symbol.ofChar? c = some t)
    (hlonger : t.withEqual? = some longer) :
    m.choose c s = some (s.goto (.operator t longer)) := by
  rw [choose, hc]
  cases t <;> simp [Symbol.withEqual?] at hlonger ⊢ <;> subst hlonger <;> rfl

theorem choose_symbol {t : Symbol} (hc : Symbol.ofChar? c = some t) (hslash : t ≠ .slash)
    (hnone : t.withEqual? = none) : m.choose c s = some (s.goto (.symbol t)) := by
  rw [choose, hc]
  cases t <;> simp [Symbol.withEqual?] at hnone hslash ⊢

theorem leads_unknown (hc : beginsNothing c = true) (hnewline : c ≠ '\n') :
    m.Leads s (s.reading [c] (.choose c)) (s.behind m (.unknown c)) := by
  have hline : (s.reading [c] (.choose c)).line = s.line := if_neg hnewline
  refine .single (.reading (by simp)) ((choose_unknown hc).trans ?_)
  cases hpolicy : m.policy with
  | report =>
    have hd : (Piece.unknown c).diagnostic? m.policy s.place =
        some ⟨.unexpectedCharacter, (s.reading [c] (.choose c)).line⟩ := by
      rw [hpolicy, hline]
      rfl
    rw [if_pos rfl, Cursor.behind, hd]
    rfl
  | skip =>
    have hd : (Piece.unknown c).diagnostic? m.policy s.place = none := by
      rw [hpolicy]
      rfl
    rw [if_neg (by simp), Cursor.behind, hd]
    rfl

/-- A symbol of one character looks at the next one, when it has a longer form or may begin a
comment. -/
theorem leads_symbol {t : Symbol} (hc : Symbol.ofChar? c = some t) (htext : t.text = [c])
    (hends : (Lexeme.symbol t).EndsBefore rest) (hs : m.Between s front (c :: rest)) :
    m.Leads s (s.reading [c] (.choose c)) (s.behind m (.lexeme (.symbol t))) := by
  obtain ⟨hequal, hslash⟩ := hends
  have hs' : m.Between s front ((Lexeme.symbol t).text ++ rest) := by
    simpa [Lexeme.text, htext] using hs
  have hpush := hs'.push_lexeme (.symbol t)
  have hlast : m.Leads s (s.reading [c] (.symbol t)) (s.behind m (.lexeme (.symbol t))) := by
    rw [Lexeme.text, htext] at hpush
    exact .single (.reading (by simp)) hpush
  have hat : ∀ task, m.Between (s.reading [c] task) (front ++ [c]) rest :=
    fun task => hs.reading task
  cases hlonger : t.withEqual? with
  | none =>
    by_cases ht : t = .slash
    · subst ht
      obtain rfl : c = '/' := by simpa [Symbol.text] using htext.symm
      have hplain := (hat .slash).passIf_ne (hslash rfl) .comment (.symbol .slash)
      exact .step (.reading (by simp)) rfl (.step ⟨by simp [Cursor.goto], rfl, rfl⟩ hplain hlast)
    · exact .step (.reading (by simp)) (choose_symbol hc ht hlonger) hlast
  | some longer =>
    have hne : rest.head? ≠ some '=' := hequal (by simp [hlonger])
    have hplain := (hat (.operator t longer)).passIf_ne hne (.symbol longer) (.symbol t)
    exact .step (.reading (by simp)) (choose_operator hc hlonger)
      (.step ⟨by simp [Cursor.goto], rfl, rfl⟩ hplain hlast)

theorem leads_numeral {d : Char} {ds fraction : List Char} (hd : d.isDigit = true)
    (hds : ∀ c ∈ ds, c.isDigit = true)
    (hs : m.Between s front ((Lexeme.number (d :: ds) fraction).text ++ rest)) :
    m.Leads s (s.reading (Lexeme.number (d :: ds) fraction).text .number)
      (s.behind m (.lexeme (.number (d :: ds) fraction))) := by
  have hstep : m.step (s.reading (Lexeme.number (d :: ds) fraction).text .number) =
      (m.lexeme (s.reading (Lexeme.number (d :: ds) fraction).text .number)).bind fun text =>
        m.push .number (some (.number (numeralValue text)))
          (s.reading (Lexeme.number (d :: ds) fraction).text .number) := rfl
  rw [hs.lexeme, Option.bind_some, numeralValue_text hd hds] at hstep
  exact .single (.reading (by simp)) (hstep.trans (hs.push_lexeme .number))

theorem leads_name {letters : List Char}
    (hs : m.Between s front ((Lexeme.word letters).text ++ rest)) :
    m.Leads s (s.reading (Lexeme.word letters).text .name)
      (s.behind m (.lexeme (.word letters))) := by
  have hstep : m.step (s.reading (Lexeme.word letters).text .name) =
      (m.lexeme (s.reading (Lexeme.word letters).text .name)).bind fun text =>
        m.push (.ofWord text) none (s.reading (Lexeme.word letters).text .name) := rfl
  rw [hs.lexeme, Option.bind_some] at hstep
  exact .single (.reading (by simp)) (hstep.trans (hs.push_lexeme .name))

section

variable (hsize : m.source.utf8ByteSize < 2 ^ m.bits)
include hsize

/-- A loop passes over all characters of a run. -/
theorem leads_passWhile {p : Char → Bool} {task next : Task} (hhead : task ≠ .head)
    (hstep : ∀ u : Cursor σ, u.task = task → m.step u = m.passWhile p next u)
    (hnewline : p '\n' = false) (hmore : ∀ c ∈ more, p c = true) (hends : RunEnds p rest)
    (hs : m.Between s front (text ++ (more ++ rest))) :
    m.Leads s (s.reading text task) (s.reading (text ++ more) next) := by
  induction more generalizing text with
  | nil =>
    rw [List.append_nil]
    have hend := (hs.reading task).passWhile_end hends next
    exact .single (.reading hhead) ((hstep _ rfl).trans hend)
  | cons c more ih =>
    obtain ⟨hc, hmore⟩ := List.forall_mem_cons.mp hmore
    have hne : c ≠ '\n' := ne_of_apply_ne p (by simp [hc, hnewline])
    have hpass := (hstep _ rfl).trans ((hs.reading task).passWhile_cons hsize hc next)
    rw [reading_passed hne] at hpass
    refine .step (.reading hhead) hpass ?_
    rw [List.append_cons text c more]
    refine ih hmore ?_
    rwa [List.append_assoc]

/-- In a string the loop passes over everything up to a quote. -/
theorem leads_readString (hmore : '"' ∉ more) (hends : RunEnds (· != '"') rest)
    (hs : m.Between s front (text ++ (more ++ rest)))
    (hline : (s.place.after text).line ≤ (s.place.after text).offset) :
    m.Leads s (s.reading text .string) (s.reading (text ++ more) .quote) := by
  induction more generalizing text with
  | nil =>
    rw [List.append_nil]
    exact .single (.reading (by simp)) ((hs.reading .string).readString_end hends)
  | cons c more ih =>
    obtain ⟨hquote, hmore⟩ := List.ne_and_not_mem_of_not_mem_cons hmore
    have hat := hs.reading .string
    have hrest : m.Leads s (s.reading (text ++ [c]) .string)
        (s.reading (text ++ c :: more) .quote) := by
      rw [List.append_cons text c more]
      refine ih hmore ?_ ?_
      · rwa [List.append_assoc]
      have hpos := c.utf8Size_pos
      simp only [Position.after_append, Position.after_cons, Position.after_nil, Position.next]
      split <;> omega
    by_cases hnewline : c = '\n'
    · subst hnewline
      have hle : (s.reading text .string).line ≤ m.source.utf8ByteSize :=
        hline.trans (hat.size ▸ Nat.le_add_right _ _)
      have hcounted : m.Between ((s.reading text .string).counted .newline) (front ++ text)
          ('\n' :: (more ++ rest)) := ⟨hat.source, hat.current⟩
      have hpass := hcounted.pass hsize .string
      rw [reading_counted_passed] at hpass
      have hcount := hat.readString_newline.trans (countLine_eq hsize hle .newline)
      exact .step (.reading (by simp)) hcount
        (.step ⟨by simp [Cursor.counted], rfl, rfl⟩ hpass hrest)
    · have hpass := hat.readString_cons hsize (fun h => hquote h.symm) hnewline
      rw [reading_passed hnewline] at hpass
      exact .step (.reading (by simp)) hpass hrest

/-- The first steps of a turn mark the place and the line, and the next reads a character. -/
theorem leads_choose (hs : m.Between s front (c :: rest)) :
    m.Leads s (s.goto .markStart) ((s.reading [] .first).passed c (.choose c)) := by
  have hat : m.Between (s.reading [] .first) (front ++ []) (c :: rest) := hs.reading .first
  exact .step ⟨by simp [Cursor.goto], rfl, rfl⟩ rfl
    (.step ⟨by simp, rfl, rfl⟩ rfl (.single ⟨by simp, rfl, rfl⟩ (hat.step_first hsize rfl)))

/-- What stands between the quotes is found by single bytes from both ends. -/
theorem leads_close {content : List Char}
    (hs : m.Between s front ((Lexeme.string content).text ++ rest)) :
    m.Leads s (s.reading (Lexeme.string content).text .close)
      (s.behind m (.lexeme (.string content))) := by
  have hat := hs.reading .close
  have hsource : m.source.toList = (front ++ ['"']) ++ (content ++ '"' :: rest) := by
    simp [hs.source, Lexeme.text]
  have hfirst : (String.ofList (front ++ ['"'])).utf8ByteSize = s.current + 1 := by
    rw [utf8ByteSize_append_quote, hs.current]
  have hlast : (s.reading (Lexeme.string content).text .close).current =
      (String.ofList (front ++ ['"'] ++ content)).utf8ByteSize + 1 := by
    rw [hat.current, ← utf8ByteSize_append_quote, Lexeme.text]
    simp
  have hslice := slice?_eq_some hsource
  rw [hfirst] at hslice
  have hstart : s.current + 1 ≤ m.source.utf8ByteSize + 1 :=
    Nat.add_le_add_right (hs.size ▸ Nat.le_add_right _ _) 1
  have hadd : m.add? s.current 1 = some (s.current + 1) := add?_eq hsize hstart
  have hsub : sub? (s.reading (Lexeme.string content).text .close).current 1 =
      some (String.ofList (front ++ ['"'] ++ content)).utf8ByteSize := by
    rw [hlast]
    rfl
  have hclose : m.closeString (s.reading (Lexeme.string content).text .close) =
      m.push .string (some (.string (String.ofList content)))
        (s.reading (Lexeme.string content).text .close) := by
    rw [closeString, hsub]
    have hstart' : (s.reading (Lexeme.string content).text .close).start = s.current := rfl
    simp only [hstart', hadd, hslice, Option.bind_eq_bind, Option.bind_some]
  exact .single (.reading (by simp)) (hclose.trans (hs.push_lexeme .close))

/-- The longer form of a symbol is taken where the equals sign stands. -/
theorem leads_longer {t longer : Symbol} (hc : Symbol.ofChar? c = some t)
    (hlonger : t.withEqual? = some longer) (htext : longer.text = [c, '='])
    (hs : m.Between s front (c :: '=' :: rest)) :
    m.Leads s (s.reading [c] (.choose c)) (s.behind m (.lexeme (.symbol longer))) := by
  have hs' : m.Between s front ((Lexeme.symbol longer).text ++ rest) := by
    simpa [Lexeme.text, htext] using hs
  have hpush := hs'.push_lexeme (.symbol longer)
  have hat : m.Between (s.reading [c] (.operator t longer)) (front ++ [c]) ('=' :: rest) :=
    hs.reading _
  have hpass := hat.passIf_cons hsize (.symbol longer) (.symbol t)
  rw [reading_passed (by decide)] at hpass
  rw [Lexeme.text, htext] at hpush
  exact .step (.reading (by simp)) (choose_operator hc hlonger)
    (.step ⟨by simp [Cursor.goto], rfl, rfl⟩ hpass (.single (.reading (by simp)) hpush))

theorem leads_comment {body : List Char} (hbody : '\n' ∉ body)
    (hends : RunEnds (· != '\n') rest)
    (hs : m.Between s front ((Piece.comment body).text ++ rest)) :
    m.Leads s (s.reading ['/'] (.choose '/')) (s.behind m (.comment body)) := by
  have hs' : m.Between s front (['/'] ++ '/' :: (body ++ rest)) := hs
  have hpass := (hs'.reading .slash).passIf_cons hsize .comment (.symbol .slash)
  rw [reading_passed (by decide)] at hpass
  have hloop : m.Leads s (s.reading ['/', '/'] .comment) (s.reading (['/', '/'] ++ body) .head) :=
    leads_passWhile hsize (by decide) (fun u hu => by rw [step, hu]) (by decide)
      (ne_of_not_mem hbody) hends hs
  exact .step (.reading (by simp)) rfl (.step ⟨by simp [Cursor.goto], rfl, rfl⟩ hpass hloop)

theorem leads_word {letters : List Char} (hc : c.isAlpha = true)
    (hletters : ∀ d ∈ letters, d.isAlphanum = true) (hends : RunEnds Char.isAlphanum rest)
    (hs : m.Between s front (c :: letters ++ rest)) :
    m.Leads s (s.reading [c] (.choose c)) (s.behind m (.lexeme (.word (c :: letters)))) := by
  have hloop : m.Leads s (s.reading [c] .word) (s.reading ([c] ++ letters) .name) :=
    leads_passWhile hsize (by decide) (fun u hu => by rw [step, hu]) (by decide) hletters hends hs
  exact .step (.reading (by simp)) (choose_letter hc) (hloop.trans (leads_name hs))

theorem leads_whole {ds : List Char} (hds : ∀ c ∈ ds, c.isDigit = true)
    (hends : RunEnds Char.isDigit rest) (hs : m.Between s front (c :: ds ++ rest))
    (hc : c.isDigit = true) :
    m.Leads s (s.reading [c] (.choose c)) (s.reading (c :: ds) .point) := by
  have hloop : m.Leads s (s.reading [c] .whole) (s.reading ([c] ++ ds) .point) :=
    leads_passWhile hsize (by decide) (fun u hu => by rw [step, hu]) (by decide) hds hends hs
  exact .step (.reading (by simp)) (choose_digit hc) hloop

theorem leads_number {ds fraction : List Char} (hc : c.isDigit = true)
    (hds : ∀ c ∈ ds, c.isDigit = true) (hfraction : ∀ c ∈ fraction, c.isDigit = true)
    (hends : (Lexeme.number (c :: ds) fraction).EndsBefore rest)
    (hs : m.Between s front ((Lexeme.number (c :: ds) fraction).text ++ rest)) :
    m.Leads s (s.reading [c] (.choose c)) (s.behind m (.lexeme (.number (c :: ds) fraction))) := by
  obtain ⟨hrun, hpoint⟩ := hends
  have hmade := leads_numeral hc hds hs
  cases fraction with
  | nil =>
    have hat : m.Between (s.reading (c :: ds) .point) (front ++ c :: ds) rest := hs.reading _
    exact (leads_whole hsize hds hrun hs hc).trans
      (.step (.reading (by simp)) (hat.readPoint_ne (hpoint rfl)) hmade)
  | cons e es =>
    have hs' : m.Between s front (c :: ds ++ '.' :: e :: es ++ rest) := hs
    rw [List.append_assoc] at hs'
    have hdot : RunEnds Char.isDigit ('.' :: (e :: es ++ rest)) :=
      RunEnds.cons_iff.mpr (by decide)
    have hat : m.Between (s.reading (c :: ds) .point) (front ++ c :: ds)
        ('.' :: e :: (es ++ rest)) := hs'.reading _
    have hpass := hat.readPoint_cons hsize (hfraction e List.mem_cons_self)
    rw [reading_passed (by decide)] at hpass
    have hloop : m.Leads s (s.reading (c :: ds ++ ['.']) .fraction)
        (s.reading (c :: ds ++ ['.'] ++ (e :: es)) .number) :=
      leads_passWhile hsize (by decide) (fun u hu => by rw [step, hu]) (by decide) hfraction hrun
        (by rwa [List.append_assoc])
    rw [List.append_assoc] at hloop
    exact (leads_whole hsize hds hdot hs' hc).trans
      (.step (.reading (by simp)) hpass (hloop.trans hmade))

/-- Up to the quote that ends it, or the end of the source, a string is read in one loop. -/
theorem leads_quote {content : List Char} (hcontent : '"' ∉ content)
    (hends : RunEnds (· != '"') rest) (hs : m.Between s front ('"' :: content ++ rest))
    (hline : s.line ≤ 1 + s.current) :
    m.Leads s (s.reading ['"'] (.choose '"')) (s.reading ('"' :: content) .quote) := by
  have hline' : (s.place.after ['"']).line ≤ (s.place.after ['"']).offset :=
    hline.trans_eq (Nat.add_comm _ _)
  have hloop : m.Leads s (s.reading ['"'] .string) (s.reading (['"'] ++ content) .quote) :=
    leads_readString hsize hcontent hends hs hline'
  exact .step (.reading (by simp)) rfl hloop

theorem leads_string {content : List Char} (hcontent : '"' ∉ content)
    (hs : m.Between s front ((Lexeme.string content).text ++ rest))
    (hline : s.line ≤ 1 + s.current) :
    m.Leads s (s.reading ['"'] (.choose '"')) (s.behind m (.lexeme (.string content))) := by
  have hs' : m.Between s front ('"' :: content ++ '"' :: rest) := by
    simpa [Lexeme.text] using hs
  have hends : RunEnds (· != '"') ('"' :: rest) := RunEnds.cons_iff.mpr (by decide)
  have hpass := (hs'.reading .quote).readQuote_cons hsize
  rw [reading_passed (by decide)] at hpass
  exact (leads_quote hsize hcontent hends hs' hline).trans
    (.step (.reading (by simp)) hpass (leads_close hsize hs))

theorem leads_openString {body : List Char} (hbody : '"' ∉ body)
    (hs : m.Between s front ('"' :: body ++ [])) (hline : s.line ≤ 1 + s.current) :
    m.Leads s (s.reading ['"'] (.choose '"')) (s.behind m (.openString body)) :=
  (leads_quote hsize hbody (RunEnds.nil _) hs hline).trans
    (.single (.reading (by simp)) (hs.reading .quote).readQuote_nil)

/-- A newline is counted when it has been passed over. -/
theorem leads_newline (hs : m.Between s front ('\n' :: rest)) (hline : s.line ≤ 1 + s.current) :
    m.Leads s (s.goto .markStart) (s.behind m (.blank '\n')) := by
  have hle : ((s.reading [] .first).passed '\n' (.choose '\n')).line ≤ m.source.utf8ByteSize :=
    hline.trans ((Nat.add_comm _ _).trans_le hs.size_cons)
  have hcount := countLine_eq hsize hle .head
  refine (leads_choose hsize hs).trans
    (.single ⟨by simp [Cursor.passed], rfl, rfl⟩ (hcount.trans ?_))
  simp [Cursor.counted, Cursor.passed, Cursor.reading, Cursor.behind, Piece.text, Piece.token?,
    Piece.diagnostic?, Position.next, Cursor.place]

/-- From the head of its loop the machine comes to the head again, behind the piece that ends
where it stands, and has made of it what the piece makes. A newline apart, the first character
leaves the line as it is. -/
theorem leads_behind {x : Piece} (hx : x.WellFormed) (hends : x.EndsBefore rest)
    (hs : m.Between s front (x.text ++ rest)) (hline : s.line ≤ 1 + s.current) :
    m.Leads s (s.goto .markStart) (s.behind m x) := by
  have hchosen : ∀ {c cs}, m.Between s front (c :: cs) → c ≠ '\n' →
      m.Leads s (s.reading [c] (.choose c)) (s.behind m x) →
      m.Leads s (s.goto .markStart) (s.behind m x) := by
    intro c cs hs hc hchosen
    have hfirst := leads_choose hsize hs
    rw [reading_passed hc] at hfirst
    exact hfirst.trans hchosen
  cases hx with
  | @blank c hc =>
    by_cases hnewline : c = '\n'
    · subst hnewline
      exact leads_newline hsize hs hline
    · have hblank : c = ' ' ∨ c = '\r' ∨ c = '\t' := by
        simpa [blankCharacters, hnewline] using isWhitespace_iff.mp hc
      exact hchosen hs hnewline (.single (.reading (by simp)) (choose_blank hblank))
  | comment hbody => exact hchosen hs (by decide) (leads_comment hsize hbody hends hs)
  | @unknown c hc =>
    have hne : c ≠ '\n' := ne_of_apply_ne beginsNothing (by rw [hc]; decide)
    exact hchosen hs hne (leads_unknown hc hne)
  | openString hbody =>
    obtain rfl : rest = [] := hends
    exact hchosen hs (by decide) (leads_openString hsize hbody hs hline)
  | lexeme hl =>
    cases hl with
    | symbol t =>
      have hne : ∀ {c t}, Symbol.ofChar? c = some t → c ≠ '\n' := by
        rintro c t hc rfl
        cases hc
      rcases Piece.symbol_cases t with ⟨c, hc, htext⟩ | ⟨c, plain, hc, hlonger, htext⟩
      · rw [Piece.text, Lexeme.text, htext] at hs
        exact hchosen hs (hne hc) (leads_symbol hc htext hends hs)
      · rw [Piece.text, Lexeme.text, htext] at hs
        exact hchosen hs (hne hc) (leads_longer hsize hc hlonger htext hs)
    | string hcontent =>
      exact hchosen hs (by decide) (leads_string hsize hcontent hs hline)
    | @number d ds fraction hd hds hfraction =>
      have hne : d ≠ '\n' := ne_of_apply_ne Char.isDigit (by rw [hd]; decide)
      have hmade := leads_number hsize hd hds hfraction hends hs
      cases fraction with
      | nil => exact hchosen hs hne hmade
      | cons => exact hchosen hs hne hmade
    | @word c letters hc hletters =>
      have hne : c ≠ '\n' := ne_of_apply_ne Char.isAlpha (by rw [hc]; decide)
      exact hchosen hs hne (leads_word hsize hc hletters hends hs)

end

end Machine

end LoxTokens
