import LoxTokens.Proofs.Cursor.Machine
import LoxTokens.Proofs.Source.Characters
import LoxTokens.Proofs.Text.Place

/-!
# What holds of the cursor at every step

`Cursor.Fits` ties the four numbers of a cursor to the source: the lexeme begins where a
character begins, the cursor stands where one begins, in this order, and the lines are no
more than the bytes in front of the cursor allow. That alone does not carry the machine on.
It counts the newline of a string before it passes over it, and takes the quotes from a
string by single bytes, so some tasks rely on what was read before; `Cursor.Ready` says on
what.

`Cursor.Sound.step` says that both hold again after a step, and that there is one: the
machine never reads outside the source or inside a character, and its sums and differences
stay in its words.
-/

namespace LoxTokens

variable {σ : Type} {m : Machine σ} {s : Cursor σ} {front rest : List Char} {c : Char}

theorem isValid_iff_exists_toList {source : String} {k : Nat} :
    String.Pos.Raw.IsValid source ⟨k⟩ ↔ ∃ front rest, source.toList = front ++ rest ∧
      k = (String.ofList front).utf8ByteSize := by
  rw [String.Pos.Raw.isValid_iff_exists_append]
  constructor
  · rintro ⟨front, rest, hsource, hk⟩
    refine ⟨front.toList, rest.toList, ?_, ?_⟩
    · rw [hsource, String.toList_append]
    · rw [String.ofList_toList]
      exact congrArg String.Pos.Raw.byteIdx hk
  · rintro ⟨front, rest, hsource, hk⟩
    refine ⟨String.ofList front, String.ofList rest, ?_, ?_⟩
    · rw [← String.ofList_append, ← hsource, String.ofList_toList]
    · rw [hk]
      rfl

theorem slice?_eq_some {source : String} {text : List Char}
    (h : source.toList = front ++ (text ++ rest)) :
    slice? source (String.ofList front).utf8ByteSize (String.ofList (front ++ text)).utf8ByteSize =
      some (String.ofList text) := by
  have hsource : source = String.ofList front ++ (String.ofList text ++ String.ofList rest) := by
    rw [← String.ofList_append, ← String.ofList_append, ← h, String.ofList_toList]
  obtain ⟨first, hfirst⟩ := exists_splits hsource
  obtain ⟨last, hlast⟩ := exists_splits (hsource.trans String.append_assoc.symm)
  have hbytes : last.offset.byteIdx = first.offset.byteIdx + (String.ofList text).utf8ByteSize := by
    rw [hlast.offset_eq_rawEndPos, hfirst.offset_eq_rawEndPos, String.byteIdx_rawEndPos,
      String.byteIdx_rawEndPos, String.utf8ByteSize_append]
  have hslice : slice? source first.offset.byteIdx last.offset.byteIdx =
      some (source.extract first last) :=
    dif_pos ⟨by omega, first.isValid, last.isValid⟩
  rwa [extract_of_splits hfirst hlast, hlast.offset_eq_rawEndPos, hfirst.offset_eq_rawEndPos,
    String.byteIdx_rawEndPos, String.byteIdx_rawEndPos, ← String.ofList_append] at hslice

theorem exists_slice? {source : String} {first last : Nat} (hle : first ≤ last)
    (hfirst : String.Pos.Raw.IsValid source ⟨first⟩)
    (hlast : String.Pos.Raw.IsValid source ⟨last⟩) : ∃ text, slice? source first last = some text :=
  ⟨_, dif_pos ⟨hle, hfirst, hlast⟩⟩

namespace Machine

/-- The cursor stands between `front` and `rest`. -/
structure Between (m : Machine σ) (s : Cursor σ) (front rest : List Char) : Prop where
  source : m.source.toList = front ++ rest
  current : s.current = (String.ofList front).utf8ByteSize

/-- A source of at most half as many bytes as there are numbers leaves room for one more. -/
theorem add?_eq (hsize : m.source.utf8ByteSize < 2 ^ m.bits) {k n : Nat}
    (h : k + n ≤ m.source.utf8ByteSize + 1) : m.add? k n = some (k + n) := by
  have hpow : 2 ^ (m.bits + 1) = 2 ^ m.bits * 2 := Nat.pow_succ 2 m.bits
  exact if_pos (by omega)

theorem countLine_eq (hsize : m.source.utf8ByteSize < 2 ^ m.bits)
    (hline : s.line ≤ m.source.utf8ByteSize) (task : Task) :
    m.countLine task s = some (s.counted task) := by
  simp [countLine, add?_eq hsize (Nat.add_le_add_right hline 1), Cursor.counted]

namespace Between

theorem size (h : m.Between s front rest) :
    m.source.utf8ByteSize = s.current + (String.ofList rest).utf8ByteSize := by
  rw [h.current, ← String.utf8ByteSize_append, ← String.ofList_append, ← h.source,
    String.ofList_toList]

theorem valid (h : m.Between s front rest) : String.Pos.Raw.IsValid m.source ⟨s.current⟩ :=
  isValid_iff_exists_toList.mpr ⟨front, rest, h.source, h.current⟩

theorem slice (h : m.Between s front rest) :
    slice? m.source s.current m.source.utf8ByteSize = some (String.ofList rest) := by
  have hsource : m.source.toList = front ++ (rest ++ []) := by rw [List.append_nil, h.source]
  have hslice := slice?_eq_some hsource
  rwa [← h.source, String.ofList_toList, ← h.current] at hslice

theorem peek (h : m.Between s front rest) : m.peek s = some rest.head? := by
  simp [Machine.peek, h.slice]

theorem peekNext (h : m.Between s front rest) : m.peekNext s = some rest[1]? := by
  simp [Machine.peekNext, h.slice]

theorem atEnd_iff (h : m.Between s front rest) : m.atEnd s = true ↔ rest = [] := by
  rw [atEnd, decide_eq_true_iff, h.size, add_le_iff_nonpos_right, Nat.le_zero,
    String.utf8ByteSize_eq_zero_iff, String.ofList_eq_empty_iff]

theorem size_cons (h : m.Between s front (c :: rest)) :
    s.current + c.utf8Size ≤ m.source.utf8ByteSize := by
  rw [h.size, String.ofList_cons, String.utf8ByteSize_append, String.utf8ByteSize_singleton]
  omega

theorem passed (h : m.Between s front (c :: rest)) (task : Task) :
    m.Between (s.passed c task) (front ++ [c]) rest := by
  refine ⟨by rw [h.source, List.append_assoc, List.singleton_append], ?_⟩
  rw [String.ofList_append, String.utf8ByteSize_append, ← h.current,
    ← String.singleton_eq_ofList, String.utf8ByteSize_singleton]
  rfl

theorem advance (hsize : m.source.utf8ByteSize < 2 ^ m.bits)
    (h : m.Between s front (c :: rest)) :
    m.advance s = some (some c, { s with current := s.current + c.utf8Size }) := by
  simp [Machine.advance, h.peek, add?_eq hsize (h.size_cons.trans (Nat.le_succ _))]

theorem pass (hsize : m.source.utf8ByteSize < 2 ^ m.bits)
    (h : m.Between s front (c :: rest)) (task : Task) :
    m.pass task s = some (s.passed c task) := by
  simp [Machine.pass, h.advance hsize, Cursor.goto, Cursor.passed]

theorem step_first (hsize : m.source.utf8ByteSize < 2 ^ m.bits)
    (h : m.Between s front (c :: rest)) (htask : s.task = .first) :
    m.step s = some (s.passed c (.choose c)) := by
  simp [step, htask, h.advance hsize, Cursor.goto, Cursor.passed]

theorem passIf_cons (hsize : m.source.utf8ByteSize < 2 ^ m.bits)
    (h : m.Between s front (c :: rest)) (task otherwise : Task) :
    m.passIf c task otherwise s = some (s.passed c task) := by
  simp [Machine.passIf, h.peek, h.pass hsize]

theorem passIf_ne (h : m.Between s front rest) (hc : rest.head? ≠ some c)
    (task otherwise : Task) : m.passIf c task otherwise s = some (s.goto otherwise) := by
  simp [Machine.passIf, h.peek, hc]

theorem passWhile_cons (hsize : m.source.utf8ByteSize < 2 ^ m.bits)
    (h : m.Between s front (c :: rest)) {p : Char → Bool} (hc : p c = true) (task : Task) :
    m.passWhile p task s = some (s.passed c s.task) := by
  simp [Machine.passWhile, h.peek, hc, h.pass hsize]

theorem passWhile_end (h : m.Between s front rest) {p : Char → Bool} (hends : RunEnds p rest)
    (task : Task) : m.passWhile p task s = some (s.goto task) := by
  cases rest with
  | nil => simp [Machine.passWhile, h.peek]
  | cons c rest => simp [Machine.passWhile, h.peek, RunEnds.cons_iff.mp hends]

theorem readString_cons (hsize : m.source.utf8ByteSize < 2 ^ m.bits)
    (h : m.Between s front (c :: rest)) (hquote : c ≠ '"') (hnewline : c ≠ '\n') :
    m.readString s = some (s.passed c .string) := by
  simp [Machine.readString, h.peek, hquote, hnewline, h.pass hsize]

theorem readString_newline (h : m.Between s front ('\n' :: rest)) :
    m.readString s = m.countLine .newline s := by
  simp [Machine.readString, h.peek]

theorem readString_end (h : m.Between s front rest) (hends : RunEnds (· != '"') rest) :
    m.readString s = some (s.goto .quote) := by
  cases rest with
  | nil => simp [Machine.readString, h.peek]
  | cons c rest =>
    obtain rfl : c = '"' := by simpa using RunEnds.cons_iff.mp hends
    simp [Machine.readString, h.peek]

theorem readQuote_nil (h : m.Between s front []) :
    m.readQuote s = some (m.tell .unterminatedString s) :=
  if_pos (h.atEnd_iff.mpr rfl)

theorem readQuote_cons (hsize : m.source.utf8ByteSize < 2 ^ m.bits)
    (h : m.Between s front (c :: rest)) : m.readQuote s = some (s.passed c .close) := by
  rw [readQuote, if_neg (fun hend => List.cons_ne_nil _ _ (h.atEnd_iff.mp hend)), h.pass hsize]

theorem readPoint_cons (hsize : m.source.utf8ByteSize < 2 ^ m.bits) {d : Char}
    (h : m.Between s front ('.' :: d :: rest)) (hd : d.isDigit = true) :
    m.readPoint s = some (s.passed '.' .fraction) := by
  simp [Machine.readPoint, h.peek, h.peekNext, hd, h.pass hsize]

theorem readPoint_ne (h : m.Between s front rest)
    (hpoint : ∀ d ds, rest = '.' :: d :: ds → d.isDigit = false) :
    m.readPoint s = some (s.goto .number) := by
  simp only [Machine.readPoint, h.peek, h.peekNext, Option.bind_eq_bind, Option.bind_some]
  match rest, hpoint with
  | [], _ => rfl
  | [d], _ => simp
  | d :: e :: ds, hpoint =>
    by_cases hd : d = '.'
    · simp [hd, hpoint e ds (by rw [hd])]
    · simp [hd]

end Between

end Machine

/-- Whether the machine takes up the task without relying on what was read before. -/
def Task.isFree : Task → Bool
  | .markLine | .first | .choose _ | .string | .newline | .quote | .close => false
  | _ => true

namespace Cursor

/-- The lexeme begins at a place of the source and the cursor stands at one, not in front of
it. The lines count from one, and go up by no more than the bytes in front of the cursor. -/
structure Fits (s : Cursor σ) (source : String) : Prop where
  start_le : s.start ≤ s.current
  current_le : s.current ≤ source.utf8ByteSize
  start_valid : String.Pos.Raw.IsValid source ⟨s.start⟩
  current_valid : String.Pos.Raw.IsValid source ⟨s.current⟩
  one_le_startLine : 1 ≤ s.startLine
  startLine_le : s.startLine ≤ s.line
  line_le : s.line ≤ 1 + s.current

/-- The lexeme begins with a character of one byte, and the cursor stands behind that. -/
structure Opened (s : Cursor σ) (source : String) : Prop where
  lt_current : s.start < s.current
  valid : String.Pos.Raw.IsValid source ⟨s.start + 1⟩

/-- What the machine relies on at its task. At most tasks this is nothing, as `Task.isFree`
says. -/
def Ready (m : Machine σ) (s : Cursor σ) : Prop :=
  match s.task with
  | .markLine | .first => s.start = s.current
  | .choose c => s.start + c.utf8Size = s.current ∧ s.line ≤ s.current
  | .string => s.Opened m.source ∧ s.line ≤ s.current
  | .newline => s.Opened m.source ∧ m.peek s = some (some '\n')
  | .quote => s.Opened m.source ∧ ∀ c, m.peek s = some (some c) → c = '"'
  | .close => s.Opened m.source ∧ s.start + 2 ≤ s.current ∧
      String.Pos.Raw.IsValid m.source ⟨s.current - 1⟩
  | _ => True

structure Sound (m : Machine σ) (s : Cursor σ) : Prop where
  fits : s.Fits m.source
  ready : s.Ready m

namespace Fits

theorem initial (source : String) (sink : σ) : (Cursor.initial sink).Fits source where
  start_le := Nat.le_refl 0
  current_le := Nat.zero_le _
  start_valid := String.Pos.Raw.isValid_zero
  current_valid := String.Pos.Raw.isValid_zero
  one_le_startLine := Nat.le_refl 1
  startLine_le := Nat.le_refl 1
  line_le := Nat.le_refl 1

/-- Nothing but the numbers of a cursor matters. -/
theorem congr {source : String} {t : Cursor σ} (h : s.Fits source) (hstart : t.start = s.start)
    (hcurrent : t.current = s.current) (hstartLine : t.startLine = s.startLine)
    (hline : t.line = s.line) : t.Fits source := by
  obtain ⟨h₁, h₂, h₃, h₄, h₅, h₆, h₇⟩ := h
  constructor <;> simpa only [hstart, hcurrent, hstartLine, hline]

theorem goto {source : String} (h : s.Fits source) (task : Task) : (s.goto task).Fits source :=
  h.congr rfl rfl rfl rfl

theorem exists_between (h : s.Fits m.source) : ∃ front rest, m.Between s front rest := by
  obtain ⟨front, rest, hsource, hcurrent⟩ := isValid_iff_exists_toList.mp h.current_valid
  exact ⟨front, rest, hsource, hcurrent⟩

theorem passed (h : s.Fits m.source) (hs : m.Between s front (c :: rest)) (task : Task) :
    (s.passed c task).Fits m.source where
  start_le := h.start_le.trans (Nat.le_add_right _ _)
  current_le := hs.size_cons
  start_valid := h.start_valid
  current_valid := (hs.passed task).valid
  one_le_startLine := h.one_le_startLine
  startLine_le := h.startLine_le
  line_le := h.line_le.trans (Nat.add_le_add_left (Nat.le_add_right _ _) 1)

/-- The line may go up where the bytes have not used it up. -/
theorem counted {source : String} (h : s.Fits source) (hline : s.line ≤ s.current)
    (task : Task) : (s.counted task).Fits source :=
  { h with
    startLine_le := h.startLine_le.trans (Nat.le_succ _)
    line_le := (Nat.add_le_add_right hline 1).trans_eq (Nat.add_comm _ _) }

end Fits

namespace Sound

theorem initial (m : Machine σ) (sink : σ) : (Cursor.initial sink).Sound m :=
  ⟨.initial m.source sink, trivial⟩

theorem of_free (h : s.Fits m.source) (hfree : s.task.isFree = true) : s.Sound m := by
  refine ⟨h, ?_⟩
  unfold Ready
  generalize s.task = task at hfree ⊢
  cases task with
  | markLine | first | choose | string | newline | quote | close => cases hfree
  | _ => trivial

theorem push (h : s.Fits m.source) (kind : Kind) (literal : Option Literal) :
    ∃ t, m.push kind literal s = some t ∧ t.Sound m := by
  obtain ⟨text, htext⟩ := exists_slice? h.start_le h.start_valid h.current_valid
  have hpush : m.push kind literal s = some { s with
      task := .head
      tokens := s.tokens.push ⟨kind, text, literal, s.startLine, ⟨s.start, s.current⟩⟩ } := by
    simp [Machine.push, Machine.lexeme, htext]
  exact ⟨_, hpush, of_free (h.congr rfl rfl rfl rfl) rfl⟩

theorem passIf (hsize : m.source.utf8ByteSize < 2 ^ m.bits) (h : s.Fits m.source) (c : Char)
    {task otherwise : Task} (htask : task.isFree = true) (hotherwise : otherwise.isFree = true) :
    ∃ t, m.passIf c task otherwise s = some t ∧ t.Sound m := by
  obtain ⟨front, rest, hs⟩ := h.exists_between
  by_cases hc : rest.head? = some c
  · obtain ⟨rest, rfl⟩ := List.head?_eq_some_iff.mp hc
    exact ⟨_, hs.passIf_cons hsize task otherwise, of_free (h.passed hs task) htask⟩
  · exact ⟨_, hs.passIf_ne hc task otherwise, of_free (h.goto otherwise) hotherwise⟩

theorem passWhile (hsize : m.source.utf8ByteSize < 2 ^ m.bits) (h : s.Fits m.source)
    (p : Char → Bool) {task : Task} (hs : s.task.isFree = true) (htask : task.isFree = true) :
    ∃ t, m.passWhile p task s = some t ∧ t.Sound m := by
  obtain ⟨front, rest, hbetween⟩ := h.exists_between
  by_cases hends : RunEnds p rest
  · exact ⟨_, hbetween.passWhile_end hends task, of_free (h.goto task) htask⟩
  · obtain ⟨c, rest, rfl⟩ : ∃ c cs, rest = c :: cs :=
      List.exists_cons_of_ne_nil fun h => hends (h ▸ RunEnds.nil p)
    have hc : p c = true := by simpa [RunEnds.cons_iff] using hends
    exact ⟨_, hbetween.passWhile_cons hsize hc task, of_free (h.passed hbetween s.task) hs⟩

theorem advance_first (hsize : m.source.utf8ByteSize < 2 ^ m.bits) (h : s.Sound m)
    (htask : s.task = .first) : ∃ t, m.step s = some t ∧ t.Sound m := by
  obtain ⟨hfits, hready⟩ := h
  have hstart : s.start = s.current := by simpa [Ready, htask] using hready
  obtain ⟨front, rest, hs⟩ := hfits.exists_between
  cases rest with
  | nil =>
    refine ⟨s.goto .head, ?_, of_free (hfits.goto .head) rfl⟩
    simp [Machine.step, htask, Machine.advance, hs.peek]
  | cons c rest =>
    refine ⟨_, hs.step_first hsize htask, hfits.passed hs _, ?_, ?_⟩
    · exact congrArg (· + c.utf8Size) hstart
    · have hpos := c.utf8Size_pos
      have hline := hfits.line_le
      simp only [Cursor.passed]
      omega

/-- Behind a first character the machine goes on with what relies on nothing, but for a string. -/
theorem choose (hsize : m.source.utf8ByteSize < 2 ^ m.bits) (h : s.Sound m)
    (htask : s.task = .choose c) : ∃ t, m.choose c s = some t ∧ t.Sound m := by
  obtain ⟨hfits, hready⟩ := h
  obtain ⟨hstart, hline⟩ : s.start + c.utf8Size = s.current ∧ s.line ≤ s.current := by
    simpa [Ready, htask] using hready
  have hgoto : ∀ task, (s.goto task).Ready m → ∃ t, some (s.goto task) = some t ∧ t.Sound m :=
    fun task hready => ⟨_, rfl, hfits.goto task, hready⟩
  unfold Machine.choose
  split
  next => exact hgoto _ trivial
  next =>
    split
    next => exact hgoto _ trivial
    next => exact hgoto _ trivial
  next =>
    split
    next => exact hgoto _ trivial
    split
    next =>
      exact ⟨_, Machine.countLine_eq hsize (hline.trans hfits.current_le) .head,
        of_free (hfits.counted hline .head) rfl⟩
    split
    next hquote =>
      subst hquote
      refine hgoto _ ⟨⟨?_, ?_⟩, hline⟩
      · exact hstart ▸ Nat.lt_succ_self s.start
      · exact hstart ▸ hfits.current_valid
    split
    next => exact hgoto _ trivial
    split
    next => exact hgoto _ trivial
    split
    next => exact ⟨_, rfl, of_free (hfits.congr rfl rfl rfl rfl) rfl⟩
    next => exact hgoto _ trivial

theorem readString (hsize : m.source.utf8ByteSize < 2 ^ m.bits) (h : s.Sound m)
    (htask : s.task = .string) : ∃ t, m.readString s = some t ∧ t.Sound m := by
  obtain ⟨hfits, hready⟩ := h
  obtain ⟨⟨hlt, hvalid⟩, hline⟩ : s.Opened m.source ∧ s.line ≤ s.current := by
    simpa [Ready, htask] using hready
  obtain ⟨front, rest, hs⟩ := hfits.exists_between
  by_cases hends : RunEnds (· != '"') rest
  · refine ⟨s.goto .quote, hs.readString_end hends, hfits.goto .quote, ⟨hlt, hvalid⟩, ?_⟩
    intro c hpeek
    have hhead : rest.head? = some c := Option.some.inj (hs.peek.symm.trans hpeek)
    simpa using hends c hhead
  obtain ⟨c, rest, rfl⟩ : ∃ c cs, rest = c :: cs :=
    List.exists_cons_of_ne_nil fun h => hends (h ▸ RunEnds.nil _)
  have hquote : c ≠ '"' := by simpa [RunEnds.cons_iff] using hends
  by_cases hnewline : c = '\n'
  · subst hnewline
    have hcount := Machine.countLine_eq hsize (hline.trans hfits.current_le) .newline
    exact ⟨_, hs.readString_newline.trans hcount, hfits.counted hline .newline,
      ⟨hlt, hvalid⟩, hs.peek⟩
  · refine ⟨_, hs.readString_cons hsize hquote hnewline, hfits.passed hs .string, ⟨?_, hvalid⟩, ?_⟩
    · exact hlt.trans_le (Nat.le_add_right _ _)
    · exact hline.trans (Nat.le_add_right _ _)

/-- The newline has been counted, and the byte it takes makes up for that. -/
theorem passNewline (hsize : m.source.utf8ByteSize < 2 ^ m.bits) (h : s.Sound m)
    (htask : s.task = .newline) : ∃ t, m.pass .string s = some t ∧ t.Sound m := by
  obtain ⟨hfits, hready⟩ := h
  obtain ⟨hopened, hpeek⟩ : s.Opened m.source ∧ m.peek s = some (some '\n') := by
    simpa [Ready, htask] using hready
  obtain ⟨front, rest, hs⟩ := hfits.exists_between
  obtain ⟨rest, rfl⟩ : ∃ tail, rest = '\n' :: tail := by
    rw [hs.peek, Option.some.injEq] at hpeek
    exact List.head?_eq_some_iff.mp hpeek
  refine ⟨_, hs.pass hsize .string, hfits.passed hs .string, ?_, ?_⟩
  · exact ⟨hopened.lt_current.trans_le (Nat.le_add_right _ _), hopened.valid⟩
  · exact hfits.line_le.trans_eq (Nat.add_comm _ _)

theorem readQuote (hsize : m.source.utf8ByteSize < 2 ^ m.bits) (h : s.Sound m)
    (htask : s.task = .quote) : ∃ t, m.readQuote s = some t ∧ t.Sound m := by
  obtain ⟨hfits, hready⟩ := h
  obtain ⟨hopened, hquote⟩ :
      s.Opened m.source ∧ ∀ c, m.peek s = some (some c) → c = '"' := by
    simpa [Ready, htask] using hready
  obtain ⟨front, rest, hs⟩ := hfits.exists_between
  cases rest with
  | nil => exact ⟨_, hs.readQuote_nil, of_free (hfits.congr rfl rfl rfl rfl) rfl⟩
  | cons c rest =>
    obtain rfl : c = '"' := hquote c hs.peek
    refine ⟨_, hs.readQuote_cons hsize, hfits.passed hs .close, ⟨?_, hopened.valid⟩, ?_, ?_⟩
    · exact hopened.lt_current.trans_le (Nat.le_add_right _ _)
    · exact Nat.succ_le_succ hopened.lt_current
    · exact hfits.current_valid

theorem closeString (hsize : m.source.utf8ByteSize < 2 ^ m.bits) (h : s.Sound m)
    (htask : s.task = .close) : ∃ t, m.closeString s = some t ∧ t.Sound m := by
  obtain ⟨hfits, hready⟩ := h
  obtain ⟨hopened, htwo, hlast⟩ : s.Opened m.source ∧ s.start + 2 ≤ s.current ∧
      String.Pos.Raw.IsValid m.source ⟨s.current - 1⟩ := by
    simpa [Ready, htask] using hready
  have hadd : m.add? s.start 1 = some (s.start + 1) :=
    Machine.add?_eq hsize
      (Nat.add_le_add_right (hfits.start_le.trans hfits.current_le) 1)
  have hsub : Machine.sub? s.current 1 = some (s.current - 1) := if_pos (by omega)
  obtain ⟨content, hcontent⟩ := exists_slice? (by omega) hopened.valid hlast
  obtain ⟨t, ht, hsound⟩ := push hfits .string (some (.string content))
  exact ⟨t, by simp [Machine.closeString, hadd, hsub, hcontent, ht], hsound⟩

theorem readPoint (hsize : m.source.utf8ByteSize < 2 ^ m.bits) (h : s.Fits m.source) :
    ∃ t, m.readPoint s = some t ∧ t.Sound m := by
  obtain ⟨front, rest, hs⟩ := h.exists_between
  by_cases hpoint : ∃ d ds, rest = '.' :: d :: ds ∧ d.isDigit = true
  · obtain ⟨d, ds, rfl, hd⟩ := hpoint
    exact ⟨_, hs.readPoint_cons hsize hd, h.passed hs .fraction, trivial⟩
  · refine ⟨_, hs.readPoint_ne fun d ds hrest => ?_, h.goto .number, trivial⟩
    exact Bool.eq_false_iff.mpr fun hd => hpoint ⟨d, ds, hrest, hd⟩

/-- The machine has a next step, and behind it everything holds again. -/
theorem step (hsize : m.source.utf8ByteSize < 2 ^ m.bits) (h : s.Sound m) :
    ∃ t, m.step s = some t ∧ t.Sound m := by
  have hfits := h.fits
  cases htask : s.task with
  | head =>
    by_cases hend : m.atEnd s
    · refine ⟨m.finish s, by simp [Machine.step, htask, hend], hfits.congr rfl rfl rfl rfl, trivial⟩
    · exact ⟨s.goto .markStart, by simp [Machine.step, htask, hend], hfits.goto _, trivial⟩
  | markStart =>
    refine ⟨{ s with task := .markLine, start := s.current }, by rw [Machine.step, htask], ?_, rfl⟩
    exact { hfits with start_le := Nat.le_refl _, start_valid := hfits.current_valid }
  | markLine =>
    refine ⟨_, by rw [Machine.step, htask], ?_, by simpa [Ready, htask] using h.ready⟩
    exact { hfits with
      one_le_startLine := hfits.one_le_startLine.trans hfits.startLine_le
      startLine_le := Nat.le_refl _ }
  | first => exact advance_first hsize h htask
  | choose c =>
    simp only [Machine.step, htask]
    exact choose hsize h htask
  | operator | slash =>
    simp only [Machine.step, htask]
    exact passIf hsize hfits _ rfl rfl
  | comment | whole | fraction | word =>
    simp only [Machine.step, htask]
    exact passWhile hsize hfits _ (by rw [htask]; rfl) rfl
  | string =>
    simp only [Machine.step, htask]
    exact readString hsize h htask
  | newline =>
    simp only [Machine.step, htask]
    exact passNewline hsize h htask
  | quote =>
    simp only [Machine.step, htask]
    exact readQuote hsize h htask
  | point =>
    simp only [Machine.step, htask]
    exact readPoint hsize hfits
  | symbol t =>
    simp only [Machine.step, htask]
    exact push hfits _ _
  | close =>
    simp only [Machine.step, htask]
    exact closeString hsize h htask
  | number | name =>
    obtain ⟨text, htext⟩ := exists_slice? hfits.start_le hfits.start_valid hfits.current_valid
    simp only [Machine.step, htask, Machine.lexeme, htext, Option.bind_eq_bind, Option.bind_some]
    exact push hfits _ _
  | stop => exact ⟨s, by rw [Machine.step, htask], h⟩

/-- Every number of steps can be done, and leaves everything as it should be. -/
theorem run (hsize : m.source.utf8ByteSize < 2 ^ m.bits) (h : s.Sound m) (n : Nat) :
    ∃ t, m.run n s = some t ∧ t.Sound m := by
  induction n generalizing s with
  | zero => exact ⟨s, rfl, h⟩
  | succ n ih =>
    obtain ⟨t, ht, hsound⟩ := h.step hsize
    obtain ⟨u, hu, husound⟩ := ih hsound
    exact ⟨u, by simp [Machine.run, ht, hu], husound⟩

end Sound

end Cursor

end LoxTokens
