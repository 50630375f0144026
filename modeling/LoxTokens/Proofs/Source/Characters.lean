import Mathlib
import LoxTokens.Token.Symbol

/-!
# Runs of characters and what a character begins

Comments, strings, numbers and words are runs of characters of one sort. What a run
takes and where it ends are settled by the sort of its characters and by the first
character behind it. The sorts that matter do not overlap: a character is a blank, a
quote, a letter, a digit, the beginning of a symbol, or begins nothing.
-/

namespace LoxTokens

/-- A run of characters that satisfy `p` ends before `rest`. -/
def RunEnds (p : Char → Bool) (rest : List Char) : Prop :=
  ∀ c, rest.head? = some c → p c = false

namespace RunEnds

theorem nil (p : Char → Bool) : RunEnds p [] := by
  intro c hc
  simp at hc

theorem cons_iff {p : Char → Bool} {c : Char} {cs : List Char} :
    RunEnds p (c :: cs) ↔ p c = false := by
  simp [RunEnds]

/-- Only the next character matters, so less may follow. -/
theorem of_append {p : Char → Bool} {xs ys : List Char} (h : RunEnds p (xs ++ ys)) :
    RunEnds p xs := by
  cases xs with
  | nil => exact nil p
  | cons x xs => exact cons_iff.mpr (cons_iff.mp h)

theorem dropWhile (p : Char → Bool) (cs : List Char) : RunEnds p (cs.dropWhile p) := by
  intro c hc
  have h := List.head?_dropWhile_not p cs
  rw [hc] at h
  simpa using h

theorem takeWhile_append {p : Char → Bool} {xs rest : List Char} (hrest : RunEnds p rest)
    (hxs : ∀ c ∈ xs, p c = true) : (xs ++ rest).takeWhile p = xs := by
  rw [List.takeWhile_append_of_pos hxs]
  cases rest with
  | nil => simp
  | cons c cs => simp [cons_iff.mp hrest]

theorem dropWhile_append {p : Char → Bool} {xs rest : List Char} (hrest : RunEnds p rest)
    (hxs : ∀ c ∈ xs, p c = true) : (xs ++ rest).dropWhile p = rest := by
  rw [List.dropWhile_append_of_pos hxs]
  cases rest with
  | nil => rfl
  | cons c cs => simp [cons_iff.mp hrest]

end RunEnds

theorem all_takeWhile {p : Char → Bool} {cs : List Char} :
    ∀ c ∈ cs.takeWhile p, p c = true := by
  have h := List.all_takeWhile (p := p) (l := cs)
  simpa only [List.all_eq_true] using h

theorem not_mem_takeWhile_ne (d : Char) (cs : List Char) : d ∉ cs.takeWhile (· != d) := by
  intro hd
  have h := all_takeWhile d hd
  simp at h

theorem ne_of_not_mem {d : Char} {cs : List Char} (h : d ∉ cs) :
    ∀ c ∈ cs, (c != d) = true := by
  intro c hc
  have hcd : c ≠ d := fun he => h (he ▸ hc)
  simpa using hcd

/-- The characters that a symbol can begin with. -/
def symbolCharacters : List Char :=
  ['(', ')', '{', '}', ',', '.', '-', '+', ';', '*', '!', '=', '<', '>', '/']

def blankCharacters : List Char := [' ', '\r', '\t', '\n']

/-- Whether a character begins nothing: it is no letter, no digit, no symbol, no blank
and no quote. -/
def beginsNothing (c : Char) : Bool :=
  !(c.isAlphanum || symbolCharacters.contains c || blankCharacters.contains c || c == '"')

theorem mem_symbolCharacters {c : Char} {s : Symbol} (h : Symbol.ofChar? c = some s) :
    c ∈ symbolCharacters := by
  unfold Symbol.ofChar? at h
  split at h <;> first | decide | cases h

theorem ofChar?_eq_none_iff {c : Char} : Symbol.ofChar? c = none ↔ c ∉ symbolCharacters := by
  constructor
  · have hall : ∀ d ∈ symbolCharacters, Symbol.ofChar? d ≠ none := by
      simp [symbolCharacters, Symbol.ofChar?]
    exact fun hn hm => hall c hm hn
  · intro hm
    cases hs : Symbol.ofChar? c with
    | none => rfl
    | some s => exact absurd (mem_symbolCharacters hs) hm

theorem beginsNothing_iff {c : Char} :
    beginsNothing c = true ↔ c.isWhitespace = false ∧ c ≠ '"' ∧ c.isDigit = false ∧
      c.isAlpha = false ∧ Symbol.ofChar? c = none := by
  rw [ofChar?_eq_none_iff]
  simp [beginsNothing, blankCharacters, Char.isAlphanum, Char.isWhitespace]
  grind

/-- A character with a symbol of its own begins nothing else. -/
theorem plain_of_ofChar? {c : Char} {s : Symbol} (h : Symbol.ofChar? c = some s) :
    c.isWhitespace = false ∧ c ≠ '"' ∧ c.isDigit = false ∧ c.isAlpha = false := by
  have hall : ∀ d ∈ symbolCharacters,
      d.isWhitespace = false ∧ d ≠ '"' ∧ d.isDigit = false ∧ d.isAlpha = false := by
    simp [symbolCharacters]
  exact hall c (mem_symbolCharacters h)

theorem isWhitespace_iff {c : Char} :
    c.isWhitespace = true ↔ c ∈ blankCharacters := by
  simp [blankCharacters, Char.isWhitespace]
  grind

/-- Letters and digits are no blanks, no quotes and no symbols. -/
theorem plain_of_isAlphanum {c : Char} (h : c.isAlphanum = true) :
    c.isWhitespace = false ∧ c ≠ '"' ∧ c ∉ symbolCharacters := by
  have hblanks : ∀ d ∈ blankCharacters, d.isAlphanum = false := by simp [blankCharacters]
  have hsymbols : ∀ d ∈ symbolCharacters, d.isAlphanum = false := by simp [symbolCharacters]
  refine ⟨?_, ?_, ?_⟩
  · by_contra hw
    rw [hblanks c (isWhitespace_iff.mp (by simpa using hw))] at h
    cases h
  · rintro rfl
    exact absurd h (by decide)
  · intro hm
    rw [hsymbols c hm] at h
    cases h

theorem isAlphanum_of_isDigit {c : Char} (h : c.isDigit = true) : c.isAlphanum = true := by
  simp [Char.isAlphanum, h]

theorem isAlphanum_of_isAlpha {c : Char} (h : c.isAlpha = true) : c.isAlphanum = true := by
  simp [Char.isAlphanum, h]

theorem isDigit_of_isAlpha {c : Char} (h : c.isAlpha = true) : c.isDigit = false := by
  simp only [Char.isAlpha, Char.isUpper, Char.isLower, Char.isDigit, Bool.or_eq_true,
    Bool.and_eq_true, decide_eq_true_eq, Bool.and_eq_false_iff, decide_eq_false_iff_not,
    UInt32.le_iff_toNat_le, ge_iff_le] at h ⊢
  have h0 : 'A'.val.toNat = 65 := rfl
  have h1 : 'a'.val.toNat = 97 := rfl
  have h2 : '9'.val.toNat = 57 := rfl
  omega

/-- Nothing begins with a character beyond ASCII. -/
theorem beginsNothing_of_isAscii {c : Char} (h : c.isAscii = false) : beginsNothing c = true := by
  have hletters : c.isAlphanum = false := by
    have hc : 128 ≤ c.val.toNat := by simpa [Char.isAscii] using h
    have h0 : 'Z'.val.toNat = 90 := rfl
    have h1 : 'z'.val.toNat = 122 := rfl
    have h2 : '9'.val.toNat = 57 := rfl
    simp only [Char.isAlphanum, Char.isAlpha, Char.isUpper, Char.isLower, Char.isDigit,
      Bool.or_eq_false_iff, Bool.and_eq_false_iff, decide_eq_false_iff_not,
      UInt32.le_iff_toNat_le, ge_iff_le]
    omega
  have hall : ∀ d ∈ '"' :: (symbolCharacters ++ blankCharacters), d.isAscii = true := by
    simp [symbolCharacters, blankCharacters, Char.isAscii]
  have hothers : c ∉ '"' :: (symbolCharacters ++ blankCharacters) := by
    intro hm
    rw [hall c hm] at h
    cases h
  simp only [List.mem_cons, List.mem_append, not_or] at hothers
  simp [beginsNothing, hletters, hothers]

/-- Whether no word, number or symbol goes on with the character: it is a blank, or it
begins nothing. -/
def idle (c : Char) : Bool := blankCharacters.contains c || beginsNothing c

theorem idle_of_mem_blankCharacters {c : Char} (h : c ∈ blankCharacters) : idle c = true := by
  simp [idle, h]

theorem idle_of_beginsNothing {c : Char} (h : beginsNothing c = true) : idle c = true := by
  simp [idle, h]

theorem plain_of_idle {c : Char} (h : idle c = true) :
    c ∉ symbolCharacters ∧ c.isDigit = false ∧ c.isAlphanum = false := by
  have hall : ∀ b ∈ blankCharacters,
      b ∉ symbolCharacters ∧ b.isDigit = false ∧ b.isAlphanum = false := by
    simp [blankCharacters, symbolCharacters]
  by_cases hblank : c ∈ blankCharacters
  · exact hall c hblank
  · have hc : beginsNothing c = true := by simpa [idle, hblank] using h
    obtain ⟨-, -, hdigit, halpha, hsymbol⟩ := beginsNothing_iff.mp hc
    exact ⟨ofChar?_eq_none_iff.mp hsymbol, hdigit, by simp [Char.isAlphanum, hdigit, halpha]⟩

theorem idle_of_isAlphanum {c : Char} (h : c.isAlphanum = true) : idle c = false := by
  by_contra hidle
  have hc := (plain_of_idle (Bool.eq_true_of_not_eq_false hidle)).2.2
  rw [h] at hc
  cases hc

theorem idle_of_mem_symbolCharacters {c : Char} (h : c ∈ symbolCharacters) : idle c = false := by
  by_contra hidle
  exact (plain_of_idle (Bool.eq_true_of_not_eq_false hidle)).1 h

end LoxTokens
