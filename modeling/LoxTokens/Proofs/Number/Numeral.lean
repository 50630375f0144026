import LoxTokens.Proofs.Number.Nearest
import LoxTokens.Proofs.Source.Cut

/-!
# Numbers in a source and the doubles they stand for

A number in a source is written with digits, maybe followed by a point and more digits,
and denotes a rational by the places of its digits. There may be as many digits as the
source has room for. `number_roundsTo` says that its value is that rational rounded to
the nearest double, so no digit is ever left out of account.
-/

namespace LoxTokens

/-- The natural that digits denote by their places. -/
def digitsValue : List Char → ℕ
  | [] => 0
  | c :: cs => (c.toNat - '0'.toNat) * 10 ^ cs.length + digitsValue cs

theorem digitsValue_append (xs ys : List Char) :
    digitsValue (xs ++ ys) = digitsValue xs * 10 ^ ys.length + digitsValue ys := by
  induction xs with
  | nil => simp [digitsValue]
  | cons x xs ih =>
    rw [List.cons_append, digitsValue, digitsValue, ih, List.length_append]
    ring

/-- Reading digits one after the other gives what their places say. -/
theorem ofDigitChars_eq (cs : List Char) (init : ℕ) :
    Nat.ofDigitChars 10 cs init = init * 10 ^ cs.length + digitsValue cs := by
  induction cs generalizing init with
  | nil => simp [digitsValue]
  | cons c cs ih =>
    rw [Nat.ofDigitChars_cons, ih, digitsValue, List.length_cons]
    ring

/-- The characters are digits, or digits with a point between them, and denote the
rational by the places of these. -/
inductive Numeral : List Char → ℚ → Prop
  | whole {digits : List Char} (hne : digits ≠ []) (hdigits : ∀ c ∈ digits, c.isDigit = true) :
      Numeral digits (digitsValue digits)
  | fractional {digits places : List Char} (hne : digits ≠ [])
      (hdigits : ∀ c ∈ digits, c.isDigit = true) (hplaces_ne : places ≠ [])
      (hplaces : ∀ c ∈ places, c.isDigit = true) :
      Numeral (digits ++ '.' :: places)
        (digitsValue digits + digitsValue places / 10 ^ places.length)

namespace Decimal

def value (d : Decimal) : ℚ := d.digits / 10 ^ d.places

theorem cast_unit (places : ℕ) : ((unit places : ℕ) : ℚ) = 10 ^ places := by
  exact_mod_cast (rfl : unit places = 10 ^ places)

theorem unit_pos (places : ℕ) : 0 < unit places := Nat.pow_pos (by decide)

theorem roundsTo_toBinary64 (d : Decimal) : d.toBinary64.RoundsTo d.value := by
  rw [value, ← cast_unit]
  exact Binary64.roundsTo_ofRatio d.digits (unit_pos d.places)

theorem value_ofParts (whole fraction : List Char) : (ofParts whole fraction).value =
    digitsValue whole + digitsValue fraction / 10 ^ fraction.length := by
  have hpow : (10 : ℚ) ^ fraction.length ≠ 0 := by positivity
  rw [value, ofParts, ofDigitChars_eq, digitsValue_append]
  push_cast
  field_simp
  ring

end Decimal

theorem Lexeme.WellFormed.numeral {whole fraction : List Char}
    (h : (Lexeme.number whole fraction).WellFormed) :
    Numeral (Lexeme.number whole fraction).text (Decimal.ofParts whole fraction).value := by
  rw [Decimal.value_ofParts]
  cases h with
  | @number d ds _ hd hds hfraction =>
    have hdigits : ∀ c ∈ d :: ds, c.isDigit = true := List.forall_mem_cons.mpr ⟨hd, hds⟩
    cases fraction with
    | nil => simpa [text, digitsValue] using Numeral.whole (List.cons_ne_nil d ds) hdigits
    | cons c cs =>
      exact .fractional (List.cons_ne_nil d ds) hdigits (List.cons_ne_nil c cs) hfraction

theorem Lexeme.eq_number_of_kind {l : Lexeme} (h : l.kind = .number) :
    ∃ whole fraction, l = .number whole fraction := by
  cases l with
  | number whole fraction => exact ⟨whole, fraction, rfl⟩
  | word letters =>
    rcases kind_word letters with hword | ⟨k, hword⟩
    · rw [hword] at h
      cases h
    · rw [hword] at h
      cases h
  | symbol s => cases h
  | string content => cases h

/-- The text of a number is a numeral, and its value is the double nearest to what the
numeral denotes. -/
theorem number_roundsTo {σ : Type} (policy : Policy) (report : σ → Diagnostic → σ) (sink : σ)
    (source : String) (t : Token) (ht : t ∈ (scanInto policy report sink source).1)
    (hkind : t.kind = .number) : ∃ x v, Numeral t.lexeme.toList x ∧
      t.literal = some (.number v) ∧ v.RoundsTo x := by
  rw [scanInto_eq, List.mem_append, List.mem_singleton] at ht
  rcases ht with ht | rfl
  · obtain ⟨xs, l, ys, hps, rfl⟩ := exists_lexeme_of_mem ht
    obtain ⟨whole, fraction, rfl⟩ := Lexeme.eq_number_of_kind hkind
    have hmem : Piece.lexeme (.number whole fraction) ∈ pieces source.toList := by
      rw [hps]
      exact List.mem_append_right xs List.mem_cons_self
    cases (legible_pieces source.toList).wellFormed _ hmem with
    | lexeme hl =>
      refine ⟨_, _, ?_, rfl, Decimal.roundsTo_toBinary64 _⟩
      rw [Lexeme.tokenAt, String.toList_ofList]
      exact hl.numeral
  · cases hkind

/-- The first whole number that is no double, behind a string and written with a point:
it lies in the middle between two doubles. -/
theorem number_roundsTo_middle :
    (Lexeme.number "9007199254740993".toList ['0']).tokenAt ⟨5, 2⟩ ∈
        (scanInto .skip (fun n _ => n + 1) 0 "\"é\n\"9007199254740993.0").1 ∧
      ((Lexeme.number "9007199254740993".toList ['0']).tokenAt ⟨5, 2⟩).kind = .number ∧
      ∃ x v, Numeral ((Lexeme.number "9007199254740993".toList ['0']).tokenAt
          ⟨5, 2⟩).lexeme.toList x ∧
        ((Lexeme.number "9007199254740993".toList ['0']).tokenAt ⟨5, 2⟩).literal =
          some (.number v) ∧ v.RoundsTo x := by
  have hpieces : pieces "\"é\n\"9007199254740993.0".toList =
      [.lexeme (.string ['é', '\n']), .lexeme (.number "9007199254740993".toList ['0'])] := by
    decide +kernel
  have ht : (Lexeme.number "9007199254740993".toList ['0']).tokenAt ⟨5, 2⟩ ∈
      (scanInto .skip (fun n _ => n + 1) 0 "\"é\n\"9007199254740993.0").1 := by
    rw [scanInto_eq, hpieces]
    exact List.mem_cons_of_mem _ List.mem_cons_self
  exact ⟨ht, rfl, number_roundsTo .skip _ _ _ _ ht rfl⟩

/-- The even one of the two is the smaller. -/
example : (Decimal.ofParts "9007199254740993".toList ['0']).toBinary64 =
    (Decimal.ofParts "9007199254740992".toList []).toBinary64 := by
  decide +kernel

end LoxTokens
