import LoxTokens.Proofs.Number.ReadBack
import LoxTokens.Proofs.Source.Cut

/-!
# Written numbers as sources

The written form of a number can be scanned again. The digits of a decimal, with the point
when there is one, are a lexeme of their own, and its value is the double that the decimal
reads as. A sign in front is not part of a number: it is a token by itself.

`readsBack_of_finite` says that a scan of the written form of a finite double gives the
double back to the last bit, its sign apart. So the value that a listing shows behind a
number tells the number.
-/

namespace LoxTokens

namespace Decimal

def lexeme (d : Decimal) : Lexeme := .number d.whole d.fraction

theorem wellFormed_lexeme (d : Decimal) : d.lexeme.WellFormed := by
  obtain ⟨c, cs, hwhole⟩ := List.exists_cons_of_ne_nil d.whole_ne_nil
  have hdigits := d.isDigit_whole
  rw [hwhole] at hdigits
  obtain ⟨hc, hcs⟩ := List.forall_mem_cons.mp hdigits
  rw [lexeme, hwhole]
  exact .number hc hcs d.isDigit_fraction

/-- A decimal is written as the text of its lexeme. -/
theorem toList_text (d : Decimal) : d.text.toList = d.lexeme.text := by
  rw [text, lexeme, String.toList_ofList]
  split
  next h =>
    have hnil : d.fraction = [] := List.length_eq_zero_iff.mp (d.length_fraction.trans h)
    rw [hnil, Lexeme.text]
  next h =>
    cases hfraction : d.fraction with
    | nil =>
      have hlength := d.length_fraction
      rw [hfraction] at hlength
      exact absurd hlength.symm h
    | cons c cs => rfl

theorem literal_lexeme (d : Decimal) : d.lexeme.literal = some (.number d.toBinary64) := by
  rw [lexeme, Lexeme.literal, ofParts_whole_fraction]

end Decimal

/-- A scan of the text gives the tokens, whatever the policy, and finds no fault. -/
def ScansAs (text : String) (tokens : List Token) : Prop :=
  ∀ policy, (scan policy text).1 = tokens ∧ (scan policy text).2.toList = []

/-- The token of a number that stands in the first line from the byte `start` on. -/
def numberAt (start : Nat) (digits : String) (value : Binary64) : Token :=
  ⟨.number, digits, some (.number value), 1, ⟨start, start + digits.utf8ByteSize⟩⟩

theorem Position.after_decimal (d : Decimal) (p : Position) :
    p.after d.text.toList = ⟨p.offset + d.text.utf8ByteSize, p.line⟩ := by
  have hline : d.lexeme.text.count '\n' = 0 :=
    Lexeme.count_newline_text d.wellFormed_lexeme fun _ => Lexeme.noConfusion
  rw [after_eq_shift, String.ofList_toList, d.toList_text, hline]
  rfl

theorem tokenAt_decimal (d : Decimal) (start : Nat) :
    d.lexeme.tokenAt ⟨start, 1⟩ = numberAt start d.text d.toBinary64 := by
  rw [Lexeme.tokenAt, d.literal_lexeme, ← d.toList_text, Position.after_decimal,
    String.ofList_toList]
  rfl

theorem pieces_decimal (d : Decimal) : pieces d.text.toList = [.lexeme d.lexeme] := by
  have h := pieces_lexeme d.wellFormed_lexeme d.lexeme.endsBefore_nil
  rwa [List.append_nil, pieces_nil, ← d.toList_text] at h

theorem scansAs_decimal (d : Decimal) : ScansAs d.text
    [numberAt 0 d.text d.toBinary64, .endAt ⟨d.text.utf8ByteSize, 1⟩] := by
  intro policy
  rw [tokens_scan, toList_scan, pieces_decimal]
  constructor
  · have hend : Position.start.after d.text.toList = ⟨d.text.utf8ByteSize, 1⟩ := by
      rw [Position.after_decimal, Position.start, Nat.zero_add]
    rw [hend, ← tokenAt_decimal]
    rfl
  · rfl

/-- A minus sign never goes on, so a decimal behind it is read as if it stood alone. -/
theorem scansAs_minus_decimal (d : Decimal) : ScansAs ("-" ++ d.text)
    [⟨.symbol .minus, "-", none, 1, ⟨0, 1⟩⟩, numberAt 1 d.text d.toBinary64,
      .endAt ⟨1 + d.text.utf8ByteSize, 1⟩] := by
  have hends : (Lexeme.symbol .minus).EndsBefore d.text.toList :=
    ⟨fun h => absurd rfl h, fun h => Symbol.noConfusion h⟩
  have hpieces : pieces ("-" ++ d.text).toList =
      [.lexeme (.symbol .minus), .lexeme d.lexeme] := by
    rw [String.toList_append, ← pieces_decimal]
    exact pieces_lexeme (.symbol .minus) hends
  intro policy
  rw [tokens_scan, toList_scan, hpieces]
  constructor
  · have hend : Position.start.after ("-" ++ d.text).toList =
        ⟨1 + d.text.utf8ByteSize, 1⟩ := by
      have hminus : Position.start.after "-".toList = ⟨1, 1⟩ := by decide
      rw [String.toList_append, Position.after_append, hminus, Position.after_decimal]
    rw [hend, ← tokenAt_decimal]
    rfl
  · rfl

namespace Binary64

theorem magnitude_of_nonneg {x : Binary64} (h : x.isNegative = false) : x.magnitude = x := by
  have hsign : x.bits.toNat / 2 ^ 63 ≠ 1 := by
    rw [← Nat.shiftRight_eq_div_pow]
    simpa [isNegative] using h
  have hlt : x.bits.toNat < 2 ^ 64 := x.bits.toNat_lt
  have hmod : x.bits.toNat % (1 <<< 63) = x.bits.toNat := Nat.mod_eq_of_lt (by omega)
  rw [magnitude, hmod, UInt64.ofNat_toNat]

theorem text_of_finite {x : Binary64} (hx : x.isFinite = true) :
    x.text = (if x.isNegative then "-" else "") ++ x.decimal.text := by
  have hnan : x.isNaN = false := by
    rw [isNaN, Bool.and_eq_false_iff]
    left
    simpa [isFinite] using hx
  rw [text, if_neg (Bool.eq_false_iff.mp hnan), if_pos hx]

end Binary64

/-- A scan finds in the written form of a double the double, or a minus sign and then the
double without its sign. The doubles behind the numbers of a source have no sign, so the
value in a listing always scans as the one double that it shows. -/
structure ReadsBack (x : Binary64) : Prop where
  nonneg : x.isNegative = false → ScansAs (Literal.number x).text
    [numberAt 0 (Literal.number x).text x, .endAt ⟨(Literal.number x).text.utf8ByteSize, 1⟩]
  negative : x.isNegative = true → ∃ digits, (Literal.number x).text = "-" ++ digits ∧
    ScansAs (Literal.number x).text [⟨.symbol .minus, "-", none, 1, ⟨0, 1⟩⟩,
      numberAt 1 digits x.magnitude, .endAt ⟨1 + digits.utf8ByteSize, 1⟩]
  column : ∀ policy source, ∀ t ∈ (scan policy source).1, t.kind = .number →
    t.literal = some (.number x) → ∃ column,
      t.text = "NUMBER " ++ t.lexeme ++ " " ++ column ∧
        ScansAs column [numberAt 0 column x, .endAt ⟨column.utf8ByteSize, 1⟩]

/-- A double that a number in a source stands for has no sign. -/
theorem nonneg_of_literal {policy : Policy} {source : String} {t : Token}
    (ht : t ∈ (scan policy source).1) {x : Binary64} (h : t.literal = some (.number x)) :
    x.isNegative = false := by
  rw [tokens_scan, List.mem_append, List.mem_singleton] at ht
  rcases ht with ht | rfl
  · obtain ⟨xs, l, ys, -, rfl⟩ := exists_lexeme_of_mem ht
    cases l with
    | number whole fraction =>
      have hvalue : (Decimal.ofParts whole fraction).toBinary64 = x :=
        Literal.number.inj (Option.some.inj h)
      rw [← hvalue]
      exact (Decimal.roundsTo_toBinary64 _).unsigned
    | _ => cases h
  · cases h

/-- Every finite double is written so that a scan gives it back. -/
theorem readsBack_of_finite (x : Binary64) (hx : x.isFinite = true) : ReadsBack x := by
  have hread : x.decimal.toBinary64 = x.magnitude := Binary64.toBinary64_decimal hx
  have htext : (Literal.number x).text =
      (if x.isNegative then "-" else "") ++ x.decimal.text := Binary64.text_of_finite hx
  have hnonneg : x.isNegative = false → ScansAs (Literal.number x).text
      [numberAt 0 (Literal.number x).text x,
        .endAt ⟨(Literal.number x).text.utf8ByteSize, 1⟩] := by
    intro hsign
    have hscan := scansAs_decimal x.decimal
    rw [hread, Binary64.magnitude_of_nonneg hsign] at hscan
    rwa [htext, hsign, if_neg Bool.false_ne_true, String.empty_append]
  constructor
  case nonneg => exact hnonneg
  case negative =>
    intro hsign
    rw [hsign, if_pos rfl] at htext
    refine ⟨x.decimal.text, htext, ?_⟩
    rw [htext, ← hread]
    exact scansAs_minus_decimal x.decimal
  case column =>
    intro policy source t ht hkind hliteral
    refine ⟨(Literal.number x).text, ?_, hnonneg (nonneg_of_literal ht hliteral)⟩
    rw [Token.text, hkind, hliteral]
    rfl

/-- A tenth has no end in binary, and its sign is a token by itself. -/
theorem readsBack_minus_tenth : Binary64.isFinite ⟨0xbfb999999999999a⟩ = true ∧
    (Literal.number ⟨0xbfb999999999999a⟩).text = "-0.1" ∧
    ReadsBack ⟨0xbfb999999999999a⟩ := by
  have hfinite : Binary64.isFinite ⟨0xbfb999999999999a⟩ = true := by decide
  refine ⟨hfinite, ?_, readsBack_of_finite _ hfinite⟩
  decide +kernel

end LoxTokens
