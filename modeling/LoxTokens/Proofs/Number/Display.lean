import LoxTokens.Proofs.Number.Fewest
import LoxTokens.Proofs.Number.Written

/-!
# How a double is displayed

A finite double is displayed with digits on both sides of a point, with a minus sign in front
when its sign bit is set, and never with an exponent. A whole one is displayed exactly. Any
other is displayed as the shortest decimal that rounds to it, and the nearest of these.

`displayed_of_finite` says so of the characters. Digits are related to a decimal by their
value alone: without a zero in front they are as many as the value tells, and a zero at their
end makes the value a multiple of ten.
-/

namespace LoxTokens

/-- The digits without the zeros in front of them. -/
def significant (digits : List Char) : List Char := digits.dropWhile (· == '0')

theorem digitsValue_significant (digits : List Char) :
    digitsValue (significant digits) = digitsValue digits := by
  rw [significant]
  induction digits with
  | nil => rfl
  | cons c cs ih =>
    rw [List.dropWhile_cons]
    split
    next h =>
      obtain rfl : c = '0' := by simpa using h
      rw [ih, digitsValue, Nat.sub_self, Nat.zero_mul, Nat.zero_add]
    next => rfl

theorem digitsValue_lt {digits : List Char} (h : ∀ c ∈ digits, c.isDigit = true) :
    digitsValue digits < 10 ^ digits.length := by
  induction digits with
  | nil => exact Nat.one_pos
  | cons c cs ih =>
    obtain ⟨hc, hcs⟩ := List.forall_mem_cons.mp h
    have hrest := ih hcs
    have hdigit : c.toNat - '0'.toNat + 1 ≤ 10 := by
      have hbounds := Char.isDigit_iff_toNat.mp hc
      have hnine : '9'.toNat = '0'.toNat + 9 := rfl
      omega
    have hle := Nat.mul_le_mul_right (10 ^ cs.length) hdigit
    rw [digitsValue, List.length_cons, pow_succ]
    linarith

theorem pow_le_digitsValue {c : Char} (hc : c.isDigit = true) (hzero : c ≠ '0')
    (cs : List Char) : 10 ^ cs.length ≤ digitsValue (c :: cs) := by
  have hbounds := (Char.isDigit_iff_toNat.mp hc).1
  have hne : c.toNat ≠ '0'.toNat := fun h => hzero (Char.toNat_inj.mp h)
  have hdigit : 1 ≤ c.toNat - '0'.toNat := by omega
  calc 10 ^ cs.length ≤ (c.toNat - '0'.toNat) * 10 ^ cs.length :=
        Nat.le_mul_of_pos_left _ hdigit
    _ ≤ digitsValue (c :: cs) := Nat.le_add_right _ _

/-- Digits without a zero in front are as many as their value tells. -/
theorem length_toDigits_digitsValue {c : Char} {cs : List Char}
    (hdigits : ∀ d ∈ c :: cs, d.isDigit = true) (hzero : c ≠ '0') :
    (Nat.toDigits 10 (digitsValue (c :: cs))).length = (c :: cs).length := by
  have hlt := digitsValue_lt hdigits
  have hle := pow_le_digitsValue (hdigits c List.mem_cons_self) hzero cs
  have hlength : digitsValue (c :: cs) <
      10 ^ (Nat.toDigits 10 (digitsValue (c :: cs))).length :=
    (Nat.length_toDigits_le_iff (by decide) Nat.length_toDigits_pos).mp le_rfl
  apply le_antisymm
  · exact (Nat.length_toDigits_le_iff (by decide) (Nat.succ_pos _)).mpr hlt
  · exact (Nat.pow_lt_pow_iff_right (by decide)).mp (hle.trans_lt hlength)

theorem length_significant {digits : List Char} (hdigits : ∀ c ∈ digits, c.isDigit = true)
    (hpos : 0 < digitsValue digits) : (significant digits).length =
      (Nat.toDigits 10 (digitsValue digits)).length := by
  rw [← digitsValue_significant] at hpos ⊢
  have hmem : ∀ c ∈ significant digits, c.isDigit = true := fun c hc =>
    hdigits c ((List.dropWhile_sublist _).subset hc)
  have hhead := List.head?_dropWhile_not (· == '0') digits
  rw [← significant] at hhead
  cases hcases : significant digits with
  | nil =>
    rw [hcases] at hpos
    exact absurd hpos (Nat.lt_irrefl 0)
  | cons c cs =>
    rw [hcases] at hmem hhead
    refine (length_toDigits_digitsValue hmem ?_).symm
    simpa using hhead

theorem digitsValue_toDigits (n : ℕ) : digitsValue (Nat.toDigits 10 n) = n := by
  have h := ofDigitChars_eq (Nat.toDigits 10 n) 0
  rwa [Nat.ofDigitChars_ten_toDigits, Nat.zero_mul, Nat.zero_add, eq_comm] at h

namespace Decimal

/-- The digits of a decimal, on both sides of the point, are its value in units of its last
place. -/
theorem digitsValue_whole_fraction (d : Decimal) :
    digitsValue (d.whole ++ d.fraction) = d.digits := by
  have h := congrArg digits d.ofParts_whole_fraction
  rwa [ofParts, ofDigitChars_eq, Nat.zero_mul, Nat.zero_add] at h

/-- The digits before the point begin with a zero only if there is nothing else. -/
theorem whole_eq_zero (d : Decimal) (h : d.whole.head? = some '0') : d.whole = ['0'] := by
  rw [whole] at h ⊢
  generalize d.digits / unit d.places = n at h ⊢
  obtain ⟨rest, hdigits⟩ := List.head?_eq_some_iff.mp h
  have hvalue : digitsValue rest = n := by
    have hzero := digitsValue_toDigits n
    rwa [hdigits, digitsValue, Nat.sub_self, Nat.zero_mul, Nat.zero_add] at hzero
  have hisDigit : ∀ c ∈ rest, c.isDigit = true := by
    intro c hc
    have hmem : c ∈ Nat.toDigits 10 n := hdigits ▸ List.mem_cons_of_mem _ hc
    exact Nat.isDigit_of_mem_toDigits (by decide) (by decide) hmem
  have hlt : n < 10 ^ rest.length := hvalue ▸ digitsValue_lt hisDigit
  rw [hdigits]
  rcases Nat.eq_zero_or_pos rest.length with hempty | hpos
  · rw [List.length_eq_zero_iff.mp hempty]
  · have hle := (Nat.length_toDigits_le_iff (by decide) hpos).mpr hlt
    rw [hdigits, List.length_cons] at hle
    exact absurd hle (Nat.not_succ_le_self _)

theorem digits_mod_ten (d : Decimal) (h : d.fraction.getLast? = some '0') :
    d.digits % 10 = 0 := by
  obtain ⟨front, hfraction⟩ := List.getLast?_eq_some_iff.mp h
  rw [← d.digitsValue_whole_fraction, hfraction, ← List.append_assoc, digitsValue_append]
  exact Nat.mul_mod_left _ _

/-- No zero is left at the end of a fraction. -/
theorem digits_trimmed_mod_ten (digits places : ℕ) (h : (trimmed digits places).places ≠ 0) :
    (trimmed digits places).digits % 10 ≠ 0 := by
  induction places generalizing digits with
  | zero => exact absurd rfl h
  | succ places ih =>
    rw [trimmed] at h ⊢
    split at h
    next hlast =>
      rw [if_pos hlast]
      exact ih _ h
    next hlast =>
      rw [if_neg hlast]
      exact hlast

theorem text_eq (d : Decimal) (h : d.places ≠ 0) :
    d.text = String.ofList (d.whole ++ '.' :: d.fraction) := by
  rw [text, if_neg h]

theorem fraction_ne_nil (d : Decimal) (h : d.places ≠ 0) : d.fraction ≠ [] := by
  rw [← List.length_pos_iff, length_fraction]
  exact Nat.pos_of_ne_zero h

/-- What is written denotes the value. -/
theorem numeral (d : Decimal) (h : d.places ≠ 0) :
    Numeral (d.whole ++ '.' :: d.fraction) d.value := by
  have hlexeme : (Lexeme.number d.whole d.fraction).WellFormed := d.wellFormed_lexeme
  have hnumeral := hlexeme.numeral
  rwa [← lexeme, ← toList_text, text_eq d h, String.toList_ofList, ofParts_whole_fraction]
    at hnumeral

theorem whole_ofNat (n : ℕ) : (ofNat n).whole = Nat.toDigits 10 n := by
  have hdiv : 10 * n / unit 1 = n := Nat.mul_div_cancel_left n (by decide)
  rw [whole, ofNat, hdiv]

theorem fraction_ofNat (n : ℕ) : (ofNat n).fraction = ['0'] := by
  have hmod : 10 * n % unit 1 = 0 := Nat.mul_mod_right 10 n
  rw [fraction, ofNat, hmod]
  rfl

end Decimal

namespace Binary64

variable {x : Binary64}

/-- A double that denotes an integer. -/
def IsWhole (x : Binary64) : Prop := ∃ n : ℤ, x.value = n

theorem isWhole_iff (x : Binary64) : x.IsWhole ↔ ∃ n : ℕ, |x.value| = n := by
  constructor
  · rintro ⟨n, hn⟩
    refine ⟨n.natAbs, ?_⟩
    rw [hn, Nat.cast_natAbs, Int.cast_abs]
  · rintro ⟨n, hn⟩
    rcases eq_or_eq_neg_of_abs_eq hn with h | h
    · exact ⟨n, by rw [h, Int.cast_natCast]⟩
    · exact ⟨-n, by rw [h, Int.cast_neg, Int.cast_natCast]⟩

theorem isIntegral_iff_isWhole (x : Binary64) : x.isIntegral = true ↔ x.IsWhole :=
  x.isIntegral_iff.trans x.isWhole_iff.symm

theorem decimal_of_isIntegral (h : x.isIntegral = true) :
    ∃ n : ℕ, x.decimal = .ofNat n ∧ |x.value| = n := by
  refine ⟨x.numerator / x.denominator, if_pos h, ?_⟩
  rw [abs_value_eq_div, Nat.cast_div (x.isIntegral_iff_dvd.mp h) x.cast_denominator_ne_zero]

theorem decimal_of_not_isIntegral (h : x.isIntegral = false) : x.decimal = x.shortest :=
  if_neg (Bool.eq_false_iff.mp h)

/-- Without a place behind the point a decimal is a whole number, and those do not read as
a double that is not. -/
theorem places_shortest_ne_zero (hx : x.isFinite = true) (hfraction : x.isIntegral = false) :
    x.shortest.places ≠ 0 := by
  intro hplaces
  have hnearest := nearestWord_shortest hx
  rw [Decimal.value, hplaces, pow_zero, div_one] at hnearest
  exact not_nearestWord_natCast hfraction _ hnearest

theorem places_decimal_ne_zero (hx : x.isFinite = true) : x.decimal.places ≠ 0 := by
  cases h : x.isIntegral with
  | true =>
    obtain ⟨n, hdecimal, -⟩ := decimal_of_isIntegral h
    rw [hdecimal]
    exact Nat.one_ne_zero
  | false =>
    rw [decimal_of_not_isIntegral h]
    exact places_shortest_ne_zero hx h

theorem getLast?_fraction_shortest (hx : x.isFinite = true) (hfraction : x.isIntegral = false) :
    x.shortest.fraction.getLast? ≠ some '0' := fun h =>
  Decimal.digits_trimmed_mod_ten _ _ (places_shortest_ne_zero hx hfraction)
    (Decimal.digits_mod_ten _ h)

/-- As many digits are written as the decimal has, the zeros in front of them apart. -/
theorem length_significant_shortest (hx : x.isFinite = true)
    (hfraction : x.isIntegral = false) :
    (significant (x.shortest.whole ++ x.shortest.fraction)).length = x.shortestLength := by
  have hdigits : ∀ c ∈ x.shortest.whole ++ x.shortest.fraction, c.isDigit = true := by
    intro c hc
    rcases List.mem_append.mp hc with hc | hc
    · exact x.shortest.isDigit_whole c hc
    · exact x.shortest.isDigit_fraction c hc
  have hvalue := x.shortest.digitsValue_whole_fraction
  have hpos : 0 < x.shortest.digits := by
    refine Nat.pos_of_ne_zero fun hzero => (value_shortest_pos hx hfraction).ne' ?_
    rw [Decimal.value, hzero, Nat.cast_zero, zero_div]
  rw [length_significant hdigits (hvalue ▸ hpos), hvalue, shortestLength]

end Binary64

/-- What is displayed for a double: its sign, digits, a point and more digits. Only of a
whole double they are the exact value with one zero behind it; those of any other are the
shortest decimal that rounds to it. -/
structure Displayed (x : Binary64) (whole fraction : List Char) : Prop where
  text : (Literal.number x).text =
    (if x.isNegative then "-" else "") ++ String.ofList (whole ++ '.' :: fraction)
  whole_ne_nil : whole ≠ []
  whole_digits : ∀ c ∈ whole, c.isDigit = true
  fraction_ne_nil : fraction ≠ []
  fraction_digits : ∀ c ∈ fraction, c.isDigit = true
  leading : whole.head? = some '0' → whole = ['0']
  exact_iff : fraction = ['0'] ∧ (digitsValue whole : ℚ) = |x.value| ↔ x.IsWhole
  last : ¬x.IsWhole → fraction.getLast? ≠ some '0'
  shortest : ¬x.IsWhole → ∃ y, Numeral (whole ++ '.' :: fraction) y ∧
    x.ShortestDecimal (significant (whole ++ fraction)).length (x.sign * y)

/-- Every finite double is displayed exactly or as short as can be. -/
theorem displayed_of_finite (x : Binary64) (hx : x.isFinite = true) :
    ∃ whole fraction, Displayed x whole fraction := by
  have hplaces := Binary64.places_decimal_ne_zero hx
  have hfractional : ¬x.IsWhole → x.isIntegral = false ∧ x.decimal = x.shortest := by
    intro h
    rw [← x.isIntegral_iff_isWhole, Bool.not_eq_true] at h
    exact ⟨h, Binary64.decimal_of_not_isIntegral h⟩
  refine ⟨x.decimal.whole, x.decimal.fraction, ?_⟩
  constructor
  case text =>
    rw [← Decimal.text_eq _ hplaces]
    exact Binary64.text_of_finite hx
  case whole_ne_nil => exact x.decimal.whole_ne_nil
  case whole_digits => exact x.decimal.isDigit_whole
  case fraction_ne_nil => exact x.decimal.fraction_ne_nil hplaces
  case fraction_digits => exact x.decimal.isDigit_fraction
  case leading => exact x.decimal.whole_eq_zero
  case exact_iff =>
    constructor
    · rintro ⟨-, hvalue⟩
      exact x.isWhole_iff.mpr ⟨_, hvalue.symm⟩
    · intro hwhole
      obtain ⟨n, hdecimal, hvalue⟩ :=
        Binary64.decimal_of_isIntegral (x.isIntegral_iff_isWhole.mpr hwhole)
      rw [hdecimal, hvalue, Decimal.whole_ofNat, digitsValue_toDigits]
      exact ⟨Decimal.fraction_ofNat n, rfl⟩
  case last =>
    intro hwhole
    obtain ⟨hfraction, hdecimal⟩ := hfractional hwhole
    rw [hdecimal]
    exact Binary64.getLast?_fraction_shortest hx hfraction
  case shortest =>
    intro hwhole
    obtain ⟨hfraction, hdecimal⟩ := hfractional hwhole
    refine ⟨x.decimal.value, x.decimal.numeral hplaces, ?_⟩
    rw [hdecimal, Binary64.length_significant_shortest hx hfraction]
    exact Binary64.shortestDecimal_shortest hx hfraction

/-- A negative power of two. Towards zero the doubles are twice as dense: the nearest decimal
with sixteen digits lies on that side and rounds to another double, the next one does not. -/
theorem displayed_minus_two_pow : Binary64.isFinite ⟨0xbd30000000000000⟩ = true ∧
    (Literal.number ⟨0xbd30000000000000⟩).text = "-0.00000000000005684341886080802" ∧
    ∃ whole fraction, Displayed ⟨0xbd30000000000000⟩ whole fraction := by
  have hfinite : Binary64.isFinite ⟨0xbd30000000000000⟩ = true := by decide
  refine ⟨hfinite, ?_, displayed_of_finite _ hfinite⟩
  decide +kernel

end LoxTokens
