import LoxTokens.Number.Shortest
import LoxTokens.Proofs.Number.Numeral

/-!
# The decimal of a double reads back

A double is written exactly when it is whole, and otherwise with as few digits as tell it.
Both decimals read back as its magnitude. What carries this is that reading sees only the
rational that a decimal denotes: zeros at its end change nothing, and a rational on the
grid is not rounded at all. The search for few digits has the test whether they read back
built in, so all that is left is the place where it ends, and there the decimal is exact.
-/

namespace LoxTokens

namespace Decimal

/-- Decimals that denote the same rational read as the same double. -/
theorem toBinary64_congr {d e : Decimal} (h : d.value = e.value) :
    d.toBinary64 = e.toBinary64 := by
  rw [value, value, ← cast_unit, ← cast_unit] at h
  exact Binary64.ofRatio_congr (unit_pos _) (unit_pos _) h

/-- Zeros at the end of a fraction may be left out. -/
theorem value_trimmed (digits places : ℕ) :
    (trimmed digits places).value = (⟨digits, places⟩ : Decimal).value := by
  induction places generalizing digits with
  | zero => rfl
  | succ places ih =>
    rw [trimmed]
    split
    next h =>
      have hdigits : (digits : ℚ) = (digits / 10 : ℕ) * 10 := by
        exact_mod_cast (by omega : digits = digits / 10 * 10)
      rw [ih, value, value, hdigits, pow_succ, mul_div_mul_right _ _ (by norm_num)]
    next => rfl

theorem value_ofNat (n : ℕ) : (ofNat n).value = n := by
  rw [value, ofNat]
  push_cast
  ring

theorem whole_ne_nil (d : Decimal) : d.whole ≠ [] := Nat.toDigits_ne_nil

theorem isDigit_whole (d : Decimal) : ∀ c ∈ d.whole, c.isDigit = true := fun _ =>
  Nat.isDigit_of_mem_toDigits (by decide) (by decide)

theorem isDigit_fraction (d : Decimal) : ∀ c ∈ d.fraction, c.isDigit = true := by
  intro c hc
  rw [fraction] at hc
  split at hc
  · cases hc
  · rw [List.leftpad, List.mem_append] at hc
    rcases hc with hc | hc
    · rw [List.eq_of_mem_replicate hc]
      rfl
    · exact Nat.isDigit_of_mem_toDigits (by decide) (by decide) hc

/-- A fraction has as many digits as there are places, zeros in front included. -/
theorem length_fraction (d : Decimal) : d.fraction.length = d.places := by
  rw [fraction]
  split
  next h => exact h.symm
  next h =>
    have hlt : d.digits % unit d.places < 10 ^ d.places := Nat.mod_lt _ (unit_pos _)
    have hle := (Nat.length_toDigits_le_iff (by decide) (Nat.pos_of_ne_zero h)).mpr hlt
    rw [List.length_leftpad]
    exact Nat.max_eq_left hle

theorem ofDigitChars_fraction (d : Decimal) :
    Nat.ofDigitChars 10 d.fraction 0 = d.digits % unit d.places := by
  rw [fraction]
  split
  next h =>
    rw [h]
    exact (Nat.mod_one d.digits).symm
  next =>
    rw [List.leftpad, Nat.ofDigitChars_append, Nat.ofDigitChars_replicate_zero, Nat.mul_zero,
      Nat.ofDigitChars_ten_toDigits]

/-- Reading the digits of a decimal gives the decimal. -/
theorem ofParts_whole_fraction (d : Decimal) : ofParts d.whole d.fraction = d := by
  have hdigits : 10 ^ d.places * (d.digits / unit d.places) + d.digits % unit d.places =
      d.digits := Nat.div_add_mod d.digits (unit d.places)
  rw [ofParts, Nat.ofDigitChars_append, Nat.ofDigitChars_eq_ofDigitChars_zero, length_fraction,
    ofDigitChars_fraction, whole, Nat.ofDigitChars_ten_toDigits, hdigits]

end Decimal

namespace Binary64

theorem numerator_eq (x : Binary64) : x.numerator = x.significand * 2 ^ (x.binade - 1075) :=
  Nat.shiftLeft_eq _ _

theorem denominator_eq (x : Binary64) : x.denominator = 2 ^ (1075 - x.binade) :=
  Nat.one_shiftLeft _

theorem denominator_pos (x : Binary64) : 0 < x.denominator := by
  rw [denominator_eq]
  exact Nat.two_pow_pos _

theorem cast_denominator_ne_zero (x : Binary64) : (x.denominator : ℚ) ≠ 0 := by
  exact_mod_cast x.denominator_pos.ne'

theorem isIntegral_iff_dvd (x : Binary64) : x.isIntegral = true ↔ x.denominator ∣ x.numerator := by
  rw [isIntegral, beq_iff_eq, Nat.dvd_iff_mod_eq_zero]

/-- The numerator and the denominator of a double make up its magnitude. -/
theorem numerator_div_denominator (x : Binary64) :
    (x.numerator : ℚ) / x.denominator = wordValue x.unsignedWord := by
  obtain ⟨power, hpower⟩ : ∃ power, x.binade = power + 1 :=
    Nat.exists_eq_add_one.mpr (Nat.le_max_left 1 _)
  have hnum : x.binade - 1075 = power - 1074 := by omega
  have hden : 1075 - x.binade = 1074 - power := by omega
  have hexp : ((max 1 (x.unsignedWord / 2 ^ 52) : ℕ) : ℤ) - 1075 = (power : ℤ) - 1074 := by
    rw [← exponentField_eq, ← binade, hpower]
    omega
  rw [div_eq_iff x.cast_denominator_ne_zero, numerator_eq, denominator_eq, hnum, hden, wordValue,
    hexp, significand_eq]
  push_cast
  rw [mul_assoc, step_mul_pow]

theorem isReadFrom_iff (x : Binary64) (d : Decimal) :
    x.isReadFrom d = true ↔ d.toBinary64 = x.magnitude := by
  rw [isReadFrom, beq_iff_eq]
  constructor
  · intro h
    exact congrArg Binary64.mk h
  · intro h
    rw [h]

/-- A decimal that denotes the magnitude exactly reads back as it. -/
theorem toBinary64_of_value {x : Binary64} (hx : x.isFinite = true) {d : Decimal}
    (h : d.value = x.numerator / x.denominator) : d.toBinary64 = x.magnitude := by
  have hword : x.unsignedWord ≤ infinityWord := ((isFinite_iff x).mp hx).le
  rw [numerator_div_denominator, Decimal.value, ← Decimal.cast_unit] at h
  exact ofRatio_of_wordValue (Decimal.unit_pos _) hword h

/-- At the last place of its expansion a double lies on the decimal grid. -/
theorem value_floorAt_exactPlaces (x : Binary64) :
    (x.floorAt x.exactPlaces).value = x.numerator / x.denominator := by
  have hdvd : x.denominator ∣ x.numerator * Decimal.unit x.exactPlaces := by
    have hten : 2 ^ x.exactPlaces ∣ 10 ^ x.exactPlaces := pow_dvd_pow_of_dvd (by decide) _
    rw [denominator_eq]
    exact dvd_mul_of_dvd_right hten _
  have hunit : (10 : ℚ) ^ x.exactPlaces ≠ 0 := by positivity
  rw [Decimal.value, floorAt, Nat.cast_div hdvd x.cast_denominator_ne_zero, Nat.cast_mul,
    Decimal.cast_unit, mul_div_right_comm, mul_div_cancel_right₀ _ hunit]

theorem isReadFrom_of_nearestAt? {x : Binary64} {places : ℕ} {d : Decimal}
    (h : x.nearestAt? places = some d) : x.isReadFrom d = true := by
  simp only [nearestAt?] at h
  split at h
  next habove =>
    rw [← Option.some.inj h]
    exact (Bool.and_eq_true_iff.mp habove).1
  next =>
    split at h
    next hbelow =>
      rw [← Option.some.inj h]
      exact hbelow
    next => cases h

/-- The shortest decimal reads back: the search accepts nothing else, and where it finds
nothing the decimal is exact. -/
theorem toBinary64_shortest {x : Binary64} (hx : x.isFinite = true) :
    x.shortest.toBinary64 = x.magnitude := by
  rw [shortest, Decimal.toBinary64_congr (Decimal.value_trimmed _ _)]
  cases hfound : (List.range' x.firstPlace (x.exactPlaces - x.firstPlace)).findSome?
      x.nearestAt? with
  | none => exact toBinary64_of_value hx x.value_floorAt_exactPlaces
  | some d =>
    obtain ⟨places, -, hd⟩ := List.exists_of_findSome?_eq_some hfound
    exact (isReadFrom_iff x d).mp (isReadFrom_of_nearestAt? hd)

theorem toBinary64_decimal {x : Binary64} (hx : x.isFinite = true) :
    x.decimal.toBinary64 = x.magnitude := by
  rw [decimal]
  split
  next h =>
    have hdvd := x.isIntegral_iff_dvd.mp h
    apply toBinary64_of_value hx
    rw [Decimal.value_ofNat, Nat.cast_div hdvd x.cast_denominator_ne_zero]
  next => exact toBinary64_shortest hx

end Binary64

end LoxTokens
