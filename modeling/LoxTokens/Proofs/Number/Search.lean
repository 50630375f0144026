import LoxTokens.Proofs.Number.Interval

/-!
# The search for a short decimal

The decimals with a given number of places form a grid. The search looks at one grid after
the other, from the first on which anything but zero is below the double, and takes the
first on which some decimal reads back. It tries only the two neighbours of the double,
and that is enough: a decimal farther off that reads back has a neighbour between itself
and the double, which reads back as well.

`exists_found` says what the search ends with. On the grid where the expansion of the
double ends, the double itself is found.
-/

namespace LoxTokens

theorem Decimal.value_le_value {m n : ℕ} (h : m ≤ n) (places : ℕ) :
    (⟨m, places⟩ : Decimal).value ≤ (⟨n, places⟩ : Decimal).value := by
  have hcast : (m : ℚ) ≤ n := by exact_mod_cast h
  exact div_le_div_of_nonneg_right hcast (by positivity)

namespace Binary64

theorem abs_value_eq_div (x : Binary64) : |x.value| = x.numerator / x.denominator := by
  rw [abs_value, numerator_div_denominator]

theorem isIntegral_iff (x : Binary64) : x.isIntegral = true ↔ ∃ n : ℕ, |x.value| = n := by
  rw [isIntegral_iff_dvd, abs_value_eq_div]
  constructor
  · intro h
    exact ⟨x.numerator / x.denominator, (Nat.cast_div h x.cast_denominator_ne_zero).symm⟩
  · rintro ⟨n, hn⟩
    rw [div_eq_iff x.cast_denominator_ne_zero] at hn
    have hnum : x.numerator = n * x.denominator := by exact_mod_cast hn
    rw [hnum]
    exact Nat.dvd_mul_left _ _

theorem significand_lt (x : Binary64) : x.significand < 2 ^ 53 := by
  have hfraction : x.unsignedWord % 2 ^ 52 < 2 ^ 52 := Nat.mod_lt _ (Nat.two_pow_pos 52)
  rw [significand_eq, wordSignificand]
  split_ifs <;> omega

section Fractional

variable {x : Binary64} (hfraction : x.isIntegral = false)

include hfraction

theorem numerator_pos : 0 < x.numerator := by
  refine Nat.pos_of_ne_zero fun hzero => ?_
  rw [isIntegral, hzero, Nat.zero_mod] at hfraction
  cases hfraction

theorem abs_value_pos : 0 < |x.value| := by
  have hnum : (0 : ℚ) < x.numerator := by exact_mod_cast numerator_pos hfraction
  have hden : (0 : ℚ) < x.denominator := by exact_mod_cast x.denominator_pos
  rw [abs_value_eq_div]
  exact div_pos hnum hden

/-- From `2 ^ 52` on all doubles are whole. -/
theorem exactPlaces_pos : 0 < x.exactPlaces := by
  refine Nat.pos_of_ne_zero fun hzero => ?_
  rw [exactPlaces] at hzero
  rw [isIntegral, denominator_eq, hzero, pow_zero, Nat.mod_one] at hfraction
  cases hfraction

theorem abs_value_lt : |x.value| < 2 ^ 53 := by
  have hexact := exactPlaces_pos hfraction
  rw [exactPlaces] at hexact
  have hup : x.binade - 1075 = 0 := by omega
  have hnum : (x.numerator : ℚ) < 2 ^ 53 := by
    rw [numerator_eq, hup, pow_zero, mul_one]
    exact_mod_cast x.significand_lt
  have hden : (1 : ℚ) ≤ x.denominator := by exact_mod_cast x.denominator_pos
  rw [abs_value_eq_div]
  exact (div_le_self (Nat.cast_nonneg _) hden).trans_lt hnum

/-- A double that is not whole is not what a whole number rounds to. -/
theorem not_nearestWord_natCast (n : ℕ) : ¬NearestWord n x.unsignedWord := by
  intro h
  have hlt := abs_value_lt hfraction
  rw [abs_value] at hlt
  obtain ⟨m, hm⟩ := h.exists_natCast hlt
  rw [← abs_value] at hm
  rw [x.isIntegral_iff.mpr ⟨m, hm⟩] at hfraction
  cases hfraction

/-- The first place is the first at which the double is at least one unit. -/
theorem firstPlace_le_iff {k : ℕ} (hk : 0 < k) :
    x.firstPlace ≤ k ↔ 1 ≤ |x.value| * 10 ^ k := by
  have hnum := numerator_pos hfraction
  have hpos := x.denominator_pos
  have hden : (0 : ℚ) < x.denominator := by exact_mod_cast hpos
  have hcast : (x.denominator : ℚ) ≤ x.numerator * 10 ^ k ↔
      x.denominator ≤ x.numerator * 10 ^ k := by
    exact_mod_cast Iff.rfl
  rw [firstPlace, Nat.length_toDigits_le_iff (by decide) hk, Nat.div_lt_iff_lt_mul hnum,
    mul_comm, abs_value_eq_div, div_mul_eq_mul_div, le_div_iff₀ hden, one_mul, hcast]
  omega

theorem firstPlace_le_exactPlaces : x.firstPlace ≤ x.exactPlaces := by
  have hnum : (1 : ℚ) ≤ x.numerator := by exact_mod_cast numerator_pos hfraction
  have hden : (x.denominator : ℚ) ≤ 10 ^ x.exactPlaces := by
    have hle : 2 ^ x.exactPlaces ≤ 10 ^ x.exactPlaces := Nat.pow_le_pow_left (by decide) _
    rw [denominator_eq]
    exact_mod_cast hle
  have hpos : (0 : ℚ) < x.denominator := by exact_mod_cast x.denominator_pos
  rw [firstPlace_le_iff hfraction (exactPlaces_pos hfraction), abs_value_eq_div,
    div_mul_eq_mul_div, le_div_iff₀ hpos, one_mul]
  exact hden.trans (le_mul_of_one_le_left (by positivity) hnum)

end Fractional

theorem firstPlace_pos (x : Binary64) : 0 < x.firstPlace := Nat.length_toDigits_pos

/-- The decimal with the given places that comes next behind `floorAt`. -/
def nextAt (x : Binary64) (places : ℕ) : Decimal := ⟨(x.floorAt places).digits + 1, places⟩

/-- In units of the last place, the double is as many as the decimal below it has, and the
part of a unit that the division leaves. -/
theorem abs_value_mul_pow (x : Binary64) (places : ℕ) : |x.value| * 10 ^ places =
    (x.floorAt places).digits +
      ((x.numerator * Decimal.unit places % x.denominator : ℕ) : ℚ) / x.denominator := by
  have h := div_eq_whole_add (x.numerator * Decimal.unit places) x.denominator_pos
  rw [Nat.cast_mul, Decimal.cast_unit, mul_div_right_comm, ← abs_value_eq_div] at h
  exact h

theorem value_floorAt (x : Binary64) (places : ℕ) :
    (x.floorAt places).value = (x.floorAt places).digits / 10 ^ places := rfl

theorem value_nextAt (x : Binary64) (places : ℕ) :
    (x.nextAt places).value = ((x.floorAt places).digits + 1) / 10 ^ places := by
  rw [Decimal.value, nextAt, Nat.cast_succ]

theorem value_floorAt_le (x : Binary64) (places : ℕ) : (x.floorAt places).value ≤ |x.value| := by
  have hunit : (0 : ℚ) < 10 ^ places := by positivity
  rw [value_floorAt, div_le_iff₀ hunit, abs_value_mul_pow]
  exact le_add_of_nonneg_right (by positivity)

theorem abs_value_lt_value_nextAt (x : Binary64) (places : ℕ) :
    |x.value| < (x.nextAt places).value := by
  have hunit : (0 : ℚ) < 10 ^ places := by positivity
  have hden : (0 : ℚ) < x.denominator := by exact_mod_cast x.denominator_pos
  have hlt := Nat.mod_lt (x.numerator * Decimal.unit places) x.denominator_pos
  rw [value_nextAt, lt_div_iff₀ hunit, abs_value_mul_pow, add_lt_add_iff_left, div_lt_one hden]
  exact_mod_cast hlt

theorem upperHalfAt_iff (x : Binary64) (places : ℕ) : x.upperHalfAt places = true ↔
    (x.nextAt places).value - |x.value| ≤ |x.value| - (x.floorAt places).value := by
  have hunit : (0 : ℚ) < 10 ^ places := by positivity
  have hden : (0 : ℚ) < x.denominator := by exact_mod_cast x.denominator_pos
  have hvalue := x.abs_value_mul_pow places
  rw [← eq_div_iff hunit.ne'] at hvalue
  have hcast : x.denominator ≤ 2 * (x.numerator * Decimal.unit places % x.denominator) ↔
      (x.denominator : ℚ) ≤ 2 * (x.numerator * Decimal.unit places % x.denominator : ℕ) := by
    exact_mod_cast Iff.rfl
  rw [upperHalfAt, decide_eq_true_iff, hcast, hvalue, value_floorAt, value_nextAt, ← sub_div,
    ← sub_div, div_le_div_iff_of_pos_right hunit, add_sub_cancel_left, add_sub_add_left_eq_sub,
    sub_le_iff_le_add, ← two_mul, ← mul_div_assoc, one_le_div hden]

/-- How far a decimal is from the magnitude of a double. -/
def error (x : Binary64) (d : Decimal) : ℚ := |d.value - (|x.value|)|

theorem error_floorAt (x : Binary64) (places : ℕ) :
    x.error (x.floorAt places) = |x.value| - (x.floorAt places).value := by
  rw [error, abs_of_nonpos (sub_nonpos.mpr (x.value_floorAt_le places)), neg_sub]

theorem error_nextAt (x : Binary64) (places : ℕ) :
    x.error (x.nextAt places) = (x.nextAt places).value - |x.value| :=
  abs_of_nonneg (sub_nonneg.mpr (x.abs_value_lt_value_nextAt places).le)

theorem nearestAt?_eq (x : Binary64) (places : ℕ) : x.nearestAt? places =
    if x.isReadFrom (x.nextAt places) = true ∧
        (x.upperHalfAt places = true ∨ ¬x.isReadFrom (x.floorAt places) = true) then
      some (x.nextAt places)
    else if x.isReadFrom (x.floorAt places) = true then some (x.floorAt places)
    else none := by
  simp only [nearestAt?, nextAt, Bool.and_eq_true, Bool.or_eq_true, Bool.not_eq_true',
    Bool.not_eq_true]

/-- What a grid is searched for: a decimal on it that reads back and is nearest among those
that do. It is one of the two neighbours of the double. -/
structure NearestAt (x : Binary64) (places : ℕ) (d : Decimal) : Prop where
  places_eq : d.places = places
  digits_le : d.digits ≤ (x.floorAt places).digits + 1
  reads : x.isReadFrom d = true
  nearest : ∀ m, x.isReadFrom ⟨m, places⟩ = true → x.error d ≤ x.error ⟨m, places⟩

/-- The decimal the search ends with: the nearest on its grid, and no grid in front, from
the first place on, has any that reads back. -/
structure Found (x : Binary64) (d : Decimal) : Prop where
  nearestAt : NearestAt x d.places d
  firstPlace_le : x.firstPlace ≤ d.places
  first : ∀ m places, x.firstPlace ≤ places → x.isReadFrom ⟨m, places⟩ = true →
    d.places ≤ places

section Found

variable {x : Binary64} (hx : x.isFinite = true)

include hx

/-- A decimal that reads back has a neighbour of the double between itself and the double,
which reads back as well and is no farther off. -/
theorem neighbour_of_isReadFrom {m places : ℕ} (h : x.isReadFrom ⟨m, places⟩ = true) :
    (x.isReadFrom (x.floorAt places) = true ∧
      x.error (x.floorAt places) ≤ x.error ⟨m, places⟩) ∨
    (x.isReadFrom (x.nextAt places) = true ∧
      x.error (x.nextAt places) ≤ x.error ⟨m, places⟩) := by
  have hnearest := (isReadFrom_iff_nearestWord hx _).mp h
  have hlow := x.value_floorAt_le places
  have hhigh := (x.abs_value_lt_value_nextAt places).le
  rw [isReadFrom_iff_nearestWord hx, isReadFrom_iff_nearestWord hx, error_floorAt, error_nextAt]
  rcases Nat.lt_or_ge (x.floorAt places).digits m with hm | hm
  · have hle : (x.nextAt places).value ≤ (⟨m, places⟩ : Decimal).value :=
      Decimal.value_le_value hm places
    right
    constructor
    · apply hnearest.of_between
      rw [← abs_value]
      exact Set.mem_uIcc.mpr (Or.inl ⟨hhigh, hle⟩)
    · exact (sub_le_sub_right hle _).trans (le_abs_self _)
  · have hle : (⟨m, places⟩ : Decimal).value ≤ (x.floorAt places).value :=
      Decimal.value_le_value hm places
    left
    constructor
    · apply hnearest.of_between
      rw [← abs_value]
      exact Set.mem_uIcc.mpr (Or.inr ⟨hle, hlow⟩)
    · have hdist := neg_le_abs ((⟨m, places⟩ : Decimal).value - (|x.value|))
      rw [neg_sub] at hdist
      exact (sub_le_sub_left hle _).trans hdist

theorem nearestAt?_ne_none {m places : ℕ} (h : x.isReadFrom ⟨m, places⟩ = true) :
    x.nearestAt? places ≠ none := by
  rw [nearestAt?_eq]
  split_ifs with hnext hfloor
  · exact Option.some_ne_none _
  · exact Option.some_ne_none _
  · rcases neighbour_of_isReadFrom hx h with ⟨hreads, -⟩ | ⟨hreads, -⟩
    · exact absurd hreads hfloor
    · exact absurd ⟨hreads, Or.inr hfloor⟩ hnext

theorem nearestAt_of_nearestAt? {places : ℕ} {d : Decimal} (h : x.nearestAt? places = some d) :
    NearestAt x places d := by
  have hreads := isReadFrom_of_nearestAt? h
  have hupper := x.upperHalfAt_iff places
  rw [← error_nextAt, ← error_floorAt] at hupper
  rw [nearestAt?_eq] at h
  split_ifs at h with hnext hfloor
  · obtain rfl : x.nextAt places = d := Option.some.inj h
    refine ⟨rfl, le_rfl, hreads, fun m hm => ?_⟩
    rcases neighbour_of_isReadFrom hx hm with ⟨hfloor, hle⟩ | ⟨-, hle⟩
    · have hhalf := hnext.2.resolve_right (not_not_intro hfloor)
      exact (hupper.mp hhalf).trans hle
    · exact hle
  · obtain rfl : x.floorAt places = d := Option.some.inj h
    refine ⟨rfl, Nat.le_succ _, hreads, fun m hm => ?_⟩
    rcases neighbour_of_isReadFrom hx hm with ⟨-, hle⟩ | ⟨hreadsNext, hle⟩
    · exact hle
    · have hhalf : ¬x.upperHalfAt places = true := fun h => hnext ⟨hreadsNext, Or.inl h⟩
      rw [hupper, not_le] at hhalf
      exact hhalf.le.trans hle

theorem nearestAt_exactPlaces : NearestAt x x.exactPlaces (x.floorAt x.exactPlaces) := by
  refine ⟨rfl, Nat.le_succ _, ?_, fun m _ => ?_⟩
  · rw [isReadFrom_iff]
    exact toBinary64_of_value hx x.value_floorAt_exactPlaces
  · rw [error_floorAt, value_floorAt_exactPlaces, ← abs_value_eq_div, sub_self]
    exact abs_nonneg _

theorem exists_found (hfraction : x.isIntegral = false) :
    ∃ d, Found x d ∧ x.shortest = .trimmed d.digits d.places := by
  have hfirst := firstPlace_le_exactPlaces hfraction
  simp only [shortest]
  cases hfound : (List.range' x.firstPlace (x.exactPlaces - x.firstPlace)).findSome?
      x.nearestAt? with
  | none =>
    rw [Option.getD_none]
    refine ⟨_, ⟨nearestAt_exactPlaces hx, hfirst, fun m places hplaces hreads => ?_⟩, rfl⟩
    rw [(nearestAt_exactPlaces hx).places_eq]
    by_contra hlt
    have hmem : places ∈ List.range' x.firstPlace (x.exactPlaces - x.firstPlace) :=
      List.mem_range'_1.mpr ⟨hplaces, by omega⟩
    exact nearestAt?_ne_none hx hreads (List.findSome?_eq_none_iff.mp hfound places hmem)
  | some d =>
    obtain ⟨front, place, back, hrange, hd, hfront⟩ := List.findSome?_eq_some_iff.mp hfound
    have hnearest := nearestAt_of_nearestAt? hx hd
    obtain ⟨k, -, rfl, hback⟩ := List.range'_eq_append_iff.mp hrange
    obtain ⟨hplace, -, -⟩ := List.range'_eq_cons_iff.mp hback.symm
    obtain rfl := hnearest.places_eq
    rw [Option.getD_some]
    refine ⟨d, ⟨hnearest, by omega, fun m places hplaces hreads => ?_⟩, rfl⟩
    by_contra hlt
    have hmem : places ∈ List.range' x.firstPlace k := List.mem_range'_1.mpr ⟨hplaces, by omega⟩
    exact nearestAt?_ne_none hx hreads (hfront places hmem)

end Found

end Binary64

end LoxTokens
