import LoxTokens.Proofs.Number.Search

/-!
# The fewest digits that tell a double

Which decimals have few digits does not depend on where their point stands, so a decimal
with few digits need not lie on a grid that the search looks at. `exists_on_grid` brings it
there. Below or above the powers of ten next to the double it could be replaced by such a
power, which reads back as well and is nearer; between them its digits say how many places
it can have.

`shortestDecimal_shortest` says that nothing with fewer digits rounds to a double that is
not whole, and that nothing with as many digits is nearer. The sign is not lost sight of.
-/

namespace LoxTokens

/-- The rational can be written with so many significant digits, wherever its point
stands. -/
def HasDigits (n : ℕ) (q : ℚ) : Prop := ∃ m k : ℤ, |m| < 10 ^ n ∧ q = m * 10 ^ k

namespace Binary64

/-- The rational rounds to the double. Rounding keeps the sign and takes no other notice of
it. -/
def RoundedFrom (x : Binary64) (q : ℚ) : Prop :=
  RoundsTo |q| x.magnitude ∧ (x.isNegative = true ↔ q < 0)

/-- A rational with so many significant digits that rounds to the double. None with fewer
does, and of those with as many none is nearer. -/
structure ShortestDecimal (x : Binary64) (n : ℕ) (y : ℚ) : Prop where
  hasDigits : HasDigits n y
  rounds : x.RoundedFrom y
  fewest : ∀ k q, k < n → HasDigits k q → ¬x.RoundedFrom q
  nearest : ∀ q, HasDigits n q → x.RoundedFrom q → |y - x.value| ≤ |q - x.value|

end Binary64

namespace Decimal

theorem digits_trimmed_le (digits places : ℕ) : (trimmed digits places).digits ≤ digits := by
  induction places generalizing digits with
  | zero => exact le_rfl
  | succ places ih =>
    rw [trimmed]
    split
    next => exact (ih (digits / 10)).trans (Nat.div_le_self _ _)
    next => exact le_rfl

/-- A power of ten loses a digit when its zeros are left out. -/
theorem digits_trimmed_lt {digits places b : ℕ} (hb : 0 < b) (hplaces : 0 < places)
    (h : digits ≤ 10 ^ b) : (trimmed digits places).digits < 10 ^ b := by
  obtain ⟨c, rfl⟩ := Nat.exists_eq_add_one.mpr hb
  obtain ⟨p, rfl⟩ := Nat.exists_eq_add_one.mpr hplaces
  have hpow : 10 ^ (c + 1) = 10 ^ c * 10 := pow_succ 10 c
  have hpos : 0 < 10 ^ c := Nat.pow_pos (by decide)
  rw [trimmed]
  split
  next =>
    have hle := digits_trimmed_le (digits / 10) p
    omega
  next hlast =>
    have hne : digits ≠ 10 ^ (c + 1) := by
      rintro rfl
      exact hlast (by rw [hpow, Nat.mul_mod_left])
    exact Nat.lt_of_le_of_ne h hne

end Decimal

namespace Binary64

section Grid

variable {x : Binary64} {E : ℤ} {q : ℚ}

/-- A rational that rounds to the double may be replaced by one that is not nearer to zero
than the power of ten below the double, nor beyond the one above. -/
theorem exists_in_decade (hlow : (10 : ℚ) ^ E ≤ |x.value|) (hhigh : |x.value| < 10 ^ (E + 1))
    (hq : NearestWord q x.unsignedWord) : ∃ g, NearestWord g x.unsignedWord ∧
      |g - (|x.value|)| ≤ |q - (|x.value|)| ∧
      (g = 10 ^ E ∨ g = 10 ^ (E + 1) ∨ (g = q ∧ 10 ^ E ≤ q)) := by
  rcases lt_or_ge q (10 ^ E) with hbelow | hbelow
  · have hmem : (10 : ℚ) ^ E ∈ Set.uIcc |x.value| q :=
      Set.mem_uIcc.mpr (Or.inr ⟨hbelow.le, hlow⟩)
    refine ⟨10 ^ E, hq.of_between ?_, Set.abs_sub_left_of_mem_uIcc hmem, Or.inl rfl⟩
    rwa [← abs_value]
  rcases lt_or_ge q (10 ^ (E + 1)) with habove | habove
  · exact ⟨q, hq, le_rfl, Or.inr (Or.inr ⟨rfl, hbelow⟩)⟩
  · have hmem : (10 : ℚ) ^ (E + 1) ∈ Set.uIcc |x.value| q :=
      Set.mem_uIcc.mpr (Or.inl ⟨hhigh.le, habove⟩)
    refine ⟨10 ^ (E + 1), hq.of_between ?_, Set.abs_sub_left_of_mem_uIcc hmem,
      Or.inr (Or.inl rfl)⟩
    rwa [← abs_value]

theorem exists_zpow_mul {a b : ℤ} (h : b ≤ a) (m : ℕ) :
    ∃ c : ℕ, (m : ℚ) * 10 ^ a = c * 10 ^ b := by
  obtain ⟨k, hk⟩ := Int.le.dest h
  refine ⟨m * 10 ^ k, ?_⟩
  rw [← hk, zpow_add₀ (by norm_num), zpow_natCast]
  push_cast
  ring

/-- A decimal with `n` digits that rounds to the double, or one that is no farther off, lies
on a grid: that of the places which `n` digits reach from the leading digit of the double. -/
theorem exists_on_grid (hx : x.isFinite = true) (hfraction : x.isIntegral = false)
    (hlow : (10 : ℚ) ^ E ≤ |x.value|) (hhigh : |x.value| < 10 ^ (E + 1)) {m n : ℕ} {k : ℤ}
    (hm : m < 10 ^ n) (hq : NearestWord (m * 10 ^ k) x.unsignedWord) :
    ∃ a places : ℕ, (n : ℤ) = E + 1 + places ∧ x.firstPlace ≤ places ∧
      x.isReadFrom ⟨a, places⟩ = true ∧
      x.error ⟨a, places⟩ ≤ |m * 10 ^ k - (|x.value|)| := by
  have hten : (0 : ℚ) < 10 := by norm_num
  have hn : 0 < n := by
    refine Nat.pos_of_ne_zero fun hzero => not_nearestWord_natCast hfraction 0 ?_
    rw [hzero, pow_zero, Nat.lt_one_iff] at hm
    rwa [hm, Nat.cast_zero, zero_mul, ← Nat.cast_zero] at hq
  obtain ⟨g, hg, hnear, hcases⟩ := exists_in_decade hlow hhigh hq
  obtain ⟨a, ha⟩ : ∃ a : ℕ, g = a * 10 ^ (E + 1 - n) := by
    rcases hcases with rfl | rfl | ⟨rfl, hle⟩
    · simpa using exists_zpow_mul (by omega : E + 1 - (n : ℤ) ≤ E) 1
    · simpa using exists_zpow_mul (by omega : E + 1 - (n : ℤ) ≤ E + 1) 1
    · have hlt : (m : ℚ) * 10 ^ k < 10 ^ ((n : ℤ) + k) := by
        rw [zpow_add₀ hten.ne', zpow_natCast]
        exact mul_lt_mul_of_pos_right (by exact_mod_cast hm) (by positivity)
      have hexp : E < (n : ℤ) + k :=
        (zpow_lt_zpow_iff_right₀ (by norm_num)).mp (hle.trans_lt hlt)
      exact exists_zpow_mul (by omega) m
  obtain ⟨places, hplaces, hpos⟩ : ∃ places : ℕ, (n : ℤ) = E + 1 + places ∧ 0 < places := by
    rcases lt_or_ge 0 ((n : ℤ) - E - 1) with hpos | hneg
    · exact ⟨((n : ℤ) - E - 1).toNat, by omega, by omega⟩
    · obtain ⟨c, hc⟩ := exists_zpow_mul (by omega : 0 ≤ E + 1 - (n : ℤ)) a
      rw [zpow_zero, mul_one] at hc
      rw [ha, hc] at hg
      exact absurd hg (not_nearestWord_natCast hfraction c)
  have hvalue : g = (⟨a, places⟩ : Decimal).value := by
    have hexp : E + 1 - (n : ℤ) = -(places : ℤ) := by omega
    rw [ha, Decimal.value, hexp, zpow_neg, zpow_natCast, div_eq_mul_inv]
  rw [hvalue] at hg hnear
  refine ⟨a, places, hplaces, ?_, (isReadFrom_iff_nearestWord hx _).mpr hg, hnear⟩
  rw [firstPlace_le_iff hfraction hpos]
  calc (1 : ℚ) ≤ 10 ^ (E + places) := one_le_zpow₀ (by norm_num) (by omega)
    _ = 10 ^ E * 10 ^ places := by rw [zpow_add₀ hten.ne', zpow_natCast]
    _ ≤ |x.value| * 10 ^ places := mul_le_mul_of_nonneg_right hlow (by positivity)

/-- The decimal that is found has no more digits than reach from the leading digit of the
double to its last place. -/
theorem Found.exists_digits_lt (hfraction : x.isIntegral = false)
    (hhigh : |x.value| < 10 ^ (E + 1)) {d : Decimal} (hd : Found x d) :
    ∃ b : ℕ, (b : ℤ) = E + 1 + d.places ∧ 0 < b ∧
      (Decimal.trimmed d.digits d.places).digits < 10 ^ b := by
  have hten : (0 : ℚ) < 10 := by norm_num
  have hpos : 0 < d.places := x.firstPlace_pos.trans_le hd.firstPlace_le
  have hone := (firstPlace_le_iff hfraction hpos).mp hd.firstPlace_le
  have hscaled : |x.value| * 10 ^ d.places < 10 ^ (E + 1 + d.places) := by
    rw [zpow_add₀ hten.ne', zpow_natCast]
    exact mul_lt_mul_of_pos_right hhigh (by positivity)
  have hb : 0 < E + 1 + d.places := by
    have hlt : (10 : ℚ) ^ (0 : ℤ) < 10 ^ (E + 1 + d.places) := by
      rw [zpow_zero]
      exact hone.trans_lt hscaled
    exact (zpow_lt_zpow_iff_right₀ (by norm_num)).mp hlt
  obtain ⟨b, hb'⟩ := Int.eq_ofNat_of_zero_le hb.le
  have hfloor : (x.floorAt d.places).digits < 10 ^ b := by
    have hle := x.value_floorAt_le d.places
    rw [value_floorAt, div_le_iff₀ (by positivity)] at hle
    rw [hb', zpow_natCast] at hscaled
    exact_mod_cast hle.trans_lt hscaled
  refine ⟨b, hb'.symm, by omega, Decimal.digits_trimmed_lt (by omega) hpos ?_⟩
  exact hd.nearestAt.digits_le.trans hfloor

end Grid

variable {x : Binary64}

/-- The number of significant digits of the decimal that is found. -/
def shortestLength (x : Binary64) : ℕ := (Nat.toDigits 10 x.shortest.digits).length

theorem shortestLength_le_iff {n : ℕ} (hn : 0 < n) :
    x.shortestLength ≤ n ↔ x.shortest.digits < 10 ^ n :=
  Nat.length_toDigits_le_iff (by decide) hn

theorem shortestLength_pos (x : Binary64) : 0 < x.shortestLength := Nat.length_toDigits_pos

/-- Nothing with fewer digits reads as the double, and nothing with as many is nearer: as many
digits are as many places, so both are on the grid that was searched. -/
theorem shortestLength_le (hx : x.isFinite = true) (hfraction : x.isIntegral = false)
    {m n : ℕ} {k : ℤ} (hm : m < 10 ^ n) (hq : NearestWord (m * 10 ^ k) x.unsignedWord) :
    x.shortestLength ≤ n ∧
      (x.shortestLength = n → x.error x.shortest ≤ |m * 10 ^ k - (|x.value|)|) := by
  obtain ⟨E, hlow, hhigh⟩ :=
    exists_mem_Ico_zpow (abs_value_pos hfraction) (by norm_num : (1 : ℚ) < 10)
  obtain ⟨d, hd, hshortest⟩ := exists_found hx hfraction
  obtain ⟨a, places, hplaces, hfirst, hreads, hnear⟩ :=
    exists_on_grid hx hfraction hlow hhigh hm hq
  obtain ⟨b, hb, hpos, hdigits⟩ := hd.exists_digits_lt hfraction hhigh
  rw [← hshortest] at hdigits
  have hlength := (shortestLength_le_iff hpos).mpr hdigits
  have hle := hd.first a places hfirst hreads
  refine ⟨by omega, fun heq => ?_⟩
  obtain rfl : places = d.places := by omega
  have herror : x.error x.shortest = x.error d := by
    rw [error, error, hshortest, Decimal.value_trimmed]
  rw [herror]
  exact (hd.nearestAt.nearest a hreads).trans hnear

def sign (x : Binary64) : ℚ := if x.isNegative then -1 else 1

theorem abs_sign_mul (x : Binary64) (y : ℚ) : |x.sign * y| = |y| := by
  rw [sign]
  split_ifs
  · rw [neg_one_mul, abs_neg]
  · rw [one_mul]

theorem value_eq_sign_mul (x : Binary64) : x.value = x.sign * |x.value| := by
  rw [abs_value, value_eq, sign]

theorem RoundedFrom.eq_sign_mul {q : ℚ} (h : x.RoundedFrom q) : q = x.sign * |q| := by
  rw [sign]
  split_ifs with hsign
  · rw [abs_of_neg (h.2.mp hsign), neg_one_mul, neg_neg]
  · rw [abs_of_nonneg (not_lt.mp fun hneg => hsign (h.2.mpr hneg)), one_mul]

theorem RoundedFrom.abs_sub {q : ℚ} (h : x.RoundedFrom q) :
    |q - x.value| = |(|q|) - (|x.value|)| := by
  rw [← abs_sign_mul x (|q| - |x.value|), mul_sub, ← h.eq_sign_mul, ← value_eq_sign_mul]

theorem RoundedFrom.nearestWord (hx : x.isFinite = true) {q : ℚ} (h : x.RoundedFrom q) :
    NearestWord |q| x.unsignedWord := by
  rw [← unsignedWord_magnitude hx]
  exact h.1.nearestWord (abs_nonneg q) (isFinite_magnitude hx)

theorem sign_mul_neg_iff {y : ℚ} (hy : 0 < y) : x.isNegative = true ↔ x.sign * y < 0 := by
  rw [sign]
  split_ifs with hsign
  · exact iff_of_true hsign (by linarith)
  · exact iff_of_false hsign (by linarith)

end Binary64

theorem HasDigits.abs {n : ℕ} {q : ℚ} (h : HasDigits n q) :
    ∃ (m : ℕ) (k : ℤ), m < 10 ^ n ∧ |q| = m * 10 ^ k := by
  obtain ⟨m, k, hm, rfl⟩ := h
  have hpow : (0 : ℚ) < 10 ^ k := by positivity
  refine ⟨m.natAbs, k, ?_, ?_⟩
  · rw [Int.abs_eq_natAbs] at hm
    exact_mod_cast hm
  · rw [abs_mul, abs_of_pos hpow, Nat.cast_natAbs, Int.cast_abs]

theorem hasDigits_sign_mul (x : Binary64) {n : ℕ} {d : Decimal} (h : d.digits < 10 ^ n) :
    HasDigits n (x.sign * d.value) := by
  have hvalue : d.value = d.digits * 10 ^ (-(d.places : ℤ)) := by
    rw [Decimal.value, zpow_neg, zpow_natCast, div_eq_mul_inv]
  have hdigits : (d.digits : ℤ) < 10 ^ n := by exact_mod_cast h
  rw [hvalue, Binary64.sign]
  split_ifs
  · refine ⟨-d.digits, -d.places, ?_, ?_⟩
    · rwa [abs_neg, Nat.abs_cast]
    · push_cast
      ring
  · refine ⟨d.digits, -d.places, ?_, ?_⟩
    · rwa [Nat.abs_cast]
    · push_cast
      ring

namespace Binary64

variable {x : Binary64}

theorem nearestWord_shortest (hx : x.isFinite = true) :
    NearestWord x.shortest.value x.unsignedWord :=
  (isReadFrom_iff_nearestWord hx _).mp ((isReadFrom_iff x _).mpr (toBinary64_shortest hx))

theorem value_shortest_pos (hx : x.isFinite = true) (hfraction : x.isIntegral = false) :
    0 < x.shortest.value := by
  have hnonneg : 0 ≤ x.shortest.value := by
    rw [Decimal.value]
    positivity
  refine lt_of_le_of_ne hnonneg fun hzero => not_nearestWord_natCast hfraction 0 ?_
  rw [Nat.cast_zero, hzero]
  exact nearestWord_shortest hx

theorem roundedFrom_shortest (hx : x.isFinite = true) (hfraction : x.isIntegral = false) :
    x.RoundedFrom (x.sign * x.shortest.value) := by
  have hpos := value_shortest_pos hx hfraction
  have hrounds := x.shortest.roundsTo_toBinary64
  rw [toBinary64_shortest hx] at hrounds
  constructor
  · rwa [abs_sign_mul, abs_of_pos hpos]
  · exact sign_mul_neg_iff hpos

/-- The decimal that the search finds is the shortest of all, and the nearest of these. -/
theorem shortestDecimal_shortest (hx : x.isFinite = true) (hfraction : x.isIntegral = false) :
    ShortestDecimal x x.shortestLength (x.sign * x.shortest.value) := by
  have hrounds := roundedFrom_shortest hx hfraction
  have hlength : x.shortest.digits < 10 ^ x.shortestLength :=
    (shortestLength_le_iff x.shortestLength_pos).mp le_rfl
  refine ⟨hasDigits_sign_mul x hlength, hrounds, ?_, ?_⟩
  · intro k q hk hdigits hq
    obtain ⟨m, e, hm, hmq⟩ := hdigits.abs
    have hnearest := hq.nearestWord hx
    rw [hmq] at hnearest
    exact absurd (shortestLength_le hx hfraction hm hnearest).1 (not_le.mpr hk)
  · intro q hdigits hq
    obtain ⟨m, e, hm, hmq⟩ := hdigits.abs
    have hnearest := hq.nearestWord hx
    rw [hmq] at hnearest
    have herror := (shortestLength_le hx hfraction hm hnearest).2 rfl
    rw [hrounds.abs_sub, hq.abs_sub, abs_sign_mul, abs_of_pos (value_shortest_pos hx hfraction),
      hmq]
    exact herror

end Binary64

end LoxTokens
