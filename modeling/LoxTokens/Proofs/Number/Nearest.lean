import LoxTokens.Proofs.Number.Value

/-!
# Quotients go to the nearest double

`Binary64.ofRatio` finds the binade of a quotient, rounds to a whole number of steps of
that binade and packs the two into a word. Rounding up may leave the binade or even the
format, and packing takes no notice of it, because the words go on there in order.

`roundsTo_ofRatio` says that the double which comes out is the one that the standard
asks for. `RoundsTo` states this over the rationals that finite doubles denote by their
fields, without the grid.
-/

namespace LoxTokens

theorem div_eq_whole_add (num : ℕ) {den : ℕ} (hden : 0 < den) :
    (num : ℚ) / den = (num / den : ℕ) + ((num % den : ℕ) : ℚ) / den := by
  have hden' : (den : ℚ) ≠ 0 := by exact_mod_cast hden.ne'
  have hdiv : (num : ℚ) = den * (num / den : ℕ) + (num % den : ℕ) := by
    exact_mod_cast (Nat.div_add_mod num den).symm
  rw [div_eq_iff hden', add_mul, div_mul_cancel₀ _ hden', mul_comm ((num / den : ℕ) : ℚ)]
  exact hdiv

/-- Rounding takes the whole part of the quotient or the next natural, whichever is
nearer; in the middle it takes the even one. -/
theorem roundHalfEven_cases (num : ℕ) {den : ℕ} (hden : 0 < den) :
    (roundHalfEven num den = num / den ∧
      (num : ℚ) / den - (num / den : ℕ) ≤ (num / den : ℕ) + 1 - (num : ℚ) / den ∧
      ((num : ℚ) / den - (num / den : ℕ) = (num / den : ℕ) + 1 - (num : ℚ) / den →
        Even (num / den))) ∨
    (roundHalfEven num den = num / den + 1 ∧
      (num / den : ℕ) + 1 - (num : ℚ) / den ≤ (num : ℚ) / den - (num / den : ℕ) ∧
      ((num : ℚ) / den - (num / den : ℕ) = (num / den : ℕ) + 1 - (num : ℚ) / den →
        Even (num / den + 1))) := by
  have hden' : (0 : ℚ) < den := by exact_mod_cast hden
  rw [roundHalfEven, div_eq_whole_add num hden]
  rcases Nat.lt_trichotomy (2 * (num % den)) den with h | h | h
  · have hpart : ((num % den : ℕ) : ℚ) / den < 1 / 2 := by
      rw [div_lt_div_iff₀ hden' two_pos]
      exact_mod_cast (by omega : num % den * 2 < 1 * den)
    rw [if_pos h]
    exact Or.inl ⟨rfl, by linarith, fun htie => by linarith⟩
  · have hpart : ((num % den : ℕ) : ℚ) / den = 1 / 2 := by
      rw [div_eq_div_iff hden'.ne' two_ne_zero]
      exact_mod_cast (by omega : num % den * 2 = 1 * den)
    rw [if_neg (by omega), if_neg (by omega)]
    rcases Nat.mod_two_eq_zero_or_one (num / den) with hparity | hparity
    · exact Or.inl ⟨by omega, by linarith, fun _ => Nat.even_iff.mpr hparity⟩
    · exact Or.inr ⟨by omega, by linarith, fun _ => Nat.even_iff.mpr (by omega)⟩
  · have hpart : 1 / 2 < ((num % den : ℕ) : ℚ) / den := by
      rw [div_lt_div_iff₀ two_pos hden']
      exact_mod_cast (by omega : 1 * den < num % den * 2)
    rw [if_neg (by omega), if_pos h]
    exact Or.inr ⟨rfl, by linarith, fun htie => by linarith⟩

/-- A quotient that lies in the binade, counted in its steps and rounded, gives the
nearest word. Both its neighbours are whole numbers of steps of this binade. -/
theorem nearestWord_roundHalfEven {x : ℚ} {power num den : ℕ} (hden : 0 < den)
    (hx : x = num / den * 2 ^ ((power : ℤ) - 1074)) (hhigh : x < 2 ^ 53 * 2 ^ ((power : ℤ) - 1074))
    (hlow : power = 0 ∨ 2 ^ 52 * 2 ^ ((power : ℤ) - 1074) ≤ x) :
    NearestWord x (power * 2 ^ 52 + roundHalfEven num den) := by
  have hden' : (0 : ℚ) < den := by exact_mod_cast hden
  have hstep : (0 : ℚ) < 2 ^ ((power : ℤ) - 1074) := by positivity
  generalize hunit : (2 : ℚ) ^ ((power : ℤ) - 1074) = step at hx hhigh hlow hstep
  have hlt : num / den < 2 ^ 53 := by
    rw [hx, mul_lt_mul_iff_of_pos_right hstep, div_lt_iff₀ hden'] at hhigh
    exact (Nat.div_lt_iff_lt_mul hden).mpr (by exact_mod_cast hhigh)
  have hle : power = 0 ∨ 2 ^ 52 ≤ num / den := by
    refine hlow.imp_right fun h => ?_
    rw [hx, mul_le_mul_iff_of_pos_right hstep, le_div_iff₀ hden'] at h
    exact (Nat.le_div_iff_mul_le hden).mpr (by exact_mod_cast h)
  have hbelow : x - wordValue (power * 2 ^ 52 + num / den) =
      ((num : ℚ) / den - (num / den : ℕ)) * step := by
    rw [wordValue_add (by omega) hle, hunit, hx, sub_mul]
  have habove : wordValue (power * 2 ^ 52 + num / den + 1) - x =
      ((num / den : ℕ) + 1 - (num : ℚ) / den) * step := by
    rw [Nat.add_assoc, wordValue_add (by omega) (by omega), hunit, hx, Nat.cast_succ, sub_mul]
  have hlow' : wordValue (power * 2 ^ 52 + num / den) ≤ x := by
    rw [← sub_nonneg, hbelow]
    exact mul_nonneg (sub_nonneg.mpr Nat.cast_div_le) hstep.le
  have hhigh' : x < wordValue (power * 2 ^ 52 + num / den + 1) := by
    rw [← sub_pos, habove, ← Nat.floor_div_eq_div (K := ℚ)]
    exact mul_pos (sub_pos.mpr (Nat.lt_floor_add_one _)) hstep
  have heven : Even (power * 2 ^ 52) := (by decide : Even (2 ^ 52)).mul_left power
  rcases roundHalfEven_cases num hden with ⟨hround, hnear, htie⟩ | ⟨hround, hnear, htie⟩
  · rw [hround]
    refine nearestWord_lower hlow' hhigh' ?_ fun h => heven.add (htie ?_)
    · rw [hbelow, habove]
      exact mul_le_mul_of_nonneg_right hnear hstep.le
    · rw [hbelow, habove] at h
      exact mul_right_cancel₀ hstep.ne' h
  · rw [hround, ← Nat.add_assoc]
    refine nearestWord_upper hlow' hhigh' ?_ fun h => Nat.add_assoc _ _ _ ▸ heven.add (htie ?_)
    · rw [hbelow, habove]
      exact mul_le_mul_of_nonneg_right hnear hstep.le
    · rw [hbelow, habove] at h
      exact mul_right_cancel₀ hstep.ne' h

namespace Binary64

/-- The steps of a binade, with the shifts that count a quotient in them. -/
theorem step_mul_pow (power : ℕ) : (2 : ℚ) ^ ((power : ℤ) - 1074) * 2 ^ (1074 - power) =
    2 ^ (power - 1074) := by
  rcases Nat.le_total power 1074 with h | h
  · obtain ⟨k, hk⟩ := Nat.exists_eq_add_of_le h
    have hexp : (power : ℤ) - 1074 = -(k : ℤ) := by omega
    have hup : 1074 - power = k := by omega
    rw [hexp, hup, Nat.sub_eq_zero_of_le h, zpow_neg, zpow_natCast, pow_zero]
    exact inv_mul_cancel₀ (by positivity)
  · obtain ⟨k, hk⟩ := Nat.exists_eq_add_of_le h
    have hexp : (power : ℤ) - 1074 = (k : ℤ) := by omega
    have hup : power - 1074 = k := by omega
    rw [hexp, hup, Nat.sub_eq_zero_of_le h, zpow_natCast, pow_zero, mul_one]

theorem scaled_quotient {num den : ℕ} (hden : 0 < den) (power : ℕ) :
    (num : ℚ) / den = ((num <<< (1074 - power) : ℕ) : ℚ) / ((den <<< (power - 1074) : ℕ) : ℚ) *
      2 ^ ((power : ℤ) - 1074) := by
  have hden' : (den : ℚ) ≠ 0 := by exact_mod_cast hden.ne'
  have hpow : (2 : ℚ) ^ (power - 1074) ≠ 0 := by positivity
  rw [Nat.shiftLeft_eq, Nat.shiftLeft_eq]
  push_cast
  rw [div_mul_eq_mul_div, mul_assoc, mul_comm (2 ^ (1074 - power) : ℚ), step_mul_pow,
    mul_div_mul_right _ _ hpow]

/-- The powers of two next to a quotient, read off the whole part of the quotient when it
has been scaled up. -/
theorem log2_bounds (num : ℕ) {den : ℕ} (hden : 0 < den) {shift power : ℕ}
    (hpower : power = ((num <<< shift) / den).log2) :
    (num : ℚ) / den < 2 ^ ((power : ℤ) + 1 - shift) ∧
      (power = 0 ∨ (2 : ℚ) ^ ((power : ℤ) - shift) ≤ num / den) := by
  have hden' : (0 : ℚ) < den := by exact_mod_cast hden
  have hunit : (0 : ℚ) < 2 ^ shift := by positivity
  constructor
  · have hlt : num <<< shift < 2 ^ (power + 1) * den := by
      rw [← Nat.div_lt_iff_lt_mul hden, hpower]
      exact Nat.lt_log2_self
    rw [Nat.shiftLeft_eq] at hlt
    rw [zpow_sub₀ two_ne_zero, ← Nat.cast_add_one, zpow_natCast, zpow_natCast,
      div_lt_div_iff₀ hden' hunit]
    exact_mod_cast hlt
  · refine (Nat.eq_zero_or_pos power).imp_right fun hpos => ?_
    have hquotient : num <<< shift / den ≠ 0 := by
      intro hzero
      rw [hzero, Nat.log2_zero] at hpower
      omega
    have hle : 2 ^ power * den ≤ num <<< shift := by
      rw [← Nat.le_div_iff_mul_le hden, hpower]
      exact Nat.log2_self_le hquotient
    rw [Nat.shiftLeft_eq] at hle
    rw [zpow_sub₀ two_ne_zero, zpow_natCast, zpow_natCast, div_le_div_iff₀ hunit hden']
    exact_mod_cast hle

/-- The power of two under the quotient, counted from the lowest binade on, tells its
binade. -/
theorem binade_bounds (num : ℕ) {den : ℕ} (hden : 0 < den) {power : ℕ}
    (hpower : power = ((num <<< 1022) / den).log2) :
    (num : ℚ) / den < 2 ^ 53 * 2 ^ ((power : ℤ) - 1074) ∧
      (power = 0 ∨ 2 ^ 52 * 2 ^ ((power : ℤ) - 1074) ≤ (num : ℚ) / den) := by
  have hbounds := log2_bounds num hden hpower
  have hupper : (power : ℤ) + 1 - (1022 : ℕ) = (53 : ℕ) + ((power : ℤ) - 1074) := by omega
  have hlower : (power : ℤ) - (1022 : ℕ) = (52 : ℕ) + ((power : ℤ) - 1074) := by omega
  rwa [hupper, hlower, zpow_add₀ two_ne_zero, zpow_add₀ two_ne_zero, zpow_natCast,
    zpow_natCast] at hbounds

/-- A quotient is rounded to the nearest word, as far as the format goes. -/
theorem exists_nearestWord (num : ℕ) {den : ℕ} (hden : 0 < den) : ∃ w,
    NearestWord (num / den) w ∧ ofRatio num den = ⟨UInt64.ofNat (min infinityWord w)⟩ := by
  obtain ⟨power, hpower⟩ : ∃ power, power = ((num <<< 1022) / den).log2 := ⟨_, rfl⟩
  obtain ⟨hhigh, hlow⟩ := binade_bounds num hden hpower
  have hden' : 0 < den <<< (power - 1074) := by
    rw [Nat.shiftLeft_eq]
    exact Nat.mul_pos hden (Nat.two_pow_pos _)
  refine ⟨_, nearestWord_roundHalfEven hden' (scaled_quotient hden power) hhigh hlow, ?_⟩
  rw [ofRatio, ← hpower, Nat.shiftLeft_eq power]

/-- Rounding sees only the quotient, and not how it is written. -/
theorem ofRatio_congr {num den num' den' : ℕ} (hden : 0 < den) (hden' : 0 < den')
    (h : (num : ℚ) / den = num' / den') : ofRatio num den = ofRatio num' den' := by
  obtain ⟨v, hv, hword⟩ := exists_nearestWord num hden
  obtain ⟨w, hw, hword'⟩ := exists_nearestWord num' hden'
  rw [h] at hv
  rw [hword, hword', hv.unique hw]

/-- A quotient that lies on the grid is not changed by rounding. -/
theorem ofRatio_of_wordValue {num den n : ℕ} (hden : 0 < den) (hn : n ≤ infinityWord)
    (h : (num : ℚ) / den = wordValue n) : ofRatio num den = ⟨UInt64.ofNat n⟩ := by
  obtain ⟨w, hw, hword⟩ := exists_nearestWord num hden
  rw [h] at hw
  rw [hword, hw.unique (.of_wordValue n), min_eq_right hn]

/-- Rounding a rational that is not negative to the nearest double, ties to even. From
the middle between the largest finite double and the next power of two on the result is
infinity. Below it is a finite double that no other is nearer to, and one with an even
significand if one of another value is as near. It has no sign, and is always a number. -/
structure RoundsTo (x : ℚ) (v : Binary64) : Prop where
  infinite_iff : v = ⟨0x7ff0000000000000⟩ ↔ 2 ^ 1024 - 2 ^ 970 ≤ x
  finite : x < 2 ^ 1024 - 2 ^ 970 → v.isFinite = true
  nearest : x < 2 ^ 1024 - 2 ^ 970 →
    ∀ w : Binary64, w.isFinite = true → |v.value - x| ≤ |w.value - x|
  even : x < 2 ^ 1024 - 2 ^ 970 → ∀ w : Binary64, w.isFinite = true →
    |w.value - x| = |v.value - x| → w.value ≠ v.value → Even v.significand
  unsigned : v.isNegative = false
  number : v.isNaN = false

end Binary64

namespace NearestWord

variable {x : ℚ} {n : ℕ}

/-- A double that is as near as the nearest word, but of another value, does not differ
from it by the sign alone. -/
theorem unsignedWord_ne (hx : 0 ≤ x) (h : NearestWord x n) {w : Binary64}
    (htie : |w.value - x| = |wordValue n - x|) (hne : w.value ≠ wordValue n) :
    w.unsignedWord ≠ n := by
  rintro rfl
  rcases abs_choice w.value with hsign | hsign
  · exact hne (hsign.symm.trans w.abs_value)
  · have hzero := h.nearest 0
    rw [wordValue_zero, zero_sub, abs_neg, abs_of_nonneg hx, ← htie] at hzero
    rw [w.abs_value] at hsign
    have hdist := neg_le_abs (w.value - x)
    have hpos := wordValue_nonneg w.unsignedWord
    exact hne (by linarith)

/-- The nearest word, cut off at infinity, is the double that rounding asks for. -/
theorem roundsTo (hx : 0 ≤ x) (h : NearestWord x n) :
    Binary64.RoundsTo x ⟨UInt64.ofNat (min Binary64.infinityWord n)⟩ := by
  have hword := min_le_left Binary64.infinityWord n
  have hbelow : x < 2 ^ 1024 - 2 ^ 970 → n < Binary64.infinityWord := fun hlt =>
    Nat.lt_of_not_le fun hle => absurd (h.infinityWord_le_iff.mp hle) (not_le.mpr hlt)
  refine ⟨?_, ?_, ?_, ?_, Binary64.isNegative_word hword, Binary64.isNaN_word hword⟩
  · rw [Binary64.word_eq_infinity_iff hword, ← h.infinityWord_le_iff]
    exact min_eq_left_iff
  · intro hlt
    rw [Binary64.isFinite_iff, Binary64.unsignedWord_word hword]
    exact min_lt_iff.mpr (Or.inr (hbelow hlt))
  · intro hlt w _
    rw [Binary64.value_word hword, min_eq_right (hbelow hlt).le]
    exact (h.nearest w.unsignedWord).trans (Binary64.abs_wordValue_sub_le hx w)
  · intro hlt w _ htie hne
    rw [Binary64.value_word hword, min_eq_right (hbelow hlt).le] at htie hne
    rw [Binary64.significand_eq, Binary64.unsignedWord_word hword, even_wordSignificand,
      min_eq_right (hbelow hlt).le]
    refine h.even w.unsignedWord (h.unsignedWord_ne hx htie hne) ?_
    exact le_antisymm ((Binary64.abs_wordValue_sub_le hx w).trans htie.le) (h.nearest _)

end NearestWord

namespace Binary64

theorem roundsTo_ofRatio (num : ℕ) {den : ℕ} (hden : 0 < den) :
    RoundsTo (num / den) (ofRatio num den) := by
  obtain ⟨w, hnearest, hword⟩ := exists_nearestWord num hden
  rw [hword]
  exact hnearest.roundsTo (by positivity)

end Binary64

end LoxTokens
