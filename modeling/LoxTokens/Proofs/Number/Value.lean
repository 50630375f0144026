import LoxTokens.Proofs.Number.Grid

/-!
# What doubles denote

A finite double denotes a rational by its sign, its exponent and its fraction. Without
the sign its word is a place on the grid, and the rational is the magnitude there:
`value_eq` says so, and everything about values goes through it. Every word up to that
of infinity is a double without sign.
-/

namespace LoxTokens

namespace Binary64

/-- The rational that a finite double denotes by its sign, its exponent and its fraction.
Both zeros denote zero. -/
def value (x : Binary64) : ℚ :=
  (if x.isNegative then -1 else 1) *
    if x.exponentField = 0 then (2 : ℚ) ^ (-1022 : ℤ) * ((x.fractionField : ℚ) / 2 ^ 52)
    else (2 : ℚ) ^ ((x.exponentField : ℤ) - 1023) * (1 + (x.fractionField : ℚ) / 2 ^ 52)

/-- The word of a double without its sign, a place on the grid. -/
def unsignedWord (x : Binary64) : ℕ := x.bits.toNat % 2 ^ 63

theorem exponentField_eq (x : Binary64) : x.exponentField = x.unsignedWord / 2 ^ 52 := by
  have hmask : 1 <<< 11 = 2 ^ 11 := by decide
  rw [exponentField, unsignedWord, Nat.shiftRight_eq_div_pow, hmask]
  omega

theorem fractionField_eq (x : Binary64) : x.fractionField = x.unsignedWord % 2 ^ 52 := by
  have hmask : 1 <<< 52 = 2 ^ 52 := by decide
  rw [fractionField, unsignedWord, hmask]
  omega

theorem significand_eq (x : Binary64) : x.significand = wordSignificand x.unsignedWord := by
  have hmask : 1 <<< 52 = 2 ^ 52 := by decide
  rw [significand, exponentField_eq, fractionField_eq, hmask, wordSignificand]

theorem isFinite_iff (x : Binary64) : x.isFinite = true ↔ x.unsignedWord < infinityWord := by
  have hinfinity : infinityWord = 2047 * 2 ^ 52 := by decide
  have hword : x.unsignedWord < 2 ^ 63 := Nat.mod_lt _ (Nat.two_pow_pos 63)
  rw [isFinite, exponentField_eq, bne_iff_ne, hinfinity]
  omega

/-- Read on the grid, a double denotes the magnitude of its word, with its sign. -/
theorem value_eq (x : Binary64) :
    x.value = (if x.isNegative then -1 else 1) * wordValue x.unsignedWord := by
  rw [value, wordValue, wordSignificand, exponentField_eq, fractionField_eq]
  congr 1
  generalize x.unsignedWord / 2 ^ 52 = exponent
  generalize x.unsignedWord % 2 ^ 52 = fraction
  split_ifs with hexponent
  · have hexp : ((max 1 exponent : ℕ) : ℤ) - 1075 = -1022 - (52 : ℕ) := by omega
    rw [hexp, zpow_sub₀ two_ne_zero, zpow_natCast]
    generalize (2 : ℚ) ^ (-1022 : ℤ) = step
    ring
  · have hexp : ((max 1 exponent : ℕ) : ℤ) - 1075 = exponent - 1023 - (52 : ℕ) := by omega
    rw [hexp, zpow_sub₀ two_ne_zero _ (52 : ℕ), zpow_natCast, Nat.cast_add, Nat.cast_pow,
      Nat.cast_ofNat]
    generalize (2 : ℚ) ^ ((exponent : ℤ) - 1023) = step
    field_simp

theorem abs_value (x : Binary64) : |x.value| = wordValue x.unsignedWord := by
  rw [value_eq]
  split_ifs
  · rw [neg_one_mul, abs_neg, abs_of_nonneg (wordValue_nonneg _)]
  · rw [one_mul, abs_of_nonneg (wordValue_nonneg _)]

/-- Leaving out its sign never takes a double farther from what is not negative. -/
theorem abs_wordValue_sub_le {x : ℚ} (hx : 0 ≤ x) (y : Binary64) :
    |wordValue y.unsignedWord - x| ≤ |y.value - x| := by
  have h := abs_abs_sub_abs_le y.value x
  rwa [abs_value, abs_of_nonneg hx] at h

section Words

variable {n : ℕ}

theorem toNat_word (hn : n ≤ infinityWord) : (UInt64.ofNat n).toNat = n :=
  UInt64.toNat_ofNat_of_lt' (hn.trans_lt (by decide))

theorem unsignedWord_word (hn : n ≤ infinityWord) : unsignedWord ⟨UInt64.ofNat n⟩ = n := by
  rw [unsignedWord, toNat_word hn]
  exact Nat.mod_eq_of_lt (hn.trans_lt (by decide))

theorem isNegative_word (hn : n ≤ infinityWord) : isNegative ⟨UInt64.ofNat n⟩ = false := by
  have hlt : n < 2 ^ 63 := hn.trans_lt (by decide)
  rw [isNegative, toNat_word hn, Nat.shiftRight_eq_div_pow, Nat.div_eq_of_lt hlt]
  rfl

theorem isNaN_word (hn : n ≤ infinityWord) : isNaN ⟨UInt64.ofNat n⟩ = false := by
  have hinfinity : infinityWord = 2047 * 2 ^ 52 := by decide
  rw [isNaN, exponentField_eq, fractionField_eq, unsignedWord_word hn, Bool.and_eq_false_iff,
    beq_eq_false_iff_ne, bne_eq_false_iff_eq]
  omega

theorem value_word (hn : n ≤ infinityWord) : value ⟨UInt64.ofNat n⟩ = wordValue n := by
  rw [value_eq, isNegative_word hn, unsignedWord_word hn, if_neg Bool.false_ne_true, one_mul]

theorem word_eq_infinity_iff (hn : n ≤ infinityWord) :
    (⟨UInt64.ofNat n⟩ : Binary64) = ⟨0x7ff0000000000000⟩ ↔ n = infinityWord := by
  have htop : (0x7ff0000000000000 : UInt64).toNat = infinityWord := by decide
  rw [mk.injEq, ← UInt64.toNat_inj, toNat_word hn, htop]

end Words

end Binary64

end LoxTokens
