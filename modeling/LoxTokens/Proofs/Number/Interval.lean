import LoxTokens.Proofs.Number.ReadBack

/-!
# The rationals that round to one double

The rationals with one nearest word form an interval around its magnitude, which may be
open or closed and need not be symmetric. All that is used of it is that it has no gaps:
`NearestWord.of_between`. A double that is not whole has no whole number in its interval,
because it lies between two whole numbers that are on the grid themselves.

`RoundsTo` and reading a decimal are both brought to nearest words here.
-/

namespace LoxTokens

/-- What lies between a rational and the magnitude of its nearest word has the same nearest
word. -/
theorem NearestWord.of_between {x y : ℚ} {w : ℕ} (h : NearestWord y w)
    (hx : x ∈ Set.uIcc (wordValue w) y) : NearestWord x w := by
  have hdist : |wordValue w - y| = |wordValue w - x| + |x - y| := by
    rcases Set.mem_uIcc.mp hx with ⟨hlow, hhigh⟩ | ⟨hlow, hhigh⟩
    · rw [abs_of_nonpos (by linarith), abs_of_nonpos (by linarith), abs_of_nonpos (by linarith)]
      ring
    · rw [abs_of_nonneg (by linarith), abs_of_nonneg (by linarith), abs_of_nonneg (by linarith)]
      ring
  have hfar : ∀ k, |wordValue k - y| ≤ |wordValue k - x| + |x - y| := fun k => abs_sub_le _ _ _
  constructor
  · intro k
    have hnear := h.nearest k
    have hk := hfar k
    linarith
  · intro k hne htie
    refine h.even k hne (le_antisymm ?_ (h.nearest k))
    have hk := hfar k
    linarith

/-- Whole numbers of up to 53 bits are on the grid. The significand is the number shifted up
to at least 53 bits. -/
theorem exists_wordValue_eq_natCast {n : ℕ} (hn : n ≤ 2 ^ 53) : ∃ w, wordValue w = n := by
  rcases Nat.eq_zero_or_pos n with rfl | hpos
  · exact ⟨0, by rw [wordValue_zero, Nat.cast_zero]⟩
  obtain ⟨shift, hshift, hlow, hhigh⟩ :
      ∃ shift ≤ 52, 2 ^ 52 ≤ n * 2 ^ shift ∧ n * 2 ^ shift ≤ 2 ^ 53 := by
    have hle : 2 ^ n.log2 ≤ n := Nat.log2_self_le hpos.ne'
    have hlt : n < 2 ^ (n.log2 + 1) := Nat.lt_log2_self
    refine ⟨52 - n.log2, Nat.sub_le _ _, ?_, ?_⟩
    · calc 2 ^ 52 ≤ 2 ^ (n.log2 + (52 - n.log2)) := Nat.pow_le_pow_right two_pos (by omega)
        _ = 2 ^ n.log2 * 2 ^ (52 - n.log2) := pow_add _ _ _
        _ ≤ n * 2 ^ (52 - n.log2) := Nat.mul_le_mul_right _ hle
    · rcases Nat.lt_or_ge 52 n.log2 with hlarge | hsmall
      · rwa [Nat.sub_eq_zero_of_le hlarge.le, pow_zero, mul_one]
      · have hexp : n.log2 + 1 + (52 - n.log2) = 53 := by omega
        calc n * 2 ^ (52 - n.log2) ≤ 2 ^ (n.log2 + 1) * 2 ^ (52 - n.log2) :=
            Nat.mul_le_mul_right _ hlt.le
          _ = 2 ^ 53 := by rw [← pow_add, hexp]
  refine ⟨(1074 - shift) * 2 ^ 52 + n * 2 ^ shift, ?_⟩
  have hexp : ((1074 - shift : ℕ) : ℤ) - 1074 = -(shift : ℤ) := by omega
  rw [wordValue_add hhigh (Or.inr hlow), hexp, zpow_neg, zpow_natCast]
  push_cast
  exact mul_inv_cancel_right₀ (by positivity) _

/-- A whole number goes to a whole number, as far as there are others in between. -/
theorem NearestWord.exists_natCast {n w : ℕ} (h : NearestWord n w) (hw : wordValue w < 2 ^ 53) :
    ∃ m : ℕ, wordValue w = m := by
  obtain ⟨m, hm, hbetween⟩ :
      ∃ m : ℕ, m ≤ 2 ^ 53 ∧ (m : ℚ) ∈ Set.uIcc (wordValue w) n := by
    have hpos := wordValue_nonneg w
    rcases le_total (n : ℚ) (wordValue w) with hle | hle
    · have hfloor : ((⌊wordValue w⌋₊ : ℕ) : ℚ) ≤ wordValue w := Nat.floor_le hpos
      refine ⟨⌊wordValue w⌋₊, ?_, Set.mem_uIcc.mpr (Or.inr ⟨?_, hfloor⟩)⟩
      · exact_mod_cast hfloor.trans hw.le
      · exact_mod_cast Nat.le_floor hle
    · refine ⟨⌈wordValue w⌉₊, ?_, Set.mem_uIcc.mpr (Or.inl ⟨Nat.le_ceil _, ?_⟩)⟩
      · exact Nat.ceil_le.mpr (by exact_mod_cast hw.le)
      · exact_mod_cast Nat.ceil_le.mpr hle
  obtain ⟨k, hk⟩ := exists_wordValue_eq_natCast hm
  have hnearest : NearestWord (wordValue k) w := hk ▸ h.of_between hbetween
  exact ⟨m, by rw [hnearest.unique (.of_wordValue k), hk]⟩

theorem NearestWord.exists_of_nonneg {x : ℚ} (hx : 0 ≤ x) : ∃ w, NearestWord x w := by
  obtain ⟨w, hw, -⟩ := Binary64.exists_nearestWord x.num.natAbs x.den_pos
  have hnum : ((x.num.natAbs : ℕ) : ℚ) = x.num := by
    rw [Nat.cast_natAbs, abs_of_nonneg (Rat.num_nonneg.mpr hx)]
  rw [hnum, Rat.num_div_den] at hw
  exact ⟨w, hw⟩

namespace Binary64

theorem value_of_nonneg {v : Binary64} (h : v.isNegative = false) :
    v.value = wordValue v.unsignedWord := by
  rw [value_eq, h, if_neg Bool.false_ne_true, one_mul]

/-- The finite double that a rational rounds to is its nearest word. -/
theorem RoundsTo.nearestWord {x : ℚ} {v : Binary64} (h : RoundsTo x v) (hx : 0 ≤ x)
    (hv : v.isFinite = true) : NearestWord x v.unsignedWord := by
  have hvalue := value_of_nonneg h.unsigned
  have hlt : x < 2 ^ 1024 - 2 ^ 970 := by
    by_contra hge
    rw [h.infinite_iff.mpr (not_lt.mp hge)] at hv
    exact absurd hv (by decide)
  obtain ⟨w, hw⟩ := NearestWord.exists_of_nonneg hx
  have hfinite : w < infinityWord :=
    Nat.lt_of_not_le fun hle => absurd (hw.infinityWord_le_iff.mp hle) (not_le.mpr hlt)
  have hwfinite : isFinite ⟨UInt64.ofNat w⟩ = true := by
    rw [isFinite_iff, unsignedWord_word hfinite.le]
    exact hfinite
  have hwvalue := value_word hfinite.le
  have htie : |wordValue w - x| = |wordValue v.unsignedWord - x| := by
    refine le_antisymm (hw.nearest _) ?_
    rw [← hvalue, ← hwvalue]
    exact h.nearest hlt _ hwfinite
  rcases eq_or_ne v.unsignedWord w with heq | hne
  · rwa [heq]
  · have heven : Even v.unsignedWord := by
      rw [← even_wordSignificand, ← significand_eq]
      refine h.even hlt _ hwfinite ?_ ?_
      · rw [hwvalue, hvalue, htie]
      · rw [hwvalue, hvalue]
        exact fun heq => hne (wordValue_strictMono.injective heq).symm
    exact ⟨fun k => htie ▸ hw.nearest k, fun _ _ _ => heven⟩

theorem magnitude_eq_word (x : Binary64) : x.magnitude = ⟨UInt64.ofNat x.unsignedWord⟩ := by
  have hmask : 1 <<< 63 = 2 ^ 63 := by decide
  rw [magnitude, hmask, unsignedWord]

theorem unsignedWord_magnitude {x : Binary64} (hx : x.isFinite = true) :
    x.magnitude.unsignedWord = x.unsignedWord := by
  rw [magnitude_eq_word, unsignedWord_word ((isFinite_iff x).mp hx).le]

theorem isFinite_magnitude {x : Binary64} (hx : x.isFinite = true) :
    x.magnitude.isFinite = true := by
  rw [isFinite_iff, unsignedWord_magnitude hx, ← isFinite_iff, hx]

/-- Reading a decimal as a double finds the nearest word. -/
theorem isReadFrom_iff_nearestWord {x : Binary64} (hx : x.isFinite = true) (d : Decimal) :
    x.isReadFrom d = true ↔ NearestWord d.value x.unsignedWord := by
  have hword := (isFinite_iff x).mp hx
  obtain ⟨w, hw, hread⟩ := exists_nearestWord d.digits (Decimal.unit_pos d.places)
  rw [Decimal.cast_unit] at hw
  have hmin := min_le_left infinityWord w
  rw [isReadFrom_iff, Decimal.toBinary64, hread, magnitude_eq_word]
  constructor
  · intro h
    have heq : min infinityWord w = x.unsignedWord := by
      rw [← unsignedWord_word hmin, h, unsignedWord_word hword.le]
    obtain rfl : w = x.unsignedWord := by omega
    exact hw
  · intro h
    rw [hw.unique h, min_eq_right hword.le]

end Binary64

end LoxTokens
