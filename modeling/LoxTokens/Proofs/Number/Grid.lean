import Mathlib
import LoxTokens.Number.Binary64

/-!
# The grid of magnitudes

Without their signs, the words of doubles are the naturals from zero on, and the
magnitudes they denote go up with them. Here the words are taken without an upper end:
the word of infinity is the first beyond the format, and its magnitude is the power of
two that would come next. So every rational that is not negative lies on the grid or
between two neighbours of it, and rounding is a choice between these two.

`NearestWord` says what rounding to the nearest magnitude means, ties to even, and
`nearestWord_lower` and `nearestWord_upper` say what the choice depends on.
-/

namespace LoxTokens

def wordSignificand (n : ℕ) : ℕ := if n / 2 ^ 52 = 0 then n % 2 ^ 52 else 2 ^ 52 + n % 2 ^ 52

/-- The magnitude of a word without sign: its significand, scaled by a power of two that
its other bits tell. -/
def wordValue (n : ℕ) : ℚ := wordSignificand n * 2 ^ (((max 1 (n / 2 ^ 52) : ℕ) : ℤ) - 1075)

/-- Counted from the beginning of a binade, words go up in equal steps, up to the first
word of the next binade. -/
theorem wordValue_add {power m : ℕ} (hm : m ≤ 2 ^ 53) (hpower : power = 0 ∨ 2 ^ 52 ≤ m) :
    wordValue (power * 2 ^ 52 + m) = m * 2 ^ ((power : ℤ) - 1074) := by
  rcases Nat.lt_or_ge m (2 ^ 52) with hsmall | hlarge
  · obtain rfl : power = 0 := by omega
    have hdiv : (0 * 2 ^ 52 + m) / 2 ^ 52 = 0 := by omega
    have hmod : (0 * 2 ^ 52 + m) % 2 ^ 52 = m := by omega
    rw [wordValue, wordSignificand, hdiv, hmod, if_pos rfl]
    norm_num
  rcases Nat.lt_or_ge m (2 ^ 53) with hm' | hm'
  · have hdiv : (power * 2 ^ 52 + m) / 2 ^ 52 = power + 1 := by omega
    have hmod : 2 ^ 52 + (power * 2 ^ 52 + m) % 2 ^ 52 = m := by omega
    have hexp : ((max 1 (power + 1) : ℕ) : ℤ) - 1075 = (power : ℤ) - 1074 := by omega
    rw [wordValue, wordSignificand, hdiv, if_neg (Nat.succ_ne_zero power), hmod, hexp]
  · obtain rfl : m = 2 ^ 53 := by omega
    have hdiv : (power * 2 ^ 52 + 2 ^ 53) / 2 ^ 52 = power + 2 := by omega
    have hmod : 2 ^ 52 + (power * 2 ^ 52 + 2 ^ 53) % 2 ^ 52 = 2 ^ 52 := by omega
    have hexp : ((max 1 (power + 2) : ℕ) : ℤ) - 1075 = (power : ℤ) - 1074 + 1 := by omega
    rw [wordValue, wordSignificand, hdiv, if_neg (Nat.succ_ne_zero _), hmod, hexp,
      zpow_add_one₀ two_ne_zero]
    push_cast
    ring

theorem exists_eq_add (n : ℕ) :
    ∃ power m, n = power * 2 ^ 52 + m ∧ m < 2 ^ 53 ∧ (power = 0 ∨ 2 ^ 52 ≤ m) :=
  ⟨n / 2 ^ 52 - 1, n - (n / 2 ^ 52 - 1) * 2 ^ 52, by omega, by omega, by omega⟩

theorem wordValue_lt_succ (n : ℕ) : wordValue n < wordValue (n + 1) := by
  obtain ⟨power, m, rfl, hm, hpower⟩ := exists_eq_add n
  have hstep : (0 : ℚ) < 2 ^ ((power : ℤ) - 1074) := by positivity
  rw [Nat.add_assoc, wordValue_add (by omega) hpower, wordValue_add (by omega) (by omega)]
  push_cast
  linarith

theorem wordValue_strictMono : StrictMono wordValue :=
  strictMono_nat_of_lt_succ wordValue_lt_succ

theorem wordValue_nonneg (n : ℕ) : 0 ≤ wordValue n := by
  unfold wordValue
  positivity

theorem wordValue_zero : wordValue 0 = 0 := by
  rw [wordValue, wordSignificand, Nat.zero_div, Nat.zero_mod, if_pos rfl, Nat.cast_zero, zero_mul]

theorem even_wordSignificand (n : ℕ) : Even (wordSignificand n) ↔ Even n := by
  rw [wordSignificand, Nat.even_iff, Nat.even_iff]
  split_ifs <;> omega

/-- The magnitude of the word `w` is nearest to `x` on the grid, and `w` is even if
another one is as near. -/
structure NearestWord (x : ℚ) (w : ℕ) : Prop where
  nearest : ∀ k, |wordValue w - x| ≤ |wordValue k - x|
  even : ∀ k, k ≠ w → |wordValue k - x| = |wordValue w - x| → Even w

section Between

variable {x : ℚ} {n k : ℕ}

theorem dist_of_le (hlow : wordValue n ≤ x) (hk : k ≤ n) :
    |wordValue k - x| = x - wordValue k := by
  have hle := wordValue_strictMono.monotone hk
  rw [abs_of_nonpos (by linarith), neg_sub]

theorem dist_of_lt (hhigh : x < wordValue (n + 1)) (hk : n < k) :
    |wordValue k - x| = wordValue k - x := by
  have hle := wordValue_strictMono.monotone (Nat.succ_le_of_lt hk)
  exact abs_of_pos (by linarith)

/-- Of two neighbours the lower is nearest, if it is nearer than the upper, or as near and
even. -/
theorem nearestWord_lower (hlow : wordValue n ≤ x) (hhigh : x < wordValue (n + 1))
    (hnear : x - wordValue n ≤ wordValue (n + 1) - x)
    (heven : x - wordValue n = wordValue (n + 1) - x → Even n) : NearestWord x n := by
  constructor
  · intro k
    rw [dist_of_le hlow le_rfl]
    rcases Nat.lt_or_ge n k with hk | hk
    · have hle := wordValue_strictMono.monotone (Nat.succ_le_of_lt hk)
      rw [dist_of_lt hhigh hk]
      linarith
    · have hle := wordValue_strictMono.monotone hk
      rw [dist_of_le hlow hk]
      linarith
  · intro k hne htie
    rw [dist_of_le hlow le_rfl] at htie
    rcases Nat.lt_or_ge n k with hk | hk
    · have hle := wordValue_strictMono.monotone (Nat.succ_le_of_lt hk)
      rw [dist_of_lt hhigh hk] at htie
      exact heven (by linarith)
    · have hlt := wordValue_strictMono (Nat.lt_of_le_of_ne hk hne)
      rw [dist_of_le hlow hk] at htie
      linarith

theorem nearestWord_upper (hlow : wordValue n ≤ x) (hhigh : x < wordValue (n + 1))
    (hnear : wordValue (n + 1) - x ≤ x - wordValue n)
    (heven : x - wordValue n = wordValue (n + 1) - x → Even (n + 1)) :
    NearestWord x (n + 1) := by
  constructor
  · intro k
    rw [dist_of_lt hhigh n.lt_succ_self]
    rcases Nat.lt_or_ge n k with hk | hk
    · have hle := wordValue_strictMono.monotone (Nat.succ_le_of_lt hk)
      rw [dist_of_lt hhigh hk]
      linarith
    · have hle := wordValue_strictMono.monotone hk
      rw [dist_of_le hlow hk]
      linarith
  · intro k hne htie
    rw [dist_of_lt hhigh n.lt_succ_self] at htie
    rcases Nat.lt_or_ge n k with hk | hk
    · have hlt := wordValue_strictMono (Nat.lt_of_le_of_ne (Nat.succ_le_of_lt hk) hne.symm)
      rw [dist_of_lt hhigh hk] at htie
      linarith
    · have hle := wordValue_strictMono.monotone hk
      rw [dist_of_le hlow hk] at htie
      exact heven (by linarith)

end Between

namespace NearestWord

theorem of_wordValue (n : ℕ) : NearestWord (wordValue n) n := by
  constructor
  · intro k
    rw [sub_self, abs_zero]
    exact abs_nonneg _
  · intro k hne htie
    rw [sub_self, abs_zero, abs_eq_zero, sub_eq_zero] at htie
    exact absurd (wordValue_strictMono.injective htie) hne

/-- Two words that are both nearest are as near, so they are even, and the odd word between
them would be nearer. -/
theorem not_lt {x : ℚ} {v w : ℕ} (hv : NearestWord x v) (hw : NearestWord x w) : ¬v < w := by
  intro hlt
  have htie : |wordValue v - x| = |wordValue w - x| :=
    le_antisymm (hv.nearest w) (hw.nearest v)
  have hevenv := Nat.even_iff.mp (hv.even w hlt.ne' htie.symm)
  have hevenw := Nat.even_iff.mp (hw.even v hlt.ne htie)
  have hlow : wordValue v < wordValue (v + 1) := wordValue_lt_succ v
  have hhigh : wordValue (v + 1) < wordValue w := wordValue_strictMono (by omega)
  have hdist := hv.nearest (v + 1)
  rcases abs_eq_abs.mp htie with h | h
  · linarith
  · have hnear : |wordValue (v + 1) - x| < x - wordValue v :=
      abs_lt.mpr ⟨by linarith, by linarith⟩
    have habs := neg_le_abs (wordValue v - x)
    linarith

theorem unique {x : ℚ} {v w : ℕ} (hv : NearestWord x v) (hw : NearestWord x w) : v = w :=
  Nat.le_antisymm (Nat.le_of_not_lt (hw.not_lt hv)) (Nat.le_of_not_lt (hv.not_lt hw))

end NearestWord

/-- Behind an odd word the nearest words begin in the middle to the next one, which is
even and wins there. -/
theorem NearestWord.succ_le_iff {x : ℚ} {w n : ℕ} (h : NearestWord x w) (hn : ¬Even n) :
    n + 1 ≤ w ↔ (wordValue n + wordValue (n + 1)) / 2 ≤ x := by
  have hlt := wordValue_lt_succ n
  constructor
  · intro hw
    by_contra hx
    have hle := wordValue_strictMono.monotone hw
    have hnear : |wordValue n - x| < wordValue (n + 1) - x :=
      abs_lt.mpr ⟨by linarith, by linarith⟩
    have hdist := h.nearest n
    have habs := le_abs_self (wordValue w - x)
    linarith
  · intro hx
    by_contra hw
    have hwn : w ≤ n := by omega
    have hle := wordValue_strictMono.monotone hwn
    have hnear : |wordValue (n + 1) - x| ≤ x - wordValue n :=
      abs_le.mpr ⟨by linarith, by linarith⟩
    have hdist := h.nearest (n + 1)
    have habs := neg_le_abs (wordValue w - x)
    obtain rfl : w = n := wordValue_strictMono.injective (by linarith)
    exact hn (h.even (w + 1) (Nat.succ_ne_self w) (by linarith))

theorem wordValue_infinityWord : wordValue Binary64.infinityWord = 2 ^ 1024 := by
  have hword : Binary64.infinityWord = 2046 * 2 ^ 52 + 2 ^ 52 := by decide
  rw [hword, wordValue_add (by omega) (by omega)]
  have hexp : ((2046 : ℕ) : ℤ) - 1074 = (972 : ℕ) := by norm_num
  rw [hexp, zpow_natCast, Nat.cast_pow, Nat.cast_ofNat, ← pow_add]

/-- The largest finite magnitude is `2 ^ 1024 - 2 ^ 971`. -/
theorem wordValue_largest : wordValue (Binary64.infinityWord - 1) = (2 ^ 54 - 2) * 2 ^ 970 := by
  have hword : Binary64.infinityWord - 1 = 2045 * 2 ^ 52 + (2 ^ 53 - 1) := by decide
  rw [hword, wordValue_add (by omega) (by omega)]
  have hexp : ((2045 : ℕ) : ℤ) - 1074 = (970 + 1 : ℕ) := by norm_num
  have hcast : ((2 ^ 53 - 1 : ℕ) : ℚ) = 2 ^ 53 - 1 := by norm_num
  have hpower : (2 : ℚ) ^ (970 + 1) = 2 ^ 970 * 2 := pow_succ 2 970
  rw [hexp, zpow_natCast, hcast, hpower]
  generalize (2 : ℚ) ^ 970 = step
  ring

/-- The nearest word lies beyond the format exactly from the middle between the largest
finite magnitude and the next power of two on. -/
theorem NearestWord.infinityWord_le_iff {x : ℚ} {w : ℕ} (h : NearestWord x w) :
    Binary64.infinityWord ≤ w ↔ 2 ^ 1024 - 2 ^ 970 ≤ x := by
  have hword : Binary64.infinityWord = Binary64.infinityWord - 1 + 1 := by decide
  have hmiddle : (wordValue (Binary64.infinityWord - 1) +
      wordValue (Binary64.infinityWord - 1 + 1)) / 2 = 2 ^ 1024 - 2 ^ 970 := by
    rw [← hword, wordValue_largest, wordValue_infinityWord]
    have hpower : (2 : ℚ) ^ 1024 = 2 ^ 54 * 2 ^ 970 := by rw [← pow_add]
    rw [hpower]
    generalize (2 : ℚ) ^ 970 = step
    ring
  rw [← hmiddle, ← h.succ_le_iff (by decide), ← hword]

end LoxTokens
