import Cfmd.Lib.Rounding
import Mathlib.Data.Nat.Cast.Order.Field
import Mathlib.Tactic.Ring
import Mathlib.Tactic.NormNum

/-! The binary64 format. A code is a bit pattern without its sign bit: eleven bits of
exponent over fifty-two bits of fraction. Codes are ordered as the magnitudes they stand
for, all of which are multiples of the least positive one, `2 ^ (-1074)`. -/

namespace Cfmd.Lib.Binary64

/-- The magnitude of a code. The code after the largest finite one, which is the code of
infinity, continues the sequence. -/
def magnitude (code : ℕ) : ℚ :=
  if code / 2 ^ 52 = 0 then (code % 2 ^ 52 : ℕ) / 2 ^ 52 * 2 ^ (-1022 : ℤ)
  else (1 + (code % 2 ^ 52 : ℕ) / 2 ^ 52) * 2 ^ ((code / 2 ^ 52 : ℕ) - 1023 : ℤ)

def infinity : ℕ := 2047 * 2 ^ 52

def isNegative (bits : UInt64) : Bool := 2 ^ 63 ≤ bits.toNat

def code (bits : UInt64) : ℕ := bits.toNat % 2 ^ 63

def IsFinite (bits : UInt64) : Prop := code bits < infinity

instance (bits : UInt64) : Decidable (IsFinite bits) :=
  inferInstanceAs (Decidable (code bits < infinity))

def value (bits : UInt64) : ℚ :=
  if isNegative bits then -magnitude (code bits) else magnitude (code bits)

/-- The bit pattern is the nearest to a number, with its sign; zero is positive. -/
def RoundsTo (x : ℚ) (bits : UInt64) : Prop :=
  NearestEven magnitude infinity |x| (code bits) ∧ isNegative bits = decide (x < 0)

/-! ### Multiples of the least positive magnitude -/

def scaled (code : ℕ) : ℕ :=
  if code / 2 ^ 52 = 0 then code % 2 ^ 52
  else (2 ^ 52 + code % 2 ^ 52) * 2 ^ (code / 2 ^ 52 - 1)

theorem two_zpow_eq {n : ℤ} {k : ℕ} (h : n + 1074 = k) : (2 : ℚ) ^ n = 2 ^ k / 2 ^ 1074 := by
  have hsum : (2 : ℚ) ^ n * 2 ^ (1074 : ℤ) = 2 ^ (k : ℤ) := by
    rw [← h, zpow_add₀ (by norm_num)]
  rw [eq_div_iff (by positivity), ← zpow_natCast (2 : ℚ) k, ← hsum]
  rfl

theorem magnitude_eq (code : ℕ) : magnitude code = scaled code / 2 ^ 1074 := by
  have hcancel : ∀ x y : ℚ, x / 2 ^ 52 * (2 ^ 52 * y) = x * y := by
    intro x y
    rw [← mul_assoc, div_mul_cancel₀ _ (by positivity)]
  unfold magnitude scaled
  split_ifs with hzero
  · rw [two_zpow_eq (show (-1022 : ℤ) + 1074 = (52 : ℕ) by norm_num), div_eq_mul_inv (2 ^ 52 : ℚ),
      hcancel, ← div_eq_mul_inv]
  have hexponent : ((code / 2 ^ 52 : ℕ) - 1023 : ℤ) + 1074 = (52 + (code / 2 ^ 52 - 1) : ℕ) := by
    omega
  have hone : (1 : ℚ) = 2 ^ 52 / 2 ^ 52 := (div_self (by positivity)).symm
  rw [two_zpow_eq hexponent, pow_add, mul_div_assoc, hone, ← add_div, hcancel, Nat.cast_mul,
    Nat.cast_add, Nat.cast_pow, Nat.cast_pow, mul_div_assoc, Nat.cast_ofNat]

theorem scaled_eq {exponent significand : ℕ} (hlow : 2 ^ 52 ≤ significand ∨ exponent = 0)
    (hhigh : significand ≤ 2 ^ 53) :
    scaled (exponent * 2 ^ 52 + significand) = significand * 2 ^ exponent := by
  unfold scaled
  by_cases hsubnormal : significand < 2 ^ 52
  · have hexponent : exponent = 0 := by omega
    subst hexponent
    rw [if_pos (by omega)]
    omega
  · have hnext : exponent * 2 ^ 52 + significand =
        (exponent + 1) * 2 ^ 52 + (significand - 2 ^ 52) := by omega
    rw [hnext]
    rcases hhigh.lt_or_eq with hlt | heq
    · have hdiv : ((exponent + 1) * 2 ^ 52 + (significand - 2 ^ 52)) / 2 ^ 52 = exponent + 1 := by
        omega
      have hmod : ((exponent + 1) * 2 ^ 52 + (significand - 2 ^ 52)) % 2 ^ 52 =
          significand - 2 ^ 52 := by omega
      rw [hdiv, hmod, if_neg (Nat.succ_ne_zero _), Nat.add_sub_cancel, Nat.add_sub_cancel' (by omega)]
    · -- the significand is a power of two and the exponent is one more
      have hdiv : ((exponent + 1) * 2 ^ 52 + (significand - 2 ^ 52)) / 2 ^ 52 = exponent + 2 := by
        omega
      have hmod : ((exponent + 1) * 2 ^ 52 + (significand - 2 ^ 52)) % 2 ^ 52 = 0 := by omega
      rw [hdiv, hmod, if_neg (Nat.succ_ne_zero _), heq]
      have hsub : exponent + 2 - 1 = exponent + 1 := by omega
      rw [hsub]
      ring

theorem scaled_two_pow_le {exponent k n : ℕ} (h : 52 + exponent ≤ k) (hn : 2 ^ k ≤ n) :
    scaled (exponent * 2 ^ 52 + 2 ^ 52) ≤ n := by
  rw [scaled_eq (.inl le_rfl) (by norm_num), ← Nat.pow_add]
  exact (Nat.pow_le_pow_right two_pos h).trans hn

theorem strictMono_scaled : StrictMono scaled := by
  apply strictMono_nat_of_lt_succ
  intro code
  -- the exponent and the significand of the code
  obtain ⟨exponent, significand, hcode, hlow, hhigh⟩ : ∃ exponent significand,
      code = exponent * 2 ^ 52 + significand ∧ (2 ^ 52 ≤ significand ∨ exponent = 0) ∧
        significand < 2 ^ 53 := by
    by_cases hsubnormal : code < 2 ^ 52
    · exact ⟨0, code, by omega, .inr rfl, by omega⟩
    · exact ⟨code / 2 ^ 52 - 1, 2 ^ 52 + code % 2 ^ 52, by omega, .inl (by omega), by omega⟩
  rw [hcode, Nat.add_assoc, scaled_eq hlow hhigh.le,
    scaled_eq (hlow.imp_left fun h => h.trans (Nat.le_succ _)) hhigh]
  exact Nat.mul_lt_mul_of_pos_right (Nat.lt_succ_self _) (Nat.two_pow_pos _)

theorem strictMono_magnitude : StrictMono magnitude := by
  intro a b hlt
  rw [magnitude_eq, magnitude_eq]
  have hscaled : (scaled a : ℚ) < scaled b := Nat.cast_lt.mpr (strictMono_scaled hlt)
  exact div_lt_div_of_pos_right hscaled (by positivity)

def scaledValue (bits : UInt64) : ℤ :=
  if isNegative bits then -scaled (code bits) else scaled (code bits)

theorem value_eq (bits : UInt64) : value bits = scaledValue bits / 2 ^ 1074 := by
  unfold value scaledValue
  split_ifs
  · rw [magnitude_eq, Int.cast_neg, Int.cast_natCast, neg_div]
  · rw [magnitude_eq, Int.cast_natCast]

end Cfmd.Lib.Binary64
