import Cfmd.Aggregate.F64Sum
import Cfmd.Exact.Signed

/-! A sum holds the exact sum of its inputs, whatever the order and the parts it was
computed in, and its result is that number rounded to the nearest, ties to even. -/

namespace Cfmd.Aggregate
open Lib Exact Binary64 Bool Nat
open ExactNatural (toNat_shiftRight toNat_shiftLeft toNat_one_shiftLeft)

namespace ExactF64Sum

/-! ### The number a sum holds -/

def toInt (sum : ExactF64Sum) : ℤ := signed sum.negative sum.magnitude.toNat

/-- Zero has the positive sign. -/
def Canonical (sum : ExactF64Sum) : Prop := sum.magnitude.toNat = 0 → sum.negative = false

theorem canonical_default : default.Canonical := fun _ => rfl

theorem toInt_default : default.toInt = 0 := rfl

theorem Canonical.ext {a b : ExactF64Sum} (ha : a.Canonical) (hb : b.Canonical)
    (h : a.toInt = b.toInt) : a = b := by
  obtain ⟨hsign, hmagnitude⟩ := signed_inj ha hb h
  rw [ExactNatural.toNat_inj] at hmagnitude
  cases a
  cases b
  cases hsign
  cases hmagnitude
  rfl

variable {sum : ExactF64Sum} {negative : Bool} {n : ℕ}

theorem Canonical.negative_eq (h : sum.Canonical) : sum.negative = decide (sum.toInt < 0) :=
  signed_lt_zero h

theorem natAbs_toInt (sum : ExactF64Sum) : sum.toInt.natAbs = sum.magnitude.toNat :=
  natAbs_signed _ _

theorem addSigned_eq (sum : ExactF64Sum) (negative : Bool) (magnitude : ExactNatural) :
    sum.addSigned negative magnitude = ⟨(addParts sum.negative sum.magnitude negative magnitude).1,
        (addParts sum.negative sum.magnitude negative magnitude).2⟩ := by
  unfold addSigned addParts
  split_ifs
  · rfl
  · rfl
  · rfl
  · cases sum.magnitude.cmp magnitude <;> rfl

theorem addSigned_spec {magnitude : ExactNatural} (h : sum.Canonical) :
    (sum.addSigned negative magnitude).toInt = sum.toInt + signed negative magnitude.toNat ∧
      (sum.addSigned negative magnitude).Canonical := by
  rw [addSigned_eq]
  exact addParts_spec h

/-! ### Decoding -/

theorem toNat_fractionMask : fractionMask.toNat = 2 ^ 52 - 1 := by decide

theorem toNat_and_fractionMask (bits : UInt64) : (bits &&& fractionMask).toNat = bits.toNat % 2 ^ 52 := by
  rw [UInt64.toNat_and, toNat_fractionMask, and_two_pow_sub_one_eq_mod]

theorem toNat_shiftRight_52 (bits : UInt64) : (bits >>> 52).toNat = bits.toNat / 2 ^ 52 :=
  @toNat_shiftRight bits 52 (by norm_num)

section
variable (value : UInt64)

theorem toNat_exponent : (value >>> 52 &&& 0x7ff).toNat = code value / 2 ^ 52 := by
  have hmask : (0x7ff : UInt64).toNat = 2 ^ 11 - 1 := rfl
  rw [UInt64.toNat_and, hmask, and_two_pow_sub_one_eq_mod, toNat_shiftRight_52, code]
  omega

theorem toNat_fraction : (value &&& fractionMask).toNat = code value % 2 ^ 52 := by
  rw [toNat_and_fractionMask, code]
  omega

theorem isNegative_eq : decide (value >>> 63 ≠ 0) = isNegative value := by
  have hshift : (value >>> 63).toNat = value.toNat / 2 ^ 63 := @toNat_shiftRight value 63 (by norm_num)
  rw [isNegative, decide_eq_decide, ExactNatural.ne_zero_iff]
  omega

theorem toNat_mantissa {fraction : UInt64} (h : fraction.toNat < 2 ^ 52) :
    ((1 : UInt64) <<< 52 ||| fraction).toNat = 2 ^ 52 + fraction.toNat := by
  have hone : ((1 : UInt64) <<< 52).toNat = 2 ^ 52 := by decide
  have hadd := two_pow_add_eq_or_of_lt h 1
  rw [mul_one] at hadd
  rw [UInt64.toNat_or, hone, hadd]

theorem addExact_spec {sum : ExactF64Sum} {value : UInt64} {multiplicity : ExactNatural}
    (h : sum.Canonical) (hfinite : IsFinite value) :
    ∃ result, sum.addExact value multiplicity = .ok result ∧
      result.toInt = sum.toInt + multiplicity.toNat * scaledValue value ∧ result.Canonical := by
  have hexponent := toNat_exponent value
  have hfraction := toNat_fraction value
  have hinput : scaledValue value = signed (isNegative value) (scaled (code value)) := rfl
  have hterm : ∀ term : ExactNatural, term.toNat = scaled (code value) →
      ∃ result, (.ok (sum.addSigned (value >>> 63 ≠ 0) (term.multiplyAssign multiplicity)) :
        Except AggregateError ExactF64Sum) = .ok result ∧
        result.toInt = sum.toInt + multiplicity.toNat * scaledValue value ∧ result.Canonical := by
    intro term hvalue
    have hadded := @addSigned_spec sum (value >>> 63 ≠ 0) (term.multiplyAssign multiplicity) h
    refine ⟨_, rfl, ?_, hadded.2⟩
    have hmul := signed_mul false (isNegative value) multiplicity.toNat (scaled (code value))
    rw [hadded.1, ExactNatural.toNat_multiplyAssign, hvalue, isNegative_eq, mul_comm]
    rw [false_bne] at hmul
    exact congrArg (sum.toInt + ·) hmul
  unfold addExact
  dsimp only
  split_ifs with hzero hinfinite hnone hsubnormal
  · refine ⟨sum, rfl, ?_, h⟩
    rw [ExactNatural.isZero_iff.mp hzero, cast_zero, zero_mul, add_zero]
  · -- the exponent of a finite number is smaller
    have hcode : code value / 2 ^ 52 = 2047 := by
      rw [← hexponent, hinfinite]
      rfl
    unfold IsFinite Binary64.infinity at hfinite
    omega
  · obtain ⟨hsubnormal, hnone⟩ := hnone
    have hcode : code value / 2 ^ 52 = 0 := by
      rw [← hexponent, hsubnormal]
      rfl
    have hscaled : scaled (code value) = 0 := by
      rw [scaled, if_pos hcode, ← hfraction, hnone]
      rfl
    refine ⟨sum, rfl, ?_, h⟩
    rw [hinput, hscaled]
    simp [signed]
  · have hcode : code value / 2 ^ 52 = 0 := by
      rw [← hexponent, hsubnormal]
      rfl
    apply hterm
    rw [ExactNatural.toNat_fromShiftedU64, hfraction, pow_zero, mul_one, scaled, if_pos hcode]
  · have hcode : code value / 2 ^ 52 ≠ 0 := by
      rw [← hexponent]
      exact ExactNatural.ne_zero_iff.mp hsubnormal
    have hlt : (value &&& fractionMask).toNat < 2 ^ 52 := by
      omega
    apply hterm
    rw [ExactNatural.toNat_fromShiftedU64, toNat_mantissa hlt, hfraction, hexponent, scaled,
      if_neg hcode]

theorem negate_spec :
    code (negate value) = code value ∧ isNegative (negate value) = !isNegative value := by
  have hmask : ((1 : UInt64) <<< 63).toNat = 2 ^ 63 := by decide
  have hxor : (negate value).toNat = value.toNat ^^^ 2 ^ 63 := by
    rw [negate, UInt64.toNat_xor, hmask]
  have hsign : ∀ bits : UInt64, isNegative bits = bits.toNat.testBit 63 := by
    intro bits
    have hlt := bits.toNat_lt
    rw [isNegative, testBit_eq_decide_div_mod_eq, decide_eq_decide]
    omega
  constructor
  · rw [code, hxor, xor_mod_two_pow, mod_self, xor_zero, code]
  · rw [hsign, hsign, hxor, testBit_xor, testBit_two_pow_self, Bool.xor_true]

end

theorem removeExact_spec {sum : ExactF64Sum} {value : UInt64} {multiplicity : ExactNatural}
    (h : sum.Canonical) (hfinite : IsFinite value) :
    ∃ result, sum.removeExact value multiplicity = .ok result ∧
      result.toInt = sum.toInt - multiplicity.toNat * scaledValue value ∧ result.Canonical := by
  obtain ⟨hcode, hnegative⟩ := negate_spec value
  have hnegated : scaledValue (negate value) = -scaledValue value := by
    unfold scaledValue
    rw [hcode, hnegative]
    cases isNegative value <;> simp
  have hfinite' : IsFinite (negate value) := by
    rw [IsFinite, hcode]
    exact hfinite
  obtain ⟨result, hresult, htotal, hcanonical⟩ := @addExact_spec sum (negate value) multiplicity h hfinite'
  refine ⟨result, hresult, ?_, hcanonical⟩
  rw [htotal, hnegated, mul_neg, sub_eq_add_neg]

/-! ### Rounding -/

theorem bits_of_code {bits : UInt64} (hn : n < 2 ^ 63)
    (h : bits.toNat = (if negative then 2 ^ 63 else 0) + n) :
    code bits = n ∧ isNegative bits = negative := by
  rw [code, isNegative, h]
  cases negative with
  | false =>
    refine ⟨by simp; omega, ?_⟩
    simp
    omega
  | true =>
    refine ⟨by simp; omega, ?_⟩
    simp

theorem toNat_signBit (negative : Bool) : (signBit negative).toNat = if negative then 2 ^ 63 else 0 := by
  cases negative <;> decide

theorem toNat_signBit_or {rest : UInt64} (h : rest.toNat < 2 ^ 63) :
    (signBit negative ||| rest).toNat = (if negative then 2 ^ 63 else 0) + rest.toNat := by
  rw [UInt64.toNat_or, toNat_signBit]
  cases negative with
  | false => simp
  | true =>
    have hadd := two_pow_add_eq_or_of_lt h 1
    exact hadd.symm

theorem infinity_spec (negative : Bool) :
    code (infinity negative) = Binary64.infinity ∧ isNegative (infinity negative) = negative := by
  cases negative <;> decide

theorem pack_spec {exponent : ℤ} {significand : UInt64} {field : ℕ}
    (hfield : exponent + 1023 = field) (hmax : field < 2 ^ 11) :
    code (pack negative exponent significand) = field * 2 ^ 52 + significand.toNat % 2 ^ 52 ∧
      isNegative (pack negative exponent significand) = negative := by
  have hlow : significand.toNat % 2 ^ 52 < 2 ^ 52 := mod_lt _ (by norm_num)
  have hexponent : (UInt64.ofNat field <<< 52).toNat = 2 ^ 52 * field := by
    have hshift := @toNat_shiftLeft (UInt64.ofNat field) 52 (by norm_num)
    rw [UInt64.toNat_ofNat', mod_eq_of_lt (by omega : field < 2 ^ 64),
      mod_eq_of_lt (by omega : field * 2 ^ 52 < 2 ^ 64), mul_comm] at hshift
    exact hshift
  have hrest : (UInt64.ofNat field <<< 52 ||| (significand &&& fractionMask)).toNat =
      2 ^ 52 * field + significand.toNat % 2 ^ 52 := by
    rw [UInt64.toNat_or, toNat_and_fractionMask, hexponent, two_pow_add_eq_or_of_lt hlow]
  have hsmall : 2 ^ 52 * field + significand.toNat % 2 ^ 52 < 2 ^ 63 := by omega
  rw [pack, hfield, if_pos ⟨by omega, by omega⟩, Int.toNat_natCast, UInt64.or_assoc]
  rw [mul_comm field]
  apply bits_of_code hsmall
  rw [toNat_signBit_or (by rw [hrest]; exact hsmall), hrest]

def Up (n shift : ℕ) : Prop :=
  2 ^ shift < 2 * (n % 2 ^ shift) ∨ 2 ^ shift = 2 * (n % 2 ^ shift) ∧ n / 2 ^ shift % 2 = 1

/-- The quotient of a number that has the right length, rounded, is the code of the
nearest number at that exponent. -/
theorem nearestEven_of_shift {shift : ℕ} (hlow : 2 ^ 52 ≤ n / 2 ^ shift ∨ shift = 0)
    (hhigh : n / 2 ^ shift < 2 ^ 53) (hshift : shift ≤ 2045) :
    (¬ Up n shift → NearestEven Binary64.magnitude Binary64.infinity (n / 2 ^ 1074 : ℚ)
      (shift * 2 ^ 52 + n / 2 ^ shift)) ∧
    (Up n shift → NearestEven Binary64.magnitude Binary64.infinity (n / 2 ^ 1074 : ℚ)
      (shift * 2 ^ 52 + n / 2 ^ shift + 1)) := by
  have hpos : (0 : ℚ) < 2 ^ 1074 := by positivity
  have hn : 2 ^ shift * (n / 2 ^ shift) + n % 2 ^ shift = n := div_add_mod n (2 ^ shift)
  have hindex : shift * 2 ^ 52 + n / 2 ^ shift < Binary64.infinity := by
    unfold Binary64.infinity
    omega
  -- the two neighbours and the distances from them
  have hlower : (n : ℚ) - ((n / 2 ^ shift * 2 ^ shift : ℕ) : ℚ) = ((n % 2 ^ shift : ℕ) : ℚ) := by
    rw [sub_eq_iff_eq_add, ← cast_add, Nat.cast_inj, mul_comm]
    omega
  have hupper : (((n / 2 ^ shift + 1) * 2 ^ shift : ℕ) : ℚ) - n =
      ((2 ^ shift - n % 2 ^ shift : ℕ) : ℚ) := by
    rw [sub_eq_iff_eq_add, ← cast_add, Nat.cast_inj, succ_mul, mul_comm]
    omega
  have hbelow : (n : ℚ) / 2 ^ 1074 - Binary64.magnitude (shift * 2 ^ 52 + n / 2 ^ shift) =
      ((n % 2 ^ shift : ℕ) : ℚ) / 2 ^ 1074 := by
    rw [magnitude_eq, scaled_eq hlow hhigh.le, ← sub_div, hlower]
  have habove : Binary64.magnitude (shift * 2 ^ 52 + n / 2 ^ shift + 1) - (n : ℚ) / 2 ^ 1074 =
      ((2 ^ shift - n % 2 ^ shift : ℕ) : ℚ) / 2 ^ 1074 := by
    rw [add_assoc, magnitude_eq,
      scaled_eq (hlow.imp_left fun h => h.trans (le_succ _)) hhigh, ← sub_div, hupper]
  have hle : Binary64.magnitude (shift * 2 ^ 52 + n / 2 ^ shift) ≤ (n : ℚ) / 2 ^ 1074 := by
    rw [← sub_nonneg, hbelow]
    exact div_nonneg (cast_nonneg _) hpos.le
  have hge : (n : ℚ) / 2 ^ 1074 ≤ Binary64.magnitude (shift * 2 ^ 52 + n / 2 ^ shift + 1) := by
    rw [← sub_nonneg, habove]
    exact div_nonneg (cast_nonneg _) hpos.le
  constructor
  · intro hdown
    apply NearestEven.lower strictMono_magnitude hindex hle hge
    rw [hbelow, habove, div_lt_div_iff_of_pos_right hpos, cast_lt]
    unfold Up at hdown
    push Not at hdown
    rcases lt_or_ge (n % 2 ^ shift) (2 ^ shift - n % 2 ^ shift) with hlt | hge
    · exact .inl hlt
    have htie : n % 2 ^ shift = 2 ^ shift - n % 2 ^ shift := by omega
    refine .inr ⟨by rw [← htie], ?_⟩
    rw [even_iff]
    omega
  · intro hup
    apply NearestEven.upper strictMono_magnitude hindex hle hge
    rw [hbelow, habove, div_lt_div_iff_of_pos_right hpos, cast_lt]
    rcases hup with hlt | ⟨htie, hodd⟩
    · exact .inl (by omega)
    have hsame : 2 ^ shift - n % 2 ^ shift = n % 2 ^ shift := by omega
    refine .inr ⟨by rw [hsame], ?_⟩
    rw [even_iff]
    omega

theorem roundsUp_iff {number : ExactNatural} {shift : ℕ} {significand : UInt64}
    (hsignificand : significand.toNat = number.toNat / 2 ^ shift) :
    roundsUp number shift significand = true ↔ Up number.toNat shift := by
  have hodd : significand &&& 1 ≠ 0 ↔ number.toNat / 2 ^ shift % 2 = 1 := by
    have hone : (1 : UInt64).toNat = 2 ^ 1 - 1 := rfl
    rw [ExactNatural.ne_zero_iff, UInt64.toNat_and, hone, and_two_pow_sub_one_eq_mod, hsignificand]
    omega
  unfold roundsUp Up
  rw [and_eq_true, and_eq_true, or_eq_true, decide_eq_true_eq, decide_eq_true_eq,
    ExactNatural.bit_eq, ExactNatural.anyBitsBelow_eq, decide_eq_true_eq, hodd]
  cases shift with
  | zero =>
    omega
  | succ half =>
    have hsplit : number.toNat % 2 ^ (half + 1) =
        number.toNat % 2 ^ half + 2 ^ half * (number.toNat.testBit half).toNat := by
      rw [mod_pow_succ, toNat_testBit]
    rw [succ_sub_one]
    cases hbit : number.toNat.testBit half with
    | false =>
      rw [hbit, toNat_false] at hsplit
      simp
      omega
    | true =>
      rw [hbit] at hsplit
      rw [hsplit]
      simp
      omega

theorem div_bounds {bitLen : ℕ} (hlong : 52 < bitLen) (hmin : 2 ^ (bitLen - 1) ≤ n)
    (hmax : n < 2 ^ bitLen) :
    2 ^ 52 ≤ n / 2 ^ (bitLen - 53) ∧ n / 2 ^ (bitLen - 53) < 2 ^ 53 := by
  constructor
  · rw [le_div_iff_mul_le (Nat.two_pow_pos _), ← pow_add]
    exact (Nat.pow_le_pow_right (by norm_num) (by omega)).trans hmin
  · rw [div_lt_iff_lt_mul (Nat.two_pow_pos _), ← pow_add]
    exact hmax.trans_le (Nat.pow_le_pow_right (by norm_num) (by omega))

/-- A number with at most `2098` bits is rounded at the exponent of its leading bit. -/
theorem finish_normal (h : sum.magnitude.toNat ≠ 0) (hlong : 52 < sum.magnitude.bitLen)
    (hshort : sum.magnitude.bitLen ≤ 2098) :
    NearestEven Binary64.magnitude Binary64.infinity (sum.magnitude.toNat / 2 ^ 1074 : ℚ)
      (code sum.finish) ∧ isNegative sum.finish = sum.negative := by
  obtain ⟨hmin, hmax, _⟩ := sum.magnitude.bitLen_spec h
  obtain ⟨hlow, hhigh⟩ := div_bounds hlong hmin hmax
  obtain ⟨hdown, hup⟩ := nearestEven_of_shift (.inl hlow) hhigh (by omega)
  have hsignificand : (sum.magnitude.shrToU64 (sum.magnitude.bitLen - 53)).toNat =
      sum.magnitude.toNat / 2 ^ (sum.magnitude.bitLen - 53) := by
    rw [ExactNatural.toNat_shrToU64, mod_eq_of_lt (by omega)]
  have hrounds := roundsUp_iff hsignificand
  rw [finish, if_neg (mt ExactNatural.isZero_iff.mp h)]
  dsimp only
  rw [if_neg (by omega), if_neg (by omega), if_neg (by omega)]
  generalize hbitLen : sum.magnitude.bitLen = bitLen at *
  generalize sum.magnitude.shrToU64 (bitLen - 53) = significand at *
  generalize sum.magnitude.toNat / 2 ^ (bitLen - 53) = quotient at *
  have hsucc : (significand + 1).toNat = quotient + 1 := by
    rw [UInt64.toNat_add, hsignificand]
    exact mod_eq_of_lt (show quotient + 1 < 2 ^ 64 by omega)
  by_cases hround : roundsUp sum.magnitude (bitLen - 53) significand = true
  · replace hup := hup (hrounds.mp hround)
    rw [if_pos hround]
    by_cases hcarry : significand + (1 : UInt64) = (1 : UInt64) <<< 53
    · -- the significand is `2 ^ 53`: the next exponent, and no fraction
      have hquotient : quotient + 1 = 2 ^ 53 := by
        rw [← hsucc, hcarry]
        rfl
      rw [if_pos hcarry]
      by_cases hinfinite : (1023 : ℤ) < (bitLen : ℤ) - 1 - 1074 + 1
      · obtain ⟨hcode, hnegative⟩ := infinity_spec sum.negative
        rw [if_pos hinfinite, hcode]
        refine ⟨?_, hnegative⟩
        have hindex : (bitLen - 53) * 2 ^ 52 + quotient + 1 = Binary64.infinity := by
          unfold Binary64.infinity
          omega
        rw [hindex] at hup
        exact hup
      · have hfraction : ((significand + 1) >>> 1).toNat % 2 ^ 52 = 0 := by
          rw [hcarry]
          rfl
        obtain ⟨hcode, hnegative⟩ := @pack_spec sum.negative ((bitLen : ℤ) - 1 - 1074 + 1)
          ((significand + 1) >>> 1) (bitLen - 51) (by omega) (by omega)
        rw [if_neg hinfinite, hcode, hfraction]
        refine ⟨?_, hnegative⟩
        have hindex : (bitLen - 53) * 2 ^ 52 + quotient + 1 = (bitLen - 51) * 2 ^ 52 + 0 := by
          omega
        rw [hindex] at hup
        exact hup
    · have hquotient : quotient + 1 ≠ 2 ^ 53 := by
        intro heq
        rw [← hsucc] at heq
        exact hcarry (UInt64.toNat_inj.mp heq)
      obtain ⟨hcode, hnegative⟩ := @pack_spec sum.negative ((bitLen : ℤ) - 1 - 1074)
        (significand + 1) (bitLen - 52) (by omega) (by omega)
      rw [if_neg hcarry, hcode, hsucc]
      refine ⟨?_, hnegative⟩
      have hindex : (bitLen - 53) * 2 ^ 52 + quotient + 1 =
          (bitLen - 52) * 2 ^ 52 + (quotient + 1) % 2 ^ 52 := by
        omega
      rw [hindex] at hup
      exact hup
  · replace hdown := hdown (mt hrounds.mpr hround)
    obtain ⟨hcode, hnegative⟩ := @pack_spec sum.negative ((bitLen : ℤ) - 1 - 1074)
      significand (bitLen - 52) (by omega) (by omega)
    rw [if_neg hround, hcode, hsignificand]
    refine ⟨?_, hnegative⟩
    have hindex : (bitLen - 53) * 2 ^ 52 + quotient = (bitLen - 52) * 2 ^ 52 + quotient % 2 ^ 52 := by
      omega
    rw [hindex] at hdown
    exact hdown

theorem finish_spec (h : sum.magnitude.toNat ≠ 0) :
    NearestEven Binary64.magnitude Binary64.infinity (sum.magnitude.toNat / 2 ^ 1074 : ℚ)
      (code sum.finish) ∧ isNegative sum.finish = sum.negative := by
  obtain ⟨hmin, hmax, hpos⟩ := sum.magnitude.bitLen_spec h
  by_cases hshort : sum.magnitude.bitLen ≤ 52
  · -- a subnormal number is its own code
    have hsmall : sum.magnitude.toNat < 2 ^ 52 :=
      hmax.trans_le (Nat.pow_le_pow_right (by norm_num) hshort)
    have hlow : (sum.magnitude.shrToU64 0).toNat = sum.magnitude.toNat := by
      rw [ExactNatural.toNat_shrToU64, pow_zero, Nat.div_one, mod_eq_of_lt (by omega)]
    have hbits : (sum.finish).toNat =
        (if sum.negative then 2 ^ 63 else 0) + sum.magnitude.toNat := by
      rw [finish, if_neg (mt ExactNatural.isZero_iff.mp h)]
      rw [if_pos hshort, toNat_signBit_or (by omega), hlow]
    obtain ⟨hcode, hnegative⟩ := bits_of_code (by omega) hbits
    refine ⟨?_, hnegative⟩
    rw [hcode]
    apply NearestEven.exact strictMono_magnitude
    · unfold Binary64.infinity
      omega
    · have hscaled := @scaled_eq 0 sum.magnitude.toNat (.inr rfl) (by omega)
      rw [zero_mul, zero_add, pow_zero, mul_one] at hscaled
      rw [magnitude_eq, hscaled]
  by_cases hlong : 2098 < sum.magnitude.bitLen
  · have hfinish : sum.finish = infinity sum.negative := by
      rw [finish, if_neg (mt ExactNatural.isZero_iff.mp h)]
      rw [if_neg hshort, if_pos (.inl hlong)]
    obtain ⟨hcode, hnegative⟩ := infinity_spec sum.negative
    rw [hfinish, hcode]
    refine ⟨NearestEven.beyond strictMono_magnitude ?_, hnegative⟩
    have hscaled : scaled (2046 * 2 ^ 52 + 2 ^ 52) ≤ sum.magnitude.toNat :=
      scaled_two_pow_le (by omega) hmin
    rw [magnitude_eq]
    exact div_le_div_of_nonneg_right (cast_le.mpr hscaled) (by positivity)
  · exact finish_normal h (by omega) (by omega)

theorem finish_roundsTo (h : sum.Canonical) : RoundsTo (sum.toInt / 2 ^ 1074 : ℚ) sum.finish := by
  have hpos : (0 : ℚ) < 2 ^ 1074 := by positivity
  have habs : |(sum.toInt / 2 ^ 1074 : ℚ)| = sum.magnitude.toNat / 2 ^ 1074 := by
    rw [abs_div, abs_of_pos hpos, ← natAbs_toInt, cast_natAbs, Int.cast_abs]
  have hsign : ((sum.toInt : ℚ) / 2 ^ 1074 < 0) ↔ sum.toInt < 0 := by
    rw [div_lt_iff₀ hpos, zero_mul, Int.cast_lt_zero]
  unfold RoundsTo
  rw [habs, decide_eq_decide.mpr hsign, ← h.negative_eq]
  by_cases hzero : sum.magnitude.toNat = 0
  · have hfinish : sum.finish = 0 := by
      rw [finish, if_pos (ExactNatural.isZero_iff.mpr hzero)]
    rw [hfinish, hzero, h hzero]
    refine ⟨NearestEven.exact strictMono_magnitude (zero_le _) ?_, rfl⟩
    rw [magnitude_eq]
    rfl
  · exact finish_spec hzero

end ExactF64Sum

end Cfmd.Aggregate
