import Cfmd.Exact.Natural

/-! The bits of exact natural numbers: limb by limb, as those of the number. -/

namespace Cfmd.Exact.ExactNatural
open Lib Limbs List Nat
variable (number : ExactNatural) {limb : UInt64} {bits : ℕ}

/-- `u64::leading_zeros`. -/
def leadingZeros (limb : UInt64) : ℕ := if limb = 0 then 64 else 63 - Nat.log2 limb.toNat

def bitLen : ℕ := match number.limbs.getLast? with
  | none => 0
  | some last => (number.limbs.length - 1) * 64 + (64 - leadingZeros last)

def bit (index : ℕ) : Bool := match number.limbs[index / 64]? with
  | none => false
  | some limb => limb &&& 1 <<< UInt64.ofNat (index % 64) ≠ 0

def anyBitsBelow (exclusive : ℕ) : Bool :=
  if exclusive = 0 then false
  else
    let fullLimbs := exclusive / 64
    if (number.limbs.take fullLimbs).any (· ≠ 0) then true
    else
      let remaining := exclusive % 64
      if remaining = 0 then false
      else
        match number.limbs[fullLimbs]? with
        | none => false
        | some limb => limb &&& (1 <<< UInt64.ofNat remaining - 1) ≠ 0

def shrToU64 (shift : ℕ) : UInt64 := let limb := shift / 64
  let bits := shift % 64
  let low := number.limbs[limb]?.getD 0 >>> UInt64.ofNat bits
  if bits = 0 then low
  else low ||| number.limbs[limb + 1]?.getD 0 <<< UInt64.ofNat (64 - bits)

/-! ### Shifts of one limb -/

theorem toNat_shiftRight (h : bits < 64) :
    (limb >>> UInt64.ofNat bits).toNat = limb.toNat / 2 ^ bits := by
  rw [UInt64.toNat_shiftRight, UInt64.toNat_ofNat', mod_eq_of_lt (by omega : bits < 2 ^ 64),
    mod_eq_of_lt h, shiftRight_eq_div_pow]

theorem toNat_shiftLeft (h : bits < 64) :
    (limb <<< UInt64.ofNat bits).toNat = limb.toNat * 2 ^ bits % 2 ^ 64 := by
  rw [UInt64.toNat_shiftLeft, UInt64.toNat_ofNat', mod_eq_of_lt (by omega : bits < 2 ^ 64),
    mod_eq_of_lt h, shiftLeft_eq]

theorem toNat_one_shiftLeft (h : bits < 64) :
    ((1 : UInt64) <<< UInt64.ofNat bits).toNat = 2 ^ bits := by
  have hpow : 2 ^ bits < 2 ^ 64 := Nat.pow_lt_pow_right (by norm_num) h
  have hone : (1 : UInt64).toNat = 1 := rfl
  rw [toNat_shiftLeft h, hone, one_mul, mod_eq_of_lt hpow]

theorem ne_zero_iff : limb ≠ 0 ↔ limb.toNat ≠ 0 := by
  rw [Ne, ← UInt64.toNat_inj]
  rfl

/-! ### Bits of the number -/

theorem toNat_limb (index : ℕ) :
    (number.limbs[index]?.getD 0).toNat = number.toNat / 2 ^ (64 * index) % 2 ^ 64 :=
  toNat_getElem?_getD number.limbs index

theorem toNat_fromShiftedU64 (value : UInt64) (shift : ℕ) :
    (fromShiftedU64 value shift).toNat = value.toNat * 2 ^ shift := by
  unfold fromShiftedU64
  split_ifs with hzero
  · rw [hzero]
    exact (zero_mul _).symm
  have hbits : shift % 64 < 64 := mod_lt _ (by norm_num)
  have hlimb := value.toNat_lt
  -- the two limbs that the shifted value reaches
  have hpair : Limbs.toNat [value <<< UInt64.ofNat (shift % 64),
      if shift % 64 ≠ 0 then value >>> UInt64.ofNat (64 - shift % 64) else 0] =
        value.toNat * 2 ^ (shift % 64) := by
    have hcons : ∀ a b : UInt64, Limbs.toNat [a, b] = a.toNat + 2 ^ 64 * b.toNat := by
      intro a b
      rw [Limbs.toNat, Limbs.toNat, Limbs.toNat, mul_zero, add_zero]
    rw [hcons, toNat_shiftLeft hbits]
    split_ifs with hnone
    · rw [toNat_shiftRight (by omega)]
      have hpow : 2 ^ 64 = 2 ^ (shift % 64) * 2 ^ (64 - shift % 64) := by
        rw [← pow_add]
        congr 1
        omega
      have hhigh : value.toNat * 2 ^ (shift % 64) / 2 ^ 64 = value.toNat / 2 ^ (64 - shift % 64) := by
        rw [hpow, mul_comm (value.toNat), Nat.mul_div_mul_left _ _ (Nat.two_pow_pos _)]
      rw [← hhigh]
      exact mod_add_div _ _
    · rw [not_not.mp hnone, pow_zero, mul_one, mod_eq_of_lt hlimb]
      rfl
  have hshift : shift = 64 * (shift / 64) + shift % 64 := (div_add_mod shift 64).symm
  rw [toNat_normalize, toNat_append, toNat_replicate_zero, length_replicate, hpair, zero_add]
  conv_rhs => rw [hshift, pow_add]
  ring

theorem bit_eq (index : ℕ) : number.bit index = number.toNat.testBit index := by
  have hbits : index % 64 < 64 := mod_lt _ (by norm_num)
  have hindex : index % 64 + 64 * (index / 64) = index := mod_add_div index 64
  have hlimb : (number.limbs[index / 64]?.getD 0).toNat.testBit (index % 64) =
      number.toNat.testBit index := by
    rw [toNat_limb, testBit_mod_two_pow, testBit_div_two_pow, hindex]
    simp [hbits]
  unfold bit
  cases hget : number.limbs[index / 64]? with
  | none =>
    rw [hget] at hlimb
    rw [← hlimb]
    exact (zero_testBit _).symm
  | some limb =>
    rw [hget] at hlimb
    rw [← hlimb]
    have hmask : limb &&& 1 <<< UInt64.ofNat (index % 64) ≠ 0 ↔
        limb.toNat.testBit (index % 64) = true := by
      rw [ne_zero_iff, UInt64.toNat_and, toNat_one_shiftLeft hbits, and_two_pow]
      cases limb.toNat.testBit (index % 64) <;> simp
    rw [Bool.eq_iff_iff, decide_eq_true_eq]
    exact hmask

theorem anyBitsBelow_eq (exclusive : ℕ) :
    number.anyBitsBelow exclusive = decide (number.toNat % 2 ^ exclusive ≠ 0) := by
  have hbits : exclusive % 64 < 64 := mod_lt _ (by norm_num)
  -- the full limbs and the bits of the next one
  have hsplit : number.toNat % 2 ^ exclusive = Limbs.toNat (number.limbs.take (exclusive / 64)) +
      2 ^ (64 * (exclusive / 64)) *
        ((number.limbs[exclusive / 64]?.getD 0).toNat % 2 ^ (exclusive % 64)) := by
    have hexclusive : exclusive = 64 * (exclusive / 64) + exclusive % 64 :=
      (div_add_mod exclusive 64).symm
    have hdvd : 2 ^ (exclusive % 64) ∣ 2 ^ 64 := pow_dvd_pow 2 hbits.le
    rw [toNat_limb, mod_mod_of_dvd _ hdvd, toNat_take]
    conv_lhs => rw [hexclusive, pow_add, mod_mul]
    rfl
  have hpos := Nat.two_pow_pos (64 * (exclusive / 64))
  unfold anyBitsBelow
  dsimp only
  split_ifs with hzero hfull hnone
  · rw [hzero, pow_zero, mod_one]
    rfl
  · have hne : Limbs.toNat (number.limbs.take (exclusive / 64)) ≠ 0 := by
      rw [Ne, toNat_eq_zero_iff]
      simpa using hfull
    symm
    rw [decide_eq_true_eq]
    omega
  · have hlow : Limbs.toNat (number.limbs.take (exclusive / 64)) = 0 := by
      rw [toNat_eq_zero_iff]
      simpa using hfull
    symm
    rw [decide_eq_false_iff_not, not_not, hsplit, hlow, hnone, pow_zero, mod_one, Nat.mul_zero]
  · have hlow : Limbs.toNat (number.limbs.take (exclusive / 64)) = 0 := by
      rw [toNat_eq_zero_iff]
      simpa using hfull
    have hiff : number.toNat % 2 ^ exclusive ≠ 0 ↔
        (number.limbs[exclusive / 64]?.getD 0).toNat % 2 ^ (exclusive % 64) ≠ 0 := by
      rw [hsplit, hlow, zero_add, mul_ne_zero_iff]
      exact and_iff_right hpos.ne'
    rw [Bool.eq_iff_iff, decide_eq_true_eq, hiff]
    cases number.limbs[exclusive / 64]? with
    | none =>
      exact ⟨nofun, fun hlimb => absurd (zero_mod _) hlimb⟩
    | some limb =>
      have hmask : (1 <<< UInt64.ofNat (exclusive % 64) - 1 : UInt64).toNat =
          2 ^ (exclusive % 64) - 1 := by
        have hle : (1 : UInt64) ≤ 1 <<< UInt64.ofNat (exclusive % 64) := by
          rw [UInt64.le_iff_toNat_le, toNat_one_shiftLeft hbits]
          exact Nat.two_pow_pos _
        rw [UInt64.toNat_sub_of_le _ _ hle, toNat_one_shiftLeft hbits]
        rfl
      rw [decide_eq_true_eq, ne_zero_iff, UInt64.toNat_and, hmask, and_two_pow_sub_one_eq_mod,
        Option.getD_some]

theorem toNat_shrToU64 (shift : ℕ) :
    (number.shrToU64 shift).toNat = number.toNat / 2 ^ shift % 2 ^ 64 := by
  have hbits : shift % 64 < 64 := mod_lt _ (by norm_num)
  have hshift : shift % 64 + 64 * (shift / 64) = shift := mod_add_div shift 64
  apply eq_of_testBit_eq
  intro index
  have hlow : (number.limbs[shift / 64]?.getD 0 >>> UInt64.ofNat (shift % 64)).toNat.testBit index =
      (decide (index + shift % 64 < 64) && number.toNat.testBit (index + shift)) := by
    rw [toNat_shiftRight hbits, testBit_div_two_pow, toNat_limb, testBit_mod_two_pow,
      testBit_div_two_pow, add_assoc, hshift]
  have hresult : (number.toNat / 2 ^ shift % 2 ^ 64).testBit index =
      (decide (index < 64) && number.toNat.testBit (index + shift)) := by
    rw [testBit_mod_two_pow, testBit_div_two_pow]
  rw [hresult]
  unfold shrToU64
  dsimp only
  split_ifs with hnone
  · rw [hlow, hnone, add_zero]
  have hhigh : (number.limbs[shift / 64 + 1]?.getD 0 <<< UInt64.ofNat (64 - shift % 64)).toNat.testBit
      index = (decide (index < 64) && (decide (64 ≤ index + shift % 64) &&
        number.toNat.testBit (index + shift))) := by
    rw [toNat_shiftLeft (by omega), testBit_mod_two_pow, testBit_mul_two_pow, toNat_limb,
      testBit_mod_two_pow, testBit_div_two_pow]
    by_cases hindex : index < 64
    · by_cases hsecond : 64 - shift % 64 ≤ index
      · have hposition : index - (64 - shift % 64) + 64 * (shift / 64 + 1) = index + shift := by
          omega
        have hbelow : index - (64 - shift % 64) < 64 := by omega
        have habove : 64 ≤ index + shift % 64 := by omega
        simp [hsecond, hposition, hbelow, habove]
      · have habove : ¬ 64 ≤ index + shift % 64 := by omega
        simp [hsecond, habove]
    · simp [hindex]
  rw [UInt64.toNat_or, testBit_or, hlow, hhigh]
  by_cases hindex : index < 64
  · by_cases hfirst : index + shift % 64 < 64
    · have hsecond : ¬ 64 ≤ index + shift % 64 := by omega
      simp [hindex, hfirst, hsecond]
    · have hsecond : 64 ≤ index + shift % 64 := by omega
      simp [hindex, hfirst, hsecond]
  · have hfirst : ¬ index + shift % 64 < 64 := by omega
    simp [hindex, hfirst]

theorem leadingZeros_spec (h : limb ≠ 0) :
    2 ^ (63 - leadingZeros limb) ≤ limb.toNat ∧ limb.toNat < 2 ^ (64 - leadingZeros limb) ∧
      leadingZeros limb < 64 := by
  have hne := ne_zero_iff.mp h
  have hlog : Nat.log2 limb.toNat < 64 := (log2_lt hne).mpr limb.toNat_lt
  have hlow := log2_self_le hne
  have hhigh := lt_log2_self (n := limb.toNat)
  rw [leadingZeros, if_neg h]
  have hlower : 63 - (63 - Nat.log2 limb.toNat) = Nat.log2 limb.toNat := by omega
  have hupper : 64 - (63 - Nat.log2 limb.toNat) = Nat.log2 limb.toNat + 1 := by omega
  rw [hlower, hupper]
  exact ⟨hlow, hhigh, by omega⟩

theorem bitLen_spec (h : number.toNat ≠ 0) :
    2 ^ (number.bitLen - 1) ≤ number.toNat ∧ number.toNat < 2 ^ number.bitLen ∧
      0 < number.bitLen := by
  have hnormalized := number.normalized
  unfold bitLen toNat at *
  rcases eq_nil_or_concat' number.limbs with hlimbs | ⟨rest, last, hlimbs⟩
  · rw [hlimbs] at h
    exact absurd rfl h
  rw [hlimbs, normalized_concat] at hnormalized
  rw [hlimbs, List.getLast?_concat, length_append, length_singleton,
    Nat.add_sub_cancel, toNat_append]
  have hrest := toNat_lt rest
  obtain ⟨hlow, hhigh, hzeros⟩ := leadingZeros_spec hnormalized
  have hone : Limbs.toNat [last] = last.toNat := rfl
  have hlower : rest.length * 64 + (64 - leadingZeros last) - 1 =
      64 * rest.length + (63 - leadingZeros last) := by omega
  have hupper : rest.length * 64 + (64 - leadingZeros last) =
      64 * rest.length + (64 - leadingZeros last) := by omega
  dsimp only
  rw [hlower, hupper, hone, pow_add, pow_add]
  refine ⟨?_, ?_, by omega⟩
  · have hmul := mul_le_mul_left (2 ^ (64 * rest.length)) hlow
    omega
  · have hmul := mul_le_mul_left (2 ^ (64 * rest.length)) (succ_le_of_lt hhigh)
    rw [mul_succ] at hmul
    omega

end Cfmd.Exact.ExactNatural
