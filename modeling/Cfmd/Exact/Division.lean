import Mathlib.Data.Nat.Size
import Cfmd.Exact.Bits

/-! Products and quotients by one limb, and the decimal rendering, which divides by a
billion until nothing is left. -/

namespace Cfmd.Exact
open Lib Limbs List Nat

def mulSmallLoop (factor : UInt64) : List UInt64 → ℕ → List UInt64
  | [], carry => if carry ≠ 0 then [lowU64 carry] else []
  | limb :: rest, carry =>
    let product := limb.toNat * factor.toNat + carry
    lowU64 product :: mulSmallLoop factor rest (product / 2 ^ 64)

/-- The quotient and the remainder; the limbs are divided from the highest down. -/
def divLoop (divisor : ℕ) : List UInt64 → List UInt64 × ℕ
  | [] => ([], 0)
  | limb :: rest =>
    let above := divLoop divisor rest
    let value := above.2 * 2 ^ 64 + limb.toNat
    (lowU64 (value / divisor) :: above.1, value % divisor)

theorem mulSmallLoop_spec {factor : UInt64} (limbs : List UInt64) {carry : ℕ}
    (hcarry : carry < 2 ^ 64) :
    Limbs.toNat (mulSmallLoop factor limbs carry) = Limbs.toNat limbs * factor.toNat + carry ∧
      Extends limbs.length (mulSmallLoop factor limbs carry) := by
  induction limbs generalizing carry with
  | nil =>
    rw [mulSmallLoop, Limbs.toNat.eq_1, zero_mul, zero_add]
    split_ifs with hzero
    · have hlow : (lowU64 carry).toNat = carry := by rw [toNat_lowU64, mod_eq_of_lt hcarry]
      have hne : lowU64 carry ≠ 0 := by rwa [ExactNatural.ne_zero_iff, hlow]
      exact ⟨hlow, .inr ⟨[], _, rfl, hne, rfl⟩⟩
    · exact ⟨(not_not.mp hzero).symm, .inl rfl⟩
  | cons limb rest ih =>
    have hlimb := limb.toNat_lt
    have hfactor := factor.toNat_lt
    have hmul : limb.toNat * factor.toNat ≤ (2 ^ 64 - 1) * (2 ^ 64 - 1) :=
      Nat.mul_le_mul (by omega) (by omega)
    obtain ⟨hvalue, hextends⟩ := @ih ((limb.toNat * factor.toNat + carry) / 2 ^ 64) (by omega)
    refine ⟨?_, hextends.cons _⟩
    have hstep := toNat_lowU64_cons (limb.toNat * factor.toNat + carry)
      (mulSmallLoop factor rest ((limb.toNat * factor.toNat + carry) / 2 ^ 64))
    have hproduct : (limb.toNat + 2 ^ 64 * Limbs.toNat rest) * factor.toNat =
        limb.toNat * factor.toNat + 2 ^ 64 * (Limbs.toNat rest * factor.toNat) := by ring
    rw [mulSmallLoop, Limbs.toNat.eq_2 limb]
    omega

theorem divLoop_spec {divisor : ℕ} (hpos : 0 < divisor) (limbs : List UInt64) :
    Limbs.toNat (divLoop divisor limbs).1 = Limbs.toNat limbs / divisor ∧
      (divLoop divisor limbs).2 = Limbs.toNat limbs % divisor := by
  induction limbs with
  | nil => exact ⟨(Nat.zero_div _).symm, (zero_mod _).symm⟩
  | cons limb rest ih =>
    have hrest := div_add_mod (Limbs.toNat rest) divisor
    have hrem := mod_lt (Limbs.toNat rest) hpos
    rw [← ih.1, ← ih.2] at hrest
    generalize hquotient : (divLoop divisor rest).1 = quotient at hrest
    generalize hremainder : (divLoop divisor rest).2 = remainder at hrest hrem
    -- the remainder of the limbs above is put in front of the limb
    have hvalue : Limbs.toNat (limb :: rest) =
        (remainder * 2 ^ 64 + limb.toNat) + divisor * (2 ^ 64 * Limbs.toNat quotient) := by
      rw [Limbs.toNat, ← hrest]
      ring
    have hlimb := limb.toNat_lt
    have hfits : (remainder * 2 ^ 64 + limb.toNat) / divisor < 2 ^ 64 := by
      rw [div_lt_iff_lt_mul hpos]
      omega
    rw [divLoop, hquotient, hremainder, hvalue, add_mul_div_left _ _ hpos,
      add_mul_mod_self_left, Limbs.toNat, toNat_lowU64, mod_eq_of_lt hfits]
    exact ⟨rfl, rfl⟩

namespace ExactNatural
variable (number : ExactNatural)

def one : ExactNatural := fromU64 1

theorem toNat_fromU64 (value : UInt64) : (fromU64 value).toNat = value.toNat := by
  unfold fromU64
  split_ifs with hzero
  · rw [hzero]
    rfl
  · rfl

/-- The two limbs of a `u128`. -/
def fromU128 (value : BitVec 128) : ExactNatural := let low := lowU64 value.toNat
  let high := lowU64 (value.toNat / 2 ^ 64)
  if hzero : value.toNat = 0 then zero
  else if hhigh : high ≠ 0 then ⟨[low, high], (@normalized_concat [low] high).mpr hhigh⟩
  else ⟨[low], by
    refine (@normalized_concat [] low).mpr fun hlow => hzero ?_
    have hlt := value.isLt
    rw [← UInt64.toNat_inj, toNat_lowU64, UInt64.toNat_zero] at hlow
    rw [not_not, ← UInt64.toNat_inj, toNat_lowU64, UInt64.toNat_zero] at hhigh
    omega⟩

theorem toNat_fromU128 (value : BitVec 128) : (fromU128 value).toNat = value.toNat := by
  unfold fromU128
  dsimp only
  split_ifs with hzero hhigh
  · exact hzero.symm
  · rw [toNat, Limbs.toNat, Limbs.toNat, Limbs.toNat, toNat_lowU64, toNat_lowU64]
    omega
  · rw [not_not, ← UInt64.toNat_inj, toNat_lowU64, UInt64.toNat_zero] at hhigh
    rw [toNat, Limbs.toNat, Limbs.toNat, toNat_lowU64]
    omega

def isOne : Bool := number.limbs.length == 1 && number.limbs[0]? == some 1

theorem isOne_iff {number : ExactNatural} : number.isOne = true ↔ number.toNat = 1 := by
  have hone : one.toNat = 1 := rfl
  rw [← hone, toNat_inj, isOne]
  constructor
  · intro h
    rw [Bool.and_eq_true, beq_iff_eq, beq_iff_eq, length_eq_one_iff] at h
    obtain ⟨⟨limb, hlimbs⟩, hfirst⟩ := h
    rw [hlimbs] at hfirst
    cases hfirst
    apply toNat_inj.mp
    rw [toNat, hlimbs]
    rfl
  · rintro rfl
    rfl

def addU128 (amount : BitVec 128) : ExactNatural := number.addAssign (fromU128 amount)

theorem normalized_mulSmallLoop {factor : UInt64} (hfactor : factor ≠ 0) :
    Normalized (mulSmallLoop factor number.limbs 0) := by
  obtain ⟨hvalue, hextends⟩ := @mulSmallLoop_spec factor number.limbs 0 (Nat.two_pow_pos 64)
  apply hextends.normalized
  intro hpos
  have htop := number.normalized.le_toNat (ne_nil_of_length_pos hpos)
  have hle := Nat.le_mul_of_pos_right (Limbs.toNat number.limbs)
    (pos_of_ne_zero (ne_zero_iff.mp hfactor))
  omega

def multiplyU64Assign (factor : UInt64) : ExactNatural :=
  if hzero : factor = 0 then zero
  else if factor = 1 then number
  else ⟨mulSmallLoop factor number.limbs 0, number.normalized_mulSmallLoop hzero⟩

theorem toNat_multiplyU64Assign (factor : UInt64) :
    (number.multiplyU64Assign factor).toNat = number.toNat * factor.toNat := by
  unfold multiplyU64Assign
  split_ifs with hzero hone
  · rw [hzero]
    rfl
  · rw [hone]
    exact (mul_one _).symm
  · exact (mulSmallLoop_spec number.limbs (Nat.two_pow_pos 64)).1

def toU64 : Option UInt64 := if number.bitLen ≤ 64 then some (number.shrToU64 0) else none

theorem bitLen_eq_size : number.bitLen = Nat.size number.toNat := by
  by_cases hzero : number.toNat = 0
  · rw [hzero, bitLen, number.normalized.toNat_eq_zero.mp hzero]
    rfl
  · obtain ⟨hlow, hhigh, hpos⟩ := number.bitLen_spec hzero
    have hle := size_le.mpr hhigh
    have hlt := lt_size.mpr hlow
    omega

theorem toU64_eq :
    number.toU64 = if number.toNat < 2 ^ 64 then some (UInt64.ofNat number.toNat) else none := by
  rw [toU64, bitLen_eq_size]
  simp only [size_le]
  have hvalue : number.shrToU64 0 = UInt64.ofNat number.toNat := by
    rw [← UInt64.toNat_inj, toNat_shrToU64, pow_zero, Nat.div_one, UInt64.toNat_ofNat']
  rw [hvalue]

def divRemU64Assign (divisor : UInt64) : Option (ExactNatural × UInt64) :=
  if divisor = 0 then none
  else
    let out := divLoop divisor.toNat number.limbs
    some (normalize out.1, lowU64 out.2)

theorem divRemU64Assign_eq (divisor : UInt64) :
    (number.divRemU64Assign divisor).map (fun out => (out.1.toNat, out.2.toNat)) =
      if divisor.toNat = 0 then none
      else some (number.toNat / divisor.toNat, number.toNat % divisor.toNat) := by
  rw [divRemU64Assign]
  by_cases hzero : divisor = 0
  · rw [if_pos hzero, if_pos (by rw [hzero]; rfl)]
    rfl
  · have hpos := pos_of_ne_zero (ne_zero_iff.mp hzero)
    obtain ⟨hquotient, hremainder⟩ := divLoop_spec hpos number.limbs
    have hlt : number.toNat % divisor.toNat < 2 ^ 64 := (mod_lt _ hpos).trans divisor.toNat_lt
    rw [if_neg hzero, if_neg hpos.ne', Option.map_some, toNat_normalize, hquotient, toNat_lowU64,
      hremainder]
    exact congrArg (fun r => some (_, r)) (mod_eq_of_lt hlt)

/-! ### The decimal rendering -/

def divRemU32 (divisor : UInt32) : ExactNatural × UInt32 :=
  let out := divLoop divisor.toNat number.limbs
  (normalize out.1, UInt32.ofNat out.2)

theorem divRemU32_spec {divisor : UInt32} (hpos : 0 < divisor.toNat) :
    (number.divRemU32 divisor).1.toNat = number.toNat / divisor.toNat ∧
      (number.divRemU32 divisor).2.toNat = number.toNat % divisor.toNat := by
  obtain ⟨hquotient, hremainder⟩ := divLoop_spec hpos number.limbs
  have hlt : number.toNat % divisor.toNat < 2 ^ 32 := (mod_lt _ hpos).trans divisor.toNat_lt
  refine ⟨(toNat_normalize _).trans hquotient, ?_⟩
  rw [divRemU32, hremainder]
  exact mod_eq_of_lt hlt

/-- The lowest chunk first. -/
def decimalChunks (work : ExactNatural) : List UInt32 :=
  if work.isZero then []
  else
    let out := work.divRemU32 1000000000
    out.2 :: decimalChunks out.1
termination_by work.toNat
decreasing_by
  rename_i hwork
  rw [isZero_iff] at hwork
  rw [(work.divRemU32_spec (by decide)).1]
  exact div_lt_self (pos_of_ne_zero hwork) (by decide)

/-- `chunk:09`. -/
def padChunk (chunk : UInt32) : String :=
  String.ofList ((Nat.toDigits 10 chunk.toNat).leftpad 9 '0')

/-- The highest chunk first. -/
def renderChunks : List UInt32 → String
  | [] => ""
  | first :: chunks => chunks.foldl (fun out chunk => out ++ padChunk chunk) (toString first.toNat)

def toDecimalString : String :=
  if number.isZero then "0" else renderChunks number.decimalChunks.reverse

theorem toDigits_leftpad {width high low : ℕ} (hwidth : 1 ≤ width) (hhigh : 0 < high)
    (hlow : low < 10 ^ width) :
    Nat.toDigits 10 (10 ^ width * high + low) =
      Nat.toDigits 10 high ++ (Nat.toDigits 10 low).leftpad width '0' := by
  induction width, hwidth using le_induction generalizing low with
  | base =>
    rw [pow_one] at hlow ⊢
    rw [← toDigits_append_toDigits (by decide) hhigh hlow, toDigits_of_lt_base hlow]
    rfl
  | succ width hwidth ih =>
    have hrest : low / 10 < 10 ^ width := by
      omega
    have hsplit : 10 ^ (width + 1) * high + low =
        10 * (10 ^ width * high + low / 10) + low % 10 := by
      have hpow : 10 ^ (width + 1) * high = 10 * (10 ^ width * high) := by ring
      omega
    have hdigit : low % 10 < 10 := mod_lt _ (by decide)
    have hpos : 0 < 10 ^ width * high + low / 10 :=
      Nat.add_pos_left (mul_pos (Nat.pow_pos (by decide)) hhigh) _
    -- the last digit stands behind the padded rest
    have hpad : (Nat.toDigits 10 low).leftpad (width + 1) '0' =
        (Nat.toDigits 10 (low / 10)).leftpad width '0' ++ Nat.toDigits 10 (low % 10) := by
      rw [toDigits_of_lt_base hdigit]
      rcases Nat.eq_zero_or_pos (low / 10) with hzero | hpos'
      · have hlt : low < 10 := by omega
        have hkeep : width - 1 + 1 = width := by omega
        rw [hzero, toDigits_of_lt_base hlt, mod_eq_of_lt hlt]
        show List.replicate width '0' ++ _ = List.replicate (width - 1) '0' ++ ['0'] ++ _
        rw [← replicate_succ', hkeep]
      · have hdigits := toDigits_append_toDigits (by decide) hpos' hdigit
        rw [div_add_mod, toDigits_of_lt_base hdigit] at hdigits
        rw [← hdigits, List.leftpad, List.leftpad, length_append, length_singleton,
          Nat.add_sub_add_right, append_assoc]
    rw [hsplit, ← toDigits_append_toDigits (by decide) hpos hdigit, ih hrest, hpad, append_assoc]

theorem renderChunks_concat {chunks : List UInt32} (hne : chunks ≠ []) (chunk : UInt32) :
    renderChunks (chunks ++ [chunk]) = renderChunks chunks ++ padChunk chunk := by
  cases chunks with
  | nil => exact absurd rfl hne
  | cons first chunks => exact foldl_append

theorem renderChunks_decimalChunks (work : ExactNatural) (hwork : work.toNat ≠ 0) :
    renderChunks work.decimalChunks.reverse = toString work.toNat := by
  fun_induction decimalChunks work with
  | case1 work hzero => exact absurd (isZero_iff.mp hzero) hwork
  | case2 work _ out ih =>
    obtain ⟨hquotient, hchunk⟩ : out.1.toNat = work.toNat / 10 ^ 9 ∧
      out.2.toNat = work.toNat % 10 ^ 9 := work.divRemU32_spec (by decide)
    have hvalue := div_add_mod work.toNat (10 ^ 9)
    have hlow := mod_lt work.toNat (pow_pos (n := 9) (by decide : 0 < 10))
    rw [← hquotient, ← hchunk] at hvalue
    rw [← hchunk] at hlow
    rw [reverse_cons]
    by_cases hlast : out.1.toNat = 0
    · rw [decimalChunks, if_pos (isZero_iff.mpr hlast), ← hvalue, hlast, mul_zero, zero_add]
      rfl
    · have hne : out.1.decimalChunks.reverse ≠ [] := by
        rw [decimalChunks, if_neg (by rwa [isZero_iff])]
        simp
      rw [renderChunks_concat hne, ih hlast, ← hvalue, padChunk]
      show Nat.repr _ ++ _ = Nat.repr _
      rw [repr_eq_ofList_toDigits, repr_eq_ofList_toDigits, ← String.ofList_append,
        toDigits_leftpad (by decide) (pos_of_ne_zero hlast) hlow]

theorem toDecimalString_eq : number.toDecimalString = toString number.toNat := by
  rw [toDecimalString]
  split_ifs with hzero
  · rw [isZero_iff.mp hzero]
    rfl
  · exact renderChunks_decimalChunks number (by rwa [isZero_iff] at hzero)

end ExactNatural

end Cfmd.Exact
