import Cfmd.Exact.Division
import Cfmd.Exact.Signed

/-! Exact integers: a sign and an exact natural number, with one zero. -/

namespace Cfmd.Exact
open Lib ExactNatural

structure ExactInteger where
  negative : Bool
  magnitude : ExactNatural
  zero_nonneg : magnitude.toNat = 0 → negative = false

namespace ExactInteger
variable (number other : ExactInteger)

def toInt : ℤ := signed number.negative number.magnitude.toNat

theorem toInt_inj {a b : ExactInteger} : a.toInt = b.toInt ↔ a = b := by
  refine ⟨fun h => ?_, fun h => by rw [h]⟩
  obtain ⟨hsign, hmagnitude⟩ := signed_inj a.zero_nonneg b.zero_nonneg h
  cases a
  cases b
  cases hsign
  cases toNat_inj.mp hmagnitude
  rfl

def zero : ExactInteger := ⟨false, .zero, fun _ => rfl⟩

def isZero : Bool := number.magnitude.isZero

theorem isZero_iff {number : ExactInteger} : number.isZero = true ↔ number.toInt = 0 := by
  rw [isZero, ExactNatural.isZero_iff, ← Int.natAbs_eq_zero, toInt, natAbs_signed]

theorem negative_iff {number : ExactInteger} : number.negative = true ↔ number.toInt < 0 := by
  rw [signed_lt_zero number.zero_nonneg, decide_eq_true_eq, toInt]

def fromParts (negative : Bool) (magnitude : ExactNatural) : ExactInteger where
  negative := negative && !magnitude.isZero
  magnitude := magnitude
  zero_nonneg := by
    intro hzero
    rw [ExactNatural.isZero_iff.mpr hzero, Bool.not_true, Bool.and_false]

theorem toInt_fromParts (negative : Bool) (magnitude : ExactNatural) :
    (fromParts negative magnitude).toInt = signed negative magnitude.toNat := by
  show signed (negative && !magnitude.isZero) magnitude.toNat = _
  cases hzero : magnitude.isZero with
  | true =>
    rw [ExactNatural.isZero_iff.mp hzero, signed_zero, signed_zero]
  | false => rw [Bool.not_false, Bool.and_true]

/-- `unsigned_abs` is the absolute value as `u64`. -/
def fromI64 (value : Int64) : ExactInteger :=
  if hzero : value.toInt = 0 then zero
  else
    { negative := decide (value.toInt < 0)
      magnitude := .fromU64 (UInt64.ofNat value.toInt.natAbs)
      zero_nonneg := by
        intro hmagnitude
        have hlow := value.le_toInt
        have hhigh := value.toInt_lt
        rw [toNat_fromU64, UInt64.toNat_ofNat'] at hmagnitude
        omega }

theorem toInt_fromI64 (value : Int64) : (fromI64 value).toInt = value.toInt := by
  have hlow := value.le_toInt
  have hhigh := value.toInt_lt
  unfold fromI64
  split_ifs with hzero
  · exact hzero.symm
  · rw [toInt, toNat_fromU64, UInt64.toNat_ofNat', signed]
    simp only [decide_eq_true_eq]
    split_ifs <;> omega

def addAssign : ExactInteger where
  negative := (addParts number.negative number.magnitude other.negative other.magnitude).1
  magnitude := (addParts number.negative number.magnitude other.negative other.magnitude).2
  zero_nonneg := (addParts_spec number.zero_nonneg).2

theorem toInt_addAssign : (number.addAssign other).toInt = number.toInt + other.toInt :=
  (addParts_spec number.zero_nonneg).1

def productOf (negative : Bool) (left right : ExactNatural) : ExactInteger :=
  if h : left.isZero || right.isZero then zero
  else
    { negative := negative
      magnitude := left.multiplyAssign right
      zero_nonneg := by
        intro hzero
        rw [ExactNatural.toNat_multiplyAssign, Nat.mul_eq_zero] at hzero
        rw [Bool.or_eq_true, ExactNatural.isZero_iff, ExactNatural.isZero_iff] at h
        exact absurd hzero h }

theorem toInt_productOf (negative : Bool) (left right : ExactNatural) :
    (productOf negative left right).toInt = signed negative (left.toNat * right.toNat) := by
  unfold productOf
  split_ifs with hzero
  · rw [Bool.or_eq_true, ExactNatural.isZero_iff, ExactNatural.isZero_iff] at hzero
    rw [Nat.mul_eq_zero.mpr hzero, signed_zero]
    rfl
  · rw [toInt, ExactNatural.toNat_multiplyAssign]

def multiply : ExactInteger :=
  productOf (number.negative != other.negative) number.magnitude other.magnitude

theorem toInt_multiply : (number.multiply other).toInt = number.toInt * other.toInt :=
  (toInt_productOf ..).trans (signed_mul ..)

def scaleByNatural (multiplicity : ExactNatural) : ExactInteger :=
  productOf number.negative number.magnitude multiplicity

theorem toInt_scaleByNatural (multiplicity : ExactNatural) :
    (number.scaleByNatural multiplicity).toInt = number.toInt * multiplicity.toNat := by
  have hmul := signed_mul number.negative false number.magnitude.toNat multiplicity.toNat
  rw [Bool.bne_false] at hmul
  exact (toInt_productOf ..).trans hmul

end ExactInteger

/-- Exact numbers are the natural numbers and the integers: representations are unique, and
every operation is that of the numbers. -/
theorem exact_numbers :
    -- representation, equality and order
    (∀ a : ExactNatural, a.limbs.getLast? ≠ some 0) ∧
    (∀ a b : ExactNatural, (a = b ↔ a.toNat = b.toNat) ∧ a.cmp b = compare a.toNat b.toNat) ∧
    -- constructors
    (ExactNatural.zero.toNat = 0 ∧ ExactNatural.one.toNat = 1 ∧
      (∀ value, (ExactNatural.fromU64 value).toNat = value.toNat) ∧
      (∀ value, (ExactNatural.fromU128 value).toNat = value.toNat) ∧
      ∀ value shift, (ExactNatural.fromShiftedU64 value shift).toNat = value.toNat * 2 ^ shift) ∧
    -- arithmetic
    (∀ a b : ExactNatural, (a.addAssign b).toNat = a.toNat + b.toNat ∧
      (a.multiplyAssign b).toNat = a.toNat * b.toNat ∧
      (a.checkedSubAssign b).map ExactNatural.toNat =
        if a.toNat < b.toNat then none else some (a.toNat - b.toNat)) ∧
    (∀ a : ExactNatural, (∀ n, (a.addU128 n).toNat = a.toNat + n.toNat) ∧
      (∀ n, (a.multiplyU64Assign n).toNat = a.toNat * n.toNat) ∧
      ∀ n, (a.divRemU64Assign n).map (fun out => (out.1.toNat, out.2.toNat)) =
        if n.toNat = 0 then none else some (a.toNat / n.toNat, a.toNat % n.toNat)) ∧
    -- queries
    (∀ a : ExactNatural, (a.isZero = true ↔ a.toNat = 0) ∧ (a.isOne = true ↔ a.toNat = 1) ∧
      a.bitLen = a.toNat.size ∧ (∀ index, a.bit index = a.toNat.testBit index) ∧
      (∀ n, a.anyBitsBelow n = decide (a.toNat % 2 ^ n ≠ 0)) ∧
      (∀ shift, (a.shrToU64 shift).toNat = a.toNat / 2 ^ shift % 2 ^ 64) ∧
      (a.toU64 = if a.toNat < 2 ^ 64 then some (UInt64.ofNat a.toNat) else none) ∧
      a.toDecimalString = toString a.toNat) ∧
    -- integers
    (∀ a b : ExactInteger, (a = b ↔ a.toInt = b.toInt) ∧
      (a.addAssign b).toInt = a.toInt + b.toInt ∧ (a.multiply b).toInt = a.toInt * b.toInt) ∧
    (∀ (a : ExactInteger) (n : ExactNatural), (a.scaleByNatural n).toInt = a.toInt * n.toNat) ∧
    (∀ a : ExactInteger, (a.isZero = true ↔ a.toInt = 0) ∧ (a.negative = true ↔ a.toInt < 0) ∧
      a.magnitude.toNat = a.toInt.natAbs) ∧
    ExactInteger.zero.toInt = 0 ∧ (∀ value, (ExactInteger.fromI64 value).toInt = value.toInt) ∧
    ∀ negative magnitude, (ExactInteger.fromParts negative magnitude).toInt =
      if negative then -(magnitude.toNat : ℤ) else magnitude.toNat := by
  refine ⟨fun a => a.normalized, fun a b => ⟨toNat_inj.symm, a.cmp_eq b⟩,
    ⟨rfl, rfl, toNat_fromU64, toNat_fromU128, toNat_fromShiftedU64⟩,
    fun a b => ⟨a.toNat_addAssign b, a.toNat_multiplyAssign b, ?_⟩,
    fun a => ⟨fun n => ?_, a.toNat_multiplyU64Assign, a.divRemU64Assign_eq⟩,
    fun a => ⟨isZero_iff, isOne_iff, a.bitLen_eq_size, a.bit_eq,
      a.anyBitsBelow_eq, a.toNat_shrToU64, a.toU64_eq, a.toDecimalString_eq⟩,
    fun a b => ⟨ExactInteger.toInt_inj.symm, a.toInt_addAssign b, a.toInt_multiply b⟩,
    ExactInteger.toInt_scaleByNatural,
    fun a => ⟨ExactInteger.isZero_iff, ExactInteger.negative_iff, ?_⟩, rfl,
    ExactInteger.toInt_fromI64, ExactInteger.toInt_fromParts⟩
  · split_ifs with hlt
    · rw [ExactNatural.checkedSubAssign, cmp_eq, if_pos (Nat.compare_eq_lt.mpr hlt)]
      rfl
    · obtain ⟨result, hresult, hvalue⟩ := checkedSubAssign_eq (Nat.le_of_not_lt hlt)
      rw [hresult, Option.map_some, hvalue]
  · rw [ExactNatural.addU128, toNat_addAssign, toNat_fromU128]
  · exact (natAbs_signed _ _).symm

end Cfmd.Exact
