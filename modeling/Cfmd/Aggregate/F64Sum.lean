import Cfmd.Exact.Bits
import Cfmd.Lib.Binary64

/-! Exact sums of binary64 numbers. A sum is a sign and an exact natural number, in
units of `2 ^ (-1074)`; only the result is rounded. An `f64` is its bit pattern. -/

namespace Cfmd.Aggregate
open Exact

inductive AggregateError
  | nonFiniteInput
deriving DecidableEq

structure ExactF64Sum where
  negative : Bool
  magnitude : ExactNatural

/-- `(1_u64 << 52) - 1`. -/
def fractionMask : UInt64 := (1 : UInt64) <<< 52 - 1

namespace ExactF64Sum

def default : ExactF64Sum := ⟨false, .zero⟩

def addSigned (sum : ExactF64Sum) (negative : Bool) (magnitude : ExactNatural) : ExactF64Sum :=
  if magnitude.isZero then sum
  else if sum.magnitude.isZero then ⟨negative, magnitude⟩
  else if sum.negative = negative then ⟨sum.negative, sum.magnitude.addAssign magnitude⟩
  else
    match sum.magnitude.cmp magnitude with
    | .gt => ⟨sum.negative, (sum.magnitude.checkedSubAssign magnitude).getD sum.magnitude⟩
    | .eq => ⟨false, .zero⟩
    | .lt => ⟨negative, (magnitude.checkedSubAssign sum.magnitude).getD magnitude⟩

def addExact (sum : ExactF64Sum) (value : UInt64) (multiplicity : ExactNatural) :
    Except AggregateError ExactF64Sum :=
  if multiplicity.isZero then .ok sum
  else
    let exponent := value >>> 52 &&& 0x7ff
    let fraction := value &&& fractionMask
    if exponent = 0x7ff then .error .nonFiniteInput
    else if exponent = 0 ∧ fraction = 0 then .ok sum
    else
      let (mantissa, shift) :=
        if exponent = 0 then (fraction, 0) else ((1 : UInt64) <<< 52 ||| fraction, exponent.toNat - 1)
      let term := (ExactNatural.fromShiftedU64 mantissa shift).multiplyAssign multiplicity
      .ok (sum.addSigned (value >>> 63 ≠ 0) term)

def addMany (sum : ExactF64Sum) (value multiplicity : UInt64) : Except AggregateError ExactF64Sum :=
  sum.addExact value (.fromU64 multiplicity)

def add (sum : ExactF64Sum) (value : UInt64) : Except AggregateError ExactF64Sum :=
  sum.addMany value 1

def negate (value : UInt64) : UInt64 := value ^^^ (1 : UInt64) <<< 63

def removeExact (sum : ExactF64Sum) (value : UInt64) (multiplicity : ExactNatural) :
    Except AggregateError ExactF64Sum :=
  sum.addExact (negate value) multiplicity

def removeMany (sum : ExactF64Sum) (value multiplicity : UInt64) :
    Except AggregateError ExactF64Sum :=
  sum.removeExact value (.fromU64 multiplicity)

def remove (sum : ExactF64Sum) (value : UInt64) : Except AggregateError ExactF64Sum :=
  sum.removeMany value 1

def merge (sum other : ExactF64Sum) : ExactF64Sum := sum.addSigned other.negative other.magnitude

def signBit (negative : Bool) : UInt64 := (if negative then 1 else 0 : UInt64) <<< 63

def infinity (negative : Bool) : UInt64 := signBit negative ||| (0x7ff : UInt64) <<< 52

/-- `f64::from_bits` of the fields, when the exponent is one of `u16`. -/
def pack (negative : Bool) (unbiasedExponent : ℤ) (significand : UInt64) : UInt64 :=
  if 0 ≤ unbiasedExponent + 1023 ∧ unbiasedExponent + 1023 < 2 ^ 16 then
    signBit negative ||| UInt64.ofNat (unbiasedExponent + 1023).toNat <<< 52 |||
      (significand &&& fractionMask)
  else infinity negative

def roundsUp (magnitude : ExactNatural) (shift : ℕ) (significand : UInt64) : Bool :=
  shift ≠ 0 && (magnitude.bit (shift - 1) &&
    (magnitude.anyBitsBelow (shift - 1) || significand &&& 1 ≠ 0))

def finish (sum : ExactF64Sum) : UInt64 :=
  if sum.magnitude.isZero then 0
  else
    let bitLen := sum.magnitude.bitLen
    if bitLen ≤ 52 then signBit sum.negative ||| sum.magnitude.shrToU64 0
    -- the second condition is `i32::try_from`
    else if 2098 < bitLen ∨ 2 ^ 31 ≤ bitLen then infinity sum.negative
    else
      let unbiasedExponent : ℤ := bitLen - 1 - 1074
      if 1023 < unbiasedExponent then infinity sum.negative
      else
        let shift := bitLen - 53
        let significand := sum.magnitude.shrToU64 shift
        if roundsUp sum.magnitude shift significand then
          if significand + (1 : UInt64) = (1 : UInt64) <<< 53 then
            if 1023 < unbiasedExponent + 1 then infinity sum.negative
            else pack sum.negative (unbiasedExponent + 1) ((significand + 1) >>> 1)
          else pack sum.negative unbiasedExponent (significand + 1)
        else pack sum.negative unbiasedExponent significand

end ExactF64Sum

end Cfmd.Aggregate
