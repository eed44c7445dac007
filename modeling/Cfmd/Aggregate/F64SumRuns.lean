import Cfmd.Aggregate.F64SumExact

/-! Whole computations of a sum: additions and removals in any order, in parts that are
summed apart and merged. What is computed depends only on the exact total. -/

namespace Cfmd.Aggregate
open Lib Exact Binary64

/-- How a sum comes about. The other side of a merge is itself a sum computed from nothing. -/
inductive Computation
  | default
  | addExact (before : Computation) (value : UInt64) (multiplicity : ExactNatural)
  | removeExact (before : Computation) (value : UInt64) (multiplicity : ExactNatural)
  | merge (before other : Computation)

namespace Computation

def run : Computation → Except AggregateError ExactF64Sum
  | default => .ok .default
  | addExact before value multiplicity => do (← before.run).addExact value multiplicity
  | removeExact before value multiplicity => do (← before.run).removeExact value multiplicity
  | merge before other => do return (← before.run).merge (← other.run)

def FiniteInputs : Computation → Prop
  | default => True
  | addExact before value _ => before.FiniteInputs ∧ IsFinite value
  | removeExact before value _ => before.FiniteInputs ∧ IsFinite value
  | merge before other => before.FiniteInputs ∧ other.FiniteInputs

def total : Computation → ℚ
  | default => 0
  | addExact before input multiplicity => before.total + multiplicity.toNat * value input
  | removeExact before input multiplicity => before.total - multiplicity.toNat * value input
  | merge before other => before.total + other.total

theorem run_spec {computation : Computation} (h : computation.FiniteInputs) :
    ∃ sum, computation.run = .ok sum ∧ sum.Canonical ∧
      (sum.toInt : ℚ) / 2 ^ 1074 = computation.total := by
  have hscale : ∀ (n : ℕ) (k : ℤ), ((n * k : ℤ) : ℚ) / 2 ^ 1074 = n * (k / 2 ^ 1074) := by
    intro n k
    rw [Int.cast_mul, Int.cast_natCast, mul_div_assoc]
  induction computation with
  | default =>
    refine ⟨.default, rfl, ExactF64Sum.canonical_default, ?_⟩
    rw [ExactF64Sum.toInt_default, Int.cast_zero, zero_div]
    rfl
  | addExact before input multiplicity ih =>
    obtain ⟨sum, hrun, hcanonical, htotal⟩ := ih h.1
    obtain ⟨result, hresult, hvalue, hresultCanonical⟩ :=
      @ExactF64Sum.addExact_spec sum input multiplicity hcanonical h.2
    refine ⟨result, ?_, hresultCanonical, ?_⟩
    · rw [run, hrun]
      exact hresult
    · rw [hvalue, Int.cast_add, add_div, htotal, hscale, ← value_eq]
      rfl
  | removeExact before input multiplicity ih =>
    obtain ⟨sum, hrun, hcanonical, htotal⟩ := ih h.1
    obtain ⟨result, hresult, hvalue, hresultCanonical⟩ :=
      @ExactF64Sum.removeExact_spec sum input multiplicity hcanonical h.2
    refine ⟨result, ?_, hresultCanonical, ?_⟩
    · rw [run, hrun]
      exact hresult
    · rw [hvalue, Int.cast_sub, sub_div, htotal, hscale, ← value_eq]
      rfl
  | merge before other ihbefore ihother =>
    obtain ⟨sum, hrun, hcanonical, htotal⟩ := ihbefore h.1
    obtain ⟨sum', hrun', _, htotal'⟩ := ihother h.2
    obtain ⟨hvalue, hresultCanonical⟩ :=
      @ExactF64Sum.addSigned_spec sum sum'.negative sum'.magnitude hcanonical
    refine ⟨sum.merge sum', ?_, hresultCanonical, ?_⟩
    · rw [run, hrun, hrun']
      rfl
    · have hmerge : (sum.merge sum').toInt = sum.toInt + sum'.toInt := hvalue
      rw [hmerge, Int.cast_add, add_div, htotal, htotal']
      rfl

end Computation

theorem roundsTo_unique {x : ℚ} {bits bits' : UInt64} (h : RoundsTo x bits)
    (h' : RoundsTo x bits') : bits = bits' := by
  have hcode : code bits = code bits' := h.1.unique strictMono_magnitude h'.1
  have hnegative : isNegative bits = isNegative bits' := h.2.trans h'.2.symm
  have hlt := bits.toNat_lt
  have hlt' := bits'.toNat_lt
  unfold code isNegative at *
  rw [decide_eq_decide] at hnegative
  apply UInt64.toNat_inj.mp
  omega

/-- A sum holds the sign and, in units of `2 ^ (-1074)`, the magnitude of the total of its inputs;
its result is the total rounded to nearest, ties to even. Computations with one total end in the
same sum. -/
theorem ExactF64Sum.exact_and_rounded (computation : Computation)
    (h : computation.FiniteInputs) :
    ∃ sum, computation.run = .ok sum ∧ sum.negative = decide (computation.total < 0) ∧
      (sum.magnitude.toNat : ℚ) = |computation.total| * 2 ^ 1074 ∧
      (∀ bits, RoundsTo computation.total bits ↔ bits = sum.finish) ∧
      ∀ other : Computation, other.FiniteInputs → other.total = computation.total →
        other.run = .ok sum := by
  have hpos : (0 : ℚ) < 2 ^ 1074 := by positivity
  obtain ⟨sum, hrun, hcanonical, htotal⟩ := Computation.run_spec h
  have hscaled : (sum.toInt : ℚ) = computation.total * 2 ^ 1074 := by
    rw [← htotal, div_mul_cancel₀ _ hpos.ne']
  have hrounds : RoundsTo computation.total sum.finish := by
    rw [← htotal]
    exact finish_roundsTo hcanonical
  refine ⟨sum, hrun, ?_, ?_, ?_, ?_⟩
  · have hsign : sum.toInt < 0 ↔ computation.total < 0 := by
      rw [← htotal, div_lt_iff₀ hpos, zero_mul, Int.cast_lt_zero]
    rw [hcanonical.negative_eq, decide_eq_decide.mpr hsign]
  · rw [← natAbs_toInt, Nat.cast_natAbs, Int.cast_abs, hscaled, abs_mul, abs_of_pos hpos]
  · intro bits
    constructor
    · intro hbits
      exact roundsTo_unique hbits hrounds
    · rintro rfl
      exact hrounds
  · intro other hother hsame
    obtain ⟨sum', hrun', hcanonical', htotal'⟩ := Computation.run_spec hother
    have hvalue : sum'.toInt = sum.toInt := by
      rw [← htotal, ← htotal', div_left_inj' hpos.ne', Int.cast_inj] at hsame
      exact hsame
    rw [hrun', hcanonical'.ext hcanonical hvalue]

/-- `2 ^ 1023` is added to `1`, and removed again in another part. -/
def Computation.cancelling : Computation :=
  merge (addExact (addExact default 0x3ff0000000000000 (.fromU64 1)) 0x7fe0000000000000 (.fromU64 1))
    (removeExact default 0x7fe0000000000000 (.fromU64 1))

theorem ExactF64Sum.exact_and_rounded_of_cancelling :
    Computation.cancelling.FiniteInputs ∧ ∃ sum, Computation.cancelling.run = .ok sum ∧
        RoundsTo Computation.cancelling.total sum.finish := by
  have hfinite : Computation.cancelling.FiniteInputs :=
    ⟨⟨⟨trivial, by decide⟩, by decide⟩, ⟨trivial, by decide⟩⟩
  obtain ⟨sum, hrun, _, _, hfinish, _⟩ := exact_and_rounded Computation.cancelling hfinite
  exact ⟨hfinite, sum, hrun, (hfinish sum.finish).mpr rfl⟩

end Cfmd.Aggregate
