import Cfmd.Lib.BagSystem
import Cfmd.Fixpoint.Evaluation

/-! The solver of bag programs returns the least solution of the program's
equations over the naturals with infinity. -/

namespace Cfmd.Fixpoint
open List hiding product
open Lib Grounded Relation PositiveBagIncidence EvaluationContext Exact ExactNatural NaturalInfinity

def NaturalInfinity.toENat : NaturalInfinity → ℕ∞
  | finite value => value.toNat
  | infinite => ⊤

@[simp] theorem NaturalInfinity.toENat_zero : zero.toENat = 0 := rfl

def PositiveBagCertificate.valuation (c : PositiveBagCertificate) (atom : ℕ) : ℕ∞ :=
  ((c.multiplicityOf atom).getD .zero).toENat

variable {a : ℕ}

namespace PositiveBagProgram

/-- `x_a = seed_a + Σ coefficient · Π x_b`, over the rules with head `a`. -/
def equations (program : PositiveBagProgram) : BagSystem ℕ ℕ where
  seed a := (program.seedOf a).toNat
  rules := Finset.range program.rules.length
  body index := (program.rule index).body
  head index := (program.rule index).head
  coefficient index := (program.rule index).coefficient.toNat

structure Valid (program : PositiveBagProgram) : Prop where
  seeds : program.seedMultiplicity.length = program.atomCount
  head : ∀ rule ∈ program.rules, rule.head < program.atomCount
  body : ∀ rule ∈ program.rules, ∀ b ∈ rule.body, b < program.atomCount

variable {program : PositiveBagProgram}

theorem validateAtom_eq_ok {n : ℕ} : validateAtom n a = .ok () ↔ a < n := by
  unfold validateAtom
  split_ifs with h
  · simp [h]
  · simp [Nat.lt_of_not_le h]

theorem new_valid {n : ℕ} {seeds : List UInt64} {rules : List PositiveBagRule}
    (h : new n seeds rules = .ok program) : program.Valid ∧ program.atomCount = n := by
  unfold new at h
  split_ifs at h with hlen
  simp only [seq_eq_ok, forM_eq_ok, validateAtom_eq_ok] at h
  obtain ⟨hrules, h⟩ := h
  cases h
  exact ⟨⟨not_not.mp hlen, fun rule hr => (hrules rule hr).1,
    fun rule hr => (hrules rule hr).2⟩, rfl⟩

theorem toNat_eq_zero {w : UInt64} : w.toNat = 0 ↔ w = 0 := by
  rw [← UInt64.toNat_inj]
  rfl

theorem rule_mem {index : ℕ} (h : index < program.rules.length) :
    program.rule index ∈ program.rules := by
  unfold rule
  rw [getElem?_eq_getElem h]
  exact getElem_mem h

theorem exists_rule_of_mem {rule : PositiveBagRule} (h : rule ∈ program.rules) :
    ∃ index < program.rules.length, program.rule index = rule := by
  obtain ⟨index, hindex, heq⟩ := getElem_of_mem h
  exact ⟨index, hindex, by rw [PositiveBagProgram.rule, getElem?_eq_getElem hindex,
    Option.getD_some, heq]⟩

theorem Valid.supportProgram (hv : program.Valid) :
    ∃ support, program.supportProgram = .ok support ∧ support.Valid ∧
      support.atomCount = program.atomCount ∧
      (∀ a, support.seeds.contains a = true ↔ program.seedOf a ≠ 0) ∧
      support.rules = (program.rules.filter fun rule => rule.coefficient != 0).map fun rule =>
        GroundedRule.new rule.body rule.head := by
  let seeds := (range program.seedMultiplicity.length).filter fun index =>
    program.seedOf index != 0
  have hseeds : ∀ a, a ∈ seeds ↔ program.seedOf a ≠ 0 := by
    intro a
    simp only [seeds, mem_filter, mem_range, bne_iff_ne, and_iff_right_iff_imp]
    exact fun hne => lt_length_of_getD_ne hne
  have hlt : ∀ a ∈ seeds, a < program.atomCount := fun a ha =>
    hv.seeds ▸ mem_range.mp (mem_filter.mp ha).1
  obtain ⟨set, hset, hcontains⟩ := GroundedSeedSet.exists_fromAtoms hlt
  let support : GroundedProgram :=
    { atomCount := program.atomCount, seeds := set
      rules := (program.rules.filter fun rule => rule.coefficient != 0).map fun rule =>
        GroundedRule.new rule.body rule.head }
  have hvalid : support.Valid := by
    refine ⟨GroundedSeedSet.length_of_fromAtoms hset, ?_, ?_⟩
    · intro rule hrule
      obtain ⟨bag, hbag, rfl⟩ := mem_map.mp hrule
      exact hv.head bag (mem_filter.mp hbag).1
    · intro rule hrule b hb
      obtain ⟨bag, hbag, rfl⟩ := mem_map.mp hrule
      exact hv.body bag (mem_filter.mp hbag).1 b (mem_sortDedup.mp hb)
  refine ⟨support, ?_, hvalid, rfl, fun a => (hcontains a).trans (hseeds a), rfl⟩
  unfold PositiveBagProgram.supportProgram GroundedProgram.new
  rw [bind_eq_ok]
  exact ⟨set, hset, seq_eq_ok.mpr ⟨hvalid.validate, rfl⟩⟩

theorem leastFixpoint_iff_supported {support : GroundedProgram}
    (hseeds : ∀ a, support.seeds.contains a = true ↔ program.seedOf a ≠ 0)
    (hrules : support.rules = (program.rules.filter fun rule => rule.coefficient != 0).map
      fun rule => GroundedRule.new rule.body rule.head) (a : ℕ) :
    support.LeastFixpoint a ↔ program.equations.Supported a := by
  have hseed : ∀ a, support.Fact a ↔ program.equations.seed a ≠ 0 := fun a =>
    (hseeds a).trans (not_congr toNat_eq_zero).symm
  constructor
  · intro h
    induction h with
    | fact hf => exact .fact ((hseed _).mp hf)
    | rule hr _ ih =>
      obtain ⟨rule, hmem, _, rfl, rfl⟩ := hr
      rw [hrules] at hmem
      obtain ⟨bag, hbag, rfl⟩ := mem_map.mp hmem
      obtain ⟨hbag, hc⟩ := mem_filter.mp hbag
      obtain ⟨index, hindex, rfl⟩ := exists_rule_of_mem hbag
      refine .rule ⟨index, Finset.mem_range.mpr hindex, ?_, rfl, rfl⟩ fun b hb =>
        ih b (mem_sortDedup.mpr hb)
      exact toNat_eq_zero.not.mpr (by simpa using hc)
  · intro h
    induction h with
    | fact hf => exact .fact ((hseed _).mpr hf)
    | rule hr _ ih =>
      obtain ⟨index, hindex, hc, rfl, rfl⟩ := hr
      have hmem : GroundedRule.new (program.rule index).body (program.rule index).head ∈
          support.rules := by
        rw [hrules]
        apply mem_map_of_mem
        apply mem_filter.mpr
        exact ⟨rule_mem (Finset.mem_range.mp hindex), by simpa using toNat_eq_zero.not.mp hc⟩
      exact .rule ⟨_, hmem, rfl, rfl, rfl⟩ fun b hb => ih b (mem_sortDedup.mp hb)

end PositiveBagProgram

section
variable {α : Type*} (f : α → ExactNatural) (xs : List α) (start : ExactNatural)

theorem toNat_foldl_multiplyAssign :
    (xs.foldl (fun product x => product.multiplyAssign (f x)) start).toNat =
      start.toNat * (xs.map fun x => (f x).toNat).prod := by
  induction xs generalizing start with
  | nil => simp
  | cons x xs ih => rw [foldl_cons, ih, map_cons, prod_cons, toNat_multiplyAssign, Nat.mul_assoc]

theorem toNat_foldl_addAssign :
    (xs.foldl (fun total x => total.addAssign (f x)) start).toNat =
      start.toNat + (xs.map fun x => (f x).toNat).sum := by
  induction xs generalizing start with
  | nil => simp
  | cons x xs ih => rw [foldl_cons, ih, map_cons, sum_cons, toNat_addAssign, Nat.add_assoc]

end

def solution (program : PositiveBagProgram) (support : GroundedCertificate) (a : ℕ) : ℕ∞ :=
  ((evaluationContext program support).multiplicity
    (evaluationContext program support).evaluate.finite a).toENat

def solvedCertificate (program : PositiveBagProgram) (support : GroundedCertificate) :
    PositiveBagCertificate :=
  { support
    multiplicity := (range program.atomCount).map
      ((evaluationContext program support).multiplicity
        (evaluationContext program support).evaluate.finite) }

section Solved
variable {program : PositiveBagProgram} {support : GroundedCertificate}
  (hs : support.HasSize program.atomCount)
  (hlive : ∀ a, support.isLive a = true ↔ program.equations.Supported a)
include hs hlive

omit hs in
theorem mem_activeRules_iff {index : ℕ} :
    index ∈ activeRules program support ↔ program.equations.Active index := by
  rw [mem_activeRules, skips_eq_false]
  constructor
  · rintro ⟨hindex, hc, _, hbody⟩
    exact ⟨Finset.mem_range.mpr hindex, PositiveBagProgram.toNat_eq_zero.not.mpr hc,
      fun b hb => (hlive b).mp (hbody b hb)⟩
  · intro h
    exact ⟨Finset.mem_range.mp h.1, PositiveBagProgram.toNat_eq_zero.not.mp h.2.1,
      (hlive _).mpr h.head_supported, fun b hb => (hlive b).mpr (h.2.2 b hb)⟩

theorem feeds_eq_edge : program.equations.Feeds = Edge (compile program support).graph := by
  funext p a
  apply propext
  unfold Edge
  rw [mem_graph hs]
  constructor
  · rintro ⟨index, hactive, hp, rfl⟩
    exact ⟨index, (mem_activeRules_iff hlive).mpr hactive, hp, rfl⟩
  · rintro ⟨index, hactive, hp, rfl⟩
    exact ⟨index, (mem_activeRules_iff hlive).mp hactive, hp, rfl⟩

omit hlive in
theorem isSet_live (a : ℕ) :
    isSet (evaluationContext program support).live a = support.isLive a := by
  by_cases ha : a < program.atomCount
  · simp [evaluationContext, isSet, ha]
  have hdead : support.isLive a = false := by
    by_contra hl
    exact ha (hs.lt_of_isLive (by simpa using hl))
  rw [hdead]
  simp [evaluationContext, isSet, ha]

theorem isSet_infinite (a : ℕ) :
    isSet (evaluationContext program support).infinite a = true ↔
      FedByCycle program.equations.Feeds a := by
  rw [feeds_eq_edge hs hlive]
  refine classifyInfinite_spec (adjacency_compile hs) (by simp) ?_ a
  intro s t hst
  have hl := live_of_mem_graph hs hst
  exact ⟨(isSet_live hs s).trans hl.1, (isSet_live hs t).trans hl.2⟩

theorem isFinite_iff (a : ℕ) : (evaluationContext program support).isFinite a = true ↔
    program.equations.Supported a ∧ ¬ FedByCycle program.equations.Feeds a := by
  unfold isFinite
  rw [Bool.and_eq_true, isSet_live hs, hlive, Bool.not_eq_true', ← Bool.not_eq_true,
    isSet_infinite hs hlive]

theorem evaluationContext_sound : (evaluationContext program support).Sound := by
  have hfeeds := feeds_eq_edge hs hlive
  refine ⟨adjacency_compile hs, ?_, ?_, ?_, ?_⟩
  · intro v hv
    exact hs.lt_of_isLive ((hlive v).mpr ((isFinite_iff hs hlive v).mp hv).1)
  · intro p v hpv hv
    have hedge : program.equations.Feeds p v := by
      rw [hfeeds]
      exact hpv
    refine (isFinite_iff hs hlive p).mpr ⟨hedge.supported.1, fun hfed => ?_⟩
    exact ((isFinite_iff hs hlive v).mp hv).2 (hfed.step hedge)
  · intro v hv hcycle
    apply ((isFinite_iff hs hlive v).mp hv).2
    rw [hfeeds]
    exact .of_onCycle hcycle
  · intro v index hindex p hp
    have hmem : index ∈ row (compile program support).rulesByHead v := hindex
    have hv : v < program.atomCount := by simpa using lt_of_mem_row hmem
    rw [row_rulesByHead hv, mem_filter] at hmem
    exact (mem_graph hs).mpr ⟨index, hmem.1, hp, by simpa using hmem.2⟩

theorem solution_of_dead (ha : ¬ program.equations.Supported a) :
    solution program support a = 0 := by
  have hl : isSet (evaluationContext program support).live a = false := by
    rw [isSet_live hs, ← Bool.not_eq_true, hlive]
    exact ha
  simp [solution, EvaluationContext.multiplicity, hl]

theorem solution_of_fed (ha : FedByCycle program.equations.Feeds a) :
    solution program support a = ⊤ := by
  obtain ⟨p, hpa, _⟩ := ha.exists_pred
  have hl : isSet (evaluationContext program support).live a = true := by
    rw [isSet_live hs, hlive]
    exact hpa.supported.2
  simp [solution, EvaluationContext.multiplicity, hl, (isSet_infinite hs hlive a).mpr ha, toENat]

omit hs hlive in
theorem solution_of_finite (ha : (evaluationContext program support).isFinite a = true) :
    solution program support a =
      ((evaluationContext program support).evaluate.finite[a]?.getD .zero).toNat := by
  obtain ⟨hl, hinf⟩ := Bool.and_eq_true_iff.mp ha
  rw [Bool.not_eq_true'] at hinf
  simp [solution, EvaluationContext.multiplicity, hl, hinf, toENat]

omit hs in
theorem sum_terms_eq {x : ℕ → ℕ∞} (hdead : ∀ a, ¬ program.equations.Supported a → x a = 0)
    (ha : a < program.atomCount) :
    ∑ index ∈ program.equations.rules with program.equations.head index = a,
      program.equations.term x index =
        ((row (compile program support).rulesByHead a).map (program.equations.term x)).sum := by
  have hnodup : (row (compile program support).rulesByHead a).Nodup := by
    rw [row_rulesByHead ha]
    exact (nodup_range.filter _).filter _
  have hmem : ∀ index, index ∈ row (compile program support).rulesByHead a ↔
      program.equations.Active index ∧ program.equations.head index = a := by
    intro index
    rw [row_rulesByHead ha, mem_filter, mem_activeRules_iff hlive, decide_eq_true_eq]
    rfl
  rw [← sum_toFinset _ hnodup]
  symm
  apply Finset.sum_subset
  · intro index hindex
    obtain ⟨hactive, hhead⟩ := (hmem index).mp (mem_toFinset.mp hindex)
    exact Finset.mem_filter.mpr ⟨hactive.1, hhead⟩
  · intro index hindex hskipped
    obtain ⟨hrule, hhead⟩ := Finset.mem_filter.mp hindex
    apply BagSystem.term_of_not_active hrule _ hdead
    intro hactive
    exact hskipped (mem_toFinset.mpr ((hmem index).mpr ⟨hactive, hhead⟩))

/-- The value computed for an atom is the right-hand side of its equation: the
rules that `compile` skips contribute nothing. -/
theorem value_eq_rhs (ha : (evaluationContext program support).isFinite a = true) :
    ((evaluationContext program support).value
      (evaluationContext program support).evaluate.finite a).toNat =
        program.equations.rhs (solution program support) a := by
  have hsound := evaluationContext_sound hs hlive
  have hlt : a < program.atomCount := hsound.lt a ha
  have hterm : ∀ index ∈ row (compile program support).rulesByHead a,
      ((product (evaluationContext program support).evaluate.finite
        (program.rule index)).toNat : ℕ∞) =
          program.equations.term (solution program support) index := by
    intro index hindex
    have hbody : ∀ p ∈ (program.rule index).body, solution program support p =
        ((evaluationContext program support).evaluate.finite[p]?.getD .zero).toNat := fun p hp =>
      solution_of_finite (hsound.pred p a (hsound.premise a index hindex p hp) ha)
    unfold product BagSystem.term
    rw [toNat_foldl_multiplyAssign, toNat_fromU64, Nat.cast_mul, Nat.cast_list_prod, List.map_map]
    congr 2
    exact map_congr_left fun p hp => (hbody p hp).symm
  unfold value BagSystem.rhs
  rw [toNat_foldl_addAssign, toNat_fromU64,
    sum_terms_eq hlive (fun _ => solution_of_dead hs hlive) hlt, Nat.cast_add, Nat.cast_list_sum,
    List.map_map]
  congr 2
  exact map_congr_left hterm

theorem solution_classified : program.equations.Classified (solution program support) where
  dead _ ha := solution_of_dead hs hlive ha
  infinite _ ha := solution_of_fed hs hlive ha
  finite a ha hfed := by
    have hfinite := (isFinite_iff hs hlive a).mpr ⟨ha, hfed⟩
    rw [solution_of_finite hfinite, ← value_eq_rhs hs hlive hfinite,
      (evaluate_spec (evaluationContext_sound hs hlive)).2 a hfinite]

theorem feeds_wellFounded :
    WellFounded fun p a => program.equations.Feeds p a ∧
      ¬ FedByCycle program.equations.Feeds a := by
  have hlt : ∀ a, program.equations.Supported a → a < program.atomCount :=
    fun a ha => hs.lt_of_isLive ((hlive a).mpr ha)
  have hacyclic : ∀ v, ¬ TransGen (fun p a => program.equations.Feeds p a ∧
      ¬ FedByCycle program.equations.Feeds a) v v := by
    intro v hcycle
    obtain ⟨p, _, hpv⟩ := TransGen.tail'_iff.mp hcycle
    exact hpv.2 (.of_onCycle (TransGen.mono (fun _ _ h => h.1) _ _ hcycle))
  have hacc := acyclic_induction (n := program.atomCount) hacyclic
    fun v _ ih => Acc.intro v fun p hp => ih p (hlt p hp.1.supported.1) hp
  refine ⟨fun a => ⟨a, fun p hp => hacc p (hlt p hp.1.supported.1)⟩⟩

theorem valuation_eq_solution :
    (solvedCertificate program support).valuation = solution program support := by
  funext a
  unfold PositiveBagCertificate.valuation PositiveBagCertificate.multiplicityOf solvedCertificate
  by_cases ha : a < program.atomCount
  · simp [ha, solution]
  have hdead : ¬ program.equations.Supported a := fun h =>
    ha (hs.lt_of_isLive ((hlive a).mpr h))
  rw [solution_of_dead hs hlive hdead]
  simp [ha]

end Solved

theorem solvePositiveBag_eq_ok {program : PositiveBagProgram} (hv : program.Valid)
    (hn : program.atomCount ≤ usizeMax) {supportProgram : GroundedProgram}
    (hsupport : program.supportProgram = .ok supportProgram) :
    solvePositiveBag program = .ok (solvedCertificate program (solve supportProgram).1) ∧
      check supportProgram (solve supportProgram).1 = .ok () ∧
      IsLeast program.equations.Solutions
        (solvedCertificate program (solve supportProgram).1).valuation := by
  obtain ⟨supportProgram', hsupport', hvalid, hcount, hseeds, hrules⟩ := hv.supportProgram
  cases hsupport.symm.trans hsupport'
  obtain ⟨hj, hc⟩ := solve_spec hvalid (hcount ▸ hn)
  have hs : (solve supportProgram).1.HasSize program.atomCount := hcount ▸ hj.size
  have hlive : ∀ a, (solve supportProgram).1.isLive a = true ↔ program.equations.Supported a :=
    fun a => (isLive_iff_leastFixpoint hj hc a).trans
      (PositiveBagProgram.leastFixpoint_iff_supported hseeds hrules a)
  have hcheck : check supportProgram (solve supportProgram).1 = .ok () := check_eq_ok.mpr ⟨hj, hc⟩
  refine ⟨?_, hcheck, ?_⟩
  · unfold solvePositiveBag
    rw [bind_eq_ok]
    refine ⟨supportProgram, mapError_eq_ok.mpr hsupport, ?_⟩
    rw [seq_eq_ok]
    refine ⟨mapError_eq_ok.mpr hcheck, if_neg ?_⟩
    exact not_not.mpr (evaluate_spec (evaluationContext_sound hs hlive)).1
  · rw [valuation_eq_solution hs hlive]
    exact (solution_classified hs hlive).isLeast (feeds_wellFounded hs hlive)

/-- On every program that `new` accepts the solver succeeds, with the least
solution of the program's equations. -/
theorem solvePositiveBag_isLeast {n : ℕ} {seeds : List UInt64} {rules : List PositiveBagRule}
    {program : PositiveBagProgram} (hnew : PositiveBagProgram.new n seeds rules = .ok program)
    (hn : n ≤ usizeMax) :
    ∃ c, solvePositiveBag program = .ok c ∧ c.multiplicity.length = n ∧
      IsLeast program.equations.Solutions c.valuation := by
  obtain ⟨hv, rfl⟩ := PositiveBagProgram.new_valid hnew
  obtain ⟨supportProgram, hsupport, _⟩ := hv.supportProgram
  obtain ⟨hsolve, _, hleast⟩ := solvePositiveBag_eq_ok hv hn hsupport
  have hlen : (solvedCertificate program (solve supportProgram).1).multiplicity.length =
      program.atomCount := by simp [solvedCertificate]
  exact ⟨solvedCertificate program (solve supportProgram).1, hsolve, hlen, hleast⟩

/-- Atom 1 doubles atom 0, atom 2 takes three times the square of atom 1, and
atom 3 feeds itself; the rule back to atom 0 has coefficient zero. -/
def squareAndLoop : PositiveBagProgram :=
  { atomCount := 4
    seedMultiplicity := [1, 0, 0, 2]
    rules := [⟨[0], 1, 2⟩, ⟨[1, 1], 2, 3⟩, ⟨[3], 3, 1⟩, ⟨[2], 0, 0⟩] }

theorem solvePositiveBag_squareAndLoop :
    ∃ c, solvePositiveBag squareAndLoop = .ok c ∧
      c.multiplicity = [.finiteU64 1, .finiteU64 2, .finiteU64 12, .infinite] ∧
      IsLeast squareAndLoop.equations.Solutions c.valuation := by
  have hnew : PositiveBagProgram.new 4 squareAndLoop.seedMultiplicity squareAndLoop.rules =
      .ok squareAndLoop := by decide
  obtain ⟨c, hc, _, hleast⟩ := solvePositiveBag_isLeast hnew (by decide)
  refine ⟨c, hc, ?_, hleast⟩
  have hrun : (solvePositiveBag squareAndLoop).toOption.map (fun c => c.multiplicity) =
      some [.finiteU64 1, .finiteU64 2, .finiteU64 12, .infinite] := by decide +kernel
  rw [hc] at hrun
  exact Option.some.inj hrun

end Cfmd.Fixpoint
