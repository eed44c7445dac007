import Cfmd.Fixpoint.LeastSolution

/-! The checker of bag certificates. It compares every multiplicity with its own equation
only, but after the atoms a cycle feeds are known to be infinite the equations of the others
have one solution, so that it accepts the least solution and nothing else. -/

namespace Cfmd.Fixpoint
open Lib Grounded PositiveBagIncidence PositiveBagCertificate Exact ExactNatural List

namespace EvaluationContext

def checkProduct (c : PositiveBagCertificate) (rule : PositiveBagRule) :
    Except PositiveBagFixpointError ExactNatural :=
  rule.body.foldlM (fun product premise =>
    match c.multiplicity[premise]?.getD .zero with
    | .finite value => .ok (product.multiplyAssign value)
    | .infinite => .error .certificateShapeMismatch) (fromU64 rule.coefficient)

def checkValue (ctx : EvaluationContext) (c : PositiveBagCertificate) (atom : ℕ) :
    Except PositiveBagFixpointError ExactNatural :=
  (row ctx.incidence.rulesByHead atom).foldlM (fun expected index => do
    let product ← checkProduct c (ctx.program.rule index)
    return expected.addAssign product) (fromU64 (ctx.program.seedOf atom))

def checkAtom (ctx : EvaluationContext) (c : PositiveBagCertificate) (atom : ℕ) :
    Except PositiveBagFixpointError Unit :=
  let claimed := c.multiplicity[atom]?.getD .zero
  if !isSet ctx.live atom then
    if claimed ≠ .zero then .error .certificateShapeMismatch else .ok ()
  else if isSet ctx.infinite atom then
    if !claimed.isInfinite then .error .certificateShapeMismatch else .ok ()
  else
    match claimed with
    | .infinite => .error .certificateShapeMismatch
    | .finite claimedValue => do
      let expected ← ctx.checkValue c atom
      if expected ≠ claimedValue then .error .certificateShapeMismatch else .ok ()

end EvaluationContext

def checkPositiveBag (program : PositiveBagProgram) (c : PositiveBagCertificate) :
    Except PositiveBagFixpointError Unit :=
  if c.multiplicity.length ≠ program.atomCount then .error .certificateShapeMismatch
  else do
    let supportProgram ← program.supportProgram.mapError .support
    (check supportProgram c.support).mapError .support
    forM (range program.atomCount) ((evaluationContext program c.support).checkAtom c)

namespace PositiveBagCertificate
variable {c : PositiveBagCertificate} {a : ℕ}

theorem valuation_eq_top : c.valuation a = ⊤ ↔ c.multiplicity[a]?.getD .zero = .infinite := by
  unfold valuation multiplicityOf
  cases c.multiplicity[a]?.getD .zero with
  | finite value | infinite => simp [NaturalInfinity.toENat]

theorem valuation_eq_toNat {value : ExactNatural} :
    c.valuation a = value.toNat ↔ c.multiplicity[a]?.getD .zero = .finite value := by
  unfold valuation multiplicityOf
  cases c.multiplicity[a]?.getD .zero with
  | finite value | infinite => simp [NaturalInfinity.toENat, toNat_inj]

theorem exists_eq_toNat (h : c.valuation a ≠ ⊤) :
    ∃ value : ExactNatural, c.valuation a = value.toNat := by
  cases hb : c.multiplicity[a]?.getD .zero with
  | finite value => exact ⟨value, valuation_eq_toNat.mpr hb⟩
  | infinite => exact absurd (valuation_eq_top.mpr hb) h

end PositiveBagCertificate

namespace EvaluationContext
variable {ctx : EvaluationContext} {c : PositiveBagCertificate} {rule : PositiveBagRule}

theorem checkProduct_eq_ok {product : ExactNatural} :
    checkProduct c rule = .ok product ↔ (∀ b ∈ rule.body, c.valuation b ≠ ⊤) ∧
      (product.toNat : ℕ∞) = rule.coefficient.toNat * (rule.body.map c.valuation).prod := by
  unfold checkProduct
  rw [← toNat_fromU64]
  generalize fromU64 rule.coefficient = start
  induction rule.body generalizing start with
  | nil => simp [pure, Except.pure, toNat_inj, eq_comm]
  | cons b body ih =>
    rw [foldlM_cons, forall_mem_cons, map_cons]
    cases hb : c.multiplicity[b]?.getD .zero with
    | finite value =>
      have hvalue : c.valuation b = value.toNat := valuation_eq_toNat.mpr hb
      refine (ih (start.multiplyAssign value)).trans ?_
      rw [hvalue, toNat_multiplyAssign, Nat.cast_mul, mul_assoc]
      simp
    | infinite =>
      have htop : c.valuation b = ⊤ := valuation_eq_top.mpr hb
      constructor
      · exact nofun
      · rintro ⟨⟨hne, _⟩, _⟩
        exact absurd htop hne

theorem exists_checkProduct
    (hfinite : ∀ b ∈ rule.body, c.valuation b ≠ ⊤) : ∃ product, checkProduct c rule = .ok product := by
  unfold checkProduct
  generalize fromU64 rule.coefficient = start
  generalize rule.body = body at hfinite
  induction body generalizing start with
  | nil => exact ⟨start, rfl⟩
  | cons b body ih =>
    rw [forall_mem_cons] at hfinite
    rw [foldlM_cons]
    cases hb : c.multiplicity[b]?.getD .zero with
    | finite value => exact ih _ hfinite.2
    | infinite => exact absurd (valuation_eq_top.mpr hb) hfinite.1

theorem checkValue_eq_ok {atom : ℕ} {expected : ExactNatural} :
    ctx.checkValue c atom = .ok expected ↔ (∀ index ∈ row ctx.incidence.rulesByHead atom,
        ∀ b ∈ (ctx.program.rule index).body, c.valuation b ≠ ⊤) ∧
      (expected.toNat : ℕ∞) = (ctx.program.seedOf atom).toNat +
        ((row ctx.incidence.rulesByHead atom).map (ctx.program.equations.term c.valuation)).sum := by
  unfold checkValue
  rw [← toNat_fromU64]
  generalize fromU64 (ctx.program.seedOf atom) = start
  induction row ctx.incidence.rulesByHead atom generalizing start with
  | nil => simp [pure, Except.pure, toNat_inj, eq_comm]
  | cons index rest ih =>
    rw [foldlM_cons, bind_eq_ok, forall_mem_cons, map_cons, sum_cons]
    constructor
    · rintro ⟨next, hnext, hrest⟩
      obtain ⟨product, hproduct, hnext⟩ := bind_eq_ok.mp hnext
      cases hnext
      obtain ⟨hfinite, hterm⟩ := checkProduct_eq_ok.mp hproduct
      obtain ⟨hfinite', hexpected⟩ := (ih _).mp hrest
      refine ⟨⟨hfinite, hfinite'⟩, ?_⟩
      rw [hexpected, toNat_addAssign, Nat.cast_add, hterm, add_assoc]
      rfl
    · rintro ⟨⟨hfinite, hfinite'⟩, hexpected⟩
      obtain ⟨product, hproduct⟩ := exists_checkProduct hfinite
      have hterm : (product.toNat : ℕ∞) = ctx.program.equations.term c.valuation index :=
        (checkProduct_eq_ok.mp hproduct).2
      refine ⟨_, bind_eq_ok.mpr ⟨product, hproduct, rfl⟩, (ih _).mpr ⟨hfinite', ?_⟩⟩
      rw [hexpected, toNat_addAssign, Nat.cast_add, hterm, add_assoc]

theorem checkAtom_of_isFinite {atom : ℕ} (h : ctx.isFinite atom = true) :
    ctx.checkAtom c atom = .ok () ↔ ∃ value : ExactNatural, c.valuation atom = value.toNat ∧
      ctx.checkValue c atom = .ok value := by
  obtain ⟨hlive, hfinite⟩ := Bool.and_eq_true_iff.mp h
  rw [Bool.not_eq_true'] at hfinite
  unfold checkAtom
  simp only [hlive, hfinite, Bool.not_true, Bool.false_eq_true, if_false, valuation_eq_toNat]
  cases c.multiplicity[atom]?.getD .zero with
  | infinite => simp
  | finite claimed =>
    rw [bind_eq_ok]
    constructor
    · rintro ⟨expected, hexpected, hclaimed⟩
      split_ifs at hclaimed with hne
      rw [not_not] at hne
      exact ⟨claimed, rfl, hne ▸ hexpected⟩
    · rintro ⟨value, heq, hvalue⟩
      cases heq
      exact ⟨claimed, hvalue, if_neg (not_not.mpr rfl)⟩

end EvaluationContext

section Checked
variable {program : PositiveBagProgram} {c : PositiveBagCertificate}
  (hs : c.support.HasSize program.atomCount)
  (hlive : ∀ a, c.support.isLive a = true ↔ program.equations.Supported a) {a : ℕ}
include hs hlive

theorem checkAtom_of_dead (ha : ¬ program.equations.Supported a) :
    (evaluationContext program c.support).checkAtom c a = .ok () ↔ c.valuation a = 0 := by
  have hl : isSet (evaluationContext program c.support).live a = false := by
    rw [isSet_live hs, ← Bool.not_eq_true, hlive]
    exact ha
  have hzero : c.valuation a = 0 ↔ c.multiplicity[a]?.getD .zero = .zero :=
    @valuation_eq_toNat c a zero
  unfold EvaluationContext.checkAtom
  rw [hzero]
  simp [hl]

theorem checkAtom_of_fed (ha : FedByCycle program.equations.Feeds a) :
    (evaluationContext program c.support).checkAtom c a = .ok () ↔ c.valuation a = ⊤ := by
  obtain ⟨p, hpa, _⟩ := ha.exists_pred
  have hl : isSet (evaluationContext program c.support).live a = true := by
    rw [isSet_live hs, hlive]
    exact hpa.supported.2
  have hinfinite := (isSet_infinite hs hlive a).mpr ha
  unfold EvaluationContext.checkAtom
  rw [valuation_eq_top]
  cases c.multiplicity[a]?.getD .zero with
  | finite value | infinite => simp [hl, hinfinite, NaturalInfinity.isInfinite]

theorem checkAtom_of_finite (hdead : ∀ a, ¬ program.equations.Supported a → c.valuation a = 0)
    (ha : (evaluationContext program c.support).isFinite a = true) :
    (evaluationContext program c.support).checkAtom c a = .ok () ↔
      c.valuation a ≠ ⊤ ∧ (∀ index ∈ row (compile program c.support).rulesByHead a,
        ∀ b ∈ (program.rule index).body, c.valuation b ≠ ⊤) ∧
      c.valuation a = program.equations.rhs c.valuation a := by
  have hlt : a < program.atomCount := (evaluationContext_sound hs hlive).lt a ha
  rw [EvaluationContext.checkAtom_of_isFinite ha]
  simp only [EvaluationContext.checkValue_eq_ok]
  unfold BagSystem.rhs
  rw [sum_terms_eq hlive hdead hlt]
  constructor
  · rintro ⟨value, hvalue, hfinite, heq⟩
    rw [hvalue]
    exact ⟨ENat.natCast_ne_top _, hfinite, heq⟩
  · rintro ⟨hne, hfinite, heq⟩
    obtain ⟨value, hvalue⟩ := exists_eq_toNat hne
    exact ⟨value, hvalue, hfinite, hvalue ▸ heq⟩

theorem forall_checkAtom_iff (hlen : c.multiplicity.length = program.atomCount) :
    (∀ a < program.atomCount, (evaluationContext program c.support).checkAtom c a = .ok ()) ↔
      IsLeast program.equations.Solutions c.valuation := by
  have hsound := evaluationContext_sound hs hlive
  have hwf := feeds_wellFounded hs hlive
  constructor
  · intro hcheck
    have hdead : ∀ a, ¬ program.equations.Supported a → c.valuation a = 0 := by
      intro a ha
      by_cases hlt : a < program.atomCount
      · exact (checkAtom_of_dead hs hlive ha).mp (hcheck a hlt)
      · have hnone : c.multiplicity[a]? = none := getElem?_eq_none (by omega)
        simp [valuation, multiplicityOf, hnone]
    have hlt : ∀ a, program.equations.Supported a → a < program.atomCount :=
      fun a ha => hs.lt_of_isLive ((hlive a).mpr ha)
    have hclassified : program.equations.Classified c.valuation := by
      refine ⟨hdead, ?_, ?_⟩
      · intro a ha
        obtain ⟨p, hpa, _⟩ := ha.exists_pred
        exact (checkAtom_of_fed hs hlive ha).mp (hcheck a (hlt a hpa.supported.2))
      · intro a ha hfed
        have hfinite := (isFinite_iff hs hlive a).mpr ⟨ha, hfed⟩
        exact ((checkAtom_of_finite hs hlive hdead hfinite).mp (hcheck a (hlt a ha))).2.2
    exact hclassified.isLeast hwf
  · intro hleast a ha
    -- the least solution is the one the solver computes from this support
    have hsolution : c.valuation = solution program c.support :=
      hleast.unique ((solution_classified hs hlive).isLeast hwf)
    have hfinite_ne : ∀ b, (evaluationContext program c.support).isFinite b = true →
        c.valuation b ≠ ⊤ := by
      intro b hb
      rw [hsolution, solution_of_finite hb]
      exact ENat.natCast_ne_top _
    by_cases hsupported : program.equations.Supported a
    · by_cases hfed : FedByCycle program.equations.Feeds a
      · rw [checkAtom_of_fed hs hlive hfed, hsolution]
        exact solution_of_fed hs hlive hfed
      have hfinite := (isFinite_iff hs hlive a).mpr ⟨hsupported, hfed⟩
      have hdead : ∀ b, ¬ program.equations.Supported b → c.valuation b = 0 := by
        intro b hb
        rw [hsolution]
        exact solution_of_dead hs hlive hb
      rw [checkAtom_of_finite hs hlive hdead hfinite]
      refine ⟨hfinite_ne a hfinite, ?_, hleast.1 a⟩
      intro index hindex b hb
      exact hfinite_ne b (hsound.pred b a (hsound.premise a index hindex b hb) hfinite)
    · rw [checkAtom_of_dead hs hlive hsupported, hsolution]
      exact solution_of_dead hs hlive hsupported

end Checked

/-- If the grounded checker accepts its support, a certificate is accepted exactly if its
multiplicities are the least solution of the program's equations, as the solver's are. -/
theorem checkPositiveBag_iff_isLeast {n : ℕ} {seeds : List UInt64} {rules : List PositiveBagRule}
    {program : PositiveBagProgram} (hnew : PositiveBagProgram.new n seeds rules = .ok program) :
    (∀ (c : PositiveBagCertificate) (supportProgram : GroundedProgram),
      program.supportProgram = .ok supportProgram → check supportProgram c.support = .ok () →
      (checkPositiveBag program c = .ok () ↔
        c.multiplicity.length = n ∧ IsLeast program.equations.Solutions c.valuation)) ∧
    (n ≤ usizeMax → ∃ c, solvePositiveBag program = .ok c ∧ checkPositiveBag program c = .ok ()) := by
  obtain ⟨hv, rfl⟩ := PositiveBagProgram.new_valid hnew
  obtain ⟨supportProgram, hsupport, hvalid, hcount, hseeds, hrules⟩ := hv.supportProgram
  have hiff : ∀ c : PositiveBagCertificate, check supportProgram c.support = .ok () →
      (checkPositiveBag program c = .ok () ↔ c.multiplicity.length = program.atomCount ∧
        IsLeast program.equations.Solutions c.valuation) := by
    intro c hcheck
    obtain ⟨hj, hc⟩ := check_eq_ok.mp hcheck
    have hs : c.support.HasSize program.atomCount := hcount ▸ hj.size
    have hlive : ∀ a, c.support.isLive a = true ↔ program.equations.Supported a := fun a =>
      (isLive_iff_leastFixpoint hj hc a).trans
        (PositiveBagProgram.leastFixpoint_iff_supported hseeds hrules a)
    unfold checkPositiveBag
    split_ifs with hlen
    · exact ⟨nofun, fun h => absurd h.1 hlen⟩
    rw [not_not] at hlen
    rw [hsupport, and_iff_right hlen, ← forall_checkAtom_iff hs hlive hlen]
    show (do
      (check supportProgram c.support).mapError PositiveBagFixpointError.support
      forM (range program.atomCount)
        ((evaluationContext program c.support).checkAtom c)) = .ok () ↔ _
    rw [seq_eq_ok, mapError_eq_ok, forM_eq_ok, and_iff_right hcheck]
    simp only [mem_range]
  refine ⟨?_, ?_⟩
  · intro c supportProgram' hsupport' hcheck
    cases hsupport.symm.trans hsupport'
    exact hiff c hcheck
  · intro hn
    obtain ⟨hsolve, hcheck, hleast⟩ := solvePositiveBag_eq_ok hv hn hsupport
    refine ⟨_, hsolve, (hiff _ hcheck).mpr ⟨?_, hleast⟩⟩
    simp [solvedCertificate]

/-- With its loop atom claimed finite the certificate is refused, with the solved one accepted. -/
theorem checkPositiveBag_squareAndLoop :
    ∃ c, solvePositiveBag squareAndLoop = .ok c ∧ checkPositiveBag squareAndLoop c = .ok () ∧
      IsLeast squareAndLoop.equations.Solutions c.valuation ∧
      checkPositiveBag squareAndLoop { c with multiplicity := [.finiteU64 1, .finiteU64 2,
        .finiteU64 12, .finiteU64 7] } = .error .certificateShapeMismatch := by
  have hnew : PositiveBagProgram.new 4 squareAndLoop.seedMultiplicity squareAndLoop.rules =
      .ok squareAndLoop := by decide
  obtain ⟨hv, _⟩ := PositiveBagProgram.new_valid hnew
  obtain ⟨supportProgram, hsupport, _⟩ := hv.supportProgram
  obtain ⟨hsolve, hcheck, _⟩ := solvePositiveBag_eq_ok hv (by decide) hsupport
  obtain ⟨hiff, hsolved⟩ := checkPositiveBag_iff_isLeast hnew
  obtain ⟨c, hc, haccept⟩ := hsolved (by decide)
  cases hsolve.symm.trans hc
  have hleast := ((hiff _ supportProgram hsupport hcheck).mp haccept).2
  refine ⟨_, hc, haccept, hleast, ?_⟩
  have hrun : ((solvePositiveBag squareAndLoop).toOption.map fun c =>
      checkPositiveBag squareAndLoop { c with multiplicity := [.finiteU64 1, .finiteU64 2,
        .finiteU64 12, .finiteU64 7] }) = some (.error .certificateShapeMismatch) := by decide +kernel
  rw [hc] at hrun
  exact Option.some.inj hrun

end Cfmd.Fixpoint
