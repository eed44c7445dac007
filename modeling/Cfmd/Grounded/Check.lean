import Cfmd.Grounded.Certificate

/-! The certificate checker, and what a certificate it accepts says: every live
atom is grounded through premises of smaller rank, and the live set is closed
under the program. Such a live set is the least fixpoint. -/

namespace Cfmd.Grounded
open Lib

def checkPremise (c : GroundedCertificate) (atom : GroundedAtomId) (rank : ℕ)
    (premise : GroundedAtomId) : Except GroundedClosureError Unit :=
  if !c.isLive premise then .error (.witnessPremiseDead atom premise)
  else match c.rankOf premise with
    | none => .error (.liveAtomMissingRank premise)
    | some premiseRank =>
      if premiseRank ≥ rank then .error (.witnessRankNotStrictlySmaller atom premise) else .ok ()

def checkWitness (program : GroundedProgram) (c : GroundedCertificate) (atom : GroundedAtomId)
    (rank : ℕ) : GroundedWitness → Except GroundedClosureError Unit
  | .seed =>
    if !program.seeds.contains atom then .error (.seedWitnessForNonSeed atom)
    else if rank ≠ 0 then .error (.seedHasNonZeroRank atom)
    else .ok ()
  | .rule id =>
    match program.rules[id]? with
    | none => .error (.ruleOutsideProgram id)
    | some rule =>
      if !rule.enabled then .error (.witnessRuleDisabled id)
      else if rule.head ≠ atom then .error (.witnessRuleHeadMismatch atom id)
      else forM rule.body (checkPremise c atom rank)

def checkAtom (program : GroundedProgram) (c : GroundedCertificate) (atom : GroundedAtomId) :
    Except GroundedClosureError Unit :=
  if !c.isLive atom then
    if (c.rankOf atom).isSome || (c.witnessOf atom).isSome then .error (.deadAtomHasProofState atom)
    else .ok ()
  else match c.rankOf atom with
    | none => .error (.liveAtomMissingRank atom)
    | some rank => match c.witnessOf atom with
      | none => .error (.liveAtomMissingWitness atom)
      | some witness => checkWitness program c atom rank witness

def checkSeed (c : GroundedCertificate) (seed : GroundedAtomId) :
    Except GroundedClosureError Unit :=
  if !c.isLive seed then .error (.missingSeed seed) else .ok ()

def checkRule (program : GroundedProgram) (c : GroundedCertificate) (id : GroundedRuleId) :
    Except GroundedClosureError Unit :=
  let rule := program.rule id
  if rule.enabled && rule.body.all c.isLive && !c.isLive rule.head then
    .error (.notClosedUnderRule id)
  else .ok ()

def check (program : GroundedProgram) (c : GroundedCertificate) :
    Except GroundedClosureError Unit := do
  if c.live.length ≠ program.atomCount || c.rank.length ≠ program.atomCount ||
      c.witness.length ≠ program.atomCount then
    .error .certificateShapeMismatch
  forM (List.range program.atomCount) (checkAtom program c)
  forM program.seeds.iter (checkSeed c)
  forM (List.range program.rules.length) (checkRule program c)

/-! ## What an accepted certificate says -/

def Grounds (program : GroundedProgram) (c : GroundedCertificate) (atom : GroundedAtomId)
    (rank : ℕ) : GroundedWitness → Prop
  | .seed => program.seeds.contains atom = true ∧ rank = 0
  | .rule id => (program.rule id).enabled = true ∧ (program.rule id).head = atom ∧
      ∀ b ∈ (program.rule id).body, c.isLive b = true ∧ ∃ k < rank, c.rankOf b = some k

structure Justified (program : GroundedProgram) (c : GroundedCertificate) : Prop where
  size : c.HasSize program.atomCount
  live : ∀ a, c.isLive a = true → ∃ rank witness, c.rankOf a = some rank ∧
    c.witnessOf a = some witness ∧ Grounds program c a rank witness
  dead : ∀ a, c.isLive a = false → c.rankOf a = none ∧ c.witnessOf a = none

structure Closed (program : GroundedProgram) (c : GroundedCertificate) : Prop where
  seeds : ∀ a, program.seeds.contains a = true → c.isLive a = true
  rules : ∀ r, (program.rule r).enabled = true →
    (∀ b ∈ (program.rule r).body, c.isLive b = true) → c.isLive (program.rule r).head = true

variable {program : GroundedProgram} {c : GroundedCertificate} {a : GroundedAtomId}

theorem Justified.isLive_of_rankOf (h : Justified program c) {k : ℕ} (ha : c.rankOf a = some k) :
    c.isLive a = true := by
  by_contra hl
  have hnone := (h.dead a (by simpa using hl)).1
  rw [ha] at hnone
  cases hnone

theorem checkPremise_eq_ok {b : GroundedAtomId} {rank : ℕ} :
    checkPremise c a rank b = .ok () ↔ c.isLive b = true ∧ ∃ k < rank, c.rankOf b = some k := by
  unfold checkPremise
  cases hl : c.isLive b with
  | false => simp
  | true =>
    cases hr : c.rankOf b with
    | none => simp
    | some k =>
      by_cases hk : k < rank
      · simp [hk]
      · simp [hk, Nat.le_of_not_lt hk]

theorem checkWitness_eq_ok {rank : ℕ} {w : GroundedWitness} :
    checkWitness program c a rank w = .ok () ↔ Grounds program c a rank w := by
  cases w with
  | seed =>
    unfold checkWitness Grounds
    cases hs : program.seeds.contains a with
    | false => simp
    | true =>
      by_cases hr : rank = 0
      · simp [hr]
      · simp [hr]
  | rule id =>
    unfold checkWitness Grounds
    rcases hr : program.rules[id]? with _ | rule
    · have hdis : (program.rule id).enabled = false := by
        rw [GroundedProgram.rule, hr]
        rfl
      simp [hdis, hr]
    · have hrule : program.rule id = rule := by rw [GroundedProgram.rule, hr, Option.getD_some]
      simp only [hr, hrule]
      cases he : rule.enabled with
      | false => simp
      | true =>
        by_cases hh : rule.head = a
        · simp [hh, forM_eq_ok, checkPremise_eq_ok]
        · simp [hh]

theorem checkAtom_eq_ok : checkAtom program c a = .ok () ↔
    (c.isLive a = true → ∃ rank w, c.rankOf a = some rank ∧ c.witnessOf a = some w ∧
      Grounds program c a rank w) ∧
    (c.isLive a = false → c.rankOf a = none ∧ c.witnessOf a = none) := by
  unfold checkAtom
  cases hl : c.isLive a with
  | false => cases hr : c.rankOf a <;> cases hw : c.witnessOf a <;> simp
  | true =>
    cases hr : c.rankOf a with
    | none => simp
    | some rank =>
      cases hw : c.witnessOf a with
      | none => simp
      | some w => simp [checkWitness_eq_ok]

theorem checkSeed_eq_ok : checkSeed c a = .ok () ↔ c.isLive a = true := by
  unfold checkSeed
  cases hl : c.isLive a <;> simp

theorem checkRule_eq_ok {r : GroundedRuleId} : checkRule program c r = .ok () ↔
    ((program.rule r).enabled = true → (∀ b ∈ (program.rule r).body, c.isLive b = true) →
      c.isLive (program.rule r).head = true) := by
  unfold checkRule
  cases he : (program.rule r).enabled with
  | false => simp [he]
  | true =>
    cases hl : c.isLive (program.rule r).head with
    | true => simp [hl]
    | false => by_cases hb : (program.rule r).body.all c.isLive <;> simp_all

theorem check_eq_ok : check program c = .ok () ↔ Justified program c ∧ Closed program c := by
  have hshape : check program c = .ok () ↔ c.HasSize program.atomCount ∧
      (∀ a < program.atomCount, checkAtom program c a = .ok ()) ∧
      (∀ a ∈ program.seeds.iter, checkSeed c a = .ok ()) ∧
      ∀ r < program.rules.length, checkRule program c r = .ok () := by
    unfold check
    split_ifs with hs
    · have hnot : ¬ c.HasSize program.atomCount := by
        intro h
        simp [h.live, h.rank, h.witness] at hs
      simp [hnot, bind, Except.bind]
    · have hsize : c.HasSize program.atomCount := by
        simp only [ne_eq, Bool.or_eq_true, decide_eq_true_eq, not_or, not_not] at hs
        exact ⟨hs.1.1, hs.1.2, hs.2⟩
      simp only [hsize, true_and, forM_eq_ok, seq_eq_ok, List.mem_range]
  rw [hshape]
  simp only [checkAtom_eq_ok, checkSeed_eq_ok, checkRule_eq_ok, GroundedSeedSet.mem_iter]
  constructor
  · rintro ⟨hsize, hatoms, hseeds, hrules⟩
    have hout : ∀ a, ¬ a < program.atomCount → c.rankOf a = none ∧ c.witnessOf a = none := by
      intro a ha
      constructor
      · rw [GroundedCertificate.rankOf, List.getElem?_eq_none (by have := hsize.rank; omega)]
        rfl
      · rw [GroundedCertificate.witnessOf, List.getElem?_eq_none (by have := hsize.witness; omega)]
        rfl
    refine ⟨⟨hsize, fun a ha => (hatoms a (hsize.lt_of_isLive ha)).1 ha, fun a ha => ?_⟩,
      hseeds, fun r hr => hrules r (GroundedProgram.lt_of_enabled hr) hr⟩
    by_cases hlt : a < program.atomCount
    · exact (hatoms a hlt).2 ha
    · exact hout a hlt
  · rintro ⟨hj, hc⟩
    exact ⟨hj.size, fun a _ => ⟨hj.live a, hj.dead a⟩, hc.seeds, fun r _ => hc.rules r⟩

theorem Closed.ruleClosed (h : Closed program c) :
    RuleClosed program.Fact program.HornRule {a | c.isLive a = true} := by
  refine ⟨h.seeds, ?_⟩
  rintro body head ⟨rule, hmem, hen, rfl, rfl⟩ hbody
  obtain ⟨r, _, rfl⟩ := GroundedProgram.mem_rules_iff.mp hmem
  exact h.rules r hen hbody

theorem Justified.rankedBy (h : Justified program c) :
    RankedBy program.Fact program.HornRule {a | c.isLive a = true}
      fun a => (c.rankOf a).getD 0 := by
  intro a ha
  obtain ⟨rank, w, hrank, _, hg⟩ := h.live a ha
  cases w with
  | seed => exact .inl hg.1
  | rule id =>
    obtain ⟨hen, hhead, hbody⟩ := hg
    have hmem : program.rule id ∈ program.rules :=
      GroundedProgram.rule_mem (GroundedProgram.lt_of_enabled hen)
    refine .inr ⟨_, ⟨_, hmem, hen, rfl, hhead⟩, fun b hb => ?_⟩
    obtain ⟨hlive, k, hk, hkb⟩ := hbody b hb
    exact ⟨hlive, by simpa [hrank, hkb] using hk⟩

theorem isLive_iff_leastFixpoint (hj : Justified program c) (hc : Closed program c)
    (a : GroundedAtomId) : c.isLive a = true ↔ program.LeastFixpoint a :=
  mem_iff_derivable hc.ruleClosed hj.rankedBy a

end Cfmd.Grounded
