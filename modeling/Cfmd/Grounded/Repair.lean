import Cfmd.Grounded.Cone

/-! The repair of a deletion. The first scan over the rules of the cone counts the dead premises of
each rule, but files the rule under premises re-derived earlier in the scan too. As long as no rule
with a dead premise has such a premise, the repair ends closed on the cone. -/

namespace Cfmd.Grounded
open Lib Std RepairState ExtTreeSet List

/-- The first scan meets no enabled rule with a dead premise and a premise it has re-derived
before. `fresh` holds the atoms re-derived so far. -/
def scanSafe (program : GroundedProgram) :
    (GroundedAtomId → Bool) → List GroundedAtomId → List GroundedRuleId → Bool
  | _, _, [] => true
  | live, fresh, id :: rest =>
    let rule := program.rule id
    if !rule.enabled then scanSafe program live fresh rest
    else if rule.body.all live then
      if live rule.head then scanSafe program live fresh rest
      else scanSafe program (fun atom => if rule.head = atom then true else live atom)
        (fresh ++ [rule.head]) rest
    else rule.body.all (fun premise => !fresh.contains premise) && scanSafe program live fresh rest

/-- The repair of this deletion meets no rule that the first scan miscounts, from the live atoms
outside the cone and the seeds inside it. -/
def repairSafe (program : GroundedProgram) (index : GroundedIncidenceIndex)
    (cert : GroundedCertificate) (windex : GroundedWitnessIndex)
    (direct : ExtTreeSet GroundedAtomId) : Bool :=
  let affected := (collectSparseWitnessCone cert windex direct default).1
  scanSafe program
    (fun atom => if atom ∈ affected then program.seeds.contains atom else cert.isLive atom) []
    (scanOrder index affected)

variable {program : GroundedProgram} {index : GroundedIncidenceIndex}
  {affected : ExtTreeSet GroundedAtomId} {c₁ : GroundedCertificate} {m : ℕ}

namespace RepairState

def dependentsOf (s : RepairState) (atom : GroundedAtomId) : List GroundedRuleId :=
  s.localDependents[atom]?.getD []

def Tracks (program : GroundedProgram) (s : RepairState) (r : GroundedRuleId) : Prop :=
  r ∈ s.seenRules ∧ (program.rule r).enabled = true

end RepairState

/-- The part of the repair invariant that does not speak of counters. -/
structure RepairCore (program : GroundedProgram) (affected : ExtTreeSet GroundedAtomId)
    (c₁ : GroundedCertificate) (m : ℕ) (scanRest : List GroundedRuleId) (s : RepairState) :
    Prop where
  base : Justified program c₁ ∧ RankRoom c₁
  front : Front program c₁ m s.cert s.queue
  indexed : WitnessIndexed program s.cert s.windex
  inside : ∀ a, s.cert.isLive a = true → a ∈ affected ∨ c₁.isLive a = true
  queued : ∀ a ∈ s.queue, a ∈ affected
  seen : ∀ r, (program.rule r).enabled = true → (program.rule r).head ∈ affected →
    r ∈ s.seenRules ∨ r ∈ scanRest
  seen_head : ∀ r ∈ s.seenRules, (program.rule r).head ∈ affected
  dependents : ∀ b r, r ∈ s.dependentsOf b ↔
    (b ∈ affected ∧ b ∈ (program.rule r).body) ∧ s.Tracks program r
  nodup : ∀ b, (s.dependentsOf b).Nodup

structure RepairInv (program : GroundedProgram) (affected : ExtTreeSet GroundedAtomId)
    (c₁ : GroundedCertificate) (m : ℕ) (scanRest : List GroundedRuleId)
    (current : GroundedAtomId) (rest : List GroundedRuleId) (s : RepairState) : Prop where
  core : RepairCore program affected c₁ m scanRest s
  fired_live : ∀ r ∈ s.fired, s.cert.isLive (program.rule r).head = true
  counts : ∀ r, s.Tracks program r → r ∉ s.fired → ∃ left, s.remaining[r]? = some left ∧
    left = (program.rule r).body.countP (isOpen s.cert s.queue current rest r) ∧ left ≠ 0

def Counted (program : GroundedProgram) (s : RepairState)
    (remaining : ExtTreeMap GroundedRuleId ℕ) (current : GroundedAtomId)
    (rest : List GroundedRuleId) (r : GroundedRuleId) : Prop :=
  ∃ left, remaining[r]? = some left ∧
    left = (program.rule r).body.countP (isOpen s.cert s.queue current rest r) ∧ left ≠ 0

variable {scanRest rest : List ℕ} {current r : ℕ} {s : RepairState}

theorem Counted.insert {remaining : ExtTreeMap ℕ ℕ} {r' : ℕ}
    (h : Counted program s remaining current rest r') (hne : r ≠ r') (left : ℕ) :
    Counted program s (remaining.insert r left) current rest r' := by
  obtain ⟨left', hleft, hrest⟩ := h
  refine ⟨left', ?_, hrest⟩
  rw [ExtTreeMap.getElem?_insert]
  simp [hne, hleft]

/-! ## Firing -/

@[simp] theorem RepairState.fire_seenRules (s : RepairState) (r : ℕ) :
    (s.fire program r).seenRules = s.seenRules := by
  unfold fire
  simp only []
  split_ifs <;> rfl

section
variable (h : RepairCore program affected c₁ m scanRest s) (hen : (program.rule r).enabled = true)
  (hhead : (program.rule r).head ∈ affected)
  (hbody : ∀ b ∈ (program.rule r).body, s.cert.isLive b = true)
include h hen hhead hbody

theorem RepairCore.fire :
    RepairCore program affected c₁ m scanRest (s.fire program r) ∧
    Advance program s.cert s.queue (s.fire program r).cert (s.fire program r).queue ∧
    (s.fire program r).cert.isLive (program.rule r).head = true ∧
    (s.fire program r).fired = s.fired.insert r ∧
    (s.fire program r).remaining = s.remaining := by
  unfold RepairState.fire
  simp only []
  split_ifs with hlive
  · exact ⟨⟨h.base, h.front, h.indexed, h.inside, h.queued, h.seen, h.seen_head, h.dependents,
      h.nodup⟩, .inl ⟨rfl, rfl⟩, hlive, rfl, rfl⟩
  obtain ⟨hj, _⟩ := h.front.justified h.base.1 h.base.2
  have hf : Fireable program s.cert r := ⟨hen, hbody, by simpa using hlive⟩
  have hlt := h.front.valid.rule_head_lt hen
  obtain ⟨hadv, hw, hnew⟩ := Maintained.deriveFromRule_spec
    (s := { s.toMaintained with stats := s.stats.ruleFire }) h.front.valid hj h.indexed hf
  refine ⟨⟨h.base, h.front.advance hadv, hw, fun a ha => ?_, fun a ha => ?_, h.seen,
    h.seen_head, h.dependents, h.nodup⟩, hadv, hnew, rfl, rfl⟩
  · simp only [Maintained.deriveFromRule, hf.2.2, Bool.false_eq_true, if_false] at ha
    rw [GroundedCertificate.isLive_setProof hj.size hlt] at ha
    split_ifs at ha with heq
    · exact .inl (heq ▸ hhead)
    · exact h.inside a ha
  · simp only [Maintained.deriveFromRule, hf.2.2, Bool.false_eq_true, if_false] at ha
    rcases mem_append.mp ha with ha | ha
    · exact h.queued a ha
    · rw [mem_singleton.mp ha]
      exact hhead

theorem RepairCore.fire_inv (hfired : ∀ r ∈ s.fired, s.cert.isLive (program.rule r).head = true)
    (hcounts : ∀ r', r ≠ r' → s.Tracks program r' → r' ∉ s.fired →
      Counted program s s.remaining current rest r') :
    RepairInv program affected c₁ m scanRest current rest (s.fire program r) ∧
    ∀ b, ((s.fire program r).cert.isLive b = true ∧ b ∉ (s.fire program r).queue) ↔
      (s.cert.isLive b = true ∧ b ∉ s.queue) := by
  obtain ⟨hcore, hadv, hlive, hf, hrem⟩ := h.fire hen hhead hbody
  refine ⟨⟨hcore, fun r' hr' => ?_, fun r' htr hnot => ?_⟩, hadv.settled h.front.size⟩
  · rw [hf] at hr'
    rcases mem_insert.mp hr' with heq | hr'
    · rwa [← LawfulEqCmp.eq_of_compare heq]
    · exact hadv.isLive h.front.valid h.front.size (hfired r' hr')
  · have hne : r ≠ r' := by
      rintro rfl
      exact hnot (by rw [hf]; simp)
    have hnot' : r' ∉ s.fired := fun hmem => hnot (by rw [hf]; simp [hmem])
    rw [RepairState.Tracks, fire_seenRules] at htr
    obtain ⟨left, hleft, hcount, hpos⟩ := hcounts r' hne htr hnot'
    refine ⟨left, by rw [hrem]; exact hleft, hcount.trans (countP_congr_mem fun b _ => ?_), hpos⟩
    exact (isOpen_congr (hadv.settled h.front.size b) Iff.rfl).symm

end

/-! ## The first scan -/

theorem mem_foldl_register (body : List ℕ) (hnd : body.Nodup) (id : ℕ)
    (deps : ExtTreeMap ℕ (List ℕ)) (b : ℕ) :
    (body.foldl (register affected id) deps)[b]?.getD [] =
      if b ∈ body ∧ b ∈ affected then deps[b]?.getD [] ++ [id] else deps[b]?.getD [] := by
  induction body generalizing deps with
  | nil => simp
  | cons p body ih =>
    rw [nodup_cons] at hnd
    rw [foldl_cons, ih hnd.2]
    have hreg : (register affected id deps p)[b]?.getD [] =
        if b = p ∧ b ∈ affected then deps[b]?.getD [] ++ [id] else deps[b]?.getD [] := by
      unfold register
      by_cases hbp : b = p
      · subst hbp
        by_cases hin : b ∈ affected
        · simp [hin]
        · simp [hin]
      · by_cases hin : p ∈ affected
        · simp [hin, ExtTreeMap.getElem?_insert, hbp, Ne.symm hbp]
        · simp [hin, hbp]
    rw [hreg]
    by_cases hbp : b = p
    · subst hbp
      simp [hnd.1]
    · simp [hbp]

theorem missing_eq_zero {c : GroundedCertificate} {body : List ℕ} :
    (body.countP fun atom => !c.isLive atom) = 0 ↔ ∀ b ∈ body, c.isLive b = true := by
  simp [countP_eq_zero]

section
variable (h : RepairCore program affected c₁ m (r :: scanRest) s)
include h

theorem RepairCore.seen_insert {r' : ℕ}
    (hen : (program.rule r').enabled = true) (hhead : (program.rule r').head ∈ affected) :
    r' ∈ s.seenRules.insert r ∨ r' ∈ scanRest := by
  rcases h.seen r' hen hhead with hr' | hr'
  · exact .inl (by simp [hr'])
  · rcases mem_cons.mp hr' with rfl | hr'
    · exact .inl (by simp)
    · exact .inr hr'

theorem RepairCore.head_mem_insert (hhead : (program.rule r).head ∈ affected) :
    ∀ r' ∈ s.seenRules.insert r, (program.rule r').head ∈ affected := by
  intro r' hr'
  rcases mem_insert.mp hr' with heq | hr'
  · rwa [← LawfulEqCmp.eq_of_compare heq]
  · exact h.seen_head r' hr'

theorem RepairCore.register (hfresh : r ∉ s.seenRules) (hen : (program.rule r).enabled = true)
    (hhead : (program.rule r).head ∈ affected) (missing : ℕ) :
    RepairCore program affected c₁ m scanRest
      { s with
        seenRules := s.seenRules.insert r
        remaining := s.remaining.insert r missing
        localDependents :=
          (program.rule r).body.foldl (register affected r) s.localDependents } := by
  have hnotdep : ∀ b, r ∉ s.dependentsOf b := fun b hb =>
    hfresh ((h.dependents b r).mp hb).2.1
  refine ⟨h.base, h.front, h.indexed, h.inside, h.queued, fun _ => h.seen_insert,
    h.head_mem_insert hhead, fun b r' => ?_, fun b => ?_⟩
  · have hdep := h.dependents b r'
    simp only [dependentsOf, RepairState.Tracks,
      mem_foldl_register _ (program.rule r).body_nodup] at hdep ⊢
    by_cases hr' : r = r'
    · subst hr'
      have hnot := hnotdep b
      rw [dependentsOf] at hnot
      split_ifs with hb
      · simp [hb.1, hb.2, hen]
      · simp only [hnot, false_iff]
        tauto
    · split_ifs with hb
      · simp [hdep, hr', Ne.symm hr']
      · simp [hdep, hr']
  · have hnd := h.nodup b
    have hnot := hnotdep b
    simp only [dependentsOf, mem_foldl_register _ (program.rule r).body_nodup] at hnd hnot ⊢
    split_ifs with hb
    · exact hnd.append (nodup_singleton _) (by simpa using hnot)
    · exact hnd

end

theorem RepairInv.scan
    (h : RepairInv program affected c₁ m (r :: scanRest) current [] s)
    (hfresh : r ∉ s.seenRules) (hhead : (program.rule r).head ∈ affected)
    (hsafe : (program.rule r).enabled = true →
      (∀ b ∈ (program.rule r).body, s.cert.isLive b = true) ∨
        ∀ b ∈ (program.rule r).body, b ∉ s.queue) :
    RepairInv program affected c₁ m scanRest current [] (s.scan program affected r) := by
  unfold RepairState.scan
  rw [if_neg hfresh]
  simp only []
  cases hen : (program.rule r).enabled with
  | false =>
    simp only [Bool.not_false, if_true]
    have htracks : ∀ r', RepairState.Tracks program
        { s with seenRules := s.seenRules.insert r } r' ↔ s.Tracks program r' := by
      intro r'
      by_cases hr' : r = r'
      · subst hr'
        simp [RepairState.Tracks, hen]
      · simp [RepairState.Tracks, hr']
    exact ⟨{ h.core with
        seen := fun _ => h.core.seen_insert
        seen_head := h.core.head_mem_insert hhead
        dependents := fun b r' => by
          rw [htracks]
          exact h.core.dependents b r' },
      h.fired_live, fun r' htr hnot => h.counts r' ((htracks r').mp htr) hnot⟩
  | true =>
    simp only [Bool.not_true, Bool.false_eq_true, if_false]
    have hcore := h.core.register hfresh hen hhead
      ((program.rule r).body.countP fun atom => !s.cert.isLive atom)
    have hcounts : ∀ r', r ≠ r' → RepairState.Tracks program
        { s with seenRules := s.seenRules.insert r } r' → r' ∉ s.fired →
        Counted program s (s.remaining.insert r
          ((program.rule r).body.countP fun atom => !s.cert.isLive atom)) current [] r' := by
      intro r' hne htr hnot
      have htr' : s.Tracks program r' := by simpa [RepairState.Tracks, hne] using htr
      have hcounted : Counted program s s.remaining current [] r' := h.counts r' htr' hnot
      exact hcounted.insert hne _
    split_ifs with hmissing
    · have hbody : ∀ b ∈ (program.rule r).body, s.cert.isLive b = true :=
        missing_eq_zero.mp (by simpa using hmissing)
      exact (hcore.fire_inv hen hhead hbody h.fired_live hcounts).1
    -- no premise is queued, so the open premises are the dead ones
    have hnone : ∀ b ∈ (program.rule r).body, b ∉ s.queue :=
      (hsafe hen).resolve_left fun hall => hmissing (by simpa using missing_eq_zero.mpr hall)
    refine ⟨hcore, h.fired_live, fun r' htr hnot => ?_⟩
    by_cases hr' : r = r'
    · subst hr'
      refine ⟨(program.rule r).body.countP fun atom => !s.cert.isLive atom,
        ExtTreeMap.getElem?_insert_self, countP_congr_mem fun b hb => ?_,
        by simpa using hmissing⟩
      simp [isOpen, hnone b hb]
    · exact hcounts r' hr' htr hnot

theorem mem_seenRules_scan {r' : ℕ} (h : r' ∈ (s.scan program affected r).seenRules) :
    r' = r ∨ r' ∈ s.seenRules := by
  have hcases : (s.scan program affected r).seenRules = s.seenRules ∨
      (s.scan program affected r).seenRules = s.seenRules.insert r := by
    unfold scan
    simp only []
    split_ifs
    · exact .inl rfl
    · exact .inr (by simp)
    · exact .inr (by simp)
    · exact .inr (by simp)
  rcases hcases with heq | heq
  · exact .inr (heq ▸ h)
  · rw [heq] at h
    exact (mem_insert.mp h).imp (fun hc => (LawfulEqCmp.eq_of_compare hc).symm) id

theorem scan_cert_queue (program : GroundedProgram) (affected : ExtTreeSet GroundedAtomId)
    (hfresh : r ∉ s.seenRules) :
    ((s.scan program affected r).cert, (s.scan program affected r).queue) =
      if (program.rule r).enabled = true ∧ (program.rule r).body.all s.cert.isLive = true ∧
          s.cert.isLive (program.rule r).head = false then
        (s.cert.setProof (program.rule r).head (s.cert.ruleRank (program.rule r)) (.rule r),
          s.queue ++ [(program.rule r).head])
      else (s.cert, s.queue) := by
  have hmissing : ((program.rule r).body.countP fun atom => !s.cert.isLive atom) = 0 ↔
      (program.rule r).body.all s.cert.isLive = true := by
    rw [missing_eq_zero, all_eq_true]
  unfold scan
  rw [if_neg hfresh]
  cases hen : (program.rule r).enabled with
  | false => simp [hen]
  | true =>
    simp only [hen, Bool.not_true, Bool.false_eq_true, if_false, true_and]
    by_cases hall : (program.rule r).body.all s.cert.isLive = true
    · simp only [hmissing.mpr hall, beq_self_eq_true, if_true, fire, hall, true_and]
      cases hlive : s.cert.isLive (program.rule r).head with
      | true => simp
      | false => simp [Maintained.deriveFromRule, hlive]
    · have hpos : (((program.rule r).body.countP fun atom => !s.cert.isLive atom) == 0) = false :=
        beq_eq_false_iff_ne.mpr fun h => hall (hmissing.mp h)
      simp only [hpos, hall, Bool.false_eq_true, if_false, false_and]

/-- The scan keeps its own safety condition, so every rule it meets is counted right. -/
theorem scanSafe_step (hv : program.Valid) (hs : s.cert.HasSize program.atomCount)
    (hfresh : r ∉ s.seenRules)
    (hsafe : scanSafe program s.cert.isLive s.queue (r :: scanRest) = true) :
    ((program.rule r).enabled = true → (∀ b ∈ (program.rule r).body, s.cert.isLive b = true) ∨
        ∀ b ∈ (program.rule r).body, b ∉ s.queue) ∧
    scanSafe program (s.scan program affected r).cert.isLive (s.scan program affected r).queue
      scanRest = true := by
  have hscan := scan_cert_queue program affected hfresh
  unfold scanSafe at hsafe
  cases hen : (program.rule r).enabled with
  | false =>
    simp only [hen, Bool.false_eq_true, false_and, if_false, Prod.mk.injEq] at hscan
    rw [hscan.1, hscan.2]
    exact ⟨fun h => absurd h Bool.false_ne_true, by simpa [hen] using hsafe⟩
  | true =>
    have hlt := hv.rule_head_lt hen
    by_cases hall : (program.rule r).body.all s.cert.isLive = true
    · refine ⟨fun _ => .inl (all_eq_true.mp hall), ?_⟩
      cases hlive : s.cert.isLive (program.rule r).head with
      | true =>
        simp only [hlive, Bool.true_eq_false, and_false, if_false, Prod.mk.injEq] at hscan
        rw [hscan.1, hscan.2]
        simpa [hen, hall, hlive] using hsafe
      | false =>
        simp only [hen, hall, hlive, and_self, if_true, Prod.mk.injEq] at hscan
        have hfun : (s.scan program affected r).cert.isLive =
            fun atom => if (program.rule r).head = atom then true else s.cert.isLive atom := by
          funext b
          rw [hscan.1, GroundedCertificate.isLive_setProof hs hlt]
        rw [hfun, hscan.2]
        simpa [hen, hall, hlive] using hsafe
    · simp only [hall, Bool.false_eq_true, false_and, and_false, if_false, Prod.mk.injEq] at hscan
      simp only [hen, Bool.not_true, Bool.false_eq_true, if_false, hall, Bool.and_eq_true] at hsafe
      rw [hscan.1, hscan.2]
      refine ⟨fun _ => .inr fun b hb => ?_, hsafe.2⟩
      simpa using all_eq_true.mp hsafe.1 b hb

/-! ## The work loop -/

theorem RepairState.visit_eq (s : RepairState) (a : ℕ) :
    s.visit program a = (s.dependentsOf a).foldl (incidence program) s := by
  unfold visit dependentsOf
  cases s.localDependents[a]? with
  | none | some deps => rfl

theorem RepairInv.incidence
    (h : RepairInv program affected c₁ m [] current (r :: rest) s) (hfresh : r ∉ rest)
    (htr : s.Tracks program r) (hmem : current ∈ (program.rule r).body)
    (hcur : s.cert.isLive current = true ∧ current ∉ s.queue) :
    RepairInv program affected c₁ m [] current rest (s.incidence program r) ∧
    ((s.incidence program r).cert.isLive current = true ∧ current ∉ (s.incidence program r).queue) ∧
    (s.incidence program r).seenRules = s.seenRules := by
  have hother : ∀ r', r ≠ r' → s.Tracks program r' → r' ∉ s.fired →
      Counted program s s.remaining current rest r' := by
    intro r' hne htr' hnot
    obtain ⟨left, hleft, hcount, hpos⟩ := h.counts r' htr' hnot
    exact ⟨left, hleft, hcount.trans (countP_isOpen_cons _ hne), hpos⟩
  unfold RepairState.incidence
  by_cases hfired : r ∈ s.fired
  · rw [if_pos hfired]
    refine ⟨⟨h.core, h.fired_live, fun r' htr' hnot => ?_⟩, hcur, rfl⟩
    exact hother r' (fun heq => hnot (heq ▸ hfired)) htr' hnot
  obtain ⟨left, hleft, hcount, hpos⟩ := h.counts r htr hfired
  have hclose : (program.rule r).body.countP (isOpen s.cert s.queue current rest r) + 1 = left := by
    rw [hcount]
    exact countP_isOpen_turn (program.rule r).body_nodup hfresh hmem hcur
  have hcounts : ∀ r', r ≠ r' → s.Tracks program r' → r' ∉ s.fired →
      Counted program s (s.remaining.insert r (left - 1)) current rest r' :=
    fun r' hne htr' hnot => (hother r' hne htr' hnot).insert hne _
  have hcore : RepairCore program affected c₁ m [] { s with
      stats := s.stats.incidenceUpdate, remaining := s.remaining.insert r (left - 1) } :=
    { h.core with }
  rw [if_neg hfired]
  simp only [hleft, beq_iff_eq, hpos, if_false]
  split_ifs with hzero
  · have hbody : ∀ b ∈ (program.rule r).body, s.cert.isLive b = true :=
      isLive_of_countP_isOpen ((Nat.eq_sub_of_add_eq hclose).trans hzero)
    have hhead := h.core.seen_head r htr.1
    obtain ⟨hinv, hsettled⟩ := hcore.fire_inv htr.2 hhead hbody h.fired_live hcounts
    exact ⟨hinv, (hsettled current).mpr hcur, RepairState.fire_seenRules _ r⟩
  · refine ⟨⟨hcore, h.fired_live, fun r' htr' hnot => ?_⟩, hcur, rfl⟩
    by_cases hr' : r = r'
    · subst hr'
      exact ⟨left - 1, ExtTreeMap.getElem?_insert_self, Nat.sub_eq_of_eq_add hclose.symm, hzero⟩
    · exact hcounts r' hr' htr' hnot

theorem RepairState.pop_eq_none (h : s.pop = none) : s.queue = [] := by
  unfold pop at h
  split at h
  · assumption
  · cases h

theorem RepairInv.visit {s' : RepairState} {a : ℕ}
    (h : RepairInv program affected c₁ m [] current [] s) (hpop : s.pop = some (a, s')) :
    RepairInv program affected c₁ (m - 1) [] a [] (s'.visit program a) ∧ 0 < m := by
  obtain ⟨⟨cert, windex, _ | ⟨a, queue⟩, stats⟩, remaining, deps, seenRules, fired⟩ := s
  · cases hpop
  cases hpop
  obtain ⟨hfront, hnotin, hlive, hpos⟩ := h.core.front.pop
  refine ⟨?_, hpos⟩
  rw [RepairState.visit_eq]
  have hfold := foldl_rest
    (I := fun s₂ rest => RepairInv program affected c₁ (m - 1) [] a rest s₂ ∧ rest.Nodup ∧
      (∀ r ∈ rest, s₂.Tracks program r ∧ a ∈ (program.rule r).body) ∧
      (s₂.cert.isLive a = true ∧ a ∉ s₂.queue))
    (f := RepairState.incidence program)
    (s := ⟨⟨cert, windex, queue, stats⟩, remaining, deps, seenRules, fired⟩) ?_ _
    ⟨⟨{ h.core with
        front := hfront
        queued := fun b hb => h.core.queued b (mem_cons_of_mem _ hb) },
      h.fired_live, fun r htr hnot => ?_⟩, h.core.nodup a, fun r hr => ?_, hlive, hnotin⟩
  · exact hfold.1
  · rintro s₂ r rest ⟨hinv, hnd, hdeps, hcur⟩
    rw [nodup_cons] at hnd
    obtain ⟨htr, hmem⟩ := hdeps r mem_cons_self
    obtain ⟨hinv', hcur', hseen⟩ := hinv.incidence hnd.1 htr hmem hcur
    refine ⟨hinv', hnd.2, fun r' hr' => ?_, hcur'⟩
    rw [RepairState.Tracks, hseen]
    exact hdeps r' (mem_cons_of_mem _ hr')
  · obtain ⟨left, hleft, hcount, hne⟩ := h.counts r htr hnot
    refine ⟨left, hleft, hcount.trans (countP_isOpen_pop fun hmem => ?_), hne⟩
    exact (h.core.dependents a r).mpr ⟨⟨h.core.queued a mem_cons_self, hmem⟩, htr⟩
  · obtain ⟨⟨_, hbody⟩, htr⟩ := (h.core.dependents a r).mp hr
    exact ⟨htr, hbody⟩

theorem scanOrder_nodup (hi : IndexedBy program index) : (scanOrder index affected).Nodup := by
  refine nodup_flatMap.mpr ⟨fun a _ => hi.nodup_byHead a, ?_⟩
  refine distinct_toList.imp fun {a b} hne => ?_
  intro r ha hb
  apply hne
  rw [← ((hi.mem_byHead a r).mp ha).2, ((hi.mem_byHead b r).mp hb).2]
  exact ReflCmp.compare_self

theorem repair_scan (hi : IndexedBy program index) {start : RepairState}
    (hcore : RepairCore program affected c₁ m (scanOrder index affected) start)
    (hseen : start.seenRules = ∅) (hfired : start.fired = ∅)
    (hsafe : scanSafe program start.cert.isLive start.queue (scanOrder index affected) = true) :
    RepairInv program affected c₁ m [] 0 []
      ((scanOrder index affected).foldl (scan program affected) start) := by
  have hfold := foldl_rest
    (I := fun s rest => RepairInv program affected c₁ m rest 0 [] s ∧ rest.Nodup ∧
      (∀ r ∈ rest, r ∉ s.seenRules ∧ (program.rule r).head ∈ affected) ∧
      scanSafe program s.cert.isLive s.queue rest = true)
    (f := scan program affected) (s := start) ?_ (scanOrder index affected)
    ⟨⟨hcore, by simp [hfired], fun r htr _ => ?_⟩, scanOrder_nodup hi, fun r hr => ?_, hsafe⟩
  · exact hfold.1
  · rintro s r rest ⟨hinv, hnd, hrest, hsafe⟩
    rw [nodup_cons] at hnd
    obtain ⟨hfresh, hhead⟩ := hrest r mem_cons_self
    obtain ⟨hcase, hsafe'⟩ := scanSafe_step hinv.core.front.valid hinv.core.front.size hfresh hsafe
    refine ⟨hinv.scan hfresh hhead hcase, hnd.2, fun r' hr' => ?_, hsafe'⟩
    obtain ⟨hfresh', hhead'⟩ := hrest r' (mem_cons_of_mem _ hr')
    refine ⟨fun hmem => ?_, hhead'⟩
    rcases (mem_seenRules_scan hmem) with rfl | hmem
    · exact hnd.1 hr'
    · exact hfresh' hmem
  · rw [RepairState.Tracks, hseen] at htr
    exact absurd htr.1 not_mem_empty
  · rw [hseen]
    refine ⟨not_mem_empty, ?_⟩
    obtain ⟨a, ha, hr⟩ := mem_flatMap.mp hr
    rw [((hi.mem_byHead a r).mp hr).2]
    exact mem_toList.mp ha

/-! ## The repair -/

theorem RepairInv.not_fireable (h : RepairInv program affected c₁ m [] current [] s)
    (hq : s.queue = []) (hf : Fireable program s.cert r) :
    (program.rule r).head ∉ affected := by
  intro hhead
  have hseen : r ∈ s.seenRules := (h.core.seen r hf.1 hhead).resolve_right not_mem_nil
  by_cases hfired : r ∈ s.fired
  · have hdead := hf.2.2
    rw [h.fired_live r hfired] at hdead
    cases hdead
  · obtain ⟨left, _, hcount, hne⟩ := h.counts r ⟨hseen, hf.1⟩ hfired
    rw [hq, countP_isOpen_empty hf.2.1] at hcount
    exact hne hcount

theorem repair_loop {s₀ : RepairState} (h : RepairInv program affected c₁ m [] 0 [] s₀)
    (hm : m ≤ program.atomCount) :
    let final := drain pop (visit program) program.atomCount s₀
    (∃ k current, RepairInv program affected c₁ k [] current [] final) ∧ final.queue = [] := by
  obtain ⟨hinv, hdone⟩ := drain_countdown
    (J := fun k s => ∃ current, RepairInv program affected c₁ k [] current [] s)
    (fun k s a s' ⟨current, hs⟩ hpop => ⟨⟨a, (hs.visit hpop).1⟩, (hs.visit hpop).2⟩)
    program.atomCount ⟨0, h⟩ hm
  exact ⟨hinv, pop_eq_none hdone⟩

variable {cert : GroundedCertificate} {windex : GroundedWitnessIndex}
  {direct : ExtTreeSet GroundedAtomId}

section
variable (hv : program.Valid) (hi : IndexedBy program index)
  (hpre : RepairPre program cert windex direct) (hcone : IsCone cert windex direct affected)
  (hroom : RankRoom (withoutCone cert affected)) (stats : GroundedWorkStats)
include hv hi hpre hcone hroom stats

theorem repairCore_start :
    let cleared := clearCone program cert windex affected
    RepairCore program affected cleared.1 (cleared.1.live.count false) (scanOrder index affected)
      { cert := cleared.1, windex := cleared.2, queue := [], stats, remaining := ∅
        localDependents := ∅, seenRules := ∅, fired := ∅ } := by
  obtain ⟨hsteps, hindexed, hlive⟩ := hpre.clearCone_spec hv hcone hroom
  have hbase := ProofSteps.justified hv hsteps (hpre.justified hcone) hroom
  refine ⟨hbase, ⟨hv, hbase.1.size, .refl, ⟨nodup_nil, by simp⟩, by simp⟩, hindexed,
    fun a ha => .inr ha, by simp, fun r hen hhead => .inr ?_, by simp, fun b r => ?_,
    fun b => ?_⟩
  · exact mem_flatMap.mpr ⟨_, mem_toList.mpr hhead,
      (hi.mem_byHead _ r).mpr ⟨GroundedProgram.lt_of_enabled hen, rfl⟩⟩
  · simp [dependentsOf, RepairState.Tracks]
  · simp [dependentsOf]

/-- A safe repair loses no seed and leaves no rule fireable that was not fireable before. -/
theorem repairCone_spec (hsafe : scanSafe program
      (fun a => if a ∈ affected then program.seeds.contains a else cert.isLive a) []
      (scanOrder index affected) = true) :
    let s := repairCone program index cert windex affected stats
    ProofSteps program (withoutCone cert affected) s.cert ∧
    WitnessIndexed program s.cert s.windex ∧
    (∀ a, program.seeds.contains a = true → cert.isLive a = true → s.cert.isLive a = true) ∧
    ∀ r, Fireable program s.cert r → Fireable program cert r := by
  obtain ⟨hsteps, _, hlive⟩ := hpre.clearCone_spec hv hcone hroom
  have hcore := repairCore_start hv hi hpre hcone hroom stats
  have hstart : (clearCone program cert windex affected).1.isLive =
      fun a => if a ∈ affected then program.seeds.contains a else cert.isLive a := funext hlive
  have hscan := repair_scan hi hcore rfl rfl (by
    rw [hstart]
    exact hsafe)
  obtain ⟨⟨k, current, hinv⟩, hqueue⟩ := repair_loop hscan (hcore.front.size.live ▸ count_le_length)
  have hmono := fun a => ProofSteps.isLive (b := a) hv hinv.core.front.steps hcore.front.size
  refine ⟨hsteps.trans hinv.core.front.steps, hinv.core.indexed, fun a hseed ha => ?_,
    fun r hf => ?_⟩
  · refine hmono a ?_
    rw [hlive a, hseed, ha, ite_self]
  · have hout := hinv.not_fireable hqueue hf
    refine ⟨hf.1, fun b hb => ?_, ?_⟩
    · rcases hinv.core.inside b (hf.2.1 b hb) with hin | hb'
      · exact hcone.live b hin
      rw [hlive b] at hb'
      split_ifs at hb' with hin
      · exact hcone.live b hin
      · exact hb'
    · by_contra hhead
      have hdead := hf.2.2
      rw [repairCone, hmono _ (by rw [hlive, if_neg hout]; simpa using hhead)] at hdead
      cases hdead

end

def keptByRepair (cert : GroundedCertificate) (windex : GroundedWitnessIndex)
    (direct : ExtTreeSet GroundedAtomId) : GroundedCertificate :=
  if direct.isEmpty then cert
  else withoutCone cert (collectSparseWitnessCone cert windex direct default).1

theorem repairAfterDeletion_spec (hv : program.Valid) (hi : IndexedBy program index)
    (hpre : RepairPre program cert windex direct)
    (hroom : RankRoom (keptByRepair cert windex direct))
    (hsafe : repairSafe program index cert windex direct = true) :
    let s := repairAfterDeletion program index cert windex direct
    ProofSteps program (keptByRepair cert windex direct) s.cert ∧
    WitnessIndexed program s.cert s.windex ∧
    (∀ a, program.seeds.contains a = true → cert.isLive a = true → s.cert.isLive a = true) ∧
    ∀ r, Fireable program s.cert r → Fireable program cert r := by
  unfold repairAfterDeletion keptByRepair at *
  cases hempty : direct.isEmpty with
  | true =>
    exact ⟨.refl, hpre.indexed, fun a _ ha => ha, fun r hf => hf⟩
  | false =>
    simp only [hempty, Bool.false_eq_true, if_false] at hroom ⊢
    exact repairCone_spec hv hi hpre (isCone_collect cert windex direct default) hroom _ hsafe

theorem justified_keptByRepair (hpre : RepairPre program cert windex direct) :
    Justified program (keptByRepair cert windex direct) := by
  unfold keptByRepair
  cases hempty : direct.isEmpty with
  | true =>
    have hnone : ∀ a, a ∉ direct := by
      intro a ha
      rw [ExtTreeSet.isEmpty_iff] at hempty
      subst hempty
      exact ExtTreeSet.not_mem_empty ha
    exact ⟨hpre.size, fun a ha => hpre.grounded a ha (hnone a), hpre.dead⟩
  | false => exact hpre.justified (isCone_collect cert windex direct default)

theorem rankTight_keptByRepair (hpre : RepairPre program cert windex direct)
    (ht : RankTight program cert) : RankTight program (keptByRepair cert windex direct) := by
  unfold keptByRepair
  split_ifs
  · exact ht
  · exact hpre.rankTight (isCone_collect cert windex direct default) ht

end Cfmd.Grounded
