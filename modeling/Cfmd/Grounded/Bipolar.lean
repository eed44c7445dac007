import Cfmd.Grounded.History

/-! Bipolar support, as a grounded program for death: an atom is dead if it is unavailable, or if
all supporters of one of its requirements are dead. The support is what is not dead. -/

namespace Cfmd.Grounded
open Lib Std List

structure BipolarSupportRequirement where
  dependent : GroundedAtomId
  supporters : List GroundedAtomId

def BipolarSupportRequirement.new (dependent : GroundedAtomId) (supporters : List GroundedAtomId) :
    BipolarSupportRequirement :=
  ⟨dependent, sortDedup supporters⟩

structure BipolarSupportProgram where
  atomCount : ℕ
  unavailable : ExtTreeSet GroundedAtomId
  requirements : List BipolarSupportRequirement

namespace BipolarSupportProgram

def deathProgram (program : BipolarSupportProgram) : Except GroundedClosureError GroundedProgram :=
  GroundedProgram.new program.atomCount program.unavailable.toList
    (program.requirements.map fun requirement => .new requirement.supporters requirement.dependent)

def new (atomCount : ℕ) (unavailable : List GroundedAtomId)
    (requirements : List BipolarSupportRequirement) :
    Except GroundedClosureError BipolarSupportProgram := do
  let program : BipolarSupportProgram :=
    { atomCount, unavailable := .ofList unavailable, requirements }
  let death ← program.deathProgram
  death.validate
  return program

end BipolarSupportProgram

structure BipolarSupportCertificate where
  death : GroundedCertificate

def BipolarSupportCertificate.isSupported (certificate : BipolarSupportCertificate)
    (atom : GroundedAtomId) : Bool :=
  certificate.death.live[atom]?.any fun dead => !dead

/-- `check_bipolar_support_with_death`. A requirement that fails is reported as the first. -/
def checkBipolarSupport (program : BipolarSupportProgram) (deathProgram : GroundedProgram)
    (certificate : BipolarSupportCertificate) : Except GroundedClosureError Unit := do
  if certificate.death.live.length ≠ program.atomCount ∨
      deathProgram.atomCount ≠ program.atomCount then
    .error .certificateShapeMismatch
  check deathProgram certificate.death
  forM (range program.atomCount) fun atom =>
    if certificate.isSupported atom = certificate.death.isLive atom then
      .error .certificateShapeMismatch
    else .ok ()
  forM program.unavailable.toList fun atom =>
    if certificate.isSupported atom then .error (.missingSeed atom) else .ok ()
  forM program.requirements fun requirement =>
    if certificate.isSupported requirement.dependent ∧
        ¬ requirement.supporters.any certificate.isSupported then
      .error (.notClosedUnderRule 0)
    else .ok ()

def solveBipolarSupport (program : BipolarSupportProgram) :
    Except GroundedClosureError (BipolarSupportCertificate × GroundedWorkStats) := do
  let deathProgram ← program.deathProgram
  let solved := solve deathProgram
  let certificate : BipolarSupportCertificate := ⟨solved.1⟩
  checkBipolarSupport program deathProgram certificate
  return (certificate, solved.2)

structure BipolarSupportStructuralPatch where
  appendAtoms : ℕ
  appendRequirements : List BipolarSupportRequirement
  addUnavailable : List GroundedAtomId
  removeUnavailable : List GroundedAtomId
  enableRequirements : List GroundedRuleId
  disableRequirements : List GroundedRuleId

def BipolarSupportStructuralPatch.grounded (patch : BipolarSupportStructuralPatch) :
    GroundedStructuralPatch where
  appendAtoms := patch.appendAtoms
  appendRules := patch.appendRequirements.map fun requirement =>
    .new requirement.supporters requirement.dependent
  addSeeds := patch.addUnavailable
  removeSeeds := patch.removeUnavailable
  enableRules := patch.enableRequirements
  disableRules := patch.disableRequirements

structure BipolarSupportPatchOutcome where
  work : GroundedWorkStats
  appendedRequirements : List GroundedRuleId
  changedAtoms : List GroundedAtomId

/-- `PersistentVec::changed_indices`: where the common part differs, and the rest of the
longer vector. -/
def changedIndices (old new : List Bool) : List ℕ := let common := min old.length new.length
  (range common).filter (fun index => old[index]? ≠ new[index]?) ++
    range' common (max old.length new.length - common)

structure BipolarSupportMaintenance where
  deathProgram : GroundedProgram
  deathIndex : GroundedIncidenceIndex
  certificate : BipolarSupportCertificate
  witnessIndex : GroundedWitnessIndex

namespace BipolarSupportMaintenance

def new (program : BipolarSupportProgram) :
    Except GroundedClosureError BipolarSupportMaintenance := do
  let deathProgram ← program.deathProgram
  let deathIndex := GroundedIncidenceIndex.compile deathProgram
  let death := (solveIndexed deathProgram deathIndex).1
  return {
    deathProgram
    deathIndex
    certificate := ⟨death⟩
    witnessIndex := .compile deathProgram death }

def grounded (m : BipolarSupportMaintenance) : GroundedMaintenance :=
  ⟨m.deathProgram, m.deathIndex, m.certificate.death, m.witnessIndex⟩

def applyStructuralPatchTracked (m : BipolarSupportMaintenance)
    (patch : BipolarSupportStructuralPatch) :
    Except GroundedClosureError (BipolarSupportMaintenance × BipolarSupportPatchOutcome) := do
  let (final, work, appendedRequirements) ← m.grounded.applyStructuralPatch patch.grounded
  return (⟨final.program, final.index, ⟨final.certificate⟩, final.witnessIndex⟩,
    { work, appendedRequirements
      changedAtoms := changedIndices m.certificate.death.live final.certificate.live })

/-- The support program a maintained state stands for: its requirements are the enabled rules. -/
def program (m : BipolarSupportMaintenance) : BipolarSupportProgram where
  atomCount := m.deathProgram.atomCount
  unavailable := .ofList m.deathProgram.seeds.iter
  requirements := (m.deathProgram.rules.filter (·.enabled)).map fun rule => ⟨rule.head, rule.body⟩

end BipolarSupportMaintenance

/-! ## Support and death -/

/-- A set of atoms that avoids the unavailable ones and holds, with the dependent of a
requirement, one of its supporters. -/
def BipolarSupportProgram.IsSupport (program : BipolarSupportProgram) (s : Set GroundedAtomId) :
    Prop :=
  (∀ a ∈ s, a < program.atomCount ∧ a ∉ program.unavailable) ∧
    ∀ requirement ∈ program.requirements, requirement.dependent ∈ s →
      ∃ b ∈ requirement.supporters, b ∈ s

/-- The grounded program is the death program of the support program, up to the order of
its rules and premises. -/
structure Dual (program : BipolarSupportProgram) (death : GroundedProgram) : Prop where
  atomCount : death.atomCount = program.atomCount
  seeds : ∀ a, death.seeds.contains a = true ↔ a ∈ program.unavailable
  rule : ∀ requirement ∈ program.requirements, ∃ body,
    death.HornRule body requirement.dependent ∧ ∀ b, b ∈ body ↔ b ∈ requirement.supporters
  requirement : ∀ body head, death.HornRule body head → ∃ requirement ∈ program.requirements,
    requirement.dependent = head ∧ ∀ b, b ∈ body ↔ b ∈ requirement.supporters

section Duality
variable {program : BipolarSupportProgram} {death : GroundedProgram} {c : GroundedCertificate}

theorem Dual.isSupport_iff (h : Dual program death) {s : Set GroundedAtomId} :
    program.IsSupport s ↔
      (∀ a ∈ s, a < program.atomCount) ∧ Supported death.Fact death.HornRule s := by
  constructor
  · rintro ⟨hatoms, hrequirements⟩
    refine ⟨fun a ha => (hatoms a ha).1, fun a ha hfact => ?_, fun body head hrule hhead => ?_⟩
    · exact (hatoms a ha).2 ((h.seeds a).mp hfact)
    · obtain ⟨requirement, hmem, rfl, hbody⟩ := h.requirement body head hrule
      obtain ⟨b, hb, hbs⟩ := hrequirements requirement hmem hhead
      exact ⟨b, (hbody b).mpr hb, hbs⟩
  · rintro ⟨hatoms, hfacts, hrules⟩
    refine ⟨fun a ha => ⟨hatoms a ha, fun hmem => hfacts a ha ((h.seeds a).mpr hmem)⟩, ?_⟩
    intro requirement hmem hdependent
    obtain ⟨body, hrule, hbody⟩ := h.rule requirement hmem
    obtain ⟨b, hb, hbs⟩ := hrules body _ hrule hdependent
    exact ⟨b, (hbody b).mp hb, hbs⟩

theorem isSupported_iff {certificate : BipolarSupportCertificate} {a : GroundedAtomId} :
    certificate.isSupported a = true ↔
      a < certificate.death.live.length ∧ certificate.death.isLive a = false := by
  unfold BipolarSupportCertificate.isSupported GroundedCertificate.isLive
  by_cases hlt : a < certificate.death.live.length
  · simp [hlt]
  · simp [hlt]

theorem Dual.isGreatest (h : Dual program death) (hv : death.Valid) (hj : Justified death c)
    (hc : Closed death c) :
    IsGreatest {s | program.IsSupport s}
      {a | (BipolarSupportCertificate.mk c).isSupported a = true} := by
  have hsupported : ∀ a, (BipolarSupportCertificate.mk c).isSupported a = true ↔
      a < program.atomCount ∧ ¬ death.LeastFixpoint a := by
    intro a
    have hlen : c.live.length = program.atomCount := hj.size.live.trans h.atomCount
    rw [isSupported_iff, ← isLive_iff_leastFixpoint hj hc, Bool.not_eq_true]
    rw [hlen]
  have hgreatest := @underivable_isGreatest _ death.Fact death.HornRule
  constructor
  · apply h.isSupport_iff.mpr
    refine ⟨fun a ha => ((hsupported a).mp ha).1, fun a ha => ?_, fun body head hrule hhead => ?_⟩
    · exact hgreatest.1.1 a ((hsupported a).mp ha).2
    · obtain ⟨b, hb, hunderivable⟩ := hgreatest.1.2 body head hrule ((hsupported head).mp hhead).2
      -- the supporters of a requirement are atoms of the program
      obtain ⟨rule, hmem, _, rfl, _⟩ := hrule
      refine ⟨b, hb, (hsupported b).mpr ⟨?_, hunderivable⟩⟩
      rw [← h.atomCount]
      exact hv.body rule hmem b hb
  · intro s hs a ha
    obtain ⟨hatoms, hsupport⟩ := h.isSupport_iff.mp hs
    exact (hsupported a).mpr ⟨hatoms a ha, hgreatest.2 hsupport ha⟩

theorem deathProgram_dual (h : program.deathProgram = .ok death) :
    Dual program death ∧ death.Valid := by
  obtain ⟨hvalid, hcount⟩ := GroundedProgram.new_valid h
  obtain ⟨hrules, hseeds⟩ := GroundedProgram.new_eq_ok h
  refine ⟨⟨hcount, fun a => ?_, fun requirement hmem => ?_, ?_⟩, hvalid⟩
  · rw [hseeds, ExtTreeSet.mem_toList]
  · refine ⟨sortDedup requirement.supporters, ⟨.new requirement.supporters requirement.dependent, ?_,
      rfl, rfl, rfl⟩, fun b => mem_sortDedup⟩
    rw [hrules]
    exact mem_map_of_mem hmem
  · rintro body head ⟨rule, hmem, _, rfl, rfl⟩
    rw [hrules, mem_map] at hmem
    obtain ⟨requirement, hrequirement, rfl⟩ := hmem
    exact ⟨requirement, hrequirement, rfl, fun b => mem_sortDedup⟩

theorem BipolarSupportMaintenance.dual (m : BipolarSupportMaintenance) :
    Dual m.program m.deathProgram := by
  refine ⟨rfl, fun a => ?_, fun requirement hmem => ?_, ?_⟩
  · show _ ↔ a ∈ ExtTreeSet.ofList m.deathProgram.seeds.iter
    rw [ExtTreeSet.mem_ofList, contains_iff_mem, GroundedSeedSet.mem_iter]
  · obtain ⟨rule, hrule, rfl⟩ := mem_map.mp hmem
    obtain ⟨hmemRule, henabled⟩ := mem_filter.mp hrule
    exact ⟨rule.body, ⟨rule, hmemRule, henabled, rfl, rfl⟩, fun b => Iff.rfl⟩
  · rintro body head ⟨rule, hmem, henabled, rfl, rfl⟩
    exact ⟨⟨rule.head, rule.body⟩, mem_map_of_mem (mem_filter.mpr ⟨hmem, henabled⟩), rfl,
      fun b => Iff.rfl⟩

theorem checkBipolarSupport_eq_ok (h : Dual program death) (hv : death.Valid)
    (hj : Justified death c) (hc : Closed death c) :
    checkBipolarSupport program death ⟨c⟩ = .ok () := by
  have hlen : c.live.length = program.atomCount := hj.size.live.trans h.atomCount
  obtain ⟨⟨hatoms, hrequirements⟩, _⟩ := h.isGreatest hv hj hc
  unfold checkBipolarSupport
  rw [if_neg (by simp [hlen, h.atomCount])]
  simp only [seq_eq_ok, forM_eq_ok]
  refine ⟨check_eq_ok.mpr ⟨hj, hc⟩, fun atom hatom => ?_, fun atom hatom => ?_,
    fun requirement hmem => ?_⟩
  · have hne : (BipolarSupportCertificate.mk c).isSupported atom ≠ c.isLive atom := by
      intro heq
      have hiff := @isSupported_iff ⟨c⟩ atom
      cases hlive : c.isLive atom <;> simp_all
    exact if_neg hne
  · have hnot : (BipolarSupportCertificate.mk c).isSupported atom ≠ true := fun hsupported =>
      (hatoms atom hsupported).2 (ExtTreeSet.mem_toList.mp hatom)
    exact if_neg hnot
  · apply if_neg
    rintro ⟨hdependent, hnone⟩
    obtain ⟨b, hb, hsupported⟩ := hrequirements requirement hmem hdependent
    exact hnone (any_eq_true.mpr ⟨b, hb, hsupported⟩)

end Duality

/-! ## Maintained support -/

theorem mem_changedIndices {old new : List Bool} {a : ℕ} :
    a ∈ changedIndices old new ↔ (a < old.length ∧ a < new.length ∧ old[a]? ≠ new[a]?) ∨
        min old.length new.length ≤ a ∧ a < max old.length new.length := by
  unfold changedIndices
  rw [mem_append, mem_filter, mem_range, mem_range'_1, decide_eq_true_eq]
  by_cases heq : old[a]? = new[a]?
  · simp only [heq, ne_eq, not_true_eq_false, and_false, false_or]
    omega
  · simp only [heq, ne_eq, not_false_eq_true, and_true]
    omega

theorem nodup_changedIndices (old new : List Bool) : (changedIndices old new).Nodup := by
  apply List.Nodup.append (nodup_range.filter _) nodup_range'
  intro a ha hrest
  have hlt := mem_range.mp (mem_of_mem_filter ha)
  have hge := (mem_range'_1.mp hrest).1
  omega

namespace BipolarSupportMaintenance

/-- The first scan of the repair that the patch starts counts every rule right. -/
def patchSafe (m : BipolarSupportMaintenance) (patch : BipolarSupportStructuralPatch) : Bool :=
  MaintenanceCall.safe m.grounded (.applyStructuralPatch patch.grounded)

/-- Patches that all return `Ok` and whose repairs are all safe. -/
inductive SafeRun : BipolarSupportMaintenance → List BipolarSupportStructuralPatch →
    BipolarSupportMaintenance → Prop
  | nil (m : BipolarSupportMaintenance) : SafeRun m [] m
  | cons {m m' m'' : BipolarSupportMaintenance} {patch : BipolarSupportStructuralPatch}
      {patches : List BipolarSupportStructuralPatch} {outcome : BipolarSupportPatchOutcome}
      (hsafe : m.patchSafe patch = true)
      (happly : m.applyStructuralPatchTracked patch = .ok (m', outcome))
      (hrest : SafeRun m' patches m'') : SafeRun m (patch :: patches) m''

variable {m m' : BipolarSupportMaintenance} {patch : BipolarSupportStructuralPatch}
  {outcome : BipolarSupportPatchOutcome}

theorem applyStructuralPatchTracked_eq_ok
    (h : m.applyStructuralPatchTracked patch = .ok (m', outcome)) :
    MaintenanceCall.apply m.grounded (.applyStructuralPatch patch.grounded) = .ok m'.grounded ∧
      outcome.changedAtoms = changedIndices m.certificate.death.live m'.certificate.death.live := by
  simp only [applyStructuralPatchTracked, bind_eq_ok] at h
  obtain ⟨⟨final, work, appended⟩, hfinal, h⟩ := h
  cases h
  refine ⟨?_, rfl⟩
  simp only [MaintenanceCall.apply, hfinal]
  rfl

def groundedCall (patch : BipolarSupportStructuralPatch) : MaintenanceCall :=
  .applyStructuralPatch patch.grounded

theorem SafeRun.grounded {patches : List BipolarSupportStructuralPatch} (h : SafeRun m patches m') :
    Grounded.SafeRun m.grounded (patches.map groundedCall) m'.grounded := by
  induction h with
  | nil => exact .nil _
  | cons hsafe happly _ ih => exact .cons hsafe (applyStructuralPatchTracked_eq_ok happly).1 ih

theorem atomCount_foldl {α : Type} {f : GroundedProgram → α → GroundedProgram}
    (hf : ∀ p x, (f p x).atomCount = p.atomCount) (xs : List α) (p : GroundedProgram) :
    (xs.foldl f p).atomCount = p.atomCount := by
  induction xs generalizing p with
  | nil => rfl
  | cons x xs ih => exact (ih _).trans (hf p x)

theorem atomCount_onProgram (p : GroundedProgram) :
    ((groundedCall patch).onProgram p).atomCount = p.atomCount + patch.appendAtoms := by
  unfold groundedCall MaintenanceCall.onProgram GroundedProgram.addSources
    GroundedProgram.dropSources
  exact (atomCount_foldl (fun _ _ => by rfl) _ _).trans ((atomCount_foldl (fun _ _ => by rfl) _ _).trans
    (atomCount_foldl (fun _ _ => by rfl) _ _))

theorem length_live (hm : m.grounded.Exact) :
    m.certificate.death.live.length = m.deathProgram.atomCount :=
  hm.justified.size.live

/-- A patch reports each atom whose support flips and each atom it appends, once. -/
theorem changedAtoms_spec (hm : m.grounded.Exact) (hsafe : m.patchSafe patch = true)
    (h : m.applyStructuralPatchTracked patch = .ok (m', outcome)) :
    outcome.changedAtoms.Nodup ∧ ∀ a : ℕ, a ∈ outcome.changedAtoms ↔ (a < m.deathProgram.atomCount ∧
        m.certificate.isSupported a ≠ m'.certificate.isSupported a) ∨
      m.deathProgram.atomCount ≤ a ∧ a < m.deathProgram.atomCount + patch.appendAtoms := by
  obtain ⟨happly, hchanged⟩ := applyStructuralPatchTracked_eq_ok h
  obtain ⟨hm', hprogram⟩ := MaintenanceCall.apply_spec hm hsafe happly
  have hcount : m'.deathProgram.atomCount = m.deathProgram.atomCount + patch.appendAtoms :=
    (congrArg GroundedProgram.atomCount hprogram).trans (atomCount_onProgram _)
  rw [hchanged]
  refine ⟨nodup_changedIndices _ _, fun a => ?_⟩
  rw [mem_changedIndices, length_live hm, length_live hm']
  have hflip : a < m.deathProgram.atomCount →
      (m.certificate.death.live[a]? ≠ m'.certificate.death.live[a]? ↔
        m.certificate.isSupported a ≠ m'.certificate.isSupported a) := by
    intro hlt
    have hold : a < m.certificate.death.live.length := length_live hm ▸ hlt
    have hnew : a < m'.certificate.death.live.length := by
      rw [length_live hm']
      omega
    unfold BipolarSupportCertificate.isSupported
    rw [getElem?_eq_getElem hold, getElem?_eq_getElem hnew]
    simp
  by_cases hlt : a < m.deathProgram.atomCount
  · rw [hflip hlt]
    constructor
    · rintro (⟨_, _, hne⟩ | ⟨hge, _⟩)
      · exact .inl ⟨hlt, hne⟩
      · omega
    · rintro (⟨_, hne⟩ | ⟨hge, _⟩)
      · exact .inl ⟨hlt, by omega, hne⟩
      · omega
  · omega

end BipolarSupportMaintenance

/-- The solver finds the greatest support. Along a run of patches whose repairs are safe the
maintained support stays the greatest one, and each patch reports exactly what it changes. -/
theorem bipolar_support_isGreatest {atomCount : ℕ} {unavailable : List GroundedAtomId}
    {requirements : List BipolarSupportRequirement} {program : BipolarSupportProgram}
    (hcount : atomCount ≤ usizeMax)
    (hprogram : BipolarSupportProgram.new atomCount unavailable requirements = .ok program) :
    (∃ certificate stats, solveBipolarSupport program = .ok (certificate, stats) ∧
      IsGreatest {s | program.IsSupport s} {a | certificate.isSupported a = true}) ∧
    ∃ m₀, BipolarSupportMaintenance.new program = .ok m₀ ∧ ∀ patches m, m₀.SafeRun patches m →
      m.deathProgram = (patches.map BipolarSupportMaintenance.groundedCall).foldl
        MaintenanceCall.onProgram m₀.deathProgram ∧
      IsGreatest {s | m.program.IsSupport s} {a | m.certificate.isSupported a = true} ∧
      ∀ patch m' outcome, m.patchSafe patch = true →
        m.applyStructuralPatchTracked patch = .ok (m', outcome) →
        outcome.changedAtoms.Nodup ∧ ∀ a, a ∈ outcome.changedAtoms ↔ (a < m.program.atomCount ∧
            m.certificate.isSupported a ≠ m'.certificate.isSupported a) ∨
          m.program.atomCount ≤ a ∧ a < m.program.atomCount + patch.appendAtoms := by
  obtain ⟨death, hdeath, hn⟩ : ∃ death, program.deathProgram = .ok death ∧
      program.atomCount ≤ usizeMax := by
    simp only [BipolarSupportProgram.new, bind_eq_ok] at hprogram
    obtain ⟨death, hdeath, ⟨⟩, _, h⟩ := hprogram
    cases h
    exact ⟨death, hdeath, hcount⟩
  obtain ⟨hdual, hvalid⟩ := deathProgram_dual hdeath
  constructor
  · obtain ⟨hj, hc⟩ := solve_spec hvalid (hdual.atomCount ▸ hn)
    refine ⟨⟨(solve death).1⟩, (solve death).2, ?_, hdual.isGreatest hvalid hj hc⟩
    rw [solveBipolarSupport, hdeath]
    show (do checkBipolarSupport program death ⟨(solve death).1⟩; _) = _
    rw [checkBipolarSupport_eq_ok hdual hvalid hj hc]
    rfl
  · refine ⟨_, by rw [BipolarSupportMaintenance.new, hdeath]; rfl, fun patches m hrun => ?_⟩
    obtain ⟨hexact, hafter⟩ :=
      hrun.grounded.spec (GroundedMaintenance.exact_solved hvalid (hdual.atomCount ▸ hn))
    exact ⟨hafter, m.dual.isGreatest hexact.valid hexact.justified hexact.closed,
      fun _ _ _ hsafe happly => BipolarSupportMaintenance.changedAtoms_spec hexact hsafe happly⟩

/-- Making the only supporter available again is a safe patch. -/
theorem bipolar_support_after_resurrection :
    ∃ program m₀ m outcome, BipolarSupportProgram.new 2 [0] [.new 1 [0]] = .ok program ∧
      BipolarSupportMaintenance.new program = .ok m₀ ∧
      m₀.applyStructuralPatchTracked ⟨0, [], [], [0], [], []⟩ = .ok (m, outcome) ∧
      IsGreatest {s | m.program.IsSupport s} {a | m.certificate.isSupported a = true} := by
  have hcount : 2 ≤ usizeMax := by decide
  have hrun : ∃ program m₀ m outcome, BipolarSupportProgram.new 2 [0] [.new 1 [0]] = .ok program ∧
      BipolarSupportMaintenance.new program = .ok m₀ ∧
      m₀.patchSafe ⟨0, [], [], [0], [], []⟩ = true ∧
      m₀.applyStructuralPatchTracked ⟨0, [], [], [0], [], []⟩ = .ok (m, outcome) :=
    ⟨_, _, _, _, rfl, rfl, by decide, rfl⟩
  obtain ⟨program, m₀, m, outcome, hprogram, hnew, hsafe, happly⟩ := hrun
  obtain ⟨_, m₀', hnew', hruns⟩ := bipolar_support_isGreatest hcount hprogram
  rw [hnew] at hnew'
  cases hnew'
  exact ⟨program, m₀, m, outcome, hprogram, hnew, happly, (hruns _ m (.cons hsafe happly (.nil m))).2.1⟩

/-- Atom `0` has a requirement without supporters, atom `2` needs `0` or `1`; both are
unavailable and then made available. -/
def deadSupporter : Except GroundedClosureError BipolarSupportMaintenance := do
  let program ← BipolarSupportProgram.new 3 [0, 1] [.new 0 [], .new 2 [0, 1]]
  let m ← BipolarSupportMaintenance.new program
  return (← m.applyStructuralPatchTracked
    { appendAtoms := 0, appendRequirements := [], addUnavailable := [], removeUnavailable := [0, 1]
      enableRequirements := [], disableRequirements := [] }).1

/-- Atom `1` supports `2`, but the repair kills `2`: it counts only `1` as missing for that, and
the visit of the dead `0` takes the count to zero. -/
theorem bipolar_support_loses_atom :
    ∃ m, deadSupporter = .ok m ∧ m.certificate.isSupported 2 = false ∧
      m.program.IsSupport {1, 2} := by
  have hview : (deadSupporter.map fun m => (m.deathProgram, m.certificate.death.live)) =
      .ok (⟨3, ⟨[false, false, false], 0⟩, [.new [] 0, .new [0, 1] 2]⟩, [true, false, true]) := by
    decide +kernel
  cases hrun : deadSupporter with
  | error e =>
    rw [hrun] at hview
    cases hview
  | ok m =>
    rw [hrun] at hview
    simp only [Except.map, Except.ok.injEq, Prod.mk.injEq] at hview
    obtain ⟨hprogram, hlive⟩ := hview
    refine ⟨m, rfl, ?_, ?_, ?_⟩
    · rw [BipolarSupportCertificate.isSupported, hlive]
      rfl
    · intro a ha
      rw [BipolarSupportMaintenance.program, hprogram]
      refine ⟨?_, ?_⟩
      · rcases ha with rfl | rfl
        · decide
        · decide
      · exact Bool.false_ne_true
    · intro requirement hmem hdependent
      have hrequirements : m.program.requirements = [⟨0, []⟩, ⟨2, [0, 1]⟩] := by
        rw [BipolarSupportMaintenance.program, hprogram]
        rfl
      rw [hrequirements] at hmem
      rcases mem_cons.mp hmem with rfl | hmem
      · rcases hdependent with h | h <;> cases h
      · rw [mem_singleton.mp hmem]
        exact ⟨1, by decide, .inl rfl⟩

end Cfmd.Grounded
