import Cfmd.Grounded.Solver

/-! Incremental maintenance of a grounded closure: deletions repair the cone of
selected witnesses that lost their source, insertions run the closure forward. -/

namespace Cfmd.Grounded
open Lib Std

/-- What the maintenance loops mutate: the certificate, its reverse index, the work queue
and the statistics. -/
structure Maintained where
  cert : GroundedCertificate
  windex : GroundedWitnessIndex
  queue : List GroundedAtomId
  stats : GroundedWorkStats

namespace Maintained

def pop (s : Maintained) : Option (GroundedAtomId × Maintained) := match s.queue with
  | [] => none
  | atom :: queue => some (atom, { s with queue })

/-- `derive_from_rule_with_witness_index`. -/
def deriveFromRule (program : GroundedProgram) (s : Maintained) (id : GroundedRuleId) :
    Maintained :=
  let rule := program.rule id
  if s.cert.isLive rule.head then s
  else
    let cert := s.cert.setProof rule.head (s.cert.ruleRank rule) (.rule id)
    { s with
      cert, windex := s.windex.installFromCertificate program cert rule.head
      queue := s.queue ++ [rule.head] }

def insertSeed (s : Maintained) (seed : GroundedAtomId) : Maintained :=
  if s.cert.isLive seed then s
  else { s with cert := s.cert.setProof seed 0 .seed, queue := s.queue ++ [seed] }

def insertRule (program : GroundedProgram) (s : Maintained) (id : GroundedRuleId) : Maintained :=
  let rule := program.rule id
  if !rule.enabled || s.cert.isLive rule.head then s
  else if rule.body.all s.cert.isLive then
    deriveFromRule program { s with stats := s.stats.ruleFire } id
  else s

def insertIncidence (program : GroundedProgram) (s : Maintained) (id : GroundedRuleId) :
    Maintained :=
  let rule := program.rule id
  if !rule.enabled || s.cert.isLive rule.head then s
  else
    let s := { s with stats := s.stats.incidenceUpdate }
    if rule.body.all s.cert.isLive then
      deriveFromRule program { s with stats := s.stats.ruleFire } id
    else s

end Maintained

/-- `incremental_insertions_with_witness_index`. -/
def incrementalInsertions (program : GroundedProgram) (index : GroundedIncidenceIndex)
    (s : Maintained) (addSeeds : List GroundedAtomId) (enableRules : List GroundedRuleId) :
    Maintained :=
  let s := addSeeds.foldl Maintained.insertSeed { s with queue := [] }
  let s := enableRules.foldl (Maintained.insertRule program) s
  drain Maintained.pop
    (fun atom s => (index.dependentsOf atom).foldl (Maintained.insertIncidence program) s)
    program.atomCount s

/-! ## Deletion repair -/

structure ConeState where
  affected : ExtTreeSet GroundedAtomId
  queue : List GroundedAtomId
  stats : GroundedWorkStats

namespace ConeState

def pop (s : ConeState) : Option (GroundedAtomId × ConeState) := match s.queue with
  | [] => none
  | atom :: queue => some (atom, { s with queue })

def enter (cert : GroundedCertificate) (s : ConeState) (atom : GroundedAtomId) : ConeState :=
  if cert.isLive atom = true ∧ atom ∉ s.affected then
    { s with affected := s.affected.insert atom, queue := s.queue ++ [atom] }
  else s

def walk (cert : GroundedCertificate) (s : ConeState) (child : GroundedAtomId) : ConeState :=
  enter cert { s with stats := s.stats.dependencyWalk } child

end ConeState

def collectSparseWitnessCone (cert : GroundedCertificate) (windex : GroundedWitnessIndex)
    (direct : ExtTreeSet GroundedAtomId) (stats : GroundedWorkStats) :
    ExtTreeSet GroundedAtomId × GroundedWorkStats :=
  let start := direct.toList.foldl (ConeState.enter cert) ⟨∅, [], stats⟩
  let final := drain ConeState.pop
    (fun atom s => (windex.childrenOf atom).toList.foldl (ConeState.walk cert) s)
    cert.live.length start
  (final.affected, final.stats)

structure RepairState extends Maintained where
  remaining : ExtTreeMap GroundedRuleId ℕ
  localDependents : ExtTreeMap GroundedAtomId (List GroundedRuleId)
  seenRules : ExtTreeSet GroundedRuleId
  fired : ExtTreeSet GroundedRuleId

namespace RepairState

def pop (s : RepairState) : Option (GroundedAtomId × RepairState) := match s.queue with
  | [] => none
  | atom :: queue => some (atom, { s with queue })

def fire (program : GroundedProgram) (s : RepairState) (id : GroundedRuleId) : RepairState :=
  let s := { s with fired := s.fired.insert id, stats := s.stats.ruleFire }
  if s.cert.isLive (program.rule id).head then s
  else { s with toMaintained := s.toMaintained.deriveFromRule program id }

def register (affected : ExtTreeSet GroundedAtomId) (id : GroundedRuleId)
    (dependents : ExtTreeMap GroundedAtomId (List GroundedRuleId)) (premise : GroundedAtomId) :
    ExtTreeMap GroundedAtomId (List GroundedRuleId) :=
  if premise ∈ affected then
    dependents.insert premise (dependents[premise]?.getD [] ++ [id])
  else dependents

def scan (program : GroundedProgram) (affected : ExtTreeSet GroundedAtomId) (s : RepairState)
    (id : GroundedRuleId) : RepairState :=
  if id ∈ s.seenRules then s
  else
    let s := { s with seenRules := s.seenRules.insert id }
    let rule := program.rule id
    if !rule.enabled then s
    else
      let missing := rule.body.countP fun atom => !s.cert.isLive atom
      let s := { s with
        remaining := s.remaining.insert id missing
        localDependents := rule.body.foldl (register affected id) s.localDependents }
      if missing == 0 then s.fire program id else s

def incidence (program : GroundedProgram) (s : RepairState) (id : GroundedRuleId) :
    RepairState :=
  if id ∈ s.fired then s
  else match s.remaining[id]? with
    | none => s
    | some left =>
      if left == 0 then s
      else
        let s := { s with
          stats := s.stats.incidenceUpdate, remaining := s.remaining.insert id (left - 1) }
        if left - 1 == 0 then s.fire program id else s

def visit (program : GroundedProgram) (atom : GroundedAtomId) (s : RepairState) : RepairState :=
  match s.localDependents[atom]? with
  | none => s
  | some dependents => dependents.foldl (incidence program) s

end RepairState

def scanOrder (index : GroundedIncidenceIndex) (affected : ExtTreeSet GroundedAtomId) :
    List GroundedRuleId :=
  affected.toList.flatMap index.headedBy

def withoutCone (cert : GroundedCertificate) (affected : ExtTreeSet GroundedAtomId) :
    GroundedCertificate :=
  affected.toList.foldl (fun cert atom => cert.clearProof atom) cert

/-- The certificate and reverse index with the cone removed and its seeds put back. -/
def clearCone (program : GroundedProgram) (cert : GroundedCertificate)
    (windex : GroundedWitnessIndex) (affected : ExtTreeSet GroundedAtomId) :
    GroundedCertificate × GroundedWitnessIndex :=
  let windex := affected.toList.foldl
    (fun windex atom => windex.removeFromCertificate program cert atom) windex
  let cert := program.seeds.iter.foldl
    (fun cert seed => if seed ∈ affected then cert.setProof seed 0 .seed else cert)
    (withoutCone cert affected)
  (cert, windex)

def repairCone (program : GroundedProgram) (index : GroundedIncidenceIndex)
    (cert : GroundedCertificate) (windex : GroundedWitnessIndex)
    (affected : ExtTreeSet GroundedAtomId) (stats : GroundedWorkStats) : Maintained :=
  let cleared := clearCone program cert windex affected
  let start : RepairState :=
    { cert := cleared.1, windex := cleared.2, queue := [], stats, remaining := ∅
      localDependents := ∅, seenRules := ∅, fired := ∅ }
  let scanned := (scanOrder index affected).foldl (RepairState.scan program affected) start
  (drain RepairState.pop (RepairState.visit program) program.atomCount scanned).toMaintained

/-- `local_recompute_after_deletion_sparse_indexed`. -/
def localRecomputeAfterDeletion (program : GroundedProgram) (index : GroundedIncidenceIndex)
    (cert : GroundedCertificate) (windex : GroundedWitnessIndex)
    (direct : ExtTreeSet GroundedAtomId) : Maintained :=
  let cone := collectSparseWitnessCone cert windex direct default
  repairCone program index cert windex cone.1 { cone.2 with affectedAtoms := cone.1.size }

/-! ## Updates and structural patches -/

structure GroundedUpdate where
  addSeeds : List GroundedAtomId
  removeSeeds : List GroundedAtomId
  enableRules : List GroundedRuleId
  disableRules : List GroundedRuleId

structure GroundedStructuralPatch where
  appendAtoms : ℕ
  appendRules : List GroundedRule
  addSeeds : List GroundedAtomId
  removeSeeds : List GroundedAtomId
  enableRules : List GroundedRuleId
  disableRules : List GroundedRuleId

def GroundedProgram.setEnabled (program : GroundedProgram) (id : GroundedRuleId)
    (enabled : Bool) : GroundedProgram :=
  { program with rules := program.rules.modify id fun rule => { rule with enabled } }

def validateUpdate (program : GroundedProgram) (update : GroundedUpdate) :
    Except GroundedClosureError Unit := do
  forM (update.addSeeds ++ update.removeSeeds) program.validateAtom
  forM (update.enableRules ++ update.disableRules) program.validateRule

def removeSeed (cert : GroundedCertificate)
    (acc : GroundedProgram × ExtTreeSet GroundedAtomId) (seed : GroundedAtomId) :
    GroundedProgram × ExtTreeSet GroundedAtomId :=
  ({ acc.1 with seeds := acc.1.seeds.remove seed },
    if cert.isLive seed && cert.witnessOf seed == some .seed then acc.2.insert seed else acc.2)

def disableRule (cert : GroundedCertificate)
    (acc : GroundedProgram × ExtTreeSet GroundedAtomId) (id : GroundedRuleId) :
    GroundedProgram × ExtTreeSet GroundedAtomId :=
  let rule := acc.1.rule id
  (acc.1.setEnabled id false,
    if rule.enabled && cert.isLive rule.head && cert.witnessOf rule.head == some (.rule id) then
      acc.2.insert rule.head
    else acc.2)

def invalidateUpdateSources (program : GroundedProgram) (cert : GroundedCertificate)
    (update : GroundedUpdate) : GroundedProgram × ExtTreeSet GroundedAtomId :=
  update.disableRules.foldl (disableRule cert)
    (update.removeSeeds.foldl (removeSeed cert) (program, ∅))

def repairAfterDeletion (program : GroundedProgram) (index : GroundedIncidenceIndex)
    (cert : GroundedCertificate) (windex : GroundedWitnessIndex)
    (direct : ExtTreeSet GroundedAtomId) : Maintained :=
  if direct.isEmpty then { cert, windex, queue := [], stats := default }
  else localRecomputeAfterDeletion program index cert windex direct

def GroundedProgram.addSources (program : GroundedProgram) (update : GroundedUpdate) :
    GroundedProgram :=
  let program := { program with seeds := update.addSeeds.foldl .insert program.seeds }
  update.enableRules.foldl (fun program id => program.setEnabled id true) program

def GroundedProgram.patchUpdate (program : GroundedProgram) (patch : GroundedStructuralPatch) :
    GroundedUpdate where
  addSeeds := patch.addSeeds
  removeSeeds := patch.removeSeeds
  enableRules := patch.enableRules ++
    ((patch.appendRules.zipIdx program.rules.length).filter fun entry => entry.1.enabled).map
      Prod.snd
  disableRules := patch.disableRules

structure GroundedMaintenance where
  program : GroundedProgram
  index : GroundedIncidenceIndex
  certificate : GroundedCertificate
  witnessIndex : GroundedWitnessIndex

namespace GroundedMaintenance

def new (program : GroundedProgram) : Except GroundedClosureError GroundedMaintenance := do
  program.validate
  let index := GroundedIncidenceIndex.compile program
  let certificate := (solveIndexed program index).1
  return { program, index, certificate, witnessIndex := .compile program certificate }

def applyUpdateMaintainedValidated (m : GroundedMaintenance) (update : GroundedUpdate) :
    GroundedMaintenance × GroundedWorkStats :=
  let reduced := invalidateUpdateSources m.program m.certificate update
  let repaired := repairAfterDeletion reduced.1 m.index m.certificate m.witnessIndex reduced.2
  let program := reduced.1.addSources update
  let final := incrementalInsertions program m.index repaired update.addSeeds update.enableRules
  ({ m with program, certificate := final.cert, witnessIndex := final.windex }, final.stats)

def applyUpdate (m : GroundedMaintenance) (update : GroundedUpdate) :
    Except GroundedClosureError (GroundedMaintenance × GroundedWorkStats) := do
  validateUpdate m.program update
  return m.applyUpdateMaintainedValidated update

def appendRule (acc : GroundedProgram × GroundedIncidenceIndex) (rule : GroundedRule) :
    GroundedProgram × GroundedIncidenceIndex :=
  let rule := { rule with enabled := false }
  ({ acc.1 with rules := acc.1.rules ++ [rule] }, acc.2.appendRule acc.1.rules.length rule)

def extend (m : GroundedMaintenance) (atomCount : ℕ) (rules : List GroundedRule) :
    GroundedMaintenance :=
  let extended := rules.foldl appendRule
    ({ m.program with atomCount, seeds := m.program.seeds.resizeAtoms atomCount },
      m.index.resizeAtoms atomCount)
  { program := extended.1
    index := extended.2
    certificate := m.certificate.resizeAtoms atomCount
    witnessIndex := m.witnessIndex.resizeAtoms atomCount }

def validateFutureAtom (atomCount : ℕ) (atom : GroundedAtomId) :
    Except GroundedClosureError Unit :=
  if atom < atomCount then .ok () else .error (.atomOutsideUniverse atom)

def validatePatch (m : GroundedMaintenance) (atomCount : ℕ) (patch : GroundedStructuralPatch) :
    Except GroundedClosureError Unit := do
  forM (patch.addSeeds ++ patch.removeSeeds) (validateFutureAtom atomCount)
  forM patch.appendRules fun rule => do
    validateFutureAtom atomCount rule.head
    forM rule.body (validateFutureAtom atomCount)
  forM (patch.enableRules ++ patch.disableRules) m.program.validateRule

/-- `apply_structural_patch_maintained`; the ids of the appended rules are returned too. -/
def applyStructuralPatch (m : GroundedMaintenance) (patch : GroundedStructuralPatch) :
    Except GroundedClosureError
      (GroundedMaintenance × GroundedWorkStats × List GroundedRuleId) := do
  let atomCount := m.program.atomCount + patch.appendAtoms
  if atomCount > usizeMax then .error .structuralUniverseOverflow
  m.validatePatch atomCount patch
  let extended := m.extend atomCount patch.appendRules
  let update := m.program.patchUpdate patch
  validateUpdate extended.program update
  let final := extended.applyUpdateMaintainedValidated update
  return (final.1, final.2, (patch.appendRules.zipIdx m.program.rules.length).map Prod.snd)

end GroundedMaintenance

/-! ## Reconciliation of two programs -/

structure RuleCorrespondence where
  oldToNew : List (Option GroundedRuleId)
  matchedNew : List Bool

def matchSlot (old new : GroundedProgram) (m : RuleCorrespondence) (id : ℕ) :
    RuleCorrespondence :=
  if old.rule id = new.rule id then
    ⟨m.oldToNew.set id (some id), m.matchedNew.set id true⟩
  else m

/-- The unmatched new rules with a given value, oldest first: the queues the source keeps in a map
by rule value. -/
abbrev NewByRule := GroundedRule → List GroundedRuleId

def matchResidual (old : GroundedProgram) (acc : RuleCorrespondence × NewByRule) (id : ℕ) :
    RuleCorrespondence × NewByRule :=
  if (acc.1.oldToNew[id]?.getD none).isSome then acc
  else match acc.2 (old.rule id) with
    | [] => acc
    | newId :: queue =>
      (⟨acc.1.oldToNew.set id (some newId), acc.1.matchedNew.set newId true⟩,
        Function.update acc.2 (old.rule id) queue)

def correlateRules (old new : GroundedProgram) : RuleCorrespondence :=
  let start : RuleCorrespondence :=
    ⟨List.replicate old.rules.length none, List.replicate new.rules.length false⟩
  let slots := (List.range (min old.rules.length new.rules.length)).foldl (matchSlot old new) start
  let newByRule : NewByRule := fun rule =>
    (List.range new.rules.length).filter fun id =>
      !(slots.matchedNew[id]?.getD false) && decide (new.rule id = rule)
  ((List.range old.rules.length).foldl (matchResidual old) (slots, newByRule)).1

def remapAtom (new : GroundedProgram) (m : RuleCorrespondence) (cert : GroundedCertificate)
    (acc : GroundedCertificate × ExtTreeSet GroundedAtomId) (atom : GroundedAtomId) :
    Except GroundedClosureError (GroundedCertificate × ExtTreeSet GroundedAtomId) :=
  let drop := ({ acc.1 with witness := acc.1.witness.set atom none }, acc.2.insert atom)
  if !cert.isLive atom then .ok acc
  else match cert.witnessOf atom with
    | some .seed => if !new.seeds.contains atom then .ok drop else .ok acc
    | some (.rule oldRule) =>
      match m.oldToNew[oldRule]?.getD none with
      | some newRule =>
        .ok ({ acc.1 with witness := acc.1.witness.set atom (some (.rule newRule)) }, acc.2)
      | none => .ok drop
    | none => .error (.liveAtomMissingWitness atom)

/-- The old certificate over the new program, and the atoms whose witness was dropped. -/
def remapCertificate (old new : GroundedProgram) (cert : GroundedCertificate) :
    Except GroundedClosureError (GroundedCertificate × ExtTreeSet GroundedAtomId) :=
  (List.range old.atomCount).foldlM (remapAtom new (correlateRules old new) cert)
    (cert.resizeAtoms new.atomCount, ∅)

def unmatchedRules (old new : GroundedProgram) : List GroundedRuleId :=
  (List.range new.rules.length).filter fun id =>
    (new.rule id).enabled && !((correlateRules old new).matchedNew[id]?.getD false)

/-- The repair of the dropped atoms and the forward closure from what is new. -/
def reconcileRemapped (old new : GroundedProgram)
    (remapped : GroundedCertificate × ExtTreeSet GroundedAtomId) : Maintained :=
  let index := GroundedIncidenceIndex.compile new
  let repaired := repairAfterDeletion new index remapped.1 (.compile new remapped.1) remapped.2
  incrementalInsertions new index repaired (new.seeds.difference old.seeds) (unmatchedRules old new)

def reconcileStructuralChange (old new : GroundedProgram) (cert : GroundedCertificate) :
    Except GroundedClosureError (GroundedCertificate × GroundedWorkStats) := do
  old.validate
  new.validate
  check old cert
  if new.atomCount < old.atomCount then
    .error (.structuralUniverseShrank old.atomCount new.atomCount)
  let remapped ← remapCertificate old new cert
  let final := reconcileRemapped old new remapped
  check new final.cert
  return (final.cert, final.stats)

end Cfmd.Grounded
