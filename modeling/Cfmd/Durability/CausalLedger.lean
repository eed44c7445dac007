import Cfmd.Durability.ScanState
import Cfmd.Effect.Ideal
import Cfmd.Lib.Walk

/-! The causal ledger of a store: the effect of every committed revision, and the frontier of every
revision. A commit group is checked against the ledger and what it has added so far, then published
at once; recovery appends descriptors one by one. -/

namespace Cfmd.Durability
open Std Lib List

def singleFrontier (id : RevisionEffectId) : ExtTreeSet RevisionEffectId := ExtTreeSet.ofList [id]

theorem mem_singleFrontier {id id' : RevisionEffectId} : id' ∈ singleFrontier id ↔ id' = id := by
  rw [singleFrontier, ExtTreeSet.mem_ofList, contains_iff_mem, mem_singleton]

theorem singleFrontier_injective : Function.Injective singleFrontier := by
  intro id id' h
  rw [← mem_singleFrontier, ← h]
  exact mem_singleFrontier.mpr rfl

variable [PayloadCodec]

/-- `revision_effects` and `revision_effect_frontiers`. -/
structure CausalLedger where
  effects : ExtTreeMap RevisionEffectId DurableRevisionEffectRecord
  frontiers : ExtTreeMap RevisionId (ExtTreeSet RevisionEffectId)
deriving DecidableEq

def joinFrontiers (missing : String) (frontier : RevisionId → Option (ExtTreeSet RevisionEffectId))
    (revisions : List RevisionId) : Except DurabilityError (ExtTreeSet RevisionEffectId) :=
  revisions.foldlM (fun cut revision =>
    match frontier revision with
    | none => .error (.protocol 0 missing)
    | some parentFrontier => .ok (cut ∪ parentFrontier)) ∅

/-- At least two parents, ascending, the source among them. `binary_search` only
runs on an ascending list, where it finds the members. -/
def canonicalParents (source : RevisionId) (causalParents : List RevisionId) : Bool :=
  2 ≤ causalParents.length ∧ (causalParents.zip causalParents.tail).all (fun pair => pair.1 < pair.2) ∧
    source ∈ causalParents

def causalPrerequisitesWithLookup (descriptor : DurableRevisionDescriptor)
    (frontier : RevisionId → Option (ExtTreeSet RevisionEffectId)) :
    Except DurabilityError (ExtTreeSet RevisionEffectId) :=
  match descriptor.intent with
  | .relationResolution _ _ _ causalParents _ =>
    if canonicalParents descriptor.sourceRevision causalParents then
      joinFrontiers "resolution causal parent is outside durable causal coverage" frontier
        causalParents
    else .error (.protocol 0 "resolution causal parents are not canonical")
  | _ =>
    match frontier descriptor.sourceRevision with
    | none => .error (.protocol 0 "committed revision source is outside durable causal coverage")
    | some sourceFrontier => .ok sourceFrontier

/-- The record of a committed descriptor. A descriptor without an effect id gets
its transaction's. -/
def effectRecord (descriptor : DurableRevisionDescriptor)
    (prerequisites : ExtTreeSet RevisionEffectId) : DurableRevisionEffectRecord where
  id := descriptor.revisionEffectId.getD descriptor.transactionId
  prerequisites
  transactionEpoch := descriptor.idempotencyEpoch
  transactionId := descriptor.transactionId
  intent := descriptor.intent
  change := descriptor.change
  sourceRevision := descriptor.sourceRevision
  targetRevision := descriptor.targetRevision

/-- The checks before a record is added: whether it is new. An equal record is
already there and is not added again. -/
def checkAppend (effect : RevisionEffectId → Option DurableRevisionEffectRecord)
    (frontier : RevisionId → Option (ExtTreeSet RevisionEffectId))
    (record : DurableRevisionEffectRecord) : Except DurabilityError Bool := do
  record.validateIdentity.mapError (.protocol 0)
  if record.prerequisites.toList.any fun prerequisite => (effect prerequisite).isNone then
    .error (.protocol 0 "revision effect prerequisite is missing from durable causal ledger")
  else
    match effect record.id with
    | some existing =>
      if existing = record then .ok false
      else .error (.protocol 0 "revision effect identity conflicts with durable causal ledger")
    | none =>
      if (frontier record.targetRevision).isSome then
        .error (.protocol 0 "target revision already has a durable causal frontier")
      else .ok true

variable {record : DurableRevisionEffectRecord}

theorem checkAppend_eq_true {effect : RevisionEffectId → Option DurableRevisionEffectRecord}
    {frontier : RevisionId → Option (ExtTreeSet RevisionEffectId)} :
    checkAppend effect frontier record = .ok true ↔ record.validateIdentity = .ok () ∧
      (∀ id, id ∈ record.prerequisites → ∃ record, effect id = some record) ∧
      effect record.id = none ∧ frontier record.targetRevision = none := by
  unfold checkAppend
  rw [seq_eq_ok, mapError_eq_ok]
  apply and_congr_right
  intro _
  have hmissing : (record.prerequisites.toList.any fun id => (effect id).isNone) = true ↔
      ¬ ∀ id, id ∈ record.prerequisites → ∃ record, effect id = some record := by
    simp only [any_eq_true, ExtTreeSet.mem_toList, Option.isNone_iff_eq_none,
      ← Option.isSome_iff_exists, not_forall, Option.not_isSome_iff_eq_none, exists_prop]
  split
  · rename_i hbad
    exact iff_of_false nofun fun h => hmissing.mp hbad h.1
  rename_i hgood
  rw [hmissing, not_not] at hgood
  rw [and_iff_right hgood]
  split
  · rename_i existing hexisting
    rw [hexisting]
    split
    · exact iff_of_false nofun nofun
    · exact iff_of_false nofun nofun
  · rename_i hnew
    rw [and_iff_right hnew, ← Option.not_isSome_iff_eq_none]
    split
    · rename_i hsome
      exact iff_of_false nofun fun h => h hsome
    · rename_i hnone
      exact iff_of_true rfl hnone

namespace CausalLedger

def initial (root : RevisionId) : CausalLedger where
  effects := ∅
  frontiers := (∅ : ExtTreeMap RevisionId (ExtTreeSet RevisionEffectId)).insert root ∅

def insert (ledger : CausalLedger) (record : DurableRevisionEffectRecord) : CausalLedger where
  effects := ledger.effects.insert record.id record
  frontiers := ledger.frontiers.insert record.targetRevision (singleFrontier record.id)

def appendRevisionEffect (ledger : CausalLedger) (record : DurableRevisionEffectRecord) :
    Except DurabilityError CausalLedger := do
  if ← checkAppend (ledger.effects[·]?) (ledger.frontiers[·]?) record then
    return ledger.insert record
  else return ledger

def appendCommittedRevisionEffect (ledger : CausalLedger)
    (descriptor : DurableRevisionDescriptor) : Except DurabilityError CausalLedger := do
  let prerequisites ← causalPrerequisitesWithLookup descriptor (ledger.frontiers[·]?)
  ledger.appendRevisionEffect (effectRecord descriptor prerequisites)

def publishPreparedRevisionEffects (ledger : CausalLedger)
    (prepared : List DurableRevisionEffectRecord) : CausalLedger :=
  prepared.foldl insert ledger

end CausalLedger

structure CausalCommitOverlay where
  base : CausalLedger
  effects : ExtTreeMap RevisionEffectId DurableRevisionEffectRecord
  frontiers : ExtTreeMap RevisionId (ExtTreeSet RevisionEffectId)

namespace CausalCommitOverlay

def new (base : CausalLedger) : CausalCommitOverlay where
  base
  effects := ∅
  frontiers := ∅

def effect (overlay : CausalCommitOverlay) (id : RevisionEffectId) :
    Option DurableRevisionEffectRecord :=
  overlay.effects[id]?.or overlay.base.effects[id]?

def frontier (overlay : CausalCommitOverlay) (revision : RevisionId) :
    Option (ExtTreeSet RevisionEffectId) :=
  overlay.frontiers[revision]?.or overlay.base.frontiers[revision]?

def insert (overlay : CausalCommitOverlay) (record : DurableRevisionEffectRecord) :
    CausalCommitOverlay :=
  { overlay with
    effects := overlay.effects.insert record.id record
    frontiers := overlay.frontiers.insert record.targetRevision (singleFrontier record.id) }

def prepareAppend (overlay : CausalCommitOverlay) (descriptor : DurableRevisionDescriptor) :
    Except DurabilityError CausalCommitOverlay := do
  let prerequisites ← causalPrerequisitesWithLookup descriptor overlay.frontier
  let record := effectRecord descriptor prerequisites
  if ← checkAppend overlay.effect overlay.frontier record then return overlay.insert record
  else return overlay

def intoEffects (overlay : CausalCommitOverlay) : List DurableRevisionEffectRecord :=
  overlay.effects.toList.map Prod.snd

end CausalCommitOverlay

namespace CausalLedger

/-- Every descriptor of the group enters an overlay; then its effects are published. -/
def commitGroup (ledger : CausalLedger) (group : List DurableRevisionDescriptor) :
    Except DurabilityError CausalLedger := do
  let overlay ← group.foldlM CausalCommitOverlay.prepareAppend (.new ledger)
  return ledger.publishPreparedRevisionEffects overlay.intoEffects

def recoverRevisionEffectState (coverageRoot : Option RevisionId) (ledger : CausalLedger)
    (scan : RecoveryScan) : Except DurabilityError (RevisionId × CausalLedger) :=
  match coverageRoot with
  | none => .ok (scan.durableRevision, initial scan.durableRevision)
  | some root =>
    if root ∈ ledger.frontiers then do
      let recovered ← (scan.committed.map (·.descriptor)).foldlM appendCommittedRevisionEffect ledger
      return (root, recovered)
    else .error (.protocol 0 "durable causal coverage root has no frontier")

def expectedPrerequisites (ledger : CausalLedger) (effect : DurableRevisionEffectRecord) :
    Except DurabilityError (ExtTreeSet RevisionEffectId) :=
  match effect.intent with
  | .relationResolution _ _ _ causalParents _ =>
    joinFrontiers "durable resolution parent frontier is missing" (ledger.frontiers[·]?)
      causalParents
  | _ =>
    match ledger.frontiers[effect.sourceRevision]? with
    | none => .error (.protocol 0 "durable causal effect source frontier is missing")
    | some frontier => .ok frontier

def validateEffect (ledger : CausalLedger)
    (entry : RevisionEffectId × DurableRevisionEffectRecord) : Except DurabilityError Unit := do
  entry.2.validateIdentity.mapError (.protocol 0)
  if entry.1 ≠ entry.2.id then
    .error (.protocol 0 "durable causal ledger map key disagrees with effect identity")
  else if entry.2.intent.targetRevision ≠ entry.2.targetRevision then
    .error (.protocol 0 "durable causal effect target disagrees with canonical effect intent")
  else do
    let expected ← ledger.expectedPrerequisites entry.2
    if expected ≠ entry.2.prerequisites then
      .error (.protocol 0 "durable causal effect prerequisites disagree with exact causal cut")
    else if ledger.frontiers[entry.2.targetRevision]? ≠ some (singleFrontier entry.1) then
      .error (.protocol 0 "durable causal effect target frontier is not canonical")
    else .ok ()

def validateRevisionEffectState (coverageRoot : RevisionId) (ledger : CausalLedger) :
    Except DurabilityError Unit :=
  if ledger.frontiers[coverageRoot]? ≠ some ∅ then
    .error (.protocol 0 "durable causal coverage root is not an empty frontier")
  else do
    ledger.effects.toList.forM ledger.validateEffect
    if ledger.frontiers.toList.any fun entry => entry.2.toList.any (· ∉ ledger.effects) then
      .error (.protocol 0 "durable causal frontier references a missing effect")
    else .ok ()

def findEffect (ledger : CausalLedger) (id : RevisionEffectId) :
    Except DurabilityError DurableRevisionEffectRecord :=
  match ledger.effects[id]? with
  | some record => .ok record
  | none => .error (.protocol 0 "durable revision frontier references a missing effect")

/-- The event of an effect, with its intent as the payload. -/
def effectEvent (id : RevisionEffectId) (record : DurableRevisionEffectRecord) :
    Effect.RevisionEffect DurableTransactionIntent where
  id
  prerequisites := record.prerequisites
  payload := record.intent

/-- One step for each effect taken from the stack, and for each key put on it. -/
def idealFuel (ledger : CausalLedger) (frontier : ExtTreeSet RevisionEffectId) : ℕ :=
  (ledger.effects.toList.map fun entry => entry.2.prerequisites.toList.length + 1).sum +
    frontier.toList.length + 1

def revisionEffectIdeal (ledger : CausalLedger) (revision : RevisionId) :
    Fallible DurabilityError (Option (Effect.RevisionEffectIdeal DurableTransactionIntent)) :=
  match ledger.frontiers[revision]? with
  | none => .ok none
  | some frontier => do
    let visited ← walk ledger.findEffect (·.prerequisites.toList) (ledger.idealFuel frontier)
      frontier.toList.reverse ∅ []
    match Effect.RevisionEffectIdeal.new (visited.map fun entry => effectEvent entry.1 entry.2) with
    | .ok ideal => .ok (some ideal)
    | .error (.panic message) => .error (.panic message)
    | .error (.error _) =>
      .error (.error (.protocol 0 "durable revision effect ledger is not a valid causal ideal"))

end CausalLedger

/-! ### A group at once and one by one -/

namespace CausalCommitOverlay

structure Shows (overlay : CausalCommitOverlay) (ledger : CausalLedger) : Prop where
  effect : ∀ id : RevisionEffectId, ledger.effects[id]? = overlay.effect id
  frontier : ∀ revision : RevisionId, ledger.frontiers[revision]? = overlay.frontier revision

/-- The overlay holds each effect under its id, and under the target of each effect
the frontier that ends with it. -/
structure Consistent (overlay : CausalCommitOverlay) : Prop where
  keyed : ∀ (id : RevisionEffectId) (record : DurableRevisionEffectRecord),
    overlay.effects[id]? = some record → record.id = id
  frontier : ∀ (revision : RevisionId) (frontier : ExtTreeSet RevisionEffectId),
    overlay.frontiers[revision]? = some frontier ↔ ∃ record : DurableRevisionEffectRecord,
      overlay.effects[record.id]? = some record ∧ record.targetRevision = revision ∧
        singleFrontier record.id = frontier

variable {overlay : CausalCommitOverlay} {ledger : CausalLedger}

theorem shows_new (ledger : CausalLedger) : (new ledger).Shows ledger where
  effect := fun id => by simp [new, effect]
  frontier := fun revision => by simp [new, frontier]

theorem consistent_new (ledger : CausalLedger) : (new ledger).Consistent where
  keyed := fun id record h => by simp [new] at h
  frontier := fun revision frontier => by simp [new]

theorem Shows.insert (h : overlay.Shows ledger) (record : DurableRevisionEffectRecord) :
    (overlay.insert record).Shows (ledger.insert record) := by
  constructor
  · intro id
    simp only [CausalLedger.insert, CausalCommitOverlay.insert, CausalCommitOverlay.effect,
      ExtTreeMap.getElem?_insert]
    split
    · rfl
    · exact h.effect id
  · intro revision
    simp only [CausalLedger.insert, CausalCommitOverlay.insert, CausalCommitOverlay.frontier,
      ExtTreeMap.getElem?_insert]
    split
    · rfl
    · exact h.frontier revision

section
variable (h : overlay.Consistent)
include h

theorem Consistent.insert (hid : overlay.effects[record.id]? = none)
    (htarget : overlay.frontiers[record.targetRevision]? = none) :
    (overlay.insert record).Consistent := by
  constructor
  · intro id record' hget
    rw [CausalCommitOverlay.insert, getElem?_insert_eq_some] at hget
    rcases hget with ⟨rfl, rfl⟩ | ⟨_, hget⟩
    · rfl
    · exact h.keyed id record' hget
  · intro revision frontier
    simp only [CausalCommitOverlay.insert, getElem?_insert_eq_some, h.frontier]
    constructor
    · rintro (⟨rfl, rfl⟩ | ⟨hne, record', hget, rfl, rfl⟩)
      · exact ⟨record, .inl ⟨rfl, rfl⟩, rfl, rfl⟩
      · refine ⟨record', .inr ⟨?_, hget⟩, rfl, rfl⟩
        intro heq
        rw [← heq, hid] at hget
        cases hget
    · rintro ⟨record', ⟨_, rfl⟩ | ⟨hne, hget⟩, rfl, rfl⟩
      · exact .inl ⟨rfl, rfl⟩
      · refine .inr ⟨?_, record', hget, rfl, rfl⟩
        intro heq
        have hfrontier := (h.frontier _ _).mpr ⟨record', hget, heq.symm, rfl⟩
        rw [htarget] at hfrontier
        cases hfrontier

theorem Consistent.mem_intoEffects :
    record ∈ overlay.intoEffects ↔ overlay.effects[record.id]? = some record := by
  rw [intoEffects, mem_map]
  constructor
  · rintro ⟨⟨id, record'⟩, hentry, rfl⟩
    rw [ExtTreeMap.mem_toList_iff_getElem?_eq_some] at hentry
    rwa [h.keyed id record' hentry]
  · intro hget
    exact ⟨(record.id, record), ExtTreeMap.mem_toList_iff_getElem?_eq_some.mpr hget, rfl⟩

theorem Consistent.intoEffects_nodup : (overlay.intoEffects.map (·.id)).Nodup := by
  have hids : overlay.intoEffects.map (·.id) = overlay.effects.toList.map Prod.fst := by
    rw [intoEffects, map_map]
    apply map_congr_left
    rintro ⟨id, record⟩ hentry
    exact h.keyed id record (ExtTreeMap.mem_toList_iff_getElem?_eq_some.mp hentry)
  rw [hids]
  exact nodup_fst_toList overlay.effects

theorem Consistent.targets_nodup : (overlay.intoEffects.map (·.targetRevision)).Nodup := by
  apply h.intoEffects_nodup.of_map.map_on
  -- one target has one frontier, and the frontier names the effect
  intro a ha b hb htarget
  have hget := h.mem_intoEffects.mp ha
  have hget' := h.mem_intoEffects.mp hb
  have hfrontier := (h.frontier _ _).mpr ⟨a, hget, rfl, rfl⟩
  have hfrontier' := (h.frontier _ _).mpr ⟨b, hget', htarget.symm, rfl⟩
  rw [hfrontier, Option.some.injEq] at hfrontier'
  rw [singleFrontier_injective hfrontier', hget', Option.some.injEq] at hget
  exact hget.symm

end

theorem publish_intoEffects (h : overlay.Shows ledger) (hown : overlay.Consistent) :
    overlay.base.publishPreparedRevisionEffects overlay.intoEffects = ledger := by
  have heffects : (overlay.base.publishPreparedRevisionEffects overlay.intoEffects).effects =
      overlay.intoEffects.foldl (fun m record => m.insert record.id record) overlay.base.effects :=
    (foldl_hom CausalLedger.effects fun _ _ => rfl).symm
  have hfrontiers : (overlay.base.publishPreparedRevisionEffects overlay.intoEffects).frontiers =
      overlay.intoEffects.foldl (fun m record =>
        m.insert record.targetRevision (singleFrontier record.id)) overlay.base.frontiers :=
    (foldl_hom CausalLedger.frontiers fun _ _ => rfl).symm
  have hleft : (overlay.base.publishPreparedRevisionEffects overlay.intoEffects).effects =
      ledger.effects := by
    apply ExtTreeMap.ext_getElem?
    intro id
    rw [heffects, getElem?_foldl_insert_onto DurableRevisionEffectRecord.id, h.effect]
    congr 1
    apply Option.ext
    intro record
    rw [getElem?_foldl_insert DurableRevisionEffectRecord.id _ _ hown.intoEffects_nodup]
    simp only [hown.mem_intoEffects]
    constructor
    · rintro ⟨record, hget, rfl, rfl⟩
      exact hget
    · intro hget
      have hkey := hown.keyed id record hget
      exact ⟨record, by rwa [hkey], hkey, rfl⟩
  have hright : (overlay.base.publishPreparedRevisionEffects overlay.intoEffects).frontiers =
      ledger.frontiers := by
    apply ExtTreeMap.ext_getElem?
    intro revision
    rw [hfrontiers, getElem?_foldl_insert_onto DurableRevisionEffectRecord.targetRevision,
      h.frontier, frontier]
    congr 1
    apply Option.ext
    intro frontier
    rw [getElem?_foldl_insert DurableRevisionEffectRecord.targetRevision _ _ hown.targets_nodup,
      hown.frontier]
    simp only [hown.mem_intoEffects]
  cases hpublished : overlay.base.publishPreparedRevisionEffects overlay.intoEffects with
  | mk effects frontiers =>
    rw [hpublished] at hleft hright
    cases ledger
    cases hleft
    cases hright
    rfl

structure Covers (base : CausalLedger) (overlay : CausalCommitOverlay) (ledger : CausalLedger) :
    Prop where
  base : overlay.base = base
  shows : overlay.Shows ledger
  consistent : overlay.Consistent

theorem prepareAppend_alike {base : CausalLedger} (h : Covers base overlay ledger)
    (descriptor : DurableRevisionDescriptor) :
    Alike (Covers base) (overlay.prepareAppend descriptor)
      (ledger.appendCommittedRevisionEffect descriptor) := by
  have heffect : (ledger.effects[·]?) = overlay.effect := by
    funext id
    exact h.shows.effect id
  have hfrontier : (ledger.frontiers[·]?) = overlay.frontier := by
    funext revision
    exact h.shows.frontier revision
  unfold prepareAppend CausalLedger.appendCommittedRevisionEffect CausalLedger.appendRevisionEffect
  rw [heffect, hfrontier]
  refine (Alike.refl _).bind ?_
  rintro prerequisites _ rfl
  dsimp only
  rcases hcheck : checkAppend overlay.effect overlay.frontier
    (effectRecord descriptor prerequisites) with e | new
  · rfl
  cases new with
  | false => exact h
  | true =>
    obtain ⟨_, _, hid, htarget⟩ := checkAppend_eq_true.mp hcheck
    rw [effect, Option.or_eq_none_iff] at hid
    rw [frontier, Option.or_eq_none_iff] at htarget
    exact ⟨h.base, h.shows.insert _, h.consistent.insert hid.1 htarget.1⟩

end CausalCommitOverlay

namespace CausalLedger

open CausalCommitOverlay

theorem commitGroup_eq (ledger : CausalLedger) (group : List DurableRevisionDescriptor) :
    ledger.commitGroup group = group.foldlM appendCommittedRevisionEffect ledger := by
  have hstart : CausalCommitOverlay.Covers ledger (.new ledger) ledger :=
    ⟨rfl, shows_new ledger, consistent_new ledger⟩
  have halike := Alike.foldlM (R := CausalCommitOverlay.Covers ledger)
    (fun _ _ descriptor h => prepareAppend_alike h descriptor) group hstart
  apply halike.bind_eq
  intro overlay ledger' h
  rw [← h.base]
  exact publish_intoEffects h.shows h.consistent

end CausalLedger

end Cfmd.Durability
