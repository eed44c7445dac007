import Cfmd.Durability.CausalLedger
import Cfmd.Effect.Lattice

/-! Ledgers built from a coverage root by commit groups. Every one of them passes
validation, and the ideal of a revision is what its frontier rests on. -/

namespace Cfmd.Durability
open Std Lib Relation ExtTreeMap Option

section
variable [PayloadCodec]

/-! ### Exact cuts -/

variable {cut : ExtTreeSet RevisionEffectId}

section
variable {frontier frontier' : RevisionId → Option (ExtTreeSet RevisionEffectId)}

omit [PayloadCodec] in
theorem joinFrontiers_mono (hmono : ∀ revision cut, frontier revision = some cut →
      frontier' revision = some cut) {missing : String} (missing' : String)
    {revisions : List RevisionId} (h : joinFrontiers missing frontier revisions = .ok cut) :
    joinFrontiers missing' frontier' revisions = .ok cut := by
  unfold joinFrontiers at *
  generalize (∅ : ExtTreeSet RevisionEffectId) = start at *
  induction revisions generalizing start with
  | nil => exact h
  | cons revision revisions ih =>
    rw [List.foldlM_cons, bind_eq_ok] at h ⊢
    obtain ⟨cut', hstep, hrest⟩ := h
    refine ⟨cut', ?_, ih cut' hrest⟩
    split at hstep
    · cases hstep
    · rename_i parentFrontier hparent
      rw [hmono revision parentFrontier hparent]
      exact hstep

end

namespace CausalLedger
variable {root : RevisionId} {ledger : CausalLedger} {effect : DurableRevisionEffectRecord}
  {id : RevisionEffectId} {descriptor : DurableRevisionDescriptor}
  {event : Effect.RevisionEffect DurableTransactionIntent}

def events (ledger : CausalLedger) : Effect.Events DurableTransactionIntent :=
  ledger.effects.map effectEvent

/-- What `validate_revision_effect_state` asks of an effect. -/
structure ValidEffect (ledger : CausalLedger) (id : RevisionEffectId)
    (effect : DurableRevisionEffectRecord) : Prop where
  identity : effect.validateIdentity = .ok ()
  keyed : effect.id = id
  cut : ledger.expectedPrerequisites effect = .ok effect.prerequisites
  frontier : ledger.frontiers[effect.targetRevision]? = some (singleFrontier id)

structure WellFormed (root : RevisionId) (ledger : CausalLedger) : Prop where
  root : ledger.frontiers[root]? = some ∅
  effect : ∀ (id : RevisionEffectId) (effect : DurableRevisionEffectRecord),
    ledger.effects[id]? = some effect → ledger.ValidEffect id effect
  frontier : ∀ (revision : RevisionId) (frontier : ExtTreeSet RevisionEffectId),
    ledger.frontiers[revision]? = some frontier → ∀ id, id ∈ frontier → id ∈ ledger.effects
  ideal : Effect.IsIdeal ledger.events

/-! ### Validation -/

theorem validateIdentity_target (h : effect.validateIdentity = .ok ()) :
    effect.intent.targetRevision = effect.targetRevision := by
  unfold DurableRevisionEffectRecord.validateIdentity at h
  split_ifs at h with _ htarget
  exact not_not.mp htarget

theorem validateEffect_eq_ok :
    ledger.validateEffect (id, effect) = .ok () ↔ ledger.ValidEffect id effect := by
  unfold validateEffect
  rw [seq_eq_ok, mapError_eq_ok]
  constructor
  · rintro ⟨hidentity, h⟩
    split at h
    · cases h
    rename_i hkey
    split at h
    · cases h
    obtain ⟨expected, hexpected, h⟩ := bind_eq_ok.mp h
    split_ifs at h with hcut hfrontier
    rw [not_not.mp hcut] at hexpected
    exact ⟨hidentity, (not_not.mp hkey).symm, hexpected, not_not.mp hfrontier⟩
  · rintro ⟨hidentity, hkey, hcut, hfrontier⟩
    refine ⟨hidentity, ?_⟩
    rw [if_neg (not_not.mpr hkey.symm), if_neg (not_not.mpr (validateIdentity_target hidentity)),
      hcut]
    show (if _ then _ else _) = _
    rw [if_neg (not_not.mpr rfl), if_neg (not_not.mpr hfrontier)]

theorem validateRevisionEffectState_eq_ok :
    validateRevisionEffectState root ledger = .ok () ↔ ledger.frontiers[root]? = some ∅ ∧
      (∀ (id : RevisionEffectId) (effect : DurableRevisionEffectRecord),
        ledger.effects[id]? = some effect → ledger.ValidEffect id effect) ∧
      ∀ (revision : RevisionId) (frontier : ExtTreeSet RevisionEffectId),
        ledger.frontiers[revision]? = some frontier → ∀ id, id ∈ frontier → id ∈ ledger.effects := by
  have heffects : ledger.effects.toList.forM ledger.validateEffect = .ok () ↔
      ∀ (id : RevisionEffectId) (effect : DurableRevisionEffectRecord),
        ledger.effects[id]? = some effect → ledger.ValidEffect id effect := by
    rw [List.forM_eq_forM, forM_eq_ok]
    simp only [Prod.forall, mem_toList_iff_getElem?_eq_some, validateEffect_eq_ok]
  have hfrontiers : ¬ (ledger.frontiers.toList.any fun entry =>
        entry.2.toList.any (· ∉ ledger.effects)) = true ↔
      ∀ (revision : RevisionId) (frontier : ExtTreeSet RevisionEffectId),
        ledger.frontiers[revision]? = some frontier → ∀ id, id ∈ frontier → id ∈ ledger.effects := by
    simp only [List.any_eq_true, Prod.exists, mem_toList_iff_getElem?_eq_some,
      ExtTreeSet.mem_toList, decide_eq_true_eq, not_exists, not_and, not_not]
  unfold validateRevisionEffectState
  rw [← heffects, ← hfrontiers]
  split
  · rename_i hroot
    exact iff_of_false nofun fun h => hroot h.1
  rename_i hroot
  rw [and_iff_right (not_not.mp hroot), seq_eq_ok]
  apply and_congr_right
  intro _
  split
  · rename_i hbad
    exact iff_of_false nofun fun h => h hbad
  · rename_i hgood
    exact iff_of_true rfl hgood

theorem WellFormed.validates (h : ledger.WellFormed root) :
    validateRevisionEffectState root ledger = .ok () :=
  validateRevisionEffectState_eq_ok.mpr ⟨h.root, h.effect, h.frontier⟩

/-! ### One append -/

theorem wellFormed_initial (root : RevisionId) : (initial root).WellFormed root := by
  refine ⟨getElem?_insert_self, ?_, ?_, ?_⟩
  · intro id effect hget
    cases hget
  · intro revision frontier hget id hid
    rcases getElem?_insert_eq_some.mp hget with ⟨_, rfl⟩ | ⟨_, hget⟩
    · exact absurd hid ExtTreeSet.not_mem_empty
    · cases hget
  · exact Effect.isIdeal_empty

theorem expectedPrerequisites_effectRecord {prerequisites : ExtTreeSet RevisionEffectId}
    (h : causalPrerequisitesWithLookup descriptor (ledger.frontiers[·]?) = .ok prerequisites) :
    ledger.expectedPrerequisites (effectRecord descriptor prerequisites) = .ok prerequisites := by
  unfold causalPrerequisitesWithLookup at h
  unfold expectedPrerequisites effectRecord
  dsimp only
  split at h
  · split at h
    · exact joinFrontiers_mono (fun _ _ hcut => hcut) _ h
    · cases h
  split at h
  · cases h
  rename_i sourceFrontier hsource
  have hsource' : ledger.frontiers[descriptor.sourceRevision]? = some sourceFrontier := hsource
  rw [hsource']
  exact h

section
variable {record : DurableRevisionEffectRecord}

section
variable (htarget : ledger.frontiers[record.targetRevision]? = none)
include htarget

theorem frontiers_insert_mono (revision : RevisionId) (cut : ExtTreeSet RevisionEffectId)
    (h : ledger.frontiers[revision]? = some cut) :
    (ledger.insert record).frontiers[revision]? = some cut := by
  apply getElem?_insert_eq_some.mpr
  refine .inr ⟨?_, h⟩
  rintro rfl
  rw [htarget] at h
  cases h

theorem expectedPrerequisites_insert (h : ledger.expectedPrerequisites effect = .ok cut) :
    (ledger.insert record).expectedPrerequisites effect = .ok cut := by
  unfold expectedPrerequisites at *
  split at h
  · exact joinFrontiers_mono (frontiers_insert_mono htarget) _ h
  split at h
  · cases h
  · rename_i frontier hsource
    rw [frontiers_insert_mono htarget _ _ hsource]
    exact h

end

theorem events_insert (ledger : CausalLedger) (record : DurableRevisionEffectRecord) :
    (ledger.insert record).events =
      ledger.events.insert record.id (effectEvent record.id record) := by
  apply ext_getElem?
  intro id
  simp only [events, insert, getElem?_map, getElem?_insert]
  split
  · rename_i heq
    rw [LawfulEqCmp.eq_of_compare heq]
    rfl
  · rfl

theorem WellFormed.insert (h : ledger.WellFormed root)
    (hidentity : record.validateIdentity = .ok ())
    (hcut : ledger.expectedPrerequisites record = .ok record.prerequisites)
    (hpre : ∀ id, id ∈ record.prerequisites → id ∈ ledger.effects)
    (hid : ledger.effects[record.id]? = none)
    (htarget : ledger.frontiers[record.targetRevision]? = none) :
    (ledger.insert record).WellFormed root := by
  have hmono := frontiers_insert_mono htarget
  refine ⟨hmono _ _ h.root, ?_, ?_, ?_⟩
  · intro id effect hget
    rcases getElem?_insert_eq_some.mp hget with ⟨rfl, rfl⟩ | ⟨_, hget⟩
    · exact ⟨hidentity, rfl, expectedPrerequisites_insert htarget hcut, getElem?_insert_self⟩
    · have hold := h.effect id effect hget
      exact ⟨hold.identity, hold.keyed, expectedPrerequisites_insert htarget hold.cut,
        hmono _ _ hold.frontier⟩
  · intro revision frontier hget id hmem
    apply mem_insert.mpr
    rcases getElem?_insert_eq_some.mp hget with ⟨_, rfl⟩ | ⟨_, hget⟩
    · rw [mem_singleFrontier.mp hmem]
      exact .inl ReflCmp.compare_self
    · exact .inr (h.frontier revision frontier hget id hmem)
  · rw [events_insert]
    have hnew : (effectEvent record.id record).id ∉ ledger.events := by
      intro hmem
      have hold : record.id ∈ ledger.effects := mem_map.mp hmem
      rw [← isSome_getElem?_iff_mem, hid] at hold
      cases hold
    exact h.ideal.insert hnew fun d hd => mem_map.mpr (hpre d hd)

end

theorem WellFormed.append {ledger' : CausalLedger} (h : ledger.WellFormed root)
    (hstep : ledger.appendCommittedRevisionEffect descriptor = .ok ledger') :
    ledger'.WellFormed root := by
  obtain ⟨prerequisites, hprerequisites, hstep⟩ := bind_eq_ok.mp hstep
  obtain ⟨isNew, hcheck, hstep⟩ := bind_eq_ok.mp hstep
  cases isNew with
  | false =>
    cases hstep
    exact h
  | true =>
    cases hstep
    obtain ⟨hidentity, hpre, hid, htarget⟩ := checkAppend_eq_true.mp hcheck
    refine h.insert hidentity (expectedPrerequisites_effectRecord hprerequisites) ?_ hid htarget
    intro id hmem
    rw [← isSome_getElem?_iff_mem, isSome_iff_exists]
    exact hpre id hmem

/-! ### The ideal of a revision -/

def RestsOn (ledger : CausalLedger) (id prerequisite : RevisionEffectId) : Prop :=
  ∃ effect, ledger.effects[id]? = some effect ∧ prerequisite ∈ effect.prerequisites

def Below (ledger : CausalLedger) (frontier : ExtTreeSet RevisionEffectId) :
    RevisionEffectId → Prop :=
  Reached (· ∈ frontier) ledger.RestsOn

theorem findEffect_eq_ok :
    ledger.findEffect id = .ok effect ↔ ledger.effects[id]? = some effect := by
  unfold findEffect
  cases ledger.effects[id]? with
  | none | some found => simp

theorem getElem?_events :
    ledger.events[id]? = some event ↔
      ∃ effect, ledger.effects[id]? = some effect ∧ effectEvent id effect = event := by
  rw [events, getElem?_map, map_eq_some_iff]

theorem mem_pairs_events :
    (id, event) ∈ Effect.pairs ledger.events ↔
      ∃ effect, ledger.effects[id]? = some effect ∧ effectEvent id effect = event :=
  getElem?_events

theorem keyed_events (ledger : CausalLedger) (id : RevisionEffectId)
    (event : Effect.RevisionEffect DurableTransactionIntent) (h : ledger.events[id]? = some event) :
    event.id = id := by
  obtain ⟨effect, _, rfl⟩ := getElem?_events.mp h
  rfl

theorem prerequisite_events {d x : RevisionEffectId} :
    Effect.Prerequisite ledger.events d x ↔ ledger.RestsOn x d := by
  constructor
  · rintro ⟨event, hget, hd⟩
    obtain ⟨effect, heffect, rfl⟩ := getElem?_events.mp hget
    exact ⟨effect, heffect, hd⟩
  · rintro ⟨effect, heffect, hd⟩
    exact ⟨_, getElem?_events.mpr ⟨effect, heffect, rfl⟩, hd⟩

section
variable {frontier : ExtTreeSet RevisionEffectId} {revision : RevisionId}

theorem walked_iff_below :
    Walked ledger.findEffect (·.prerequisites.toList) frontier.toList.reverse id ↔
      ledger.Below frontier id := by
  apply Reached.congr
  · intro a
    rw [List.mem_reverse, ExtTreeSet.mem_toList]
  · intro a b
    simp only [Next, RestsOn, findEffect_eq_ok, ExtTreeSet.mem_toList]

theorem sum_walkWeight (ledger : CausalLedger) :
    ∑ id ∈ ledger.effects.keys.toFinset, walkWeight ledger.findEffect (·.prerequisites.toList) id =
      (ledger.effects.toList.map fun entry => entry.2.prerequisites.toList.length + 1).sum := by
  rw [List.sum_toFinset _ (nodup_keys ledger.effects), ← map_fst_toList_eq_keys, List.map_map]
  congr 1
  apply List.map_congr_left
  rintro ⟨id, effect⟩ hentry
  rw [mem_toList_iff_getElem?_eq_some] at hentry
  exact walkWeight_of_ok (findEffect_eq_ok.mpr hentry)

theorem exists_visited (hinside : ∀ id, ledger.Below frontier id → id ∈ ledger.effects) :
    ∃ visited, walk ledger.findEffect (·.prerequisites.toList) (ledger.idealFuel frontier)
        frontier.toList.reverse ∅ [] = .ok visited ∧
      ((visited.map fun entry => effectEvent entry.1 entry.2).map (·.id)).Nodup ∧
      ∀ byId, Effect.ById (visited.map fun entry => effectEvent entry.1 entry.2) byId →
        ∀ id event, (id, event) ∈ Effect.pairs byId ↔
          ledger.Below frontier id ∧ (id, event) ∈ Effect.pairs ledger.events := by
  have hfuel : ∑ id ∈ ledger.effects.keys.toFinset,
        walkWeight ledger.findEffect (·.prerequisites.toList) id +
      frontier.toList.reverse.length < ledger.idealFuel frontier := by
    rw [sum_walkWeight, List.length_reverse]
    exact Nat.lt_succ_self _
  obtain ⟨visited, hwalk, hnodup, hvisited⟩ := walk_spec
    (fun id hid => List.mem_toFinset.mpr (mem_keys.mpr (hinside id (walked_iff_below.mp hid))))
    (fun id hid => by
      obtain ⟨effect, heffect⟩ := isSome_iff_exists.mp
        (isSome_getElem?_iff_mem.mpr (hinside id (walked_iff_below.mp hid)))
      exact ⟨effect, findEffect_eq_ok.mpr heffect⟩) hfuel
  have hids : (visited.map fun entry => effectEvent entry.1 entry.2).map (·.id) =
      visited.map Prod.fst := by
    rw [List.map_map]
    rfl
  refine ⟨visited, hwalk, hids ▸ hnodup, ?_⟩
  intro byId hbyId id event
  apply (hbyId id event).trans
  rw [mem_pairs_events, List.mem_map]
  constructor
  · rintro ⟨⟨⟨id', effect⟩, hentry, rfl⟩, rfl⟩
    obtain ⟨hwalked, hfound⟩ := (hvisited _).mp hentry
    exact ⟨walked_iff_below.mp hwalked, effect, findEffect_eq_ok.mp hfound, rfl⟩
  · rintro ⟨hbelow, effect, hfound, rfl⟩
    exact ⟨⟨(id, effect), (hvisited _).mpr ⟨walked_iff_below.mpr hbelow,
      findEffect_eq_ok.mpr hfound⟩, rfl⟩, rfl⟩

/-- The ideal of a revision whose effects are all there: it is refused exactly if one of them
comes before itself. -/
theorem revisionEffectIdeal_decides (hfrontier : ledger.frontiers[revision]? = some frontier)
    (hinside : ∀ id, ledger.Below frontier id → id ∈ ledger.effects) :
    Decides (ledger.revisionEffectIdeal revision)
      (∀ id, ledger.Below frontier id → ¬ TransGen (Effect.Prerequisite ledger.events) id id)
      fun found => ∃ ideal, found = some ideal ∧
        ∀ (id : RevisionEffectId) (event : Effect.RevisionEffect DurableTransactionIntent),
          ideal.events[id]? = some event ↔ ledger.Below frontier id ∧
            ∃ effect, ledger.effects[id]? = some effect ∧ effectEvent id effect = event := by
  obtain ⟨visited, hwalk, hnodup, hbyId⟩ := exists_visited hinside
  have hclosed : ∀ d x, ledger.Below frontier x → Effect.Prerequisite ledger.events d x →
      ledger.Below frontier d := fun d x hx hpre => .step hx (prerequisite_events.mp hpre)
  have haccepted : Effect.Accepted (visited.map fun entry => effectEvent entry.1 entry.2) ↔
      ∀ id, ledger.Below frontier id → ¬ TransGen (Effect.Prerequisite ledger.events) id id := by
    have hideal : ∀ byId, Effect.ById (visited.map fun entry => effectEvent entry.1 entry.2) byId →
        (Effect.IsIdeal byId ↔ ∀ id, ledger.Below frontier id →
          ¬ TransGen (Effect.Prerequisite ledger.events) id id) := fun byId hby =>
      Effect.isIdeal_restrict_iff ledger.keyed_events hclosed
        (fun id hid => mem_map.mpr (hinside id hid)) (hbyId byId hby)
    constructor
    · intro h
      obtain ⟨byId, hcollect⟩ := Effect.exists_collectEvents h.1
      have hby := (Effect.byId_of_collectEvents hcollect).2
      exact (hideal byId hby).mp (h.2 byId hby)
    · exact fun h => ⟨hnodup, fun byId hby => (hideal byId hby).mpr h⟩
  have hnew := (Effect.new_decides (visited.map fun entry => effectEvent entry.1 entry.2)).congr
    haccepted fun _ hpost => hpost
  unfold revisionEffectIdeal
  rw [hfrontier]
  dsimp only
  rw [hwalk, Fallible.ok_bind]
  generalize Effect.RevisionEffectIdeal.new (visited.map fun entry => effectEvent entry.1 entry.2) =
    result at hnew
  match result, hnew with
  | .error (.error _), hnew => exact hnew
  | .ok ideal, hnew =>
    obtain ⟨hacyclic, hideal, _⟩ := hnew
    refine .ok hacyclic ⟨ideal, rfl, fun id event => ?_⟩
    rw [← getElem?_events]
    exact hbyId ideal.events hideal id event

theorem WellFormed.revisionEffectIdeal_eq (h : ledger.WellFormed root)
    (hfrontier : ledger.frontiers[revision]? = some frontier) :
    ∃ ideal, ledger.revisionEffectIdeal revision = .ok (some ideal) ∧
      ∀ (id : RevisionEffectId) (event : Effect.RevisionEffect DurableTransactionIntent),
        ideal.events[id]? = some event ↔ ledger.Below frontier id ∧
          ∃ effect, ledger.effects[id]? = some effect ∧ effectEvent id effect = event := by
  have hinside : ∀ id, ledger.Below frontier id → id ∈ ledger.effects := by
    intro id hid
    apply hid.subset (S := (· ∈ ledger.effects))
    · exact fun a ha => h.frontier revision frontier hfrontier a ha
    · intro a b _ hedge
      exact mem_map.mp (h.ideal.downClosed b a (prerequisite_events.mpr hedge))
  obtain ⟨_, hrun, ideal, rfl, hevents⟩ := (revisionEffectIdeal_decides hfrontier hinside).exists_ok
    fun id _ => h.ideal.acyclic id
  exact ⟨ideal, hrun, hevents⟩

end

/-! ### Runs -/

/-- A ledger built from a root by accepted commit groups, and all their descriptors. -/
inductive Commits (root : RevisionId) : List DurableRevisionDescriptor → CausalLedger → Prop
  | start : Commits root [] (initial root)
  | group {history group : List DurableRevisionDescriptor} {ledger ledger' : CausalLedger} :
      Commits root history ledger → ledger.commitGroup group = .ok ledger' →
        Commits root (history ++ group) ledger'

variable {history : List DurableRevisionDescriptor}

theorem commitGroup_each (ledger : CausalLedger) (group : List DurableRevisionDescriptor) :
    ledger.commitGroup group =
      group.foldlM (fun ledger descriptor => ledger.commitGroup [descriptor]) ledger := by
  have heach : (fun (ledger : CausalLedger) descriptor => ledger.commitGroup [descriptor]) =
      appendCommittedRevisionEffect := by
    funext ledger descriptor
    rw [commitGroup_eq]
    exact bind_pure _
  rw [heach, commitGroup_eq]

theorem Commits.wellFormed (h : Commits root history ledger) : ledger.WellFormed root := by
  induction h with
  | start => exact wellFormed_initial root
  | group _ hcommit ih =>
    rw [commitGroup_eq] at hcommit
    exact foldlM_inv (I := WellFormed root) (fun _ _ _ h hstep => h.append hstep) _ hcommit ih

theorem Commits.replays (h : Commits root history ledger) :
    history.foldlM appendCommittedRevisionEffect (initial root) = .ok ledger := by
  induction h with
  | start => rfl
  | group _ hcommit ih =>
    rw [commitGroup_eq] at hcommit
    rw [List.foldlM_append, ih]
    exact hcommit

theorem WellFormed.recover_eq (h : ledger.WellFormed root) (scan : RecoveryScan) :
    recoverRevisionEffectState (some root) ledger scan =
      (ledger.commitGroup (scan.committed.map (·.descriptor))).map (root, ·) := by
  have hroot : root ∈ ledger.frontiers := by
    rw [← isSome_getElem?_iff_mem, h.root]
    rfl
  unfold recoverRevisionEffectState
  dsimp only
  rw [if_pos hroot, commitGroup_eq]
  rfl

/-- A ledger built by commit groups passes validation, a revision with a frontier has the ideal of
the effects below it, and a group leaves what its descriptors leave one by one or in a replay. -/
theorem commit_groups_keep_ledger_valid (h : Commits root history ledger) :
    validateRevisionEffectState root ledger = .ok () ∧
    (∀ (revision : RevisionId) (frontier : ExtTreeSet RevisionEffectId),
      ledger.frontiers[revision]? = some frontier →
      ∃ ideal, ledger.revisionEffectIdeal revision = .ok (some ideal) ∧
        ∀ (id : RevisionEffectId) (event : Effect.RevisionEffect DurableTransactionIntent),
          ideal.events[id]? = some event ↔ ledger.Below frontier id ∧
            ∃ effect, ledger.effects[id]? = some effect ∧ effectEvent id effect = event) ∧
    (∀ group : List DurableRevisionDescriptor, ledger.commitGroup group =
      group.foldlM (fun ledger descriptor => ledger.commitGroup [descriptor]) ledger) ∧
    (∀ scan : RecoveryScan, recoverRevisionEffectState (some root) ledger scan =
      (ledger.commitGroup (scan.committed.map (·.descriptor))).map (root, ·)) ∧
    (∀ scan : RecoveryScan, scan.committed.map (·.descriptor) = history →
      recoverRevisionEffectState (some root) (initial root) scan = .ok (root, ledger)) := by
  have hwell := h.wellFormed
  refine ⟨hwell.validates, fun revision frontier hfrontier => hwell.revisionEffectIdeal_eq hfrontier,
    ledger.commitGroup_each, hwell.recover_eq, ?_⟩
  intro scan hscan
  rw [(wellFormed_initial root).recover_eq, hscan, commitGroup_eq, h.replays]
  rfl

end CausalLedger

end

section
attribute [local instance] emptyRelationCodec

def forkSteps : List DurableRevisionDescriptor := [emptyStep 5 6 1, emptyStep 5 7 2]

def resolveStep : DurableRevisionDescriptor where
  idempotencyEpoch := 0
  revisionEffectId := none
  transactionId := 3
  sourceRevision := 6
  targetRevision := 8
  intent := .relationResolution 6 8 (1, 1) [6, 7] ()
  change := (1, 1)

set_option maxRecDepth 100000 in
theorem commit_groups_keep_ledger_valid_of_resolution :
    ∃ ledger, CausalLedger.Commits 5 (([] ++ forkSteps) ++ [resolveStep]) ledger ∧
      CausalLedger.validateRevisionEffectState 5 ledger = .ok () ∧
      ∃ ideal, ledger.revisionEffectIdeal 8 = .ok (some ideal) ∧ ideal.events.keys = [1, 2, 3] ∧
        ∀ id ∈ [1, 2, 3], ledger.Below (singleFrontier 3) id := by
  let ids (ledger : CausalLedger) : Option (List RevisionEffectId) :=
    (ledger.revisionEffectIdeal 8).toOption.bind fun ideal => ideal.map (·.events.keys)
  have hrun : ((CausalLedger.initial 5).commitGroup forkSteps >>= fun ledger =>
      ledger.commitGroup [resolveStep]).toOption.map (fun ledger =>
        (ledger.frontiers[(8 : RevisionId)]?, ids ledger)) =
        some (some (singleFrontier 3), some [1, 2, 3]) := by decide +kernel
  obtain ⟨ledger, hledger, hafter⟩ := map_eq_some_iff.mp hrun
  obtain ⟨hfrontier, hids⟩ := Prod.mk.inj hafter
  obtain ⟨forked, hforked, hresolved⟩ := bind_eq_ok.mp (toOption_eq_some.mp hledger)
  have hcommits : CausalLedger.Commits 5 (([] ++ forkSteps) ++ [resolveStep]) ledger :=
    .group (.group .start hforked) hresolved
  obtain ⟨hvalid, hideals, _⟩ := CausalLedger.commit_groups_keep_ledger_valid hcommits
  obtain ⟨ideal, hideal, hevents⟩ := hideals 8 (singleFrontier 3) hfrontier
  have hkeys : ideal.events.keys = [1, 2, 3] := by
    simp only [ids, hideal, Except.toOption, bind_some, map_some] at hids
    exact Option.some.inj hids
  refine ⟨ledger, hcommits, hvalid, ideal, hideal, hkeys, ?_⟩
  intro id hid
  rw [← hkeys, ExtTreeMap.mem_keys, Effect.mem_events] at hid
  obtain ⟨event, hevent⟩ := hid
  exact ((hevents id event).mp hevent).1

end

end Cfmd.Durability
