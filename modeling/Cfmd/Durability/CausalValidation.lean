import Cfmd.Durability.CausalHistory

/-! What validation of a ledger says about the ideals of its revisions. It compares every
effect with the frontiers next to it only, so that effects which lead to each other in a
circle pass; such a circle is the one thing that makes an ideal fail later. -/

namespace Cfmd.Durability
open Std Lib Relation

section
variable [PayloadCodec]

/-- The revisions an effect starts from. -/
def DurableRevisionEffectRecord.causes (effect : DurableRevisionEffectRecord) : List RevisionId :=
  match effect.intent with
  | .relationResolution _ _ _ causalParents _ => causalParents
  | _ => [effect.sourceRevision]

variable {cut : ExtTreeSet RevisionEffectId}

omit [PayloadCodec] in
theorem mem_joinFrontiers {missing : String}
    {frontier : RevisionId → Option (ExtTreeSet RevisionEffectId)} {revisions : List RevisionId}
    (h : joinFrontiers missing frontier revisions = .ok cut) (id : RevisionEffectId) :
    id ∈ cut ↔ ∃ revision ∈ revisions, ∃ part, frontier revision = some part ∧ id ∈ part := by
  let I (cut : ExtTreeSet RevisionEffectId) (done : List RevisionId) : Prop :=
    id ∈ cut ↔ ∃ revision ∈ done, ∃ part, frontier revision = some part ∧ id ∈ part
  have hstart : I ∅ [] := by simp [I]
  refine foldlM_visited (I := I) ?_ revisions h hstart
  intro cut done revision cut' hcut hstep
  split at hstep
  · cases hstep
  rename_i part hpart
  cases hstep
  have hcut : id ∈ cut ↔ ∃ revision ∈ done, ∃ part, frontier revision = some part ∧ id ∈ part :=
    hcut
  show id ∈ cut ∪ part ↔ _
  rw [ExtTreeSet.mem_union_iff, hcut]
  simp [or_and_right, exists_or, hpart]

namespace CausalLedger
variable {root : RevisionId} {ledger : CausalLedger}

/-- The first effect is in the frontier of a revision the second one starts from. -/
def LeadsTo (ledger : CausalLedger) (before after : RevisionEffectId) : Prop :=
  ∃ effect, ledger.effects[after]? = some effect ∧ ∃ revision ∈ effect.causes, ∃ frontier,
    ledger.frontiers[revision]? = some frontier ∧ before ∈ frontier

theorem mem_expectedPrerequisites {effect : DurableRevisionEffectRecord}
    (h : ledger.expectedPrerequisites effect = .ok cut) (id : RevisionEffectId) :
    id ∈ cut ↔ ∃ revision ∈ effect.causes, ∃ frontier,
      ledger.frontiers[revision]? = some frontier ∧ id ∈ frontier := by
  unfold expectedPrerequisites at h
  unfold DurableRevisionEffectRecord.causes
  cases hintent : effect.intent with
  | relationResolution source target request causalParents intent =>
    rw [hintent] at h
    exact mem_joinFrontiers h id
  | _ =>
    rw [hintent] at h
    dsimp only at h ⊢
    split at h
    · cases h
    · rename_i frontier hfrontier
      cases h
      simp [hfrontier]

section
variable (h : validateRevisionEffectState root ledger = .ok ())
include h

/-- In a validated ledger the stored prerequisites are those of the frontiers. -/
theorem prerequisite_iff_leadsTo : Effect.Prerequisite ledger.events = ledger.LeadsTo := by
  obtain ⟨_, heffect, _⟩ := validateRevisionEffectState_eq_ok.mp h
  funext before after
  apply propext
  rw [prerequisite_events]
  constructor
  · rintro ⟨effect, hget, hmem⟩
    exact ⟨effect, hget, (mem_expectedPrerequisites (heffect after effect hget).cut before).mp hmem⟩
  · rintro ⟨effect, hget, hcause⟩
    exact ⟨effect, hget, (mem_expectedPrerequisites (heffect after effect hget).cut before).mpr hcause⟩

theorem mem_effects_of_below {revision : RevisionId} {frontier : ExtTreeSet RevisionEffectId}
    (hfrontier : ledger.frontiers[revision]? = some frontier) {id : RevisionEffectId}
    (hid : ledger.Below frontier id) : id ∈ ledger.effects := by
  obtain ⟨_, heffect, hfrontiers⟩ := validateRevisionEffectState_eq_ok.mp h
  apply hid.subset (S := (· ∈ ledger.effects))
  · exact fun a ha => hfrontiers revision frontier hfrontier a ha
  · rintro a b _ ⟨effect, hget, hmem⟩
    obtain ⟨cause, _, part, hpart, hb⟩ :=
      (mem_expectedPrerequisites (heffect a effect hget).cut b).mp hmem
    exact hfrontiers cause part hpart b hb

/-- The walk back from a frontier of a validated ledger succeeds for every revision exactly if
no effect leads back to itself. -/
theorem validated_ideals_iff :
    (∀ (revision : RevisionId) (frontier : ExtTreeSet RevisionEffectId),
      ledger.frontiers[revision]? = some frontier →
      ∃ ideal, ledger.revisionEffectIdeal revision = .ok (some ideal)) ↔
    ∀ id, ¬ TransGen ledger.LeadsTo id id := by
  have hdecides := fun revision frontier (hfrontier : ledger.frontiers[revision]? = some frontier) =>
    revisionEffectIdeal_decides hfrontier fun id hid => mem_effects_of_below h hfrontier hid
  rw [← prerequisite_iff_leadsTo h]
  constructor
  · intro hideals id hcycle
    -- the effect is the frontier of its own target
    obtain ⟨d, _, hlast⟩ := TransGen.tail'_iff.mp hcycle
    obtain ⟨effect, hget, _⟩ := prerequisite_events.mp hlast
    obtain ⟨_, heffect, _⟩ := validateRevisionEffectState_eq_ok.mp h
    have hfrontier := (heffect id effect hget).frontier
    obtain ⟨ideal, hrun⟩ := hideals _ _ hfrontier
    have hacyclic := ((hdecides _ _ hfrontier).of_eq_ok hrun).1
    exact hacyclic id (.root (mem_singleFrontier.mpr rfl)) hcycle
  · intro hacyclic revision frontier hfrontier
    obtain ⟨_, hrun, ideal, rfl, _⟩ := (hdecides revision frontier hfrontier).exists_ok
      fun id _ => hacyclic id
    exact ⟨ideal, hrun⟩

end

end CausalLedger

end

section
attribute [local instance] emptyRelationCodec

set_option maxRecDepth 100000 in
theorem validated_ideals_of_fork :
    ∃ ledger, (CausalLedger.initial 5).commitGroup forkSteps = .ok ledger ∧
      CausalLedger.validateRevisionEffectState 5 ledger = .ok () ∧
      ∀ (revision : RevisionId) (frontier : ExtTreeSet RevisionEffectId),
        ledger.frontiers[revision]? = some frontier →
        ∃ ideal, ledger.revisionEffectIdeal revision = .ok (some ideal) := by
  have hrun : ((CausalLedger.initial 5).commitGroup forkSteps).toOption.isSome = true := by
    decide +kernel
  obtain ⟨ledger, hledger⟩ := exists_ok_of_isSome hrun
  have hcommits : CausalLedger.Commits 5 ([] ++ forkSteps) ledger := .group .start hledger
  have hvalid := hcommits.wellFormed.validates
  refine ⟨ledger, hledger, hvalid, (CausalLedger.validated_ideals_iff hvalid).mpr ?_⟩
  rw [← CausalLedger.prerequisite_iff_leadsTo hvalid]
  exact hcommits.wellFormed.ideal.acyclic

def stepAfter (source target : RevisionId) (id prerequisite : RevisionEffectId) :
    DurableRevisionEffectRecord :=
  effectRecord (emptyStep source target id) (singleFrontier prerequisite)

def circleLedger : CausalLedger where
  effects := ExtTreeMap.ofList [(1, stepAfter 6 7 1 2), (2, stepAfter 7 6 2 1)] compare
  frontiers := ExtTreeMap.ofList [(5, ∅), (6, singleFrontier 2), (7, singleFrontier 1)] compare

set_option maxRecDepth 100000 in
theorem validated_circle_has_no_ideal :
    CausalLedger.validateRevisionEffectState 5 circleLedger = .ok () ∧
      circleLedger.frontiers[(6 : RevisionId)]? = some (singleFrontier 2) ∧
      ∀ ideal, circleLedger.revisionEffectIdeal 6 ≠ .ok ideal := by
  refine ⟨by decide +kernel, by decide +kernel, ?_⟩
  have hnone : (circleLedger.revisionEffectIdeal 6).toOption.isSome = false := by decide +kernel
  intro ideal h
  rw [h] at hnone
  cases hnone

end

end Cfmd.Durability
