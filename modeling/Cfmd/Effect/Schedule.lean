import Cfmd.Effect.Lattice

/-! The causal layers of two ideals that agree: the effects of one side that the
other does not have, each after the ones it depends on. -/

namespace Cfmd.Effect
open Std Lib Relation List Set

variable {E : Type} [DecidableEq E] {a : RevisionEffectIdeal E}

/-- The exclusive effects of `self` in layers: each once, and what an effect
depends on is common or in an earlier layer. -/
structure LayersOf (self common : Events E) (layers : List (ExtTreeSet RevisionEffectId)) :
    Prop where
  nonempty : ∀ layer ∈ layers, layer.isEmpty = false
  nodup : (layers.flatMap (·.toList)).Nodup
  mem_iff : ∀ id, (∃ layer ∈ layers, id ∈ layer) ↔ id ∈ self ∧ id ∉ common
  earlier : ∀ before layer after, layers = before ++ layer :: after → ∀ id ∈ layer, ∀ d,
    Prerequisite self d id → d ∈ common ∨ ∃ l ∈ before, d ∈ l

namespace RevisionEffectIdeal

def exclusiveEvents (self common : Events E) : List (RevisionEffect E) :=
  self.toList.filterMap fun (id, event) => if id ∈ common then none else some event

theorem exclusiveFrom_eq {self common : RevisionEffectIdeal E}
    (h : pairs common.events ⊆ pairs self.events) :
    self.exclusiveFrom common = .ok (exclusiveEvents self.events common.events) := by
  have hcheck : common.events.toList.forM (fun (p : RevisionEffectId × RevisionEffect E) =>
      if self.events[p.1]? ≠ some p.2 then (.error .notSubideal : Except RevisionEffectIdealError Unit)
      else .ok ()) = .ok () := by
    rw [forM_eq_forM, forM_eq_ok]
    intro p hp
    exact if_neg (not_not_intro (h (mem_toList_iff.mp hp)))
  show (common.events.toList.forM _ >>= _) = _
  rw [hcheck]
  rfl

variable {self common : Events E} {event : RevisionEffect E} {b : RevisionEffectIdeal E}

section
omit [DecidableEq E]

theorem mem_exclusiveEvents :
    event ∈ exclusiveEvents self common ↔
      ∃ id : RevisionEffectId, self[id]? = some event ∧ id ∉ common := by
  rw [exclusiveEvents, mem_filterMap]
  constructor
  · rintro ⟨⟨id, event'⟩, hmem, hsome⟩
    by_cases hid : id ∈ common
    · simp [hid] at hsome
    · simp only [hid, if_false, Option.some.injEq] at hsome
      exact ⟨id, hsome ▸ mem_toList_iff.mp hmem, hid⟩
  · rintro ⟨id, hget, hid⟩
    exact ⟨(id, event), mem_toList_iff.mpr hget, if_neg hid⟩

theorem exclusiveIds_nodup (hself : IsIdeal self) :
    ((exclusiveEvents self common).map (·.id)).Nodup := by
  have hids : (exclusiveEvents self common).map (·.id) =
      (self.toList.filter (·.1 ∉ common)).map Prod.fst := by
    have hentry : ∀ p ∈ self.toList, p.2.id = p.1 := fun p hp =>
      hself.keyed p.1 p.2 (mem_toList_iff.mp hp)
    unfold exclusiveEvents
    generalize self.toList = entries at hentry
    induction entries with
    | nil => rfl
    | cons p entries ih =>
      obtain ⟨hp, hentries⟩ := forall_mem_cons.mp hentry
      by_cases hid : p.1 ∈ common
      · simpa [filterMap_cons, hid] using ih hentries
      · simpa [filterMap_cons, hid, hp] using ih hentries
  rw [hids]
  exact (filter_sublist.map _).nodup (nodup_fst_toList self)

theorem mem_exclusiveIds (hself : IsIdeal self) {id : RevisionEffectId} :
    id ∈ (exclusiveEvents self common).map (·.id) ↔ id ∈ self ∧ id ∉ common := by
  rw [mem_map, mem_events]
  constructor
  · rintro ⟨event, hmem, rfl⟩
    obtain ⟨id, hget, hid⟩ := mem_exclusiveEvents.mp hmem
    rw [hself.keyed id event hget]
    exact ⟨⟨event, hget⟩, hid⟩
  · rintro ⟨⟨event, hget⟩, hid⟩
    exact ⟨event, mem_exclusiveEvents.mpr ⟨id, hget, hid⟩, hself.keyed id event hget⟩

def exclusiveGraph (hself : IsIdeal self) (common : Events E) : DepGraph RevisionEffectId where
  nodes := (exclusiveEvents self common).map (·.id)
  deps x := (prerequisitesOf self x).filter
    (· ∈ ExtTreeSet.ofList ((exclusiveEvents self common).map (·.id)))
  nodup := exclusiveIds_nodup hself
  deps_nodup := fun x _ => (nodup_prerequisitesOf self x).filter _
  deps_mem := by
    intro x _ d hd
    rw [mem_filter, decide_eq_true_eq, ExtTreeSet.mem_ofList, contains_iff_mem] at hd
    exact hd.2

theorem mem_exclusiveDeps (hself : IsIdeal self) {d x : RevisionEffectId} :
    d ∈ (exclusiveGraph hself common).deps x ↔ Prerequisite self d x ∧ d ∈ self ∧ d ∉ common := by
  show d ∈ List.filter _ _ ↔ _
  rw [mem_filter, decide_eq_true_eq, ExtTreeSet.mem_ofList, contains_iff_mem,
    mem_exclusiveIds hself, mem_prerequisitesOf]

theorem acyclic_exclusiveGraph (hself : IsIdeal self) (common : Events E) :
    (exclusiveGraph hself common).Acyclic := by
  intro x hcycle
  have hsub : (exclusiveGraph hself common).Waits ≤ Prerequisite self := by
    rintro d y ⟨_, hd⟩
    exact ((mem_exclusiveDeps hself).mp hd).1
  exact hself.acyclic x (TransGen.mono hsub x x hcycle)

theorem prerequisitesOf_exclusive (hself : IsIdeal self)
    (hevent : event ∈ exclusiveEvents self common) :
    prerequisitesOf self event.id = event.prerequisites.toList := by
  obtain ⟨id, hget, _⟩ := mem_exclusiveEvents.mp hevent
  rw [hself.keyed id event hget, prerequisitesOf, hget]
  rfl

theorem exclusiveCounters_pending (exclusive : List (RevisionEffect E)) :
    (exclusiveCounters exclusive).1 = exclusive.foldl (fun pending event =>
      pending.insert event.id
        (exclusivePrerequisites (.ofList (exclusive.map (·.id))) event).length) ∅ :=
  (foldl_hom Prod.fst fun _ _ => rfl).symm

theorem exclusiveCounters_successors (exclusive : List (RevisionEffect E)) :
    (exclusiveCounters exclusive).2 = exclusive.foldl (fun successors event =>
      (exclusivePrerequisites (.ofList (exclusive.map (·.id))) event).foldl
        (fun successors prerequisite =>
          Kahn.pushSuccessor successors prerequisite event.id) successors) ∅ :=
  (foldl_hom Prod.snd fun _ _ => rfl).symm

theorem counts_exclusiveGraph (hself : IsIdeal self) (common : Events E) :
    Kahn.Counts (exclusiveGraph hself common) []
      (exclusiveCounters (exclusiveEvents self common)).1 := by
  apply Kahn.counts_nil
  intro x n
  rw [exclusiveCounters_pending, getElem?_foldl_insert _ _ _ (exclusiveIds_nodup hself)]
  show _ ↔ x ∈ List.map _ _ ∧ n = (List.filter _ _).length
  rw [mem_map]
  constructor
  · rintro ⟨event, hevent, rfl, rfl⟩
    rw [prerequisitesOf_exclusive hself hevent]
    exact ⟨⟨event, hevent, rfl⟩, rfl⟩
  · rintro ⟨⟨event, hevent, rfl⟩, rfl⟩
    rw [prerequisitesOf_exclusive hself hevent]
    exact ⟨event, hevent, rfl, rfl⟩

theorem indexes_exclusiveGraph (hself : IsIdeal self) (common : Events E) :
    Kahn.Indexes (exclusiveGraph hself common)
      (exclusiveCounters (exclusiveEvents self common)).2 := by
  have hindex := Kahn.indexes_foldl (g := exclusiveGraph hself common)
    (exclusiveGraph hself common).deps fun _ _ => rfl
  rw [exclusiveCounters_successors]
  have hnodes : (exclusiveGraph hself common).nodes =
      (exclusiveEvents self common).map (·.id) := rfl
  rw [hnodes, foldl_map] at hindex
  refine cast (congrArg _ (foldl_ext _ _ _ ?_)) hindex
  intro successors event hevent
  show List.foldl _ _ (List.filter _ (prerequisitesOf self event.id)) = _
  rw [prerequisitesOf_exclusive hself hevent]
  rfl

end

theorem exclusiveCausalLayersFrom_spec {self common : RevisionEffectIdeal E}
    (hself : IsIdeal self.events) (hsub : pairs common.events ⊆ pairs self.events) :
    ∃ layers, self.exclusiveCausalLayersFrom common = .ok layers ∧
      LayersOf self.events common.events layers := by
  have hcounts := counts_exclusiveGraph hself common.events
  have hsize : (exclusiveGraph hself common.events).nodes.length <
      (exclusiveCounters (exclusiveEvents self.events common.events)).1.size + 1 :=
    Nat.lt_succ_of_le (Kahn.length_nodes_le hcounts)
  obtain ⟨layers, pending, hdrain, hlayered, htopological, hstuck, hempty⟩ :=
    Kahn.drainLayers_start (ε := RevisionEffectIdealError)
      (indexes_exclusiveGraph hself common.events) notReady notPending hcounts hsize
  have hacyclic := acyclic_exclusiveGraph hself common.events
  have hall := hacyclic.all_done hstuck
  refine ⟨layers, ?_, ?_⟩
  · unfold exclusiveCausalLayersFrom
    rw [exclusiveFrom_eq hsub, Fallible.lift_ok, Fallible.ok_bind]
    dsimp only
    rw [hdrain]
    exact if_pos (hempty.mpr hacyclic)
  · have hmem : ∀ id, (∃ layer ∈ layers, id ∈ layer) ↔ id ∈ self.events ∧ id ∉ common.events := by
      intro id
      rw [← mem_exclusiveIds hself]
      have hflat : id ∈ Kahn.flat layers ↔ ∃ layer ∈ layers, id ∈ layer := by
        simp [Kahn.flat, mem_flatMap]
      rw [← hflat]
      exact ⟨htopological.mem_nodes id, hall id⟩
    refine ⟨hlayered.isEmpty, htopological.nodup, hmem, ?_⟩
    intro before layer after hsplit id hid d hd
    by_cases hcommon : d ∈ common.events
    · exact .inl hcommon
    have hdself := hself.downClosed d id hd
    have hdeps := (mem_exclusiveDeps hself).mpr ⟨hd, hdself, hcommon⟩
    have hbefore := hlayered.earlier hsplit hid d hdeps
    right
    simpa [Kahn.flat, mem_flatMap] using hbefore

theorem commonIdeal_eq_error {e : RevisionEffectIdealError} (h : a.commonIdeal b = .error e) :
    ∃ id, e = .effectIdentityConflict id := by
  unfold commonIdeal at h
  rcases hfold : a.events.toList.foldlM (shareEvent b.events) ∅ with e' | common
  · rw [hfold] at h
    cases h
    obtain ⟨common, p, _, hfail⟩ := foldlM_eq_error hfold
    unfold shareEvent at hfail
    split at hfail
    · cases hfail
    split at hfail
    · cases hfail
      exact ⟨p.1, rfl⟩
    · cases hfail
  · rw [hfold] at h
    cases h

theorem causalLayerSchedule_of_agree (ha : IsIdeal a.events) (hb : IsIdeal b.events)
    (hagree : Agree a.events b.events) :
    ∃ common schedule, a.commonIdeal b = .ok common ∧ a.causalLayerSchedule b = .ok schedule ∧
      schedule.common = ExtTreeSet.ofList common.events.keys ∧
      LayersOf a.events common.events schedule.leftLayers ∧
      LayersOf b.events common.events schedule.rightLayers := by
  obtain ⟨common, hcommon⟩ := exists_commonIdeal hagree
  have hpairs := (commonIdeal_eq_ok.mp hcommon).2
  obtain ⟨left, hleft, hleftLayers⟩ :=
    exclusiveCausalLayersFrom_spec ha (hpairs ▸ inter_subset_left)
  obtain ⟨right, hright, hrightLayers⟩ :=
    exclusiveCausalLayersFrom_spec hb (hpairs ▸ inter_subset_right)
  refine ⟨common, ⟨_, left, right⟩, hcommon, ?_, rfl, hleftLayers, hrightLayers⟩
  unfold causalLayerSchedule
  rw [hcommon, Fallible.lift_ok, Fallible.ok_bind, hleft, hright]
  rfl

end RevisionEffectIdeal

/-! ### The partial lattice -/

def Built (a : RevisionEffectIdeal E) : Prop := ∃ events, RevisionEffectIdeal.new events = .ok a

open RevisionEffectIdeal (new)

omit [DecidableEq E] in
theorem Built.isIdeal (h : Built a) : IsIdeal a.events := by
  obtain ⟨events, hnew⟩ := h
  exact isIdeal_of_new hnew

section
variable {a b c : RevisionEffectIdeal E} {d ab bc : RevisionEffectIdeal E}

open RevisionEffectIdeal

theorem new_of_commonIdeal_or_union (ha : IsIdeal a.events) (hb : IsIdeal b.events)
    (h : a.commonIdeal b = .ok d ∨ a.union b = .ok d) :
    new d.events.effects = .ok d := by
  apply new_effects
  rcases h with h | h
  · obtain ⟨hagree, hpairs⟩ := commonIdeal_eq_ok.mp h
    exact ha.inter hb hagree hpairs
  · obtain ⟨hagree, hpairs⟩ := union_eq_ok.mp h
    exact ha.sup hb hagree hpairs

theorem commonIdeal_comm : a.commonIdeal b = .ok d ↔ b.commonIdeal a = .ok d := by
  rw [commonIdeal_eq_ok, commonIdeal_eq_ok, inter_comm]
  exact and_congr_left fun _ => ⟨Agree.symm, Agree.symm⟩

theorem union_comm : a.union b = .ok d ↔ b.union a = .ok d := by
  rw [union_eq_ok, union_eq_ok, Set.union_comm]
  exact and_congr_left fun _ => ⟨Agree.symm, Agree.symm⟩

theorem commonIdeal_self : a.commonIdeal a = .ok a :=
  commonIdeal_eq_ok.mpr ⟨.refl _, (inter_self _).symm⟩

theorem union_self : a.union a = .ok a := union_eq_ok.mpr ⟨.refl _, (Set.union_self _).symm⟩

theorem commonIdeal_of_union (h : a.union b = .ok d) : a.commonIdeal d = .ok a := by
  obtain ⟨hagree, hpairs⟩ := union_eq_ok.mp h
  refine commonIdeal_eq_ok.mpr ⟨?_, ?_⟩
  · exact ((Agree.refl _).of_union hagree.symm hpairs).symm
  · rw [hpairs, inter_eq_left.mpr subset_union_left]

theorem union_of_commonIdeal (h : a.commonIdeal b = .ok d) : a.union d = .ok a := by
  obtain ⟨_, hpairs⟩ := commonIdeal_eq_ok.mp h
  refine union_eq_ok.mpr ⟨?_, ?_⟩
  · exact ((Agree.refl _).of_subset (hpairs ▸ inter_subset_left)).symm
  · rw [hpairs, union_eq_left.mpr inter_subset_left]

theorem commonIdeal_assoc (hac : Agree a.events c.events) (hab : a.commonIdeal b = .ok ab)
    (hbc : b.commonIdeal c = .ok bc) :
    ∃ d, ab.commonIdeal c = .ok d ∧ a.commonIdeal bc = .ok d := by
  obtain ⟨_, hpairs⟩ := commonIdeal_eq_ok.mp hab
  obtain ⟨_, hpairs'⟩ := commonIdeal_eq_ok.mp hbc
  have hagree : Agree ab.events c.events := hac.of_subset (hpairs ▸ inter_subset_left)
  have hagree' : Agree bc.events a.events := hac.symm.of_subset (hpairs' ▸ inter_subset_right)
  obtain ⟨d, hd⟩ := exists_commonIdeal hagree
  refine ⟨d, hd, commonIdeal_eq_ok.mpr ⟨hagree'.symm, ?_⟩⟩
  rw [(commonIdeal_eq_ok.mp hd).2, hpairs, hpairs', inter_assoc]

theorem union_assoc (hac : Agree a.events c.events) (hab : a.union b = .ok ab)
    (hbc : b.union c = .ok bc) :
    ∃ d, ab.union c = .ok d ∧ a.union bc = .ok d := by
  obtain ⟨hagree, hpairs⟩ := union_eq_ok.mp hab
  obtain ⟨hagree', hpairs'⟩ := union_eq_ok.mp hbc
  obtain ⟨d, hd⟩ := exists_union (hac.of_union hagree' hpairs)
  refine ⟨d, hd, union_eq_ok.mpr ⟨(hagree.symm.of_union hac.symm hpairs').symm, ?_⟩⟩
  rw [(union_eq_ok.mp hd).2, hpairs, hpairs', Set.union_assoc]

/-- Ideals form a partial lattice, with a causal schedule for every pair that
agrees. -/
theorem effect_ideals_form_partial_lattice (ha : Built a) (hb : Built b) :
    (∀ d, a.commonIdeal b = .ok d ∨ a.union b = .ok d → new d.events.effects = .ok d) ∧
    ((∃ d, a.commonIdeal b = .ok d) ↔ Agree a.events b.events) ∧
    ((∃ d, a.union b = .ok d) ↔ Agree a.events b.events) ∧
    (∀ d, a.commonIdeal b = .ok d ↔ b.commonIdeal a = .ok d) ∧
    (∀ d, a.union b = .ok d ↔ b.union a = .ok d) ∧
    a.commonIdeal a = .ok a ∧ a.union a = .ok a ∧
    (∀ d, a.union b = .ok d → a.commonIdeal d = .ok a) ∧
    (∀ d, a.commonIdeal b = .ok d → a.union d = .ok a) ∧
    (Agree a.events b.events → Agree b.events c.events → Agree a.events c.events →
      (∃ ab bc d, a.commonIdeal b = .ok ab ∧ b.commonIdeal c = .ok bc ∧
        ab.commonIdeal c = .ok d ∧ a.commonIdeal bc = .ok d) ∧
      ∃ ab bc d, a.union b = .ok ab ∧ b.union c = .ok bc ∧
        ab.union c = .ok d ∧ a.union bc = .ok d) ∧
    (Agree a.events b.events → ∃ common schedule, a.commonIdeal b = .ok common ∧
      a.causalLayerSchedule b = .ok schedule ∧
      schedule.common = ExtTreeSet.ofList common.events.keys ∧
      LayersOf a.events common.events schedule.leftLayers ∧
      LayersOf b.events common.events schedule.rightLayers) ∧
    (¬ Agree a.events b.events →
      ∃ id, a.causalLayerSchedule b = .error (.error (.effectIdentityConflict id))) := by
  refine ⟨fun d => new_of_commonIdeal_or_union ha.isIdeal hb.isIdeal, ?_, ?_,
    fun _ => commonIdeal_comm, fun _ => union_comm, commonIdeal_self, union_self,
    fun _ => commonIdeal_of_union, fun _ => union_of_commonIdeal, ?_,
    causalLayerSchedule_of_agree ha.isIdeal hb.isIdeal, ?_⟩
  · exact ⟨fun ⟨d, hd⟩ => (commonIdeal_eq_ok.mp hd).1, exists_commonIdeal⟩
  · exact ⟨fun ⟨d, hd⟩ => (union_eq_ok.mp hd).1, exists_union⟩
  · intro hab hbc hac
    constructor
    · obtain ⟨ab, habd⟩ := exists_commonIdeal hab
      obtain ⟨bc, hbcd⟩ := exists_commonIdeal hbc
      obtain ⟨d, hd⟩ := commonIdeal_assoc hac habd hbcd
      exact ⟨ab, bc, d, habd, hbcd, hd⟩
    · obtain ⟨ab, habd⟩ := exists_union hab
      obtain ⟨bc, hbcd⟩ := exists_union hbc
      obtain ⟨d, hd⟩ := union_assoc hac habd hbcd
      exact ⟨ab, bc, d, habd, hbcd, hd⟩
  · intro hdisagree
    rcases hcommon : a.commonIdeal b with e | d
    · obtain ⟨id, rfl⟩ := commonIdeal_eq_error hcommon
      refine ⟨id, ?_⟩
      unfold causalLayerSchedule
      rw [hcommon]
      rfl
    · exact absurd (commonIdeal_eq_ok.mp hcommon).1 hdisagree

end

def forkEffects (branch : RevisionEffectId) : List (RevisionEffect Unit) :=
  [⟨1, ∅, ()⟩, ⟨branch, ExtTreeSet.ofList [(1 : RevisionEffectId)], ()⟩]

/-- Two branches that share their first effect. -/
theorem fork_shares_first :
    ∃ a b c : RevisionEffectIdeal Unit, new (forkEffects 2) = .ok a ∧
      new (forkEffects 3) = .ok b ∧ a.commonIdeal b = .ok c ∧
      c.events.keys = [1] := by
  have hrun : ((new (forkEffects 2)).toOption.bind fun a =>
      (new (forkEffects 3)).toOption.bind fun b =>
        (a.commonIdeal b).toOption.map fun c => (a, b, c, c.events.keys)).map (·.2.2.2) =
      some [1] := by decide +kernel
  obtain ⟨⟨a, b, c, keys⟩, hrun, hkeys⟩ := Option.map_eq_some_iff.mp hrun
  obtain ⟨a', ha, hrun⟩ := Option.bind_eq_some_iff.mp hrun
  obtain ⟨b', hb, hrun⟩ := Option.bind_eq_some_iff.mp hrun
  obtain ⟨c', hc, hrun⟩ := Option.map_eq_some_iff.mp hrun
  cases hrun
  exact ⟨a, b, c, toOption_eq_some.mp ha, toOption_eq_some.mp hb, toOption_eq_some.mp hc, hkeys⟩

theorem effect_ideals_form_partial_lattice_of_fork :
    ∃ a b : RevisionEffectIdeal Unit, new (forkEffects 2) = .ok a ∧
      new (forkEffects 3) = .ok b ∧
      ∃ common schedule, a.commonIdeal b = .ok common ∧ a.causalLayerSchedule b = .ok schedule ∧
        LayersOf a.events common.events schedule.leftLayers ∧
        LayersOf b.events common.events schedule.rightLayers := by
  obtain ⟨a, b, c, ha, hb, hc, _⟩ := fork_shares_first
  obtain ⟨_, hagree, _, _, _, _, _, _, _, _, hschedule, _⟩ :=
    effect_ideals_form_partial_lattice (c := c) ⟨_, ha⟩ ⟨_, hb⟩
  obtain ⟨common, schedule, hcommon, hrun, _, hleft, hright⟩ := hschedule (hagree.mp ⟨c, hc⟩)
  exact ⟨a, b, ha, hb, common, schedule, hcommon, hrun, hleft, hright⟩

end Cfmd.Effect
