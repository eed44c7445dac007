import Cfmd.Lib.Kahn
import Cfmd.Types

/-! Revision effects and their ideals: sets of effects that hold the prerequisites
of each member. `RevisionEffectIdeal.new` checks this and that no effect comes
before itself; the intersection and the union of two ideals are built without the
check. -/

namespace Cfmd.Effect
open List hiding ext_getElem? getElem?_map
open Std Lib Relation ExtTreeMap

abbrev RevisionEffectId := Id128

structure RevisionEffect (E : Type) where
  id : RevisionEffectId
  prerequisites : ExtTreeSet RevisionEffectId
  payload : E
deriving DecidableEq

abbrev Events (E : Type) := ExtTreeMap RevisionEffectId (RevisionEffect E)

def Events.effects {E : Type} (events : Events E) : List (RevisionEffect E) :=
  events.toList.map Prod.snd

structure RevisionEffectIdeal (E : Type) where
  events : Events E
deriving DecidableEq

inductive RevisionEffectIdealError
  | duplicateEffect (id : RevisionEffectId)
  | missingPrerequisite (effect prerequisite : RevisionEffectId)
  | cyclicPrerequisites (ids : ExtTreeSet RevisionEffectId)
  | effectIdentityConflict (id : RevisionEffectId)
  | notSubideal
deriving DecidableEq

structure RevisionEffectCausalLayerSchedule where
  common : ExtTreeSet RevisionEffectId
  leftLayers : List (ExtTreeSet RevisionEffectId)
  rightLayers : List (ExtTreeSet RevisionEffectId)
deriving DecidableEq

variable {E : Type} {events : List (RevisionEffect E)} {byId : Events E} {event : RevisionEffect E}
  {d x id : RevisionEffectId}

def insertEvent (byId : Events E) (event : RevisionEffect E) :
    Except RevisionEffectIdealError (Events E) :=
  if event.id ∈ byId then .error (.duplicateEffect event.id)
  else .ok (byId.insert event.id event)

def collectEvents (events : List (RevisionEffect E)) :
    Except RevisionEffectIdealError (Events E) := events.foldlM insertEvent ∅

def checkPrerequisites (byId : Events E) : Except RevisionEffectIdealError Unit :=
  byId.effects.forM fun event => event.prerequisites.toList.forM fun prerequisite =>
    if prerequisite ∈ byId then .ok () else .error (.missingPrerequisite event.id prerequisite)

def notReady : String := "ready effects must still be pending"

def notPending : String := "dependent must remain pending until all prerequisites complete"

namespace RevisionEffectIdeal

def new (events : List (RevisionEffect E)) :
    Fallible RevisionEffectIdealError (RevisionEffectIdeal E) := do
  let byId ← Fallible.lift (collectEvents events)
  Fallible.lift (checkPrerequisites byId)
  let pending := byId.map fun _ event => event.prerequisites.size
  let successors := byId.effects.foldl (fun successors event =>
    event.prerequisites.toList.foldl (fun successors prerequisite =>
      Kahn.pushSuccessor successors prerequisite event.id) successors) ∅
  let state ← Kahn.drain notReady notPending successors (byId.size + 1)
    { pending, ready := Kahn.zeros pending }
  if state.pending.isEmpty then return { events := byId }
  else .error (.error (.cyclicPrerequisites (ExtTreeSet.ofList state.pending.keys)))

variable [DecidableEq E]

def shareEvent (other common : Events E) (entry : RevisionEffectId × RevisionEffect E) :
    Except RevisionEffectIdealError (Events E) :=
  match other[entry.1]? with
  | none => .ok common
  | some otherEvent =>
    if entry.2 ≠ otherEvent then .error (.effectIdentityConflict entry.1)
    else .ok (common.insert entry.1 entry.2)

def commonIdeal (self other : RevisionEffectIdeal E) :
    Except RevisionEffectIdealError (RevisionEffectIdeal E) := do
  return { events := ← self.events.toList.foldlM (shareEvent other.events) ∅ }

def exclusiveFrom (self common : RevisionEffectIdeal E) :
    Except RevisionEffectIdealError (List (RevisionEffect E)) := do
  common.events.toList.forM fun (id, event) =>
    if self.events[id]? ≠ some event then .error .notSubideal else .ok ()
  return self.events.toList.filterMap fun (id, event) =>
    if id ∈ common.events then none else some event

def joinEvent (union : Events E) (entry : RevisionEffectId × RevisionEffect E) :
    Except RevisionEffectIdealError (Events E) :=
  match union[entry.1]? with
  | some existing =>
    if existing ≠ entry.2 then .error (.effectIdentityConflict entry.1) else .ok union
  | none => .ok (union.insert entry.1 entry.2)

def union (self other : RevisionEffectIdeal E) :
    Except RevisionEffectIdealError (RevisionEffectIdeal E) := do
  return { events := ← other.events.toList.foldlM joinEvent self.events }

def exclusivePrerequisites (exclusiveIds : ExtTreeSet RevisionEffectId)
    (event : RevisionEffect E) : List RevisionEffectId :=
  event.prerequisites.toList.filter (· ∈ exclusiveIds)

def exclusiveCounters (exclusive : List (RevisionEffect E)) :
    ExtTreeMap RevisionEffectId ℕ × ExtTreeMap RevisionEffectId (List RevisionEffectId) :=
  let exclusiveIds := ExtTreeSet.ofList (exclusive.map (·.id))
  exclusive.foldl (fun (pending, successors) event =>
    (pending.insert event.id (exclusivePrerequisites exclusiveIds event).length,
      (exclusivePrerequisites exclusiveIds event).foldl (fun successors prerequisite =>
        Kahn.pushSuccessor successors prerequisite event.id) successors)) (∅, ∅)

def exclusiveCausalLayersFrom (self common : RevisionEffectIdeal E) :
    Fallible RevisionEffectIdealError (List (ExtTreeSet RevisionEffectId)) := do
  let exclusive ← Fallible.lift (self.exclusiveFrom common)
  let counters := exclusiveCounters exclusive
  let (layers, pending) ← Kahn.drainLayers notReady notPending counters.2 (counters.1.size + 1)
    { pending := counters.1, ready := Kahn.zeros counters.1 } []
  if pending.isEmpty then return layers
  else .error (.error (.cyclicPrerequisites (ExtTreeSet.ofList pending.keys)))

def causalLayerSchedule (self other : RevisionEffectIdeal E) :
    Fallible RevisionEffectIdealError RevisionEffectCausalLayerSchedule := do
  let common ← Fallible.lift (self.commonIdeal other)
  return {
    common := ExtTreeSet.ofList common.events.keys
    leftLayers := ← self.exclusiveCausalLayersFrom common
    rightLayers := ← other.exclusiveCausalLayersFrom common }

end RevisionEffectIdeal

/-! ### What `new` accepts -/

def Prerequisite (events : Events E) (d x : RevisionEffectId) : Prop :=
  ∃ event, events[x]? = some event ∧ d ∈ event.prerequisites

/-- Every effect is found under its own id, with its prerequisites, and none comes
before itself. -/
structure IsIdeal (events : Events E) : Prop where
  keyed : ∀ (id : RevisionEffectId) (event : RevisionEffect E), events[id]? = some event →
    event.id = id
  downClosed : ∀ d x, Prerequisite events d x → d ∈ events
  acyclic : ∀ x, ¬ TransGen (Prerequisite events) x x

theorem isIdeal_empty : IsIdeal (∅ : Events E) := by
  have hnone : ∀ d x, ¬ Prerequisite (∅ : Events E) d x := by
    rintro d x ⟨event, hget, _⟩
    simp at hget
  refine ⟨fun id event hget => by simp at hget, fun d x h => absurd h (hnone d x), ?_⟩
  intro x hcycle
  obtain ⟨d, hfirst, _⟩ := TransGen.head'_iff.mp hcycle
  exact hnone x d hfirst

def ById (events : List (RevisionEffect E)) (byId : Events E) : Prop :=
  ∀ (id : RevisionEffectId) (event : RevisionEffect E),
    byId[id]? = some event ↔ event ∈ events ∧ event.id = id

theorem events_ext {a b : Events E} (h : ∀ (id : RevisionEffectId) (event : RevisionEffect E),
    a[id]? = some event ↔ b[id]? = some event) : a = b := by
  apply ext_getElem?
  intro id
  exact Option.ext (h id)

theorem ById.unique {a b : Events E} (ha : ById events a) (hb : ById events b) : a = b :=
  events_ext fun id event => (ha id event).trans (hb id event).symm

theorem ById.mem_iff (h : ById events byId) : id ∈ byId ↔ id ∈ events.map (·.id) := by
  rw [← isSome_getElem?_iff_mem, Option.isSome_iff_exists, mem_map]
  exact exists_congr fun event => h id event

theorem ById.snoc (h : ById events byId) (hnew : event.id ∉ byId) :
    ById (events ++ [event]) (byId.insert event.id event) := by
  intro id event'
  rw [getElem?_insert_eq_some, h, mem_append, mem_singleton]
  constructor
  · rintro (⟨rfl, rfl⟩ | ⟨_, hmem, hid⟩)
    · exact ⟨.inr rfl, rfl⟩
    · exact ⟨.inl hmem, hid⟩
  · rintro ⟨hmem | rfl, hid⟩
    · refine .inr ⟨?_, hmem, hid⟩
      intro heq
      exact hnew (h.mem_iff.mpr (mem_map.mpr ⟨event', hmem, hid.trans heq.symm⟩))
    · exact .inl ⟨hid, rfl⟩

theorem byId_of_collectEvents (h : collectEvents events = .ok byId) :
    (events.map (·.id)).Nodup ∧ ById events byId := by
  let I (byId : Events E) (seen : List (RevisionEffect E)) : Prop :=
    (seen.map (·.id)).Nodup ∧ ById seen byId
  have hstart : I ∅ [] := ⟨nodup_nil, fun id event => by simp⟩
  refine foldlM_visited (I := I) ?_ events h hstart
  rintro byId seen event byId' ⟨hnodup, hbyId⟩ hstep
  unfold insertEvent at hstep
  split_ifs at hstep with hnew
  cases hstep
  refine ⟨?_, hbyId.snoc hnew⟩
  rw [map_append]
  exact hnodup.append (nodup_singleton _)
    (disjoint_singleton.mpr fun hmem => hnew (hbyId.mem_iff.mpr hmem))

theorem exists_collectEvents (hnodup : (events.map (·.id)).Nodup) :
    ∃ byId, collectEvents events = .ok byId := by
  let I (byId : Events E) (rest : List (RevisionEffect E)) : Prop :=
    (rest.map (·.id)).Nodup ∧ ∀ event ∈ rest, event.id ∉ byId
  have hstep : ∀ byId event rest, I byId (event :: rest) →
      ∃ byId', insertEvent byId event = .ok byId' ∧ I byId' rest := by
    rintro byId event rest ⟨hnodup, hfree⟩
    rw [map_cons, nodup_cons] at hnodup
    rw [forall_mem_cons] at hfree
    refine ⟨_, if_neg hfree.1, hnodup.2, ?_⟩
    intro event' hevent' hmem
    rw [mem_insert] at hmem
    rcases hmem with heq | hmem
    · exact hnodup.1 (mem_map.mpr ⟨event', hevent', (LawfulEqCmp.eq_of_compare heq).symm⟩)
    · exact hfree.2 event' hevent' hmem
  obtain ⟨byId, hcollect, _⟩ := foldlM_rest hstep events (s := ∅) ⟨hnodup, fun _ _ => not_mem_empty⟩
  exact ⟨byId, hcollect⟩

theorem mem_events {events : Events E} : id ∈ events ↔ ∃ event, events[id]? = some event := by
  rw [← isSome_getElem?_iff_mem, Option.isSome_iff_exists]

theorem mem_effects {events : Events E} :
    event ∈ events.effects ↔ ∃ id : RevisionEffectId, events[id]? = some event := by
  rw [Events.effects, mem_map]
  constructor
  · rintro ⟨⟨id, event'⟩, hmem, rfl⟩
    exact ⟨id, mem_toList_iff_getElem?_eq_some.mp hmem⟩
  · rintro ⟨id, hget⟩
    exact ⟨(id, event), mem_toList_iff_getElem?_eq_some.mpr hget, rfl⟩

theorem checkPrerequisites_eq_ok :
    checkPrerequisites byId = .ok () ↔ ∀ d x, Prerequisite byId d x → d ∈ byId := by
  unfold checkPrerequisites
  simp only [List.forM_eq_forM, forM_eq_ok, mem_effects, ExtTreeSet.mem_toList]
  constructor
  · rintro h d x ⟨event, hget, hd⟩
    have hcheck := h event ⟨x, hget⟩ d hd
    by_contra hnot
    rw [if_neg hnot] at hcheck
    cases hcheck
  · rintro h event ⟨x, hget⟩ d hd
    exact if_pos (h d x ⟨event, hget, hd⟩)

/-! ### The graph of an ideal -/

def prerequisitesOf (events : Events E) (id : RevisionEffectId) : List RevisionEffectId :=
  (events[id]?.map (·.prerequisites.toList)).getD []

theorem mem_prerequisitesOf {events : Events E} :
    d ∈ prerequisitesOf events x ↔ Prerequisite events d x := by
  unfold prerequisitesOf Prerequisite
  cases events[x]? with
  | none | some event => simp

theorem nodup_prerequisitesOf (events : Events E) (x : RevisionEffectId) :
    (prerequisitesOf events x).Nodup := by
  unfold prerequisitesOf
  cases events[x]? with
  | none => exact nodup_nil
  | some event => exact nodup_set_toList event.prerequisites

def effectGraph (events : Events E) (h : ∀ d x, Prerequisite events d x → d ∈ events) :
    DepGraph RevisionEffectId where
  nodes := events.keys
  deps := prerequisitesOf events
  nodup := nodup_keys events
  deps_nodup := fun x _ => nodup_prerequisitesOf events x
  deps_mem := fun x _ d hd => mem_keys.mpr (h d x (mem_prerequisitesOf.mp hd))

section
variable {events : Events E} (hclosed : ∀ d x, Prerequisite events d x → d ∈ events)

theorem waits_effectGraph : (effectGraph events hclosed).Waits d x ↔ Prerequisite events d x := by
  constructor
  · rintro ⟨_, hd⟩
    exact mem_prerequisitesOf.mp hd
  · intro h
    refine ⟨mem_keys.mpr ?_, mem_prerequisitesOf.mpr h⟩
    obtain ⟨event, hget, _⟩ := h
    exact mem_events.mpr ⟨event, hget⟩

theorem acyclic_effectGraph :
    (effectGraph events hclosed).Acyclic ↔ ∀ x, ¬ TransGen (Prerequisite events) x x := by
  have heq : (effectGraph events hclosed).Waits = Prerequisite events := by
    funext d x
    exact propext (waits_effectGraph hclosed)
  rw [DepGraph.Acyclic, heq]

theorem counts_effectGraph :
    Kahn.Counts (effectGraph events hclosed) [] (events.map fun _ event => event.prerequisites.size) := by
  apply Kahn.counts_nil
  intro x n
  show _ ↔ x ∈ events.keys ∧ n = (prerequisitesOf events x).length
  rw [getElem?_map, ExtTreeMap.mem_keys, mem_events, prerequisitesOf]
  cases events[x]? with
  | none => simp
  | some event => simp [eq_comm]

theorem indexes_effectGraph
    (hkeyed : ∀ (id : RevisionEffectId) (event : RevisionEffect E), events[id]? = some event →
      event.id = id) :
    Kahn.Indexes (effectGraph events hclosed) (events.effects.foldl (fun successors event =>
      event.prerequisites.toList.foldl (fun successors prerequisite =>
        Kahn.pushSuccessor successors prerequisite event.id) successors) ∅) := by
  have hindex := Kahn.indexes_foldl (g := effectGraph events hclosed) (prerequisitesOf events)
    fun _ _ => rfl
  have hnodes : (effectGraph events hclosed).nodes = events.toList.map Prod.fst :=
    map_fst_toList_eq_keys.symm
  rw [hnodes, foldl_map] at hindex
  rw [Events.effects, foldl_map]
  refine cast (congrArg _ (foldl_ext _ _ _ ?_)) hindex
  rintro successors ⟨id, event⟩ hentry
  rw [mem_toList_iff_getElem?_eq_some] at hentry
  simp only [prerequisitesOf, hentry, hkeyed id event hentry, Option.map_some, Option.getD_some]

end

def Accepted (events : List (RevisionEffect E)) : Prop :=
  (events.map (·.id)).Nodup ∧ ∀ byId, ById events byId → IsIdeal byId

theorem new_decides (events : List (RevisionEffect E)) :
    Decides (RevisionEffectIdeal.new events) (Accepted events) fun ideal =>
      ById events ideal.events ∧ IsIdeal ideal.events := by
  apply (Decides.lift (collectEvents events)).bind
  · exact fun haccepted => exists_collectEvents haccepted.1
  intro byId _ hcollect
  obtain ⟨hnodup, hbyId⟩ := byId_of_collectEvents hcollect
  have hkeyed : ∀ (id : RevisionEffectId) (event : RevisionEffect E), byId[id]? = some event →
      event.id = id := fun id event hget => ((hbyId id event).mp hget).2
  apply (Decides.lift (checkPrerequisites byId)).bind
  · exact fun haccepted =>
      ⟨(), checkPrerequisites_eq_ok.mpr (haccepted.2 byId hbyId).downClosed⟩
  intro _ _ hcheck
  have hclosed := checkPrerequisites_eq_ok.mp hcheck
  have hcounts := counts_effectGraph hclosed
  have hfuel : byId.keys.length < byId.size + 1 := by
    rw [length_keys]
    exact Nat.lt_succ_self _
  obtain ⟨state, hdrain, hempty⟩ :=
    Kahn.drain_start (ε := RevisionEffectIdealError) (indexes_effectGraph hclosed hkeyed)
      notReady notPending hcounts hfuel
  rw [acyclic_effectGraph] at hempty
  dsimp only
  rw [hdrain]
  show Decides (if state.pending.isEmpty = true then _ else _) _ _
  split
  · rename_i hdrained
    have hideal : IsIdeal byId := ⟨hkeyed, hclosed, hempty.mp hdrained⟩
    refine Decides.ok ⟨hnodup, ?_⟩ ⟨hbyId, hideal⟩
    intro byId' hbyId'
    rwa [hbyId'.unique hbyId]
  · rename_i hleft
    apply Decides.error
    rintro ⟨_, hideal⟩
    exact hleft (hempty.mpr (hideal byId hbyId).acyclic)

theorem new_effects {events : Events E} (h : IsIdeal events) :
    RevisionEffectIdeal.new events.effects = .ok { events } := by
  have hbyId : ById events.effects events := by
    intro id event
    rw [mem_effects]
    constructor
    · exact fun hget => ⟨⟨id, hget⟩, h.keyed id event hget⟩
    · rintro ⟨⟨id', hget⟩, hid⟩
      rwa [← hid, h.keyed id' event hget]
  have hnodup : (events.effects.map (·.id)).Nodup := by
    have hids : events.effects.map (·.id) = events.toList.map Prod.fst := by
      rw [Events.effects, List.map_map]
      apply map_congr_left
      rintro ⟨id, event⟩ hentry
      exact h.keyed id event (mem_toList_iff_getElem?_eq_some.mp hentry)
    rw [hids]
    exact nodup_fst_toList events
  obtain ⟨ideal, hnew, hideal, _⟩ := (new_decides events.effects).exists_ok
    ⟨hnodup, fun byId hbyId' => by rwa [hbyId'.unique hbyId]⟩
  rw [hnew, ← hideal.unique hbyId]

theorem isIdeal_of_new {ideal : RevisionEffectIdeal E}
    (h : RevisionEffectIdeal.new events = .ok ideal) : IsIdeal ideal.events :=
  ((new_decides events).of_eq_ok h).2.2

end Cfmd.Effect
