import Mathlib.Data.Prod.Lex
import Cfmd.Lib.Worklist
import Cfmd.Lifecycle.Identity

/-! The lifecycle graph: entities, roots and keeps-alive edges, edited by
intents. An entity is live when the roots reach it through entities. -/

namespace Cfmd.Lifecycle
open Std Lib ExtTreeSet

inductive LifecycleFact
  | root (entity : EntityId)
  | keepsAlive (parent child : EntityId)
  deriving DecidableEq

namespace LifecycleFact

/-- The derived order: constructors in turn, then their fields. -/
def sortKey : LifecycleFact → ℕ × EntityId × EntityId
  | root entity => (0, entity, 0)
  | keepsAlive parent child => (1, parent, child)

theorem sortKey_injective : Function.Injective sortKey := by
  intro f g h
  cases f <;> cases g <;> simp_all [sortKey]

attribute [local instance] lexOrd

instance : Ord LifecycleFact := ⟨compareOn sortKey⟩

instance : TransOrd LifecycleFact := inferInstanceAs (TransCmp (compareOn sortKey))

instance : LawfulEqOrd LifecycleFact where
  eq_of_compare h := sortKey_injective (LawfulEqOrd.eq_of_compare h)

end LifecycleFact

structure LifecycleIntent where
  edits : ExtTreeMap LifecycleFact Bool

def LifecycleIntent.set (intent : LifecycleIntent) (fact : LifecycleFact) (present : Bool) :
    LifecycleIntent :=
  ⟨intent.edits.insert fact present⟩

structure LifecycleGraph where
  entities : ExtTreeSet EntityId
  roots : ExtTreeSet EntityId
  keepsAlive : ExtTreeMap EntityId (ExtTreeSet EntityId)

namespace LifecycleGraph

def applyEdit (graph : LifecycleGraph) (edit : LifecycleFact × Bool) : LifecycleGraph :=
  match edit with
  | (.root entity, true) => { graph with roots := graph.roots.insert entity }
  | (.root entity, false) => { graph with roots := graph.roots.erase entity }
  | (.keepsAlive parent child, true) =>
    { graph with keepsAlive :=
        graph.keepsAlive.insert parent ((graph.keepsAlive[parent]?.getD ∅).insert child) }
  | (.keepsAlive parent child, false) =>
    match graph.keepsAlive[parent]? with
    | none => graph
    | some children =>
      { graph with keepsAlive :=
          if (children.erase child).isEmpty then graph.keepsAlive.erase parent
          else graph.keepsAlive.insert parent (children.erase child) }

def applyIntent (graph : LifecycleGraph) (intent : LifecycleIntent) : LifecycleGraph :=
  intent.edits.toList.foldl applyEdit graph

def children (graph : LifecycleGraph) (parent : EntityId) : List EntityId :=
  (graph.keepsAlive[parent]?.getD ∅).toList

def liveEntities (graph : LifecycleGraph) : ExtTreeSet EntityId :=
  let start : Work (ExtTreeSet EntityId) EntityId := graph.roots.toList.foldl
    (Work.offer contains insert graph.entities.contains)
    { marked := ∅, queue := [] }
  (spread contains insert graph.entities.contains graph.children
    (graph.entities.size + graph.roots.size) start).marked

def Holds (graph : LifecycleGraph) : LifecycleFact → Prop
  | .root entity => entity ∈ graph.roots
  | .keepsAlive parent child => child ∈ graph.keepsAlive[parent]?.getD ∅

/-- Entities that the roots reach through entities, in a set of facts. -/
def Live (entities : ExtTreeSet EntityId) (facts : LifecycleFact → Prop) : EntityId → Prop :=
  Reached (fun e => facts (.root e) ∧ e ∈ entities)
    fun p c => facts (.keepsAlive p c) ∧ c ∈ entities

variable {graph : LifecycleGraph}

@[simp] theorem applyEdit_entities (edit : LifecycleFact × Bool) :
    (graph.applyEdit edit).entities = graph.entities := by
  unfold applyEdit
  split <;> first | rfl | (split <;> rfl)

theorem row_applyEdit (parent child p : EntityId) (present : Bool) :
    (graph.applyEdit (.keepsAlive parent child, present)).keepsAlive[p]? =
      if parent ≠ p then graph.keepsAlive[p]?
      else if present then some ((graph.keepsAlive[p]?.getD ∅).insert child)
      else graph.keepsAlive[p]?.bind fun children =>
        if (children.erase child).isEmpty then none else some (children.erase child) := by
  cases present with
  | true =>
    by_cases hp : parent = p
    · simp [applyEdit, hp]
    · simp [applyEdit, hp, ExtTreeMap.getElem?_insert]
  | false =>
    rw [applyEdit]
    cases hget : graph.keepsAlive[parent]? with
    | none =>
      by_cases hp : parent = p
      · simp [← hp, hget]
      · simp [hp]
    | some children =>
      dsimp only
      by_cases hp : parent = p
      · subst hp
        rw [if_neg (not_not.mpr rfl), if_neg Bool.false_ne_true, hget, Option.bind_some]
        split_ifs
        · exact ExtTreeMap.getElem?_erase_self
        · exact ExtTreeMap.getElem?_insert_self
      · split_ifs
        · simp [ExtTreeMap.getElem?_erase, hp]
        · simp [ExtTreeMap.getElem?_insert, hp]

theorem getD_of_nonempty (row : ExtTreeSet EntityId) :
    (if row.isEmpty then none else some row).getD ∅ = row := by
  split_ifs with hempty
  · exact (isEmpty_iff.mp hempty).symm
  · rfl

theorem holds_keepsAlive_applyEdit (parent child p c : EntityId) (present : Bool) :
    (graph.applyEdit (.keepsAlive parent child, present)).Holds (.keepsAlive p c) ↔
      if parent = p ∧ child = c then present = true else graph.Holds (.keepsAlive p c) := by
  simp only [Holds, row_applyEdit]
  by_cases hp : parent = p
  · cases present with
    | true => by_cases hc : child = c <;> simp [hp, hc, mem_insert]
    | false =>
      cases graph.keepsAlive[p]? with
      | none => simp
      | some children =>
        -- an empty row is dropped from the map, and reads as empty
        rw [if_neg (not_not.mpr hp), if_neg Bool.false_ne_true, Option.bind_some, getD_of_nonempty]
        by_cases hc : child = c <;> simp [hp, hc, mem_erase]
  · simp [hp]

theorem holds_applyEdit (fact : LifecycleFact) (present : Bool) (other : LifecycleFact) :
    (graph.applyEdit (fact, present)).Holds other ↔
      if fact = other then present = true else graph.Holds other := by
  cases fact with
  | root entity =>
    cases other with
    | root e =>
      cases present <;> simp only [applyEdit, Holds, mem_insert, mem_erase,
        LawfulEqCmp.compare_eq_iff_eq, LifecycleFact.root.injEq]
      · by_cases he : entity = e <;> simp [he]
      · by_cases he : entity = e <;> simp [he]
    | keepsAlive p c => cases present <;> simp [applyEdit, Holds]
  | keepsAlive parent child =>
    cases other with
    | root e =>
      cases present
      · simp only [applyEdit, Holds, reduceCtorEq, if_false]
        split <;> rfl
      · simp [applyEdit, Holds]
    | keepsAlive p c =>
      simp only [LifecycleFact.keepsAlive.injEq]
      exact holds_keepsAlive_applyEdit parent child p c present

theorem foldl_applyEdit_entities (edits : List (LifecycleFact × Bool)) :
    (edits.foldl applyEdit graph).entities = graph.entities := by
  induction edits generalizing graph with
  | nil => rfl
  | cons edit edits ih => rw [List.foldl_cons, ih, applyEdit_entities]

theorem applyIntent_entities (intent : LifecycleIntent) :
    (graph.applyIntent intent).entities = graph.entities :=
  foldl_applyEdit_entities _

theorem holds_foldl_applyEdit (edits : List (LifecycleFact × Bool))
    (hnodup : (edits.map Prod.fst).Nodup) (fact : LifecycleFact) :
    (edits.foldl applyEdit graph).Holds fact ↔
      (graph.Holds fact ∧ (fact, false) ∉ edits) ∨ (fact, true) ∈ edits := by
  induction edits generalizing graph with
  | nil => simp
  | cons edit edits ih =>
    obtain ⟨edited, present⟩ := edit
    rw [List.map_cons, List.nodup_cons] at hnodup
    rw [List.foldl_cons, ih hnodup.2, holds_applyEdit]
    by_cases hfact : edited = fact
    · subst hfact
      have hfresh : ∀ b, (edited, b) ∉ edits := fun b hmem =>
        hnodup.1 (List.mem_map.mpr ⟨(edited, b), hmem, rfl⟩)
      cases present <;> simp [hfresh]
    · simp [hfact, Ne.symm hfact]

theorem holds_applyIntent (intent : LifecycleIntent) (fact : LifecycleFact) :
    (graph.applyIntent intent).Holds fact ↔
      (graph.Holds fact ∧ (fact, false) ∉ intent.edits.toList) ∨
        (fact, true) ∈ intent.edits.toList :=
  holds_foldl_applyEdit _ (nodup_fst_toList intent.edits) fact

theorem mem_liveEntities (e : EntityId) :
    e ∈ graph.liveEntities ↔ Live graph.entities graph.Holds e := by
  have hM := markSet_treeSet graph.entities.toList.toFinset
  have hinside : ∀ v, graph.entities.contains v = true → v ∈ graph.entities.toList.toFinset := by
    intro v hv
    rwa [List.mem_toFinset, mem_toList, ← contains_iff_mem]
  obtain ⟨_, hmarks, hmem, hlen⟩ := foldl_offer hM graph.entities.contains graph.roots.toList
    (fun v _ => hinside v) (w := { marked := ∅, queue := [] }) trivial (by simp)
  have hcard : graph.entities.toList.toFinset.card ≤ graph.entities.size := by
    rw [← length_toList]
    exact List.toFinset_card_le _
  have hfuel : graph.entities.toList.toFinset.card + (graph.roots.toList.foldl
        (Work.offer contains insert graph.entities.contains)
        ({ marked := ∅, queue := [] } : Work (ExtTreeSet EntityId) EntityId)).queue.length ≤
      graph.entities.size + graph.roots.size := by
    exact Nat.add_le_add hcard (by simpa using hlen)
  refine (spread_marked hM trivial (fun _ v _ => hinside v) hmarks hfuel e).trans ?_
  apply Reached.congr
  · intro a
    rw [hmem]
    simp [Holds]
  · intro a b
    rw [children, mem_toList]
    rfl

end LifecycleGraph

end Cfmd.Lifecycle
