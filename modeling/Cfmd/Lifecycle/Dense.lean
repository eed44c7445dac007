import Cfmd.Lib.BinarySearch
import Cfmd.Lib.Rows
import Cfmd.Lifecycle.Graph

/-! The dense projection of a lifecycle graph and the maintained lifecycle, which
follows intents without recomputing the live set from the roots. -/

namespace Cfmd.Lifecycle
open Std Lib DenseEntitySet

structure DenseLifecycleProjection where
  ids : DenseEntityIds
  roots : DenseEntitySet
  keepsAlive : List (List LocalEntityId)

/-- Iterations that empty a queue whose nodes are marked when they are taken. -/
def sweepFuel (rows : List (List LocalEntityId)) (starts : List LocalEntityId) : ℕ :=
  ((List.range rows.length).map fun node => (row rows node).length + 1).sum + starts.length

namespace DenseLifecycleProjection

def compileWithIds (graph : LifecycleGraph) (ids : DenseEntityIds) : DenseLifecycleProjection :=
  let roots := (graph.roots.toList.filterMap ids.localOf).foldl insert
    (.withCapacity ids.len)
  let keepsAlive := graph.keepsAlive.toList.foldl
    (fun rows entry =>
      match ids.localOf entry.1 with
      | none => rows
      | some parent => rows.modify parent (· ++ entry.2.toList.filterMap ids.localOf))
    (List.replicate ids.len [])
  { ids, roots, keepsAlive }

def compile (graph : LifecycleGraph) : Except DenseIdentityError DenseLifecycleProjection := do
  let ids ← DenseEntityIds.compile graph.entities
  return compileWithIds graph ids

def liveSet (projection : DenseLifecycleProjection) : DenseEntitySet :=
  let start : Work DenseEntitySet LocalEntityId := projection.roots.iter.foldl
    (Work.offer contains insert fun _ => true)
    { marked := .withCapacity projection.ids.len, queue := [] }
  (spread contains insert (fun _ => true)
    (row projection.keepsAlive) (projection.ids.len + projection.roots.iter.length) start).marked

end DenseLifecycleProjection

structure MaintainedDenseLifecycle where
  ids : DenseEntityIds
  roots : DenseEntitySet
  keepsAlive : List (List LocalEntityId)
  keptBy : List (List LocalEntityId)
  live : DenseEntitySet

def insertSortedUnique (values : List LocalEntityId) (value : LocalEntityId) :
    List LocalEntityId × Bool :=
  match binarySearch values value with
  | .ok _ => (values, false)
  | .error index => (values.take index ++ value :: values.drop index, true)

def removeSorted (values : List LocalEntityId) (value : LocalEntityId) :
    List LocalEntityId × Bool :=
  match binarySearch values value with
  | .error _ => (values, false)
  | .ok index => (values.eraseIdx index, true)

namespace MaintainedDenseLifecycle

def fromProjection (projection : DenseLifecycleProjection) : MaintainedDenseLifecycle :=
  let keptBy := (List.range projection.keepsAlive.length).foldl
    (fun rows parentIndex =>
      match (projection.ids.externalOf parentIndex).bind projection.ids.localOf with
      | none => rows
      | some parent => (row projection.keepsAlive parentIndex).foldl
          (fun rows child => pushAt rows child parent) rows)
    (List.replicate projection.ids.len [])
  { ids := projection.ids
    roots := projection.roots
    keepsAlive := projection.keepsAlive
    keptBy := keptBy.map sortDedup
    live := projection.liveSet }

def compile (graph : LifecycleGraph) : Except DenseIdentityError MaintainedDenseLifecycle := do
  let projection ← DenseLifecycleProjection.compile graph
  return fromProjection projection

def liveEntities (m : MaintainedDenseLifecycle) : ExtTreeSet EntityId :=
  .ofList (m.live.iter.filterMap m.ids.externalOf)

/-- The first loop of `apply_intent`: facts are cleared at once, the facts to set
are kept for later. -/
structure Cutting where
  lifecycle : MaintainedDenseLifecycle
  decreaseStarts : List LocalEntityId
  additions : List LifecycleFact

def cutRoot (m : MaintainedDenseLifecycle) (entity : EntityId) :
    MaintainedDenseLifecycle × List LocalEntityId :=
  match m.ids.localOf entity with
  | none => (m, [])
  | some slot =>
    ({ m with roots := (m.roots.remove slot).1 }, if (m.roots.remove slot).2 then [slot] else [])

def cutEdge (m : MaintainedDenseLifecycle) (parent child : EntityId) :
    MaintainedDenseLifecycle × List LocalEntityId :=
  match m.ids.localOf parent, m.ids.localOf child with
  | some parent, some child =>
    if (removeSorted (row m.keepsAlive parent) child).2 then
      ({ m with
          keepsAlive := m.keepsAlive.modify parent fun children => (removeSorted children child).1
          keptBy := m.keptBy.modify child fun parents => (removeSorted parents parent).1 },
        [child])
    else (m, [])
  | _, _ => (m, [])

def cutEdit (s : Cutting) (edit : LifecycleFact × Bool) : Cutting := match edit with
  | (.root entity, false) =>
    { s with
      lifecycle := (s.lifecycle.cutRoot entity).1
      decreaseStarts := s.decreaseStarts ++ (s.lifecycle.cutRoot entity).2 }
  | (.keepsAlive parent child, false) =>
    { s with
      lifecycle := (s.lifecycle.cutEdge parent child).1
      decreaseStarts := s.decreaseStarts ++ (s.lifecycle.cutEdge parent child).2 }
  | (fact, true) => { s with additions := s.additions ++ [fact] }

def candidate (m : MaintainedDenseLifecycle) (starts : List LocalEntityId) : DenseEntitySet :=
  (sweep contains insert (row m.keepsAlive)
    (sweepFuel m.keepsAlive starts)
    { marked := .withCapacity m.ids.len, queue := starts }).marked

def externallySupported (m : MaintainedDenseLifecycle) (candidate : DenseEntitySet)
    (entity : LocalEntityId) : Bool :=
  m.roots.contains entity || (row m.keptBy entity).any fun parent =>
    m.live.contains parent && !candidate.contains parent

def surviving (m : MaintainedDenseLifecycle) (candidate : DenseEntitySet) : DenseEntitySet :=
  let supported := candidate.iter.filter (m.externallySupported candidate)
  (spread contains insert candidate.contains (row m.keepsAlive)
    (m.ids.len + supported.length)
    { marked := supported.foldl insert (.withCapacity m.ids.len)
      queue := supported }).marked

def recomputeDecreaseRegion (m : MaintainedDenseLifecycle) (starts : List LocalEntityId) :
    MaintainedDenseLifecycle :=
  let candidate := m.candidate starts
  let surviving := m.surviving candidate
  let live := candidate.iter.foldl (fun live entity => (live.remove entity).1) m.live
  { m with live := surviving.iter.foldl insert live }

structure Growing where
  lifecycle : MaintainedDenseLifecycle
  increaseStarts : List LocalEntityId

def addFact (s : Growing) (fact : LifecycleFact) : Growing := match fact with
  | .root entity =>
    match s.lifecycle.ids.localOf entity with
    | none => s
    | some slot =>
      { lifecycle := { s.lifecycle with roots := s.lifecycle.roots.insert slot }
        increaseStarts := s.increaseStarts ++ [slot] }
  | .keepsAlive parent child =>
    match s.lifecycle.ids.localOf parent, s.lifecycle.ids.localOf child with
    | some parent, some child =>
      { lifecycle := { s.lifecycle with
          keepsAlive := s.lifecycle.keepsAlive.modify parent fun children =>
            (insertSortedUnique children child).1
          keptBy := s.lifecycle.keptBy.modify child fun parents =>
            (insertSortedUnique parents parent).1 }
        increaseStarts :=
          if s.lifecycle.live.contains parent then s.increaseStarts ++ [child]
          else s.increaseStarts }
    | _, _ => s

def activateFrom (m : MaintainedDenseLifecycle) (starts : List LocalEntityId) :
    MaintainedDenseLifecycle :=
  { m with live := (sweep contains insert (row m.keepsAlive)
      (sweepFuel m.keepsAlive starts) { marked := m.live, queue := starts }).marked }

def applyIntent (m : MaintainedDenseLifecycle) (intent : LifecycleIntent) :
    MaintainedDenseLifecycle :=
  let cut := intent.edits.toList.foldl cutEdit
    { lifecycle := m, decreaseStarts := [], additions := [] }
  let reduced :=
    if cut.decreaseStarts.isEmpty then cut.lifecycle
    else cut.lifecycle.recomputeDecreaseRegion cut.decreaseStarts
  let grown := cut.additions.foldl addFact { lifecycle := reduced, increaseStarts := [] }
  grown.lifecycle.activateFrom grown.increaseStarts

end MaintainedDenseLifecycle

end Cfmd.Lifecycle
