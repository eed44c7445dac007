import Cfmd.Lib.Postings
import Cfmd.Rewrite.Laws
import Cfmd.Rewrite.Registry

/-! The coordination registry compiles a set of prepared rewrites to the pairs that need
coordination or are in conflict. Only pairs that share a written coordinate, or of which one has an
invariant obligation, are classified; every other pair commutes by the pair law. -/

namespace Cfmd.Rewrite
open List hiding contains_iff_mem
open Lib Std ExtTreeSet

attribute [local instance] lexOrd

class PreparedRewriteIntent (R : Type) where
  rewriteSpec : R → RewriteSpecId
  rewriteLawSet : R → RewriteLawSetId

instance (T I : Type) : PreparedRewriteIntent (PreparedRewrite T I) where
  rewriteSpec rewrite := rewrite.spec
  rewriteLawSet rewrite := rewrite.lawSet

structure RewriteSpec where
  id : RewriteSpecId
  lawSet : RewriteLawSetId
  footprint : RewriteFootprint

inductive RewriteCoordinationRegistryError where
  | specIdentityConflict (spec : RewriteSpecId)
  | specNotRegistered (spec : RewriteSpecId)
  | lawSetMismatch (spec : RewriteSpecId)
  | duplicateNode
  | preparedSetMismatch
deriving DecidableEq, Repr

deriving instance DecidableEq for RewriteFootprint

structure RegisteredRewriteSpec where
  lawSet : RewriteLawSetId
  footprint : RewriteFootprint
deriving DecidableEq

structure RewriteCoordinationRegistry where
  specs : ExtTreeMap RewriteSpecId RegisteredRewriteSpec := ∅

def orderedPair {K : Type} [Ord K] (left right : K) : K × K :=
  if (compare left right).isLE then (left, right) else (right, left)

structure CompiledRewriteCoordinationGraph (K : Type) [Ord K] where
  requiresCoordination : ExtTreeSet (K × K) := ∅
  intentConflicts : ExtTreeSet (K × K) := ∅

section Compile
variable {K R : Type} [Ord K] [TransOrd K] [LawfulEqOrd K] [PreparedRewriteIntent R] {i j : ℕ}

namespace CompiledRewriteCoordinationGraph

def decision (graph : CompiledRewriteCoordinationGraph K) (left right : K) :
    PairCoordinationDecision :=
  let pair := orderedPair left right
  if graph.intentConflicts.contains pair then .intentConflict
  else if graph.requiresCoordination.contains pair then .requiresCoordination
  else .coordinationFree

end CompiledRewriteCoordinationGraph

structure Node (K : Type) where
  key : K
  footprint : RewriteFootprint
  hasInvariantObligations : Bool

/-- The nodes that read and that write every coordinate, and those with obligations. -/
structure CoordinateIndex where
  readers : ExtTreeMap SemanticWriteCoordinate (ExtTreeSet ℕ) := ∅
  writers : ExtTreeMap SemanticWriteCoordinate (ExtTreeSet ℕ) := ∅
  invariantNodes : ExtTreeSet ℕ := ∅

namespace CoordinateIndex

def indexNode (s : CoordinateIndex) (entry : Node K × ℕ) : CoordinateIndex where
  readers := entry.1.footprint.reads.toList.foldl
    (fun readers coordinate => post readers coordinate entry.2) s.readers
  writers := entry.1.footprint.writes.keys.foldl
    (fun writers coordinate => post writers coordinate entry.2) s.writers
  invariantNodes :=
    if entry.1.hasInvariantObligations then s.invariantNodes.insert entry.2 else s.invariantNodes

def ofNodes (nodes : List (Node K)) : CoordinateIndex := nodes.zipIdx.foldl indexNode {}

end CoordinateIndex

def insertIndexPair (pairs : ExtTreeSet (ℕ × ℕ)) (left right : ℕ) : ExtTreeSet (ℕ × ℕ) :=
  if left = right then pairs else pairs.insert (orderedPair left right)

def insertWriterPairs : List ℕ → ExtTreeSet (ℕ × ℕ) → ExtTreeSet (ℕ × ℕ)
  | [], candidates => candidates
  | left :: rest, candidates =>
    insertWriterPairs rest (rest.foldl (fun candidates right =>
      insertIndexPair candidates left right) candidates)

def insertCoordinate (index : CoordinateIndex) (candidates : ExtTreeSet (ℕ × ℕ))
    (entry : SemanticWriteCoordinate × ExtTreeSet ℕ) : ExtTreeSet (ℕ × ℕ) :=
  let candidates := match index.readers[entry.1]? with
    | none => candidates
    | some readers => entry.2.toList.foldl (fun candidates writer =>
        readers.toList.foldl (fun candidates reader =>
          insertIndexPair candidates writer reader) candidates) candidates
  insertWriterPairs entry.2.toList candidates

def candidatePairs (index : CoordinateIndex) (count : ℕ) : ExtTreeSet (ℕ × ℕ) :=
  let candidates := index.writers.toList.foldl (insertCoordinate index) ∅
  index.invariantNodes.toList.foldl (fun candidates invariant =>
    (range count).foldl (fun candidates other =>
      insertIndexPair candidates invariant other) candidates) candidates

/-- One candidate pair. Its indices are those of two nodes. -/
def classifyPair (nodes : List (Node K)) (graph : CompiledRewriteCoordinationGraph K)
    (candidate : ℕ × ℕ) : CompiledRewriteCoordinationGraph K :=
  match nodes[candidate.1]?, nodes[candidate.2]? with
  | some left, some right =>
    let pair := orderedPair left.key right.key
    match coordinationDecision (inferPairRewriteLaw left.footprint right.footprint) with
    | .coordinationFree => graph
    | .requiresCoordination =>
      { graph with requiresCoordination := graph.requiresCoordination.insert pair }
    | .intentConflict => { graph with intentConflicts := graph.intentConflicts.insert pair }
  | _, _ => graph

namespace RewriteCoordinationRegistry

def register (registry : RewriteCoordinationRegistry) (spec : RewriteSpec) :
    Except RewriteCoordinationRegistryError RewriteCoordinationRegistry :=
  let registered : RegisteredRewriteSpec := ⟨spec.lawSet, spec.footprint⟩
  match registry.specs[spec.id]? with
  | some existing =>
    if existing = registered then .ok registry else .error (.specIdentityConflict spec.id)
  | none => .ok { specs := registry.specs.insert spec.id registered }

def node (registry : RewriteCoordinationRegistry) (entry : K × R) :
    Except RewriteCoordinationRegistryError (Node K) :=
  let rewriteSpec := PreparedRewriteIntent.rewriteSpec entry.2
  match registry.specs[rewriteSpec]? with
  | none => .error (.specNotRegistered rewriteSpec)
  | some registered =>
    if registered.lawSet ≠ PreparedRewriteIntent.rewriteLawSet entry.2 then
      .error (.lawSetMismatch rewriteSpec)
    else
      .ok ⟨entry.1, registered.footprint, !registered.footprint.invariantObligations.isEmpty⟩

def collectNode (registry : RewriteCoordinationRegistry) (state : ExtTreeSet K × List (Node K))
    (entry : K × R) : Except RewriteCoordinationRegistryError (ExtTreeSet K × List (Node K)) :=
  if state.1.contains entry.1 then .error .duplicateNode
  else do
    let node ← registry.node entry
    return (state.1.insert entry.1, state.2 ++ [node])

def compile (registry : RewriteCoordinationRegistry) (rewrites : List (K × R)) :
    Except RewriteCoordinationRegistryError (CompiledRewriteCoordinationGraph K) := do
  let (_, nodes) ← rewrites.foldlM registry.collectNode (∅, [])
  let candidates := candidatePairs (CoordinateIndex.ofNodes nodes) nodes.length
  return candidates.toList.foldl (classifyPair nodes) {}

end RewriteCoordinationRegistry

/-! ## Unordered pairs -/

omit [TransOrd K] [LawfulEqOrd K] in
theorem orderedPair_eq_or (a b : K) : orderedPair a b = (a, b) ∨ orderedPair a b = (b, a) := by
  unfold orderedPair
  split_ifs
  · exact .inl rfl
  · exact .inr rfl

theorem orderedPair_comm (a b : K) : orderedPair b a = orderedPair a b := by
  unfold orderedPair
  have hswap : compare b a = (compare a b).swap := OrientedCmp.eq_swap
  rw [hswap]
  cases h : compare a b with
  | lt | gt => rfl
  | eq =>
    have heq : a = b := LawfulEqOrd.eq_of_compare h
    subst heq
    rfl

theorem orderedPair_eq_iff {a b c d : K} :
    orderedPair a b = orderedPair c d ↔ (a = c ∧ b = d) ∨ (a = d ∧ b = c) := by
  constructor
  · intro h
    rcases orderedPair_eq_or a b with hab | hab <;> rcases orderedPair_eq_or c d with hcd | hcd <;>
      rw [hab, hcd, Prod.mk.injEq] at h
    · exact .inl h
    · exact .inr h
    · exact .inr h.symm
    · exact .inl h.symm
  · rintro (⟨rfl, rfl⟩ | ⟨rfl, rfl⟩)
    · rfl
    · exact orderedPair_comm _ _

/-! ## The coordinate index -/

section Nodes
omit [Ord K] [TransOrd K] [LawfulEqOrd K]
variable {nodes : List (Node K)} {c : SemanticWriteCoordinate} {i : ℕ}

theorem exists_mem_zipIdx {P : Node K → Prop} :
    (∃ entry ∈ nodes.zipIdx, P entry.1 ∧ entry.2 = i) ↔ ∃ node, nodes[i]? = some node ∧ P node := by
  constructor
  · rintro ⟨⟨node, j⟩, hmem, hP, rfl⟩
    exact ⟨node, mem_zipIdx_iff_getElem?.mp hmem, hP⟩
  · rintro ⟨node, hnode, hP⟩
    exact ⟨(node, i), mem_zipIdx_iff_getElem?.mpr hnode, hP, rfl⟩

namespace CoordinateIndex

theorem mem_readers_ofNodes : i ∈ (ofNodes nodes).readers.getD c ∅ ↔
    ∃ node, nodes[i]? = some node ∧ c ∈ node.footprint.reads := by
  have hadds := foldl_adds (f := indexNode)
    (V := fun index : CoordinateIndex => i ∈ index.readers.getD c ∅)
    (P := fun entry : Node K × ℕ => c ∈ entry.1.footprint.reads.toList ∧ entry.2 = i) nodes.zipIdx
    (fun _ _ _ => mem_foldl_post) {}
  rw [exists_mem_zipIdx (P := fun node => c ∈ node.footprint.reads.toList)] at hadds
  refine hadds.trans ?_
  simp

theorem mem_writers_ofNodes : i ∈ (ofNodes nodes).writers.getD c ∅ ↔
    ∃ node, nodes[i]? = some node ∧ c ∈ node.footprint.writes := by
  have hadds := foldl_adds (f := indexNode)
    (V := fun index : CoordinateIndex => i ∈ index.writers.getD c ∅)
    (P := fun entry : Node K × ℕ => c ∈ entry.1.footprint.writes.keys ∧ entry.2 = i) nodes.zipIdx
    (fun _ _ _ => mem_foldl_post) {}
  rw [exists_mem_zipIdx (P := fun node => c ∈ node.footprint.writes.keys)] at hadds
  refine hadds.trans ?_
  simp

theorem mem_invariantNodes_ofNodes : i ∈ (ofNodes nodes).invariantNodes ↔
    ∃ node, nodes[i]? = some node ∧ node.hasInvariantObligations = true := by
  have hstep : ∀ (s : CoordinateIndex), ∀ entry ∈ nodes.zipIdx,
      i ∈ (s.indexNode entry).invariantNodes ↔
        (entry.1.hasInvariantObligations = true ∧ entry.2 = i) ∨ i ∈ s.invariantNodes := by
    intro s entry _
    unfold indexNode
    by_cases h : entry.1.hasInvariantObligations = true
    · simp [h, mem_insert]
    · simp [h]
  have hadds := foldl_adds (V := fun index : CoordinateIndex => i ∈ index.invariantNodes)
    nodes.zipIdx hstep {}
  rw [exists_mem_zipIdx (P := fun node => node.hasInvariantObligations = true)] at hadds
  refine hadds.trans ?_
  simp

end CoordinateIndex

end Nodes

/-! ## Candidate pairs -/

section Candidates
variable {pairs : ExtTreeSet (ℕ × ℕ)} {p : ℕ × ℕ} {index : CoordinateIndex}

theorem mem_insertIndexPair {left right : ℕ} : p ∈ insertIndexPair pairs left right ↔
    (left ≠ right ∧ orderedPair left right = p) ∨ p ∈ pairs := by
  unfold insertIndexPair
  split_ifs with h
  · simp [h]
  · simp [h, mem_insert]

theorem mem_foldl_insertIndexPair {left : ℕ} {rights : List ℕ} :
    p ∈ rights.foldl (fun pairs right => insertIndexPair pairs left right) pairs ↔
      (∃ right ∈ rights, left ≠ right ∧ orderedPair left right = p) ∨ p ∈ pairs :=
  foldl_adds (f := fun pairs right => insertIndexPair pairs left right) (V := fun pairs => p ∈ pairs)
    rights (fun _ _ _ => mem_insertIndexPair) pairs

theorem mem_insertWriterPairs {writers : List ℕ} : p ∈ insertWriterPairs writers pairs ↔
    (∃ left ∈ writers, ∃ right ∈ writers, left ≠ right ∧ orderedPair left right = p) ∨
      p ∈ pairs := by
  induction writers generalizing pairs with
  | nil => simp [insertWriterPairs]
  | cons writer rest ih =>
    rw [insertWriterPairs, ih, mem_foldl_insertIndexPair]
    grind [orderedPair_comm]

def Linked (index : CoordinateIndex) (count i j : ℕ) : Prop :=
  (∃ c, i ∈ index.writers.getD c ∅ ∧ (j ∈ index.readers.getD c ∅ ∨ j ∈ index.writers.getD c ∅)) ∨
    (i ∈ index.invariantNodes ∧ j < count)

theorem mem_insertCoordinate {entry : SemanticWriteCoordinate × ExtTreeSet ℕ} :
    p ∈ insertCoordinate index pairs entry ↔ (∃ i ∈ entry.2, ∃ j,
      (j ∈ index.readers.getD entry.1 ∅ ∨ j ∈ entry.2) ∧ i ≠ j ∧ orderedPair i j = p) ∨
        p ∈ pairs := by
  have hreaders : p ∈ (match index.readers[entry.1]? with
      | none => pairs
      | some readers => entry.2.toList.foldl (fun candidates writer =>
          readers.toList.foldl (fun candidates reader =>
            insertIndexPair candidates writer reader) candidates) pairs) ↔
      (∃ i ∈ entry.2, ∃ j ∈ index.readers.getD entry.1 ∅, i ≠ j ∧ orderedPair i j = p) ∨
        p ∈ pairs := by
    rw [ExtTreeMap.getD_eq_getD_getElem?]
    cases index.readers[entry.1]? with
    | none => simp
    | some readers =>
      have hadds := foldl_adds (V := fun pairs => p ∈ pairs) entry.2.toList
        (fun pairs writer _ => @mem_foldl_insertIndexPair pairs p writer readers.toList) pairs
      refine hadds.trans ?_
      simp
  unfold insertCoordinate
  rw [mem_insertWriterPairs]
  simp only [mem_toList]
  grind

theorem mem_candidatePairs {count : ℕ} :
    p ∈ candidatePairs index count ↔ ∃ i j, Linked index count i j ∧ i ≠ j ∧ orderedPair i j = p := by
  have hwriters := foldl_adds (V := fun pairs => p ∈ pairs) index.writers.toList
    (fun pairs entry _ => @mem_insertCoordinate pairs p index entry) ∅
  have hinvariant := foldl_adds (V := fun pairs => p ∈ pairs) index.invariantNodes.toList
    (fun pairs invariant _ => @mem_foldl_insertIndexPair pairs p invariant (range count))
    (index.writers.toList.foldl (insertCoordinate index) ∅)
  refine hinvariant.trans ?_
  rw [hwriters]
  constructor
  · rintro (⟨i, hi, j, hj, h⟩ | ⟨⟨c, writers⟩, hentry, i, hi, j, hj, h⟩ | h)
    · exact ⟨i, j, .inr ⟨mem_toList.mp hi, mem_range.mp hj⟩, h⟩
    · have hget : index.writers.getD c ∅ = writers := by
        rw [ExtTreeMap.getD_eq_getD_getElem?,
          ExtTreeMap.mem_toList_iff_getElem?_eq_some.mp hentry, Option.getD_some]
      refine ⟨i, j, .inl ⟨c, ?_⟩, h⟩
      rw [hget]
      exact ⟨hi, hj⟩
    · exact absurd h not_mem_empty
  · rintro ⟨i, j, ⟨c, hi, hj⟩ | ⟨hi, hj⟩, h⟩
    · -- a coordinate with a writer has an entry
      have hentry : (c, index.writers.getD c ∅) ∈ index.writers.toList :=
        ExtTreeMap.mem_toList_iff_getElem?_eq_some.mpr (getElem?_of_mem_getD hi)
      exact .inr (.inl ⟨(c, index.writers.getD c ∅), hentry, i, hi, j, hj, h⟩)
    · exact .inl ⟨i, mem_toList.mpr hi, j, mem_range.mpr hj, h⟩

end Candidates

/-! ## The compiled graph -/

def Flagged (node : Node K) : Prop :=
  node.hasInvariantObligations = !node.footprint.invariantObligations.isEmpty

variable {left right : Node K}

open CoordinateIndex (ofNodes mem_writers_ofNodes mem_readers_ofNodes)

omit [Ord K] [TransOrd K] [LawfulEqOrd K] in
theorem mem_candidatePairs_of_not_free {nodes : List (Node K)}
    (hflagged : ∀ node ∈ nodes, Flagged node) (hi : nodes[i]? = some left)
    (hj : nodes[j]? = some right) (hne : i ≠ j) (hfree : ¬ left.footprint.Free right.footprint) :
    orderedPair i j ∈ candidatePairs (ofNodes nodes) nodes.length := by
  have hlt : ∀ {k : ℕ} {node : Node K}, nodes[k]? = some node → k < nodes.length :=
    fun hk => (List.getElem?_eq_some_iff.mp hk).1
  have hobligations : ∀ {k l : ℕ} {node : Node K}, nodes[k]? = some node → l < nodes.length →
      node.footprint.invariantObligations ≠ ∅ →
      Linked (ofNodes nodes) nodes.length k l := by
    intro k l node hk hl hsome
    refine .inr ⟨CoordinateIndex.mem_invariantNodes_ofNodes.mpr ⟨node, hk, ?_⟩, hl⟩
    rw [hflagged node (mem_of_getElem? hk), Bool.not_eq_true', ← Bool.not_eq_true,
      ExtTreeSet.isEmpty_iff]
    exact hsome
  have hreads : ∀ {k l : ℕ} {node node' : Node K} {c : SemanticWriteCoordinate},
      nodes[k]? = some node → nodes[l]? = some node' → c ∈ node.footprint.writes →
      c ∈ node'.footprint.reads → Linked (ofNodes nodes) nodes.length k l := by
    intro k l node node' c hk hl hwrite hread
    exact .inl ⟨c, mem_writers_ofNodes.mpr ⟨node, hk, hwrite⟩,
      .inl (mem_readers_ofNodes.mpr ⟨node', hl, hread⟩)⟩
  -- either order of the two indices gives the same pair
  have hlinked : Linked (ofNodes nodes) nodes.length i j ∨
      Linked (ofNodes nodes) nodes.length j i := by
    by_contra hnone
    rw [not_or] at hnone
    apply hfree
    rw [RewriteFootprint.free_iff]
    refine ⟨⟨?_, ?_⟩, ⟨?_, ?_⟩, ?_⟩
    · by_contra hsome
      exact hnone.1 (hobligations hi (hlt hj) hsome)
    · by_contra hsome
      exact hnone.2 (hobligations hj (hlt hi) hsome)
    · intro c hread hwrite
      exact hnone.2 (hreads hj hi hwrite hread)
    · intro c hread hwrite
      exact hnone.1 (hreads hi hj hwrite hread)
    · intro c x y hx hy
      exfalso
      have hleft : i ∈ (ofNodes nodes).writers.getD c ∅ :=
        mem_writers_ofNodes.mpr ⟨left, hi, RewriteFootprint.mem_writes.mpr ⟨x, hx⟩⟩
      have hright : j ∈ (ofNodes nodes).writers.getD c ∅ :=
        mem_writers_ofNodes.mpr ⟨right, hj, RewriteFootprint.mem_writes.mpr ⟨y, hy⟩⟩
      exact hnone.1 (.inl ⟨c, hleft, .inr hright⟩)
  rw [mem_candidatePairs]
  rcases hlinked with h | h
  · exact ⟨i, j, h, hne, rfl⟩
  · exact ⟨j, i, h, hne.symm, orderedPair_comm _ _⟩

section Graph
variable {nodes : List (Node K)} {p : K × K} {graph : CompiledRewriteCoordinationGraph K}
  {candidate : ℕ × ℕ}

/-- A candidate of this decision whose keys are the pair. -/
def Classified (nodes : List (Node K)) (decision : PairCoordinationDecision) (p : K × K)
    (candidate : ℕ × ℕ) : Prop :=
  ∃ left right, nodes[candidate.1]? = some left ∧ nodes[candidate.2]? = some right ∧
    orderedPair left.key right.key = p ∧
    coordinationDecision (inferPairRewriteLaw left.footprint right.footprint) = decision

def CompiledRewriteCoordinationGraph.found (graph : CompiledRewriteCoordinationGraph K) :
    PairCoordinationDecision → ExtTreeSet (K × K)
  | .coordinationFree => ∅
  | .requiresCoordination => graph.requiresCoordination
  | .intentConflict => graph.intentConflicts

theorem mem_found_classifyPair {decision : PairCoordinationDecision}
    (hdecision : decision ≠ .coordinationFree) :
    p ∈ (classifyPair nodes graph candidate).found decision ↔
      Classified nodes decision p candidate ∨ p ∈ graph.found decision := by
  unfold classifyPair Classified
  cases hleft : nodes[candidate.1]? with
  | none => simp
  | some left =>
    cases hright : nodes[candidate.2]? with
    | none => simp
    | some right =>
      cases hlaw : coordinationDecision (inferPairRewriteLaw left.footprint right.footprint) <;>
        cases decision <;>
        simp_all [CompiledRewriteCoordinationGraph.found, mem_insert]

section
variable (hkeys : (nodes.map Node.key).Nodup) (hflagged : ∀ node ∈ nodes, Flagged node)
  (hi : nodes[i]? = some left) (hj : nodes[j]? = some right) (hne : left.key ≠ right.key)
include hkeys hflagged hi hj hne

theorem exists_classified_iff
    {decision : PairCoordinationDecision} (hdecision : decision ≠ .coordinationFree) :
    (∃ candidate ∈ (candidatePairs (ofNodes nodes) nodes.length).toList,
      Classified nodes decision (orderedPair left.key right.key) candidate) ↔
    coordinationDecision (inferPairRewriteLaw left.footprint right.footprint) = decision := by
  have hindex : ∀ {k l : ℕ} {node node' : Node K}, nodes[k]? = some node → nodes[l]? = some node' →
      node.key = node'.key → node = node' := by
    intro k l node node' hk hl hkey
    exact inj_on_of_nodup_map hkeys (mem_of_getElem? hk) (mem_of_getElem? hl) hkey
  constructor
  · rintro ⟨candidate, _, left', right', hleft', hright', hpair, hlaw⟩
    rcases orderedPair_eq_iff.mp hpair with ⟨hl, hr⟩ | ⟨hl, hr⟩
    · rw [hindex hleft' hi hl, hindex hright' hj hr] at hlaw
      exact hlaw
    · rw [hindex hleft' hj hl, hindex hright' hi hr, RewriteFootprint.inferPairRewriteLaw_comm]
        at hlaw
      exact hlaw
  · intro hlaw
    have hij : i ≠ j := by
      rintro rfl
      cases hi.symm.trans hj
      exact hne rfl
    have hmem := mem_candidatePairs_of_not_free hflagged hi hj hij (by
      intro hfree
      exact hdecision (hlaw.symm.trans hfree))
    refine ⟨_, mem_toList.mpr hmem, ?_⟩
    rcases orderedPair_eq_or i j with hpair | hpair <;> rw [hpair]
    · exact ⟨left, right, hi, hj, rfl, hlaw⟩
    · refine ⟨right, left, hj, hi, orderedPair_comm _ _, ?_⟩
      rw [RewriteFootprint.inferPairRewriteLaw_comm]
      exact hlaw

theorem decision_classifyPair :
    ((candidatePairs (ofNodes nodes) nodes.length).toList.foldl
      (classifyPair nodes) {}).decision left.key right.key =
        coordinationDecision (inferPairRewriteLaw left.footprint right.footprint) := by
  let candidates := (candidatePairs (ofNodes nodes) nodes.length).toList
  let graph : CompiledRewriteCoordinationGraph K := candidates.foldl (classifyPair nodes) {}
  have hfound : ∀ decision, decision ≠ .coordinationFree →
      (orderedPair left.key right.key ∈ graph.found decision ↔
        coordinationDecision (inferPairRewriteLaw left.footprint right.footprint) = decision) := by
    intro decision hdecision
    rw [← exists_classified_iff hkeys hflagged hi hj hne hdecision]
    have hadds := foldl_adds (f := classifyPair nodes)
      (V := fun graph : CompiledRewriteCoordinationGraph K =>
        orderedPair left.key right.key ∈ graph.found decision) candidates
      (fun _ _ _ => mem_found_classifyPair hdecision) {}
    refine hadds.trans (or_iff_left ?_)
    cases decision <;> exact not_mem_empty
  have hrequires := hfound .requiresCoordination nofun
  have hconflicts := hfound .intentConflict nofun
  unfold CompiledRewriteCoordinationGraph.found at hrequires hconflicts
  show graph.decision left.key right.key = _
  unfold CompiledRewriteCoordinationGraph.decision
  simp only [contains_iff_mem, hrequires, hconflicts]
  cases coordinationDecision (inferPairRewriteLaw left.footprint right.footprint) <;> rfl

end

end Graph

open PreparedRewriteIntent (rewriteSpec rewriteLawSet)

namespace RewriteCoordinationRegistry
variable {registry : RewriteCoordinationRegistry}

omit [Ord K] [TransOrd K] [LawfulEqOrd K] in
theorem node_eq_ok {entry : K × R} {node : Node K} (h : registry.node entry = .ok node) :
    node.key = entry.1 ∧ Flagged node ∧ registry.specs[rewriteSpec entry.2]? =
        some ⟨rewriteLawSet entry.2, node.footprint⟩ := by
  unfold RewriteCoordinationRegistry.node at h
  dsimp only at h
  split at h
  · cases h
  next registered hget =>
  split_ifs at h with hlaw
  cases h
  rw [not_not] at hlaw
  refine ⟨rfl, rfl, ?_⟩
  rw [← hlaw]
  exact hget

theorem foldlM_collectNode {rewrites : List (K × R)} {state : ExtTreeSet K × List (Node K)}
    (h : rewrites.foldlM registry.collectNode (∅, []) = .ok state) :
    Forall₂ (fun entry node => registry.node entry = .ok node) rewrites state.2 ∧
      (rewrites.map Prod.fst).Nodup := by
  let I : ExtTreeSet K × List (Node K) → List (K × R) → Prop := fun state done =>
    Forall₂ (fun entry node => registry.node entry = .ok node) done state.2 ∧
      (done.map Prod.fst).Nodup ∧ ∀ k, k ∈ state.1 ↔ k ∈ done.map Prod.fst
  have hstart : I (∅, []) [] := ⟨.nil, nodup_nil, by simp⟩
  have hrun : I state ([] ++ rewrites) := by
    refine foldlM_visited (I := I) ?_ rewrites h hstart
    rintro ⟨seen, nodes⟩ done entry state' ⟨hnodes, hnodup, hseen⟩ hstep
    unfold collectNode at hstep
    split_ifs at hstep with hdup
    obtain ⟨node, hnode, hstep⟩ := bind_eq_ok.mp hstep
    cases hstep
    rw [contains_iff_mem, hseen] at hdup
    refine ⟨rel_append hnodes (.cons hnode .nil), ?_, ?_⟩
    · rw [map_append, nodup_append]
      refine ⟨hnodup, nodup_singleton _, ?_⟩
      rintro k hk _ hmem rfl
      rw [map_singleton, mem_singleton] at hmem
      exact hdup (hmem ▸ hk)
    · intro k
      rw [mem_insert, hseen, map_append, mem_append, map_singleton,
        mem_singleton, LawfulEqOrd.compare_eq_iff_eq, or_comm, eq_comm]
  exact ⟨hrun.1, hrun.2.1⟩

/-- The compiled graph decides every two rewrites, in either order, as the pair law of their
registered footprints does. -/
theorem compile_decision_eq {rewrites : List (K × R)} {graph : CompiledRewriteCoordinationGraph K}
    (h : registry.compile rewrites = .ok graph) {a b : K} {left right : R}
    (ha : (a, left) ∈ rewrites) (hb : (b, right) ∈ rewrites) (hne : a ≠ b) :
    ∃ footprint footprint', registry.specs[rewriteSpec left]? =
        some ⟨rewriteLawSet left, footprint⟩ ∧
      registry.specs[rewriteSpec right]? = some ⟨rewriteLawSet right, footprint'⟩ ∧
      graph.decision a b = coordinationDecision (inferPairRewriteLaw footprint footprint') ∧
      graph.decision b a = coordinationDecision (inferPairRewriteLaw footprint footprint') := by
  obtain ⟨⟨seen, nodes⟩, hnodes, hgraph⟩ := bind_eq_ok.mp h
  cases hgraph
  obtain ⟨hrel, hnodup⟩ := foldlM_collectNode hnodes
  have hkeys : (nodes.map Node.key).Nodup := by
    have hmap : rewrites.map Prod.fst = nodes.map Node.key :=
      map_eq_map_iff_forall₂.mpr (hrel.imp fun entry node hnode => (node_eq_ok hnode).1.symm)
    rw [← hmap]
    exact hnodup
  have hflagged : ∀ node ∈ nodes, Flagged node := by
    intro node hmem
    obtain ⟨entry, _, hnode⟩ := forall₂_exists_left hrel hmem
    exact (node_eq_ok hnode).2.1
  obtain ⟨node, hmem, hnode⟩ := forall₂_exists_right hrel ha
  obtain ⟨node', hmem', hnode'⟩ := forall₂_exists_right hrel hb
  obtain ⟨rfl, _, hfootprint⟩ := node_eq_ok hnode
  obtain ⟨rfl, _, hfootprint'⟩ := node_eq_ok hnode'
  obtain ⟨i, hi⟩ := getElem?_of_mem hmem
  obtain ⟨j, hj⟩ := getElem?_of_mem hmem'
  refine ⟨node.footprint, node'.footprint, hfootprint, hfootprint',
    decision_classifyPair hkeys hflagged hi hj hne, ?_⟩
  rw [← RewriteFootprint.inferPairRewriteLaw_comm]
  exact decision_classifyPair hkeys hflagged hj hi (Ne.symm hne)

end RewriteCoordinationRegistry

end Compile

def assignField (value : SemanticId) : RewriteFootprint :=
  { writes := {(.productField 7, .idempotentAssign value)} }

/-- Specs `1` and `2` assign different values to one field, spec `3` reads another. -/
def fieldRegistry : RewriteCoordinationRegistry where
  specs := ExtTreeMap.ofList [(1, ⟨0, assignField 40⟩), (2, ⟨0, assignField 41⟩),
    (3, ⟨0, { reads := {.productField 8} }⟩)] compare

def fieldRewrite (spec : RewriteSpecId) : PreparedRewrite Unit Unit := ⟨spec, [], .replace (), 0⟩

theorem compile_decision_fields :
    ∃ graph : CompiledRewriteCoordinationGraph ℕ,
      fieldRegistry.compile [(10, fieldRewrite 1), (5, fieldRewrite 3), (4, fieldRewrite 2)] =
        .ok graph ∧ graph.decision 10 4 = .intentConflict ∧
      graph.decision 4 10 = .intentConflict := by
  have hsome : (fieldRegistry.compile [((10 : ℕ), fieldRewrite 1), (5, fieldRewrite 3),
      (4, fieldRewrite 2)]).toOption.isSome = true := by decide +kernel
  obtain ⟨graph, hgraph⟩ := exists_ok_of_isSome hsome
  have hfirst : ((10 : ℕ), fieldRewrite 1) ∈ [(10, fieldRewrite 1), (5, fieldRewrite 3),
      (4, fieldRewrite 2)] := by simp
  have hsecond : ((4 : ℕ), fieldRewrite 2) ∈ [(10, fieldRewrite 1), (5, fieldRewrite 3),
      (4, fieldRewrite 2)] := by simp
  obtain ⟨footprint, footprint', h, h', hleft, hright⟩ :=
    RewriteCoordinationRegistry.compile_decision_eq hgraph hfirst hsecond (by decide)
  have hspec : fieldRegistry.specs[(1 : RewriteSpecId)]? = some ⟨0, assignField 40⟩ := by
    decide +kernel
  have hspec' : fieldRegistry.specs[(2 : RewriteSpecId)]? = some ⟨0, assignField 41⟩ := by
    decide +kernel
  cases hspec.symm.trans h
  cases hspec'.symm.trans h'
  have hlaw : coordinationDecision (inferPairRewriteLaw (assignField 40) (assignField 41)) =
      .intentConflict := by decide +kernel
  exact ⟨graph, hgraph, hleft.trans hlaw, hright.trans hlaw⟩

end Cfmd.Rewrite
