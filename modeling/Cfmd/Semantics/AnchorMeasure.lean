import Cfmd.Lib.Greedy
import Cfmd.Protocol.Message

/-! Finite measures over the coordinates of a revision, factored through an anchor basis: the
coordinates of the basis tell the rows apart, and the others are restored from them. -/

namespace Cfmd.Semantics
open Std Lib Protocol List

inductive AnchorPullbackError where
  | unknownObservable (observable : RevisionObservableId)
  | unknownEqClass (eqClass : EqClassId)
  | foreignEqClass (eqClass : EqClassId) (expected actual : RevisionObservableId)
  | duplicateCoordinate (coordinate : RevisionObservableId)
  | unknownCoordinate (coordinate : RevisionObservableId)
  | tupleArityMismatch (expected actual : ℕ)
  | weightOverflow
  | morphismRevisionMismatch
  | morphismCatalogMismatch
deriving DecidableEq

/-- Definitions are asked for only by their ids, and class records for their observable. -/
structure RevisionObservableCatalog where
  revision : SemanticRevision
  catalogInstance : UInt64
  definitions : ExtTreeSet RevisionObservableId
  classRecords : ExtTreeMap EqClassId RevisionObservableId

abbrev WeightedRows (arity : ℕ) :=
  { rows : ExtTreeMap (List EqClassId) UInt64 //
    ∀ tuple : List EqClassId, tuple ∈ rows → tuple.length = arity }

structure RevisionFiniteMeasure where
  revision : SemanticRevision
  catalogInstance : UInt64
  coordinates : List RevisionObservableId
  rows : WeightedRows coordinates.length

structure AnchorMeasureEntry where
  reconstruction : List EqClassId
  weight : UInt64

structure AnchorMeasureState where
  revision : SemanticRevision
  catalogInstance : UInt64
  coordinates : List RevisionObservableId
  basis : List RevisionObservableId
  target : List RevisionObservableId
  measure : ExtTreeMap (List EqClassId) AnchorMeasureEntry

section
variable (catalog : RevisionObservableCatalog) (coordinates : List RevisionObservableId)

def checkCoordinate (seen : ExtTreeSet RevisionObservableId) (coordinate : RevisionObservableId) :
    Except AnchorPullbackError (ExtTreeSet RevisionObservableId) :=
  if coordinate ∉ catalog.definitions then .error (.unknownObservable coordinate)
  else if coordinate ∈ seen then .error (.duplicateCoordinate coordinate)
  else .ok (seen.insert coordinate)

def checkClass (entry : RevisionObservableId × EqClassId) : Except AnchorPullbackError Unit :=
  match catalog.classRecords[entry.2]? with
  | none => .error (.unknownEqClass entry.2)
  | some actual =>
    if actual ≠ entry.1 then .error (.foreignEqClass entry.2 entry.1 actual) else .ok ()

theorem length_of_mem_insert {arity : ℕ} (merged : WeightedRows arity) {tuple : List EqClassId}
    (h : tuple.length = arity) (weight : UInt64) :
    ∀ t ∈ merged.1.insert tuple weight, t.length = arity := by
  intro t ht
  rw [ExtTreeMap.mem_insert, LawfulEqOrd.compare_eq_iff_eq] at ht
  rcases ht with rfl | ht
  · exact h
  · exact merged.2 t ht

def mergeRow (merged : WeightedRows coordinates.length) (row : List EqClassId × UInt64) :
    Except AnchorPullbackError (WeightedRows coordinates.length) :=
  if harity : row.1.length = coordinates.length then do
    forM (coordinates.zip row.1) (checkClass catalog)
    let weight := merged.1[row.1]?.getD 0
    if row.2 = 0 then return merged
    else if 2 ^ 64 ≤ weight.toNat + row.2.toNat then throw .weightOverflow
    else return ⟨merged.1.insert row.1 (weight + row.2), length_of_mem_insert merged harity _⟩
  else .error (.tupleArityMismatch coordinates.length row.1.length)

def RevisionFiniteMeasure.new (rows : List (List EqClassId × UInt64)) :
    Except AnchorPullbackError RevisionFiniteMeasure := do
  let _ ← coordinates.foldlM (checkCoordinate catalog) ∅
  let merged ← rows.foldlM (mergeRow catalog coordinates)
    ⟨∅, fun _ h => absurd h ExtTreeMap.not_mem_empty⟩
  return ⟨catalog.revision, catalog.catalogInstance, coordinates, merged⟩

end

def positionsOf (coordinates : List RevisionObservableId) (keep : RevisionObservableId → Bool) :
    List ℕ :=
  (coordinates.zipIdx.filter fun entry => keep entry.1).map Prod.snd

def project (positions : List ℕ) (tuple : List EqClassId) : List EqClassId :=
  positions.map fun position => tuple[position]?.getD 0

def allNew (positions : List ℕ) : List (List EqClassId) → ExtTreeSet (List EqClassId) → Bool
  | [], _ => true
  | tuple :: tuples, projections =>
    if project positions tuple ∈ projections then false
    else allNew positions tuples (projections.insert (project positions tuple))

namespace RevisionFiniteMeasure
variable (measure : RevisionFiniteMeasure)

def positions (subset : ExtTreeSet RevisionObservableId) : Except AnchorPullbackError (List ℕ) :=
  match subset.toList.find? (· ∉ measure.coordinates) with
  | some unknown => .error (.unknownCoordinate unknown)
  | none => .ok (positionsOf measure.coordinates (· ∈ subset))

def projectionIsInjective (subset : ExtTreeSet RevisionObservableId) :
    Except AnchorPullbackError Bool := do
  let positions ← measure.positions subset
  return allNew positions measure.rows.1.keys ∅

def stableAnchorBasis : Except AnchorPullbackError (ExtTreeSet RevisionObservableId) :=
  measure.coordinates.reverse.foldlM (dropUnless measure.projectionIsInjective)
    (ExtTreeSet.ofList measure.coordinates)

def ensureCatalog (catalog : RevisionObservableCatalog) : Except AnchorPullbackError Unit :=
  if measure.revision ≠ catalog.revision then .error .morphismRevisionMismatch
  else if measure.catalogInstance ≠ catalog.catalogInstance then .error .morphismCatalogMismatch
  else .ok ()

def anchorFactorization (catalog : RevisionObservableCatalog) :
    Except AnchorPullbackError AnchorMeasureState := do
  measure.ensureCatalog catalog
  let basisSet ← measure.stableAnchorBasis
  let target := measure.coordinates.filter (· ∉ basisSet)
  let basisPositions ← measure.positions basisSet
  let targetPositions ← measure.positions (ExtTreeSet.ofList target)
  return {
    revision := measure.revision
    catalogInstance := measure.catalogInstance
    coordinates := measure.coordinates
    basis := measure.coordinates.filter (· ∈ basisSet)
    target
    measure := measure.rows.1.toList.foldl (fun entries row =>
      entries.insert (project basisPositions row.1) ⟨project targetPositions row.1, row.2⟩) ∅ }

end RevisionFiniteMeasure

def scatter (positions : List ℕ) (classes row : List EqClassId) : List EqClassId :=
  (positions.zip classes).foldl (fun row entry => row.set entry.1 entry.2) row

namespace AnchorMeasureState
variable (state : AnchorMeasureState)

def reconstructedRow (basis reconstruction : List EqClassId) : List EqClassId :=
  scatter (positionsOf state.coordinates (· ∈ state.target)) reconstruction
    (scatter (positionsOf state.coordinates (· ∈ state.basis)) basis
      (replicate state.coordinates.length 0))

def reconstructedMeasure : ExtTreeMap (List EqClassId) UInt64 :=
  state.measure.toList.foldl (fun rows entry =>
    rows.insert (state.reconstructedRow entry.1 entry.2.reconstruction) entry.2.weight) ∅

end AnchorMeasureState

/-! ### Projections -/

theorem mem_positionsOf {coordinates : List RevisionObservableId}
    {keep : RevisionObservableId → Bool} {i : ℕ} :
    i ∈ positionsOf coordinates keep ↔ ∃ c, coordinates[i]? = some c ∧ keep c = true := by
  rw [positionsOf, mem_map]
  constructor
  · rintro ⟨⟨c, i⟩, hmem, rfl⟩
    rw [mem_filter, mem_zipIdx_iff_getElem?] at hmem
    exact ⟨c, hmem⟩
  · rintro ⟨c, hmem⟩
    refine ⟨(c, i), ?_, rfl⟩
    rwa [mem_filter, mem_zipIdx_iff_getElem?]

theorem getElem?_scatter (positions : List ℕ) (tuple row : List EqClassId) (i : ℕ) :
    (scatter positions (project positions tuple) row)[i]? =
      if i ∈ positions then row[i]?.map fun _ => tuple[i]?.getD 0 else row[i]? := by
  induction positions generalizing row with
  | nil => rfl
  | cons position positions ih =>
    rw [show scatter (position :: positions) _ row = scatter positions (project positions tuple)
      (row.set position (tuple[position]?.getD 0)) from rfl, ih, getElem?_set']
    by_cases hi : position = i
    · subst hi
      rw [if_pos rfl, if_pos mem_cons_self]
      split_ifs
      · exact Option.map_map ..
      · rfl
    · simp only [if_neg hi, mem_cons, Ne.symm hi, false_or]

theorem allNew_iff (positions : List ℕ) (tuples : List (List EqClassId))
    (projections : ExtTreeSet (List EqClassId)) :
    allNew positions tuples projections = true ↔ (tuples.map (project positions)).Nodup ∧
      ∀ tuple ∈ tuples, project positions tuple ∉ projections := by
  induction tuples generalizing projections with
  | nil => simp [allNew]
  | cons tuple tuples ih =>
    rw [allNew, map_cons, nodup_cons, forall_mem_cons]
    split_ifs with hmem
    · exact ⟨nofun, fun h => absurd hmem h.2.1⟩
    · rw [ih]
      simp only [ExtTreeSet.mem_insert, LawfulEqOrd.compare_eq_iff_eq, not_or, mem_map,
        not_exists, not_and]
      constructor
      · exact fun ⟨hnodup, hnew⟩ =>
          ⟨⟨fun t ht heq => (hnew t ht).1 heq.symm, hnodup⟩, hmem, fun t ht => (hnew t ht).2⟩
      · exact fun ⟨⟨hne, hnodup⟩, _, hnew⟩ =>
          ⟨hnodup, fun t ht => ⟨fun heq => hne t ht heq.symm, hnew t ht⟩⟩

namespace RevisionFiniteMeasure
variable (measure : RevisionFiniteMeasure) {keep keep' : RevisionObservableId → Bool}
  {subset : ExtTreeSet RevisionObservableId}

def InjectiveOn (keep : RevisionObservableId → Bool) : Prop :=
  Set.InjOn (project (positionsOf measure.coordinates keep)) {tuple | tuple ∈ measure.rows.1}

variable {measure} in
theorem InjectiveOn.mono (h : measure.InjectiveOn keep)
    (hsub : ∀ c, keep c = true → keep' c = true) : measure.InjectiveOn keep' := by
  intro t ht t' ht' heq
  apply h ht ht'
  rw [project, project, map_inj_left] at heq ⊢
  intro i hi
  obtain ⟨c, hc, hkeep⟩ := mem_positionsOf.mp hi
  exact heq i (mem_positionsOf.mpr ⟨c, hc, hsub c hkeep⟩)

theorem positions_eq (hsub : ∀ c ∈ subset, c ∈ measure.coordinates) :
    measure.positions subset = .ok (positionsOf measure.coordinates (· ∈ subset)) := by
  have hnone : subset.toList.find? (· ∉ measure.coordinates) = none := by
    rw [find?_eq_none]
    intro c hc
    simpa using hsub c (ExtTreeSet.mem_toList.mp hc)
  rw [positions, hnone]

theorem projectionIsInjective_spec (hsub : ∀ c ∈ subset, c ∈ measure.coordinates) :
    ∃ b, measure.projectionIsInjective subset = .ok b ∧
      (b = true ↔ measure.InjectiveOn (· ∈ subset)) := by
  refine ⟨_, by rw [projectionIsInjective, measure.positions_eq hsub]; rfl, ?_⟩
  rw [allNew_iff, nodup_map_iff_inj_on (nodup_keys _), and_iff_left (by simp)]
  simp only [ExtTreeMap.mem_keys]
  rfl

theorem stableAnchorBasis_spec : ∃ basis, measure.stableAnchorBasis = .ok basis ∧
    (∀ c ∈ basis, c ∈ measure.coordinates) ∧ measure.InjectiveOn (· ∈ basis) ∧
    ∀ c ∈ basis, ¬ measure.InjectiveOn (· ∈ basis.erase c) := by
  have hall : ∀ c ∈ ExtTreeSet.ofList measure.coordinates, c ∈ measure.coordinates := by
    intro c hc
    rwa [ExtTreeSet.mem_ofList, contains_iff_mem] at hc
  -- all coordinates together are the tuple
  have hstart : measure.InjectiveOn (· ∈ ExtTreeSet.ofList measure.coordinates) := by
    intro t ht t' ht' heq
    rw [project, project, map_inj_left] at heq
    have hlen := (measure.rows.2 t ht).trans (measure.rows.2 t' ht').symm
    apply ext_getElem hlen
    intro i hi hi'
    have hcoord : i < measure.coordinates.length := by rwa [← measure.rows.2 t ht]
    have hget := heq i (mem_positionsOf.mpr ⟨_, getElem?_eq_getElem hcoord, by simp⟩)
    rwa [getElem?_eq_getElem hi, getElem?_eq_getElem hi'] at hget
  obtain ⟨basis, hbasis, hsub, hinj, hneeded⟩ := foldlM_dropUnless
    (P := fun subset => measure.InjectiveOn (· ∈ subset))
    (fun s t hsub h => h.mono fun c hc => decide_eq_true (hsub c (of_decide_eq_true hc)))
    (fun s hs => measure.projectionIsInjective_spec fun c hc => hall c (hs c hc)) hstart
    measure.coordinates.reverse
  refine ⟨basis, hbasis, fun c hc => hall c (hsub c hc), hinj, fun c hc => ?_⟩
  exact hneeded c hc (mem_reverse.mpr (hall c (hsub c hc)))

end RevisionFiniteMeasure

/-! ### The factorization -/

section
variable (measure : RevisionFiniteMeasure)

theorem reconstructedRow_project {state : AnchorMeasureState}
    (hall : ∀ c ∈ state.coordinates, c ∈ state.basis ∨ c ∈ state.target)
    {tuple : List EqClassId} (hlen : tuple.length = state.coordinates.length) :
    state.reconstructedRow (project (positionsOf state.coordinates (· ∈ state.basis)) tuple)
      (project (positionsOf state.coordinates (· ∈ state.target)) tuple) = tuple := by
  apply ext_getElem?
  intro i
  rw [AnchorMeasureState.reconstructedRow, getElem?_scatter, getElem?_scatter, getElem?_replicate]
  by_cases hi : i < state.coordinates.length
  · have hplace : i ∈ positionsOf state.coordinates (· ∈ state.basis) ∨
        i ∈ positionsOf state.coordinates (· ∈ state.target) := by
      have hget := getElem?_eq_getElem hi
      exact (hall _ (getElem_mem hi)).imp
        (fun h => mem_positionsOf.mpr ⟨_, hget, decide_eq_true h⟩)
        (fun h => mem_positionsOf.mpr ⟨_, hget, decide_eq_true h⟩)
    rw [getElem?_eq_getElem (hlen.symm ▸ hi : i < tuple.length)]
    split_ifs with htarget hbasis hbasis
    · rfl
    · rfl
    · rfl
    · exact absurd hplace (not_or.mpr ⟨hbasis, htarget⟩)
  · rw [if_neg hi, getElem?_eq_none (by omega : tuple.length ≤ i)]
    simp

def factored (basis target : List RevisionObservableId) : AnchorMeasureState where
  revision := measure.revision
  catalogInstance := measure.catalogInstance
  coordinates := measure.coordinates
  basis
  target
  measure := measure.rows.1.toList.foldl (fun entries row =>
    entries.insert (project (positionsOf measure.coordinates (· ∈ basis)) row.1)
      ⟨project (positionsOf measure.coordinates (· ∈ target)) row.1, row.2⟩) ∅

theorem reconstructedMeasure_factored {basis target : List RevisionObservableId}
    (hall : ∀ c ∈ measure.coordinates, c ∈ basis ∨ c ∈ target)
    (hinj : measure.InjectiveOn (· ∈ basis)) :
    (factored measure basis target).reconstructedMeasure = measure.rows.1 := by
  have hkey : ∀ row ∈ measure.rows.1.toList, row.1 ∈ measure.rows.1 := by
    intro row hmem
    rw [← ExtTreeMap.mem_keys, ← ExtTreeMap.map_fst_toList_eq_keys]
    exact mem_map_of_mem hmem
  apply foldl_insert_back fun e : List EqClassId × AnchorMeasureEntry =>
    ((factored measure basis target).reconstructedRow e.1 e.2.reconstruction, e.2.weight)
  · rw [nodup_map_iff_inj_on (nodup_toList _)]
    intro row hmem row' hmem' heq
    exact (nodup_map_iff_inj_on (nodup_toList _)).mp (nodup_fst_toList measure.rows.1) _ hmem _
      hmem' (hinj (hkey row hmem) (hkey row' hmem') heq)
  · intro row hmem
    exact Prod.ext (reconstructedRow_project hall (measure.rows.2 _ (hkey row hmem))) rfl

/-- The anchor basis loses nothing, tells the rows apart, and needs each of its coordinates; only a
foreign catalog is refused. -/
theorem anchorFactorization_spec (catalog : RevisionObservableCatalog) : ∃ state,
    measure.anchorFactorization catalog = (do measure.ensureCatalog catalog; return state) ∧
    state.reconstructedMeasure = measure.rows.1 ∧
    measure.InjectiveOn (· ∈ state.basis) ∧
    ∀ c ∈ state.basis, ¬ measure.InjectiveOn fun x => x ∈ state.basis ∧ x ≠ c := by
  obtain ⟨basis, hbasis, hsub, hinj, hneeded⟩ := measure.stableAnchorBasis_spec
  have hmem : ∀ c, c ∈ measure.coordinates.filter (· ∈ basis) ↔ c ∈ basis := by
    intro c
    simpa using hsub c
  have htarget : ∀ c, c ∈ ExtTreeSet.ofList (measure.coordinates.filter (· ∉ basis)) ↔
      c ∈ measure.coordinates.filter (· ∉ basis) := by
    intro c
    rw [ExtTreeSet.mem_ofList, contains_iff_mem]
  have hpositions := measure.positions_eq hsub
  have hpositions' := measure.positions_eq fun c hc => mem_of_mem_filter ((htarget c).mp hc)
  rw [← funext fun c => decide_eq_decide.mpr (hmem c)] at hinj
  have hfactored : measure.anchorFactorization catalog = (do
      measure.ensureCatalog catalog
      return factored measure (measure.coordinates.filter (· ∈ basis))
        (measure.coordinates.filter (· ∉ basis))) := by
    refine bind_congr fun _ => ?_
    simp only [bind, Except.bind, hbasis, hpositions, hpositions', factored, hmem, htarget]
  refine ⟨_, hfactored, reconstructedMeasure_factored measure ?_ hinj, hinj, ?_⟩
  · intro c hc
    by_cases hkeep : c ∈ basis
    · exact .inl (mem_filter.mpr ⟨hc, decide_eq_true hkeep⟩)
    · exact .inr (mem_filter.mpr ⟨hc, decide_eq_true hkeep⟩)
  · intro c hc hinj'
    refine hneeded c ((hmem c).mp hc) (hinj'.mono fun x hx => decide_eq_true ?_)
    obtain ⟨hx, hne⟩ := of_decide_eq_true hx
    exact mem_erase_iff.mpr ⟨hne.symm, (hmem x).mp hx⟩

end

end Cfmd.Semantics
