import Cfmd.Durability.QueryCodec
import Cfmd.Query.Relation

/-! Linear islands: a chain of filters, bag projections and promotions, compiled into
predicates and a projection over the columns of its input. -/

namespace Cfmd.Query
open Lib List

inductive LinearIslandPredicate
  | eqConst (sourceColumn : ℕ) (value : Value) (equivalence : SemanticId)
  | orderConst (sourceColumn : ℕ) (value : Value) (ordering : SemanticId)
      (comparison : OrderComparison)
  | eqColumns (leftSourceColumn rightSourceColumn : ℕ) (equivalence : SemanticId)

structure LinearIslandNormalForm where
  inputWidth : ℕ
  predicates : List LinearIslandPredicate
  projection : List ℕ

inductive LinearStep
  | filterEqConst (column : ℕ) (value : Value) (equivalence : SemanticId)
  | filterOrderConst (column : ℕ) (value : Value) (ordering : SemanticId)
      (comparison : OrderComparison)
  | filterEqColumns (leftColumn rightColumn : ℕ) (equivalence : SemanticId)
  | projectBag (columns : List ℕ)
  | promoteToBag

/-- `get(column).ok_or(ColumnOutOfBounds)`. -/
def columnOf {α : Type} (columns : List α) (column : ℕ) : Fallible RelQueryError α :=
  match columns[column]? with
  | some found => .ok found
  | none => .error (.error .columnOutOfBounds)

def OrderComparison.accepts : OrderComparison → Ordering → Bool
  | less, order => order.isLT
  | lessOrEqual, order => order.isLE
  | greater, order => order.isGT
  | greaterOrEqual, order => order.isGE

/-! ### Compilation -/

/-- One round of the loop: the source column of each current column, and the predicates so far. -/
def LinearStep.compile (state : List ℕ × List LinearIslandPredicate) :
    LinearStep → Fallible RelQueryError (List ℕ × List LinearIslandPredicate)
  | filterEqConst column value equivalence => do
    return (state.1, state.2 ++ [.eqConst (← columnOf state.1 column) value equivalence])
  | filterOrderConst column value ordering comparison => do
    return (state.1, state.2 ++ [.orderConst (← columnOf state.1 column) value ordering comparison])
  | filterEqColumns leftColumn rightColumn equivalence => do
    return (state.1, state.2 ++
      [.eqColumns (← columnOf state.1 leftColumn) (← columnOf state.1 rightColumn) equivalence])
  | projectBag columns => do return (← columns.mapM (columnOf state.1), state.2)
  | promoteToBag => return state

def compileNormalForm (inputWidth : ℕ) (steps : List LinearStep) :
    Fallible RelQueryError LinearIslandNormalForm := do
  let (mapping, predicates) ← steps.foldlM LinearStep.compile (range inputWidth, [])
  return ⟨inputWidth, predicates, mapping⟩

/-! ### Evaluation -/

section Evaluation
-- the registry's `equivalent` and `compare` in a context
variable (equivalent : SemanticId → Value → Value → Fallible RelQueryError Bool)
  (compare : SemanticId → Value → Value → Fallible RelQueryError Ordering)

def LinearIslandPredicate.passes (row : Row) :
    LinearIslandPredicate → Fallible RelQueryError Bool
  | eqConst sourceColumn value equivalence => do
    equivalent equivalence (← columnOf row sourceColumn) value
  | orderConst sourceColumn value ordering comparison => do
    return comparison.accepts (← compare ordering (← columnOf row sourceColumn) value)
  | eqColumns leftSourceColumn rightSourceColumn equivalence => do
    equivalent equivalence (← columnOf row leftSourceColumn) (← columnOf row rightSourceColumn)

namespace LinearIslandNormalForm

def projectRow (row : Row) (projection : List ℕ) :
    List LinearIslandPredicate → Fallible RelQueryError (Option Row)
  | [] => some <$> projection.mapM (columnOf row)
  | predicate :: predicates => do
    if ← predicate.passes equivalent compare row then projectRow row projection predicates
    else return none

def projectIfAccepted (self : LinearIslandNormalForm) (row : Row) :
    Fallible RelQueryError (Option Row) :=
  if row.length ≠ self.inputWidth then .error (.error .typeMismatch)
  else projectRow equivalent compare row self.projection self.predicates

end LinearIslandNormalForm

/-! ### The chain itself -/

def keepIf (row : Row) (test : Fallible RelQueryError Bool) :
    Fallible RelQueryError (Option Row) := do
  if ← test then return some row else return none

def LinearStep.applyRow (row : Row) : LinearStep → Fallible RelQueryError (Option Row)
  | filterEqConst column value equivalence =>
    keepIf row do equivalent equivalence (← columnOf row column) value
  | filterOrderConst column value ordering comparison =>
    keepIf row do return comparison.accepts (← compare ordering (← columnOf row column) value)
  | filterEqColumns leftColumn rightColumn equivalence =>
    keepIf row do equivalent equivalence (← columnOf row leftColumn) (← columnOf row rightColumn)
  | projectBag columns => some <$> columns.mapM (columnOf row)
  | promoteToBag => return some row

def ifKept (result : Fallible RelQueryError (Option Row))
    (rest : Row → Fallible RelQueryError (Option Row)) : Fallible RelQueryError (Option Row) := do
  match ← result with
  | some next => rest next
  | none => return none

def applySteps : List LinearStep → Row → Fallible RelQueryError (Option Row)
  | [], row => return some row
  | step :: steps, row => ifKept (step.applyRow equivalent compare row) (applySteps steps)

open LinearIslandNormalForm

/-! ### Pulling a stage back to the input -/

theorem columnOf_eq_ok {α : Type} {columns : List α} {column : ℕ} {found : α} :
    columnOf columns column = .ok found ↔ columns[column]? = some found := by
  unfold columnOf
  cases columns[column]? with
  | none | some a => simp

def ReadAt (row : Row) (mapping : List ℕ) (current : Row) : Prop :=
  mapping.mapM (columnOf row) = .ok current

theorem readAt_range (row : Row) : ReadAt row (range row.length) row := by
  apply (mapM_eq_ok _).mpr
  rw [forall₂_iff_get]
  refine ⟨length_range, ?_⟩
  intro i _ hi
  rw [columnOf_eq_ok]
  simp

section Stage
variable {equivalent compare} {row current : Row} {mapping projection : List ℕ}
  {predicates : List LinearIslandPredicate}

section
variable (hread : ReadAt row mapping current)
include hread

theorem ReadAt.column {column source : ℕ} (h : columnOf mapping column = .ok source) :
    ∃ value, columnOf row source = .ok value ∧ columnOf current column = .ok value := by
  have hpairs := (mapM_eq_ok _).mp hread
  rw [columnOf_eq_ok, getElem?_eq_some_iff] at h
  obtain ⟨hlt, rfl⟩ := h
  have hlt' : column < current.length := hpairs.length_eq ▸ hlt
  refine ⟨current[column], (forall₂_iff_get.mp hpairs).2 column hlt hlt', ?_⟩
  rw [columnOf_eq_ok, getElem?_eq_getElem hlt']

theorem ReadAt.column_eq {column source : ℕ} (h : columnOf mapping column = .ok source) :
    columnOf row source = columnOf current column := by
  obtain ⟨value, hrow, hcurrent⟩ := hread.column h
  rw [hrow, hcurrent]

theorem ReadAt.columns {columns next : List ℕ} (h : columns.mapM (columnOf mapping) = .ok next) :
    ∃ picked, columns.mapM (columnOf current) = .ok picked ∧ ReadAt row next picked := by
  rw [mapM_eq_ok] at h
  induction h with
  | nil => exact ⟨[], rfl, rfl⟩
  | cons hsource _ ih =>
    obtain ⟨value, hrow, hcurrent⟩ := hread.column hsource
    obtain ⟨picked, hpicked, hnext⟩ := ih
    refine ⟨value :: picked, ?_, ?_⟩
    · rw [mapM_cons, hcurrent, hpicked]
      rfl
    · rw [ReadAt, mapM_cons, hrow, hnext]
      rfl

end

variable (equivalent compare) in
/-- What a compiled step leaves: predicates `new` that decide about the input row as the step does
about its own, and a mapping for the row it lets through. -/
def Compiled (row : Row) (new : List LinearIslandPredicate) (mapping : List ℕ)
    (result : Fallible RelQueryError (Option Row)) : Prop :=
  (∀ next, result = .ok (some next) → ReadAt row mapping next) ∧
    ∀ projection rest, projectRow equivalent compare row projection (new ++ rest) =
      ifKept result fun _ => projectRow equivalent compare row projection rest

theorem compiled_filter {predicate : LinearIslandPredicate} {test : Fallible RelQueryError Bool}
    (hread : ReadAt row mapping current) (htest : predicate.passes equivalent compare row = test) :
    Compiled equivalent compare row [predicate] mapping (keepIf current test) := by
  constructor
  · intro next hnext
    match test, hnext with
    | .ok true, rfl => exact hread
  · intro projection rest
    show (predicate.passes equivalent compare row >>= _) = _
    rw [htest]
    match test with
    | .error _ | .ok false | .ok true => rfl

theorem compiled_step {step : LinearStep} {mapping' : List ℕ}
    {predicates' : List LinearIslandPredicate}
    (h : step.compile (mapping, predicates) = .ok (mapping', predicates')) :
    ∃ new, predicates' = predicates ++ new ∧ ∀ current, ReadAt row mapping current →
      Compiled equivalent compare row new mapping' (step.applyRow equivalent compare current) := by
  cases step with
  | filterEqConst column value equivalence | filterOrderConst column value ordering comparison =>
    obtain ⟨source, hsource, h⟩ := bind_eq_ok.mp h
    cases h
    refine ⟨_, rfl, fun current hread => compiled_filter hread ?_⟩
    simp only [LinearIslandPredicate.passes, hread.column_eq hsource]
  | filterEqColumns leftColumn rightColumn equivalence =>
    obtain ⟨left, hleft, h⟩ := bind_eq_ok.mp h
    obtain ⟨right, hright, h⟩ := bind_eq_ok.mp h
    cases h
    refine ⟨_, rfl, fun current hread => compiled_filter hread ?_⟩
    simp only [LinearIslandPredicate.passes, hread.column_eq hleft, hread.column_eq hright]
  | projectBag columns =>
    obtain ⟨next, hnext, h⟩ := bind_eq_ok.mp h
    cases h
    refine ⟨[], (append_nil _).symm, fun current hread => ?_⟩
    obtain ⟨picked, hpicked, hread'⟩ := hread.columns hnext
    rw [LinearStep.applyRow, hpicked]
    refine ⟨?_, fun _ _ => rfl⟩
    rintro _ ⟨⟩
    exact hread'
  | promoteToBag =>
    cases h
    refine ⟨[], (append_nil _).symm, fun current hread => ⟨?_, fun _ _ => rfl⟩⟩
    rintro _ ⟨⟩
    exact hread

theorem compiled_steps {steps : List LinearStep} {out : List LinearIslandPredicate}
    (h : steps.foldlM LinearStep.compile (mapping, predicates) = .ok (projection, out)) :
    ∃ new, out = predicates ++ new ∧ ∀ current, ReadAt row mapping current →
      projectRow equivalent compare row projection new =
        applySteps equivalent compare steps current := by
  induction steps generalizing mapping predicates with
  | nil =>
    cases h
    refine ⟨[], (append_nil _).symm, fun current hread => ?_⟩
    rw [projectRow, hread]
    rfl
  | cons step steps ih =>
    rw [foldlM_cons] at h
    obtain ⟨⟨mapping', predicates'⟩, hstep, h⟩ := bind_eq_ok.mp h
    obtain ⟨new, rfl, hnew⟩ := compiled_step hstep
    obtain ⟨rest, hout, hrest⟩ := ih h
    refine ⟨new ++ rest, hout.trans (append_assoc ..), fun current hread => ?_⟩
    obtain ⟨hnext, hproject⟩ := hnew current hread
    rw [hproject, applySteps]
    -- the later predicates are reached only by a row that the step lets through
    match hresult : step.applyRow equivalent compare current with
    | .ok (some next) => exact hrest next (hnext next hresult)
    | .ok none | .error _ => rfl

end Stage

/-- A normal form does to a row of its width what the chain does step by step. -/
theorem projectIfAccepted_compileNormalForm {inputWidth : ℕ} {steps : List LinearStep}
    {normalForm : LinearIslandNormalForm} {row : Row}
    (hcompile : compileNormalForm inputWidth steps = .ok normalForm)
    (hwidth : row.length = inputWidth) :
    normalForm.projectIfAccepted equivalent compare row =
      applySteps equivalent compare steps row := by
  obtain ⟨⟨mapping, predicates⟩, hsteps, h⟩ := bind_eq_ok.mp hcompile
  cases h
  subst hwidth
  obtain ⟨new, rfl, hnew⟩ := compiled_steps hsteps
  rw [projectIfAccepted, if_neg (not_not.mpr rfl)]
  exact hnew row (readAt_range row)

end Evaluation

/-- The first column is tested after it has been moved to the end and doubled. -/
def movedChain : List LinearStep :=
  [.promoteToBag, .projectBag [1, 0, 0], .filterEqColumns 1 2 5, .projectBag [0]]

def sameBool : Value → Value → Fallible RelQueryError Bool
  | .bool left, .bool right => .ok (left == right)
  | _, _ => .error (.error .typeMismatch)

theorem projectIfAccepted_movedChain : ∃ normalForm, compileNormalForm 2 movedChain = .ok normalForm ∧
    normalForm.projectIfAccepted (fun _ => sameBool) (fun _ _ _ => .ok .eq) [.bool true, .unit] =
      .ok (some [.unit]) := by
  refine ⟨_, rfl, ?_⟩
  rw [@projectIfAccepted_compileNormalForm _ _ 2 movedChain _ _ rfl rfl]
  rfl

end Cfmd.Query
