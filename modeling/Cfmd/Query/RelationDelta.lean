import Cfmd.Lib.Tally
import Cfmd.Query.Relation
import Cfmd.Rewrite.Laws
import Cfmd.Semantics.KeyCodec

/-! Relation deltas: their application to a value, their rewrite footprint, and what is left
of one against a newer value. Rows are looked up by their canonical keys. -/

namespace Cfmd.Query
open Lib Std Semantics Rewrite

def inconsistent {α : Type} : Fallible RelQueryError α :=
  .error (.error .inconsistentIncrementalDelta)

section Rows
variable {κ : Type} [Ord κ] [TransOrd κ] (key : Row → Fallible RelQueryError κ)

/-! ### Application -/

/-- One row of the class is taken out of the support. -/
def removeClass (counts : Tally κ × Tally κ) (k : κ) :
    Fallible RelQueryError (Tally κ × Tally κ) :=
  match counts.1[k]? with
  | none => inconsistent
  | some 0 => inconsistent
  | some (count + 1) => .ok (counts.1.insert k count, bump counts.2 k)

/-- In a set, a class is inserted only if it has no support. -/
def insertClass (expectedSet : Bool) (supportCounts : Tally κ) (k : κ) :
    Fallible RelQueryError (Tally κ) :=
  if expectedSet && supportCounts.getD k 0 != 0 then inconsistent
  else .ok (bump supportCounts k)

/-- The loops of `apply_relation_delta_to_value`. -/
def applyRows (expectedSet : Bool) (rows removed inserted : List Row) :
    Fallible RelQueryError (List Row) := do
  let rowKeys ← rows.mapM key
  let (supportCounts, removals) ← removed.foldlM (fun counts row => do
    removeClass counts (← key row)) (tallyOf rowKeys, ∅)
  let _ ← inserted.foldlM (fun counts row => do
    insertClass expectedSet counts (← key row)) supportCounts
  return (withdraw removals (rows.zip rowKeys)).map Prod.fst ++ inserted

/-- Nothing is looked up when there is nothing to compare. -/
def nextRows (expectedSet : Bool) (rows removed inserted : List Row) :
    Fallible RelQueryError (List Row) :=
  if removed.isEmpty && (inserted.isEmpty || !expectedSet) then .ok (rows ++ inserted)
  else applyRows key expectedSet rows removed inserted

/-! ### Residuals -/

def indexRow (current : ExtTreeMap κ Row) (row : Row) (k : κ) :
    Fallible RelQueryError (ExtTreeMap κ Row) :=
  if current.contains k then inconsistent else .ok (current.insert k row)

def currentByKey (rows : List Row) : Fallible RelQueryError (ExtTreeMap κ Row) :=
  rows.foldlM (fun current row => do indexRow current row (← key row)) ∅

/-- A removal that is not satisfied yet takes the row that is there. -/
def residualRemoval (state : ExtTreeMap κ Row × List Row) (k : κ) :
    ExtTreeMap κ Row × List Row :=
  match state.1[k]? with
  | some existing => (state.1.erase k, state.2 ++ [existing])
  | none => state

def residualInsertion (state : ExtTreeMap κ Row × List Row) (row : Row)
    (k : κ) : ExtTreeMap κ Row × List Row :=
  if state.1.contains k then state else (state.1.insert k row, state.2 ++ [row])

/-- `residualize_against` on a set: the rows still to be removed and inserted. -/
def residualRows (rows removed inserted : List Row) :
    Fallible RelQueryError (List Row × List Row) := do
  let current ← currentByKey key rows
  let removedKeys ← removed.mapM key
  let insertedKeys ← inserted.mapM key
  if removedKeys.any (ExtTreeSet.ofList insertedKeys compare).contains then inconsistent
  else do
    let (current, removed) ← removed.foldlM (fun state row => do
      return residualRemoval state (← key row)) (current, [])
    let (_, inserted) ← inserted.foldlM (fun state row => do
      return residualInsertion state row (← key row)) (current, [])
    return (removed, inserted)

def residual (expectedSet : Bool) (rows removed inserted : List Row) :
    Fallible RelQueryError (List Row × List Row) :=
  if expectedSet then residualRows key rows removed inserted else .ok (removed, inserted)

end Rows

/-! ### Footprints -/

def relationClassAction : RelationSemantics → Bool → RewriteActionLaw
  | .set _, true => .ensurePresent
  | .set _, false => .ensureAbsent
  | .bag _, _ => .opaqueAction

def recordRelationClassAction (relation : SemanticId) (action : RewriteActionLaw)
    (footprint : RewriteFootprint) (k : CanonicalRowKey) : RewriteFootprint :=
  let coordinate := .relationClass relation (encodeCanonicalEqKeyTuple k)
  match footprint.writes[coordinate]? with
  | none => { footprint with writes := footprint.writes.insert coordinate action }
  | some recorded =>
    if recorded ≠ action then
      { footprint with writes := footprint.writes.insert coordinate .opaqueAction }
    else footprint

def recordRows (key : Row → Fallible RelQueryError CanonicalRowKey) (relation : SemanticId)
    (action : RewriteActionLaw) (rows : List Row) (footprint : RewriteFootprint) :
    Fallible RelQueryError RewriteFootprint :=
  rows.foldlM (fun footprint row => do
    return recordRelationClassAction relation action footprint (← key row)) footprint

/-- The column types of `result_type` are not read by these functions. -/
structure RelationDelta where
  inserted : List Row
  removed : List Row
  semantics : RelationSemantics

namespace RelationDelta
variable (context : SemanticContext) (registry : SemanticRegistry)

def rowKey (delta : RelationDelta) : Row → Fallible RelQueryError CanonicalRowKey :=
  canonicalRowKey context registry delta.semantics.columnEquivalences

def applyToValue (delta : RelationDelta) (old : RelationValue) :
    Fallible RelQueryError RelationValue :=
  let expectedSet := delta.semantics.isSet
  if expectedSet != old.isSet then inconsistent
  else do
    let rows ← nextRows (delta.rowKey context registry) expectedSet old.rows delta.removed
      delta.inserted
    return relationValueFromRows rows delta.semantics

def residualizeAgainst (delta : RelationDelta) (current : RelationValue) :
    Fallible RelQueryError RelationDelta := do
  let (removed, inserted) ← residual (delta.rowKey context registry) delta.semantics.isSet
    current.rows delta.removed delta.inserted
  return { inserted, removed, semantics := delta.semantics }

def rewriteFootprint (delta : RelationDelta) (relation : SemanticId) :
    Fallible RelQueryError RewriteFootprint := do
  let key := delta.rowKey context registry
  let footprint ← recordRows key relation (relationClassAction delta.semantics false)
    delta.removed {}
  recordRows key relation (relationClassAction delta.semantics true) delta.inserted footprint

end RelationDelta

end Cfmd.Query
