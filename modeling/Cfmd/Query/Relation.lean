import Cfmd.Semantics.Equivalence

/-! Relation values and the canonical keys of their rows. -/

namespace Cfmd.Query
open Lib Semantics

abbrev Row := List Value

inductive RelationSemantics
  | set (columnEquivalences : List SemanticId)
  | bag (columnEquivalences : List SemanticId)

namespace RelationSemantics

def columnEquivalences : RelationSemantics → List SemanticId
  | set columnEquivalences => columnEquivalences
  | bag columnEquivalences => columnEquivalences

def isSet : RelationSemantics → Bool
  | set _ => true
  | bag _ => false

end RelationSemantics

inductive RelationValue
  | bag (rows : List Row)
  | set (rows : List Row) (columnEquivalences : List SemanticId)

namespace RelationValue

def rows : RelationValue → List Row
  | bag rows => rows
  | set rows _ => rows

def isSet : RelationValue → Bool
  | bag _ => false
  | set _ _ => true

end RelationValue

inductive RelQueryError
  | unknownRelation (relation : SemanticId)
  | columnOutOfBounds
  | equivalenceArityMismatch
  | typeMismatch
  | equivalenceNotCongruentWithInputEquality
  | inconsistentIncrementalDelta
  | semantic (error : SemanticError)
deriving DecidableEq

/-- `map_err(RelQueryError::from)`. -/
def fromSemantic {α : Type} : Fallible SemanticError α → Fallible RelQueryError α
  | .ok a => .ok a
  | .error (.error e) => .error (.error (.semantic e))
  | .error (.panic message) => .error (.panic message)

abbrev CanonicalRowKey := List CanonicalEqKey

def canonicalRowKey (context : SemanticContext) (registry : SemanticRegistry)
    (columnEquivalences : List SemanticId) (row : Row) : Fallible RelQueryError CanonicalRowKey :=
  if row.length ≠ columnEquivalences.length then .error (.error .equivalenceArityMismatch)
  else (row.zip columnEquivalences).mapM fun entry =>
    fromSemantic (registry.canonicalEquivalenceKey context entry.2 entry.1)

def relationValueFromRows (rows : List Row) : RelationSemantics → RelationValue
  | .bag _ => .bag rows
  | .set columnEquivalences => .set rows columnEquivalences

@[simp] theorem rows_relationValueFromRows (rows : List Row) (semantics : RelationSemantics) :
    (relationValueFromRows rows semantics).rows = rows := by
  cases semantics <;> rfl

@[simp] theorem isSet_relationValueFromRows (rows : List Row) (semantics : RelationSemantics) :
    (relationValueFromRows rows semantics).isSet = semantics.isSet := by
  cases semantics <;> rfl

end Cfmd.Query
