import Cfmd.Model.Value

/-! The messages of the hosted protocol. -/

namespace Cfmd.Protocol

/-- The variants are those of the kernel's values; an `EntityRef` is its two ids. -/
abbrev ProtocolValue := Value

abbrev Row := List ProtocolValue

abbrev IdempotencyKey := Id128

abbrev SubscriptionId := UInt64

inductive SnapshotTarget
  | head
  | contractHead (schemaRevision : UInt64)
  | revision (revision : UInt64)

inductive OrderDirection
  | ascending
  | descending

inductive ProtocolQuery
  | scan (relation : Id128)
  | filterEq (input : ProtocolQuery) (column : ℕ) (value : ProtocolValue) (equivalence : Id128)
  | project (input : ProtocolQuery) (columns : List ℕ)
  | joinEq (left right : ProtocolQuery) (leftColumn rightColumn : ℕ) (equivalence : Id128)
  | difference (left right : ProtocolQuery)
  | antiJoin (left right : ProtocolQuery) (leftColumn rightColumn : ℕ) (equivalence : Id128)
  | groupCount (input : ProtocolQuery) (groupColumn : ℕ) (groupEquivalence resultEquivalence : Id128)
  | distinct (input : ProtocolQuery) (columnEquivalences : List Id128)
  | topKWithTies (input : ProtocolQuery) (column : ℕ) (ordering : Id128)
      (direction : OrderDirection) (k : ℕ)

structure QueryRequest where
  target : SnapshotTarget
  query : ProtocolQuery

structure QueryResponse where
  revision : UInt64
  rows : List Row
  isSet : Bool
  columnEquivalences : List Id128

structure SemanticRevision where
  schema : UInt64
  environment : UInt64
deriving DecidableEq

structure RelationMutation where
  relation : Id128
  inserted : List Row
  removed : List Row

structure CommitRequest where
  baseRevision : UInt64
  formationSemanticRevision : SemanticRevision
  idempotencyKey : IdempotencyKey
  mutations : List RelationMutation

inductive CommitResponse
  | committed (revision : UInt64)
  | alreadySatisfied (revision : UInt64)
  | alreadyCommitted (revision : UInt64)

structure OpenWatchRequest where
  target : SnapshotTarget
  query : ProtocolQuery

structure OpenWatchResponse where
  subscription : SubscriptionId
  initial : QueryResponse

structure WatchEventDto where
  subscription : SubscriptionId
  sourceRevision : UInt64
  targetRevision : UInt64
  inserted : List Row
  removed : List Row

inductive WatchStatusDto
  | current (revision : UInt64)
  | lagging (anchorRevision headRevision : UInt64) (pendingTransitions : ℕ)
  | cancelled (revision : UInt64)
  | runtimeClosed (revision : UInt64)
  | unavailable (anchorRevision headRevision : UInt64)

inductive HistoryKind
  | relationData
  | relationRewrite
  | relationResolution
  | mixedRevision
  | fullRevision
  | schemaMigration

inductive HistoryReversibilityDto
  | exactPlanInverse
  | complementRequired
  | nonPlanTransition

structure HistoryRelationChangeDto where
  relation : Id128
  inserted : List Row
  removed : List Row

structure HistoryEntryDto where
  effectId : Id128
  prerequisites : List Id128
  idempotencyKey : IdempotencyKey
  sourceRevision : UInt64
  targetRevision : UInt64
  kind : HistoryKind
  reversibility : HistoryReversibilityDto
  changes : List HistoryRelationChangeDto

inductive HostedRequest
  | currentRevision
  | query (request : QueryRequest)
  | history (target : SnapshotTarget)
  | commit (request : CommitRequest)
  | openWatch (request : OpenWatchRequest)
  | nextWatch (subscription : SubscriptionId)
  | watchStatus (subscription : SubscriptionId)
  | cancelWatch (subscription : SubscriptionId)
  | closeWatch (subscription : SubscriptionId)
  | closeSession

inductive HostedResponse
  | currentRevision (revision : UInt64)
  | query (response : QueryResponse)
  | history (anchorRevision : UInt64) (entries : List HistoryEntryDto)
  | commit (response : CommitResponse)
  | watchOpened (response : OpenWatchResponse)
  | watchEvent (event : WatchEventDto)
  | watchStatus (subscription : SubscriptionId) (status : WatchStatusDto)
  | watchCancelled (subscription : SubscriptionId)
  | watchClosed (subscription : SubscriptionId)
  | sessionClosed

inductive ProtocolErrorCode
  | recovery
  | query
  | invalidRequest
  | invalidSchema
  | typeMismatch
  | contractNotRepresentable
  | cardinality
  | notFound
  | staleRevision
  | transactionConflict
  | formationProofUnavailable
  | formationProofInvalidated
  | historyConflict
  | invariantViolation
  | nonReversibleHistory
  | watchUnavailable
  | watchClosed
  | resourceLimit
  | permissionDenied
  | sessionClosed
  | internal
deriving DecidableEq

structure ProtocolError where
  code : ProtocolErrorCode
  message : String
deriving DecidableEq

inductive WireResponse
  | success (response : HostedResponse)
  | error (code : ProtocolErrorCode) (message : String)

/-! ### The values of a message -/

def ProtocolQuery.values : ProtocolQuery → List ProtocolValue
  | scan _ => []
  | filterEq input _ value _ => input.values ++ [value]
  | project input _ => input.values
  | joinEq left right _ _ _ => left.values ++ right.values
  | difference left right => left.values ++ right.values
  | antiJoin left right _ _ _ => left.values ++ right.values
  | groupCount input _ _ _ => input.values
  | distinct input _ => input.values
  | topKWithTies input _ _ _ _ => input.values

def rowValues (inserted removed : List Row) : List ProtocolValue :=
  inserted.flatten ++ removed.flatten

def HostedRequest.values : HostedRequest → List ProtocolValue
  | query request => request.query.values
  | commit request =>
    request.mutations.flatMap fun mutation => rowValues mutation.inserted mutation.removed
  | openWatch request => request.query.values
  | _ => []

def HostedResponse.values : HostedResponse → List ProtocolValue
  | query response => response.rows.flatten
  | history _ entries => entries.flatMap fun entry =>
    entry.changes.flatMap fun change => rowValues change.inserted change.removed
  | watchOpened response => response.initial.rows.flatten
  | watchEvent event => rowValues event.inserted event.removed
  | _ => []

def WireResponse.values : WireResponse → List ProtocolValue
  | success response => response.values
  | error _ _ => []

/-- The products of the message are maps: their fields are in strictly increasing order. -/
def HostedRequest.Ordered (request : HostedRequest) : Prop :=
  ∀ value ∈ request.values, value.Ordered

def WireResponse.Ordered (response : WireResponse) : Prop :=
  ∀ value ∈ response.values, value.Ordered

end Cfmd.Protocol
