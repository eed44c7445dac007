import Cfmd.Lib.Codec
import Cfmd.Protocol.Message

/-! The payloads of the hosted wire format: the encoder and the decoder of requests and
responses, with the limits both of them check. -/

namespace Cfmd.Protocol
open Lib

structure WireLimits where
  maxPayloadBytes : UInt32
  maxCollectionItems : UInt32
  maxStringBytes : UInt32
  maxDecodeNodes : UInt32
  maxDecodeDepth : UInt16

instance : Inhabited WireLimits where
  default := ⟨16 * 1024 * 1024, 100000, 1024 * 1024, 1000000, 256⟩

def wireError (message : String) : ProtocolError := ⟨.invalidRequest, message⟩

def resourceLimit (message : String) : ProtocolError := ⟨.resourceLimit, message⟩

/-- The state is the bytes written so far, or those still to be read, and the nodes entered. -/
abbrev Wire := Coder ProtocolError ℕ

def nextDepth (depth : ℕ) : ℕ := min (depth + 1) (2 ^ 16 - 1)

def enter (limits : WireLimits) (depth : ℕ) : Wire Unit := fun (bytes, nodes) =>
  if limits.maxDecodeDepth.toNat < depth then
    .error (resourceLimit "wire value exceeds depth limit")
  else
    let nodes := min (nodes + 1) (2 ^ 32 - 1)
    if limits.maxDecodeNodes.toNat < nodes then
      .error (resourceLimit "wire value exceeds node limit")
    else .ok ((), (bytes, nodes))

def historyKindTag : HistoryKind → UInt8
  | .relationData => 0
  | .relationRewrite => 1
  | .relationResolution => 2
  | .mixedRevision => 3
  | .fullRevision => 4
  | .schemaMigration => 5

def historyReversibilityTag : HistoryReversibilityDto → UInt8
  | .exactPlanInverse => 0
  | .complementRequired => 1
  | .nonPlanTransition => 2

def errorCodeTag : ProtocolErrorCode → UInt8
  | .recovery => 0
  | .query => 1
  | .invalidRequest => 2
  | .invalidSchema => 3
  | .typeMismatch => 4
  | .cardinality => 5
  | .notFound => 6
  | .staleRevision => 7
  | .transactionConflict => 8
  | .historyConflict => 9
  | .invariantViolation => 10
  | .nonReversibleHistory => 11
  | .watchUnavailable => 12
  | .watchClosed => 13
  | .resourceLimit => 14
  | .permissionDenied => 15
  | .sessionClosed => 16
  | .internal => 17
  | .formationProofUnavailable => 18
  | .formationProofInvalidated => 19
  | .contractNotRepresentable => 20

namespace Encoder
variable (limits : WireLimits)

def extend (bytes : List UInt8) : Wire Unit := fun (written, nodes) =>
  if limits.maxPayloadBytes.toNat < written.length + bytes.length then
    .error (resourceLimit "wire payload exceeds configured limit")
  else .ok ((), (written ++ bytes, nodes))

def u8 (value : UInt8) : Wire Unit := extend limits (toBeBytes 1 value.toNat)

def bool (value : Bool) : Wire Unit := u8 limits (if value then 1 else 0)

def u32 (value : UInt32) : Wire Unit := extend limits (toBeBytes 4 value.toNat)

def u64 (value : UInt64) : Wire Unit := extend limits (toBeBytes 8 value.toNat)

def i64 (value : Int64) : Wire Unit := extend limits (toBeBytes 8 value.toUInt64.toNat)

def u128 (value : Id128) : Wire Unit := extend limits (toBeBytes 16 value.value.toNat)

def usize (value : ℕ) : Wire Unit :=
  if 2 ^ 32 ≤ value then throw (resourceLimit "wire integer exceeds canonical u32 range")
  else u32 limits (UInt32.ofNat value)

def collectionLen (len : ℕ) : Wire Unit :=
  if 2 ^ 32 ≤ len then throw (resourceLimit "wire collection is too large")
  else if limits.maxCollectionItems.toNat < len then
    throw (resourceLimit "wire collection exceeds configured limit")
  else u32 limits (UInt32.ofNat len)

def string (value : String) : Wire Unit := let bytes := value.toByteArray.data.toList
  if 2 ^ 32 ≤ bytes.length then throw (resourceLimit "wire string is too large")
  else if limits.maxStringBytes.toNat < bytes.length then
    throw (resourceLimit "wire string exceeds configured limit")
  else do
    u32 limits (UInt32.ofNat bytes.length)
    extend limits bytes

def snapshotTarget : SnapshotTarget → Wire Unit
  | .head => u8 limits 0
  | .revision revision => do
    u8 limits 1
    u64 limits revision
  | .contractHead schemaRevision => do
    u8 limits 2
    u64 limits schemaRevision

def entityRef (entityType id : Id128) : Wire Unit := do
  u128 limits entityType
  u128 limits id

mutual

def value (value' : ProtocolValue) (depth : ℕ) : Wire Unit := do
  enter limits depth
  let next := nextDepth depth
  match value' with
  | .unit => u8 limits 0
  | .bool value => do
    u8 limits 1
    bool limits value
  | .i64 value => do
    u8 limits 2
    i64 limits value
  | .f64Bits value => do
    u8 limits 3
    u64 limits value
  | .text value => do
    u8 limits 4
    string limits value
  | .liveEntityRef entityType id => do
    u8 limits 5
    entityRef limits entityType id
  | .historicalEntityId entityType id => do
    u8 limits 6
    entityRef limits entityType id
  | .product fields => do
    u8 limits 7
    collectionLen limits fields.length
    productFields fields next
  | .option value' => do
    u8 limits 8
    optionValue value' next
  | .variant tag value' => do
    u8 limits 9
    u128 limits tag
    value value' next
  | .seq values' => do
    u8 limits 10
    collectionLen limits values'.length
    values values' next
  | .set equivalence elements => do
    u8 limits 11
    u128 limits equivalence
    collectionLen limits elements.length
    values elements next
  | .bag equivalence entries => do
    u8 limits 12
    u128 limits equivalence
    collectionLen limits entries.length
    bagEntries entries next
  | .map keyEquivalence entries => do
    u8 limits 13
    u128 limits keyEquivalence
    collectionLen limits entries.length
    mapEntries entries next

def productFields : List (SemanticId × ProtocolValue) → ℕ → Wire Unit
  | [], _ => pure ()
  | (field, value') :: rest, depth => do
    u128 limits field
    value value' depth
    productFields rest depth

def optionValue : Option ProtocolValue → ℕ → Wire Unit
  | none, _ => u8 limits 0
  | some value', depth => do
    u8 limits 1
    value value' depth

def values : List ProtocolValue → ℕ → Wire Unit
  | [], _ => pure ()
  | value' :: rest, depth => do
    value value' depth
    values rest depth

def bagEntries : List (ProtocolValue × UInt64) → ℕ → Wire Unit
  | [], _ => pure ()
  | (value', count) :: rest, depth => do
    value value' depth
    u64 limits count
    bagEntries rest depth

def mapEntries : List (ProtocolValue × ProtocolValue) → ℕ → Wire Unit
  | [], _ => pure ()
  | (key, value') :: rest, depth => do
    value key depth
    value value' depth
    mapEntries rest depth

end

def sequence {α : Type} (item : α → Wire Unit) (items : List α) : Wire Unit := do
  collectionLen limits items.length
  items.forM item

def row (row : Row) (depth : ℕ) : Wire Unit := sequence limits (value limits · depth) row

def rows (rows : List Row) (depth : ℕ) : Wire Unit := sequence limits (row limits · depth) rows

def orderDirection : OrderDirection → Wire Unit
  | .ascending => u8 limits 0
  | .descending => u8 limits 1

def query (query' : ProtocolQuery) (depth : ℕ) : Wire Unit := do
  enter limits depth
  let next := nextDepth depth
  match query' with
  | .scan relation => do
    u8 limits 0
    u128 limits relation
  | .filterEq input column value' equivalence => do
    u8 limits 1
    query input next
    usize limits column
    value limits value' next
    u128 limits equivalence
  | .project input columns => do
    u8 limits 2
    query input next
    sequence limits (usize limits) columns
  | .joinEq left right leftColumn rightColumn equivalence => do
    u8 limits 3
    query left next
    query right next
    usize limits leftColumn
    usize limits rightColumn
    u128 limits equivalence
  | .difference left right => do
    u8 limits 4
    query left next
    query right next
  | .antiJoin left right leftColumn rightColumn equivalence => do
    u8 limits 5
    query left next
    query right next
    usize limits leftColumn
    usize limits rightColumn
    u128 limits equivalence
  | .groupCount input groupColumn groupEquivalence resultEquivalence => do
    u8 limits 6
    query input next
    usize limits groupColumn
    u128 limits groupEquivalence
    u128 limits resultEquivalence
  | .distinct input columnEquivalences => do
    u8 limits 7
    query input next
    sequence limits (u128 limits) columnEquivalences
  | .topKWithTies input column ordering direction k => do
    u8 limits 8
    query input next
    usize limits column
    u128 limits ordering
    orderDirection limits direction
    usize limits k

def queryRequest (request : QueryRequest) (depth : ℕ) : Wire Unit := do
  snapshotTarget limits request.target
  query limits request.query depth

def queryResponse (response : QueryResponse) (depth : ℕ) : Wire Unit := do
  u64 limits response.revision
  rows limits response.rows depth
  bool limits response.isSet
  sequence limits (u128 limits) response.columnEquivalences

def rowChange (relation : Id128) (inserted removed : List Row) (depth : ℕ) : Wire Unit := do
  u128 limits relation
  rows limits inserted depth
  rows limits removed depth

def commitRequest (request : CommitRequest) (depth : ℕ) : Wire Unit := do
  u64 limits request.baseRevision
  u64 limits request.formationSemanticRevision.schema
  u64 limits request.formationSemanticRevision.environment
  u128 limits request.idempotencyKey
  sequence limits (fun mutation : RelationMutation =>
    rowChange limits mutation.relation mutation.inserted mutation.removed depth) request.mutations

def commitResponse : CommitResponse → Wire Unit
  | .committed revision => do
    u8 limits 0
    u64 limits revision
  | .alreadySatisfied revision => do
    u8 limits 1
    u64 limits revision
  | .alreadyCommitted revision => do
    u8 limits 2
    u64 limits revision

def hostedRequest (request : HostedRequest) (depth : ℕ) : Wire Unit := do
  enter limits depth
  let next := nextDepth depth
  match request with
  | .currentRevision => u8 limits 0
  | .query request => do
    u8 limits 1
    queryRequest limits request next
  | .history target => do
    u8 limits 2
    snapshotTarget limits target
  | .commit request => do
    u8 limits 3
    commitRequest limits request next
  | .openWatch request => do
    u8 limits 4
    snapshotTarget limits request.target
    query limits request.query next
  | .nextWatch subscription => do
    u8 limits 5
    u64 limits subscription
  | .watchStatus subscription => do
    u8 limits 6
    u64 limits subscription
  | .cancelWatch subscription => do
    u8 limits 7
    u64 limits subscription
  | .closeWatch subscription => do
    u8 limits 8
    u64 limits subscription
  | .closeSession => u8 limits 9

def historyEntry (entry : HistoryEntryDto) (depth : ℕ) : Wire Unit := do
  u128 limits entry.effectId
  sequence limits (u128 limits) entry.prerequisites
  u128 limits entry.idempotencyKey
  u64 limits entry.sourceRevision
  u64 limits entry.targetRevision
  u8 limits (historyKindTag entry.kind)
  u8 limits (historyReversibilityTag entry.reversibility)
  sequence limits (fun change : HistoryRelationChangeDto =>
    rowChange limits change.relation change.inserted change.removed depth) entry.changes

def watchEvent (event : WatchEventDto) (depth : ℕ) : Wire Unit := do
  u64 limits event.subscription
  u64 limits event.sourceRevision
  u64 limits event.targetRevision
  rows limits event.inserted depth
  rows limits event.removed depth

def watchStatus : WatchStatusDto → Wire Unit
  | .current revision => do
    u8 limits 0
    u64 limits revision
  | .lagging anchorRevision headRevision pendingTransitions => do
    u8 limits 1
    u64 limits anchorRevision
    u64 limits headRevision
    usize limits pendingTransitions
  | .cancelled revision => do
    u8 limits 2
    u64 limits revision
  | .runtimeClosed revision => do
    u8 limits 3
    u64 limits revision
  | .unavailable anchorRevision headRevision => do
    u8 limits 4
    u64 limits anchorRevision
    u64 limits headRevision

def hostedResponse (response : HostedResponse) (depth : ℕ) : Wire Unit := do
  enter limits depth
  let next := nextDepth depth
  match response with
  | .currentRevision revision => do
    u8 limits 0
    u64 limits revision
  | .query response => do
    u8 limits 1
    queryResponse limits response next
  | .history anchorRevision entries => do
    u8 limits 2
    u64 limits anchorRevision
    sequence limits (historyEntry limits · next) entries
  | .commit response => do
    u8 limits 3
    commitResponse limits response
  | .watchOpened response => do
    u8 limits 4
    u64 limits response.subscription
    queryResponse limits response.initial next
  | .watchEvent event => do
    u8 limits 5
    watchEvent limits event next
  | .watchStatus subscription status => do
    u8 limits 6
    u64 limits subscription
    watchStatus limits status
  | .watchCancelled subscription => do
    u8 limits 7
    u64 limits subscription
  | .watchClosed subscription => do
    u8 limits 8
    u64 limits subscription
  | .sessionClosed => u8 limits 9

def wireResponse : WireResponse → Wire Unit
  | .success response => do
    u8 limits 0
    hostedResponse limits response 0
  | .error code message => do
    u8 limits 1
    u8 limits (errorCodeTag code)
    string limits message

end Encoder

def encodePayload (e : Wire Unit) : Except ProtocolError (List UInt8) := do
  return (← e ([], 0)).2.1

def encodeRequestPayload (request : HostedRequest) (limits : WireLimits) :
    Except ProtocolError (List UInt8) :=
  encodePayload (Encoder.hostedRequest limits request 0)

def encodeResponsePayload (response : WireResponse) (limits : WireLimits) :
    Except ProtocolError (List UInt8) :=
  encodePayload (Encoder.wireResponse limits response)

/-! ### The decoder -/

/-- How the fields of a product are collected: in a `BTreeMap`, which is what the decoder
does, or as the payload lists them. -/
inductive FieldOrder
  | byId
  | asListed

abbrev Fields := List (SemanticId × ProtocolValue)

/-- `BTreeMap::insert`, or nothing if the field is there. -/
def insertField : Fields → SemanticId → ProtocolValue → Option Fields
  | [], field, value => some [(field, value)]
  | (other, value') :: rest, field, value =>
    match compare field other with
    | .lt => some ((field, value) :: (other, value') :: rest)
    | .eq => none
    | .gt => (insertField rest field value).map ((other, value') :: ·)

def FieldOrder.insert : FieldOrder → Fields → SemanticId → ProtocolValue → Option Fields
  | byId, fields, field, value => insertField fields field value
  | asListed, fields, field, value => some (fields ++ [(field, value)])

namespace Decoder

def take (n : ℕ) : Wire (List UInt8) := fun (bytes, nodes) =>
  if bytes.length < n then .error (wireError "truncated wire payload")
  else .ok (bytes.take n, (bytes.drop n, nodes))

def number {α : Type} (n : ℕ) (ofNat : ℕ → α) : Wire α := do
  return ofNat (fromBeBytes (← take n))

def u8 : Wire UInt8 := number 1 UInt8.ofNat

def u32 : Wire UInt32 := number 4 UInt32.ofNat

def u64 : Wire UInt64 := number 8 UInt64.ofNat

def i64 : Wire Int64 := number 8 fun x => Int64.ofUInt64 (UInt64.ofNat x)

def u128 : Wire Id128 := number 16 fun x => ⟨BitVec.ofNat 128 x⟩

def usize : Wire ℕ := do return (← u32).toNat

def boolArm : UInt8 → Wire Bool
  | 0 => pure false
  | 1 => pure true
  | _ => throw (wireError "non-canonical wire boolean")

def bool : Wire Bool := do boolArm (← u8)

variable (limits : WireLimits) (order : FieldOrder)

def collectionLen : Wire ℕ := do
  let len ← u32
  if limits.maxCollectionItems < len then
    throw (resourceLimit "wire collection exceeds configured limit")
  else pure len.toNat

def fromUtf8 (bytes : List UInt8) : Wire String := match String.fromUTF8? ⟨bytes.toArray⟩ with
  | some value => pure value
  | none => throw (wireError "wire string is not valid UTF-8")

def string : Wire String := do
  let len ← u32
  if limits.maxStringBytes < len then
    throw (resourceLimit "wire string exceeds configured limit")
  else
    let bytes ← take len.toNat
    fromUtf8 bytes

def snapshotTargetArm : UInt8 → Wire SnapshotTarget
  | 0 => pure .head
  | 1 => do return .revision (← u64)
  | 2 => do return .contractHead (← u64)
  | _ => throw (wireError "unknown snapshot target")

def snapshotTarget : Wire SnapshotTarget := do snapshotTargetArm (← u8)

def sequence {α : Type} (item : Wire α) : Wire (List α) := do
  Coder.times item (← collectionLen limits)

def productFields (child : Wire ProtocolValue) : ℕ → Fields → Wire Fields
  | 0, fields => pure fields
  | n + 1, fields => do
    let field ← u128
    let value ← child
    match order.insert fields field value with
    | some fields => productFields child n fields
    | none => throw (wireError "product contains duplicate field id")

def optionArm (child : Wire ProtocolValue) : UInt8 → Wire ProtocolValue
  | 0 => pure (.option none)
  | 1 => do return .option (some (← child))
  | _ => throw (wireError "non-canonical option discriminant")

/-- The arms of `value`; `child` reads a value one level deeper. -/
def valueArm (child : Wire ProtocolValue) (tag : UInt8) : Wire ProtocolValue := match tag with
  | 0 => pure .unit
  | 1 => do return .bool (← bool)
  | 2 => do return .i64 (← i64)
  | 3 => do return .f64Bits (← u64)
  | 4 => do return .text (← string limits)
  | 5 => do return .liveEntityRef (← u128) (← u128)
  | 6 => do return .historicalEntityId (← u128) (← u128)
  | 7 => do return .product (← productFields order child (← collectionLen limits) [])
  | 8 => do optionArm child (← u8)
  | 9 => do return .variant (← u128) (← child)
  | 10 => do return .seq (← sequence limits child)
  | 11 => do return .set (← u128) (← sequence limits child)
  | 12 => do return .bag (← u128) (← sequence limits do return (← child, ← u64))
  | 13 => do return .map (← u128) (← sequence limits do return (← child, ← child))
  | _ => throw (wireError "unknown protocol value variant")

def node (depth : ℕ) : Wire UInt8 := do
  enter limits depth
  u8

/-- Every value starts with a tag, so a value with no fuel left, which is at most as many
bytes, is truncated. -/
def value : ℕ → ℕ → Wire ProtocolValue
  | 0, depth => do
    let _ ← node limits depth
    throw (wireError "truncated wire payload")
  | fuel + 1, depth => do
    let tag ← node limits depth
    valueArm limits order (value fuel (nextDepth depth)) tag

def row (fuel depth : ℕ) : Wire Row := sequence limits (value limits order fuel depth)

def rows (fuel depth : ℕ) : Wire (List Row) := sequence limits (row limits order fuel depth)

def orderDirectionArm : UInt8 → Wire OrderDirection
  | 0 => pure .ascending
  | 1 => pure .descending
  | _ => throw (wireError "unknown order direction")

def orderDirection : Wire OrderDirection := do orderDirectionArm (← u8)

def queryArm (value : Wire ProtocolValue) (child : Wire ProtocolQuery) (tag : UInt8) :
    Wire ProtocolQuery :=
  match tag with
  | 0 => do return .scan (← u128)
  | 1 => do return .filterEq (← child) (← usize) (← value) (← u128)
  | 2 => do return .project (← child) (← sequence limits usize)
  | 3 => do return .joinEq (← child) (← child) (← usize) (← usize) (← u128)
  | 4 => do return .difference (← child) (← child)
  | 5 => do return .antiJoin (← child) (← child) (← usize) (← usize) (← u128)
  | 6 => do return .groupCount (← child) (← usize) (← u128) (← u128)
  | 7 => do return .distinct (← child) (← sequence limits u128)
  | 8 => do return .topKWithTies (← child) (← usize) (← u128) (← orderDirection) (← usize)
  | _ => throw (wireError "unknown protocol query variant")

def query : ℕ → ℕ → Wire ProtocolQuery
  | 0, depth => do
    let _ ← node limits depth
    throw (wireError "truncated wire payload")
  | fuel + 1, depth => do
    let tag ← node limits depth
    queryArm limits (value limits order fuel (nextDepth depth)) (query fuel (nextDepth depth)) tag

def queryRequest (fuel depth : ℕ) : Wire QueryRequest := do
  return ⟨← snapshotTarget, ← query limits order fuel depth⟩

def queryResponse (fuel depth : ℕ) : Wire QueryResponse := do
  return ⟨← u64, ← rows limits order fuel depth, ← bool, ← sequence limits u128⟩

def relationMutation (fuel depth : ℕ) : Wire RelationMutation := do
  return ⟨← u128, ← rows limits order fuel depth, ← rows limits order fuel depth⟩

def commitRequest (fuel depth : ℕ) : Wire CommitRequest := do
  let baseRevision ← u64
  let schema ← u64
  let environment ← u64
  let idempotencyKey ← u128
  let mutations ← sequence limits (relationMutation limits order fuel depth)
  return ⟨baseRevision, ⟨schema, environment⟩, idempotencyKey, mutations⟩

def commitResponseArm : UInt8 → Wire CommitResponse
  | 0 => do return .committed (← u64)
  | 1 => do return .alreadySatisfied (← u64)
  | 2 => do return .alreadyCommitted (← u64)
  | _ => throw (wireError "unknown commit response variant")

def commitResponse : Wire CommitResponse := do commitResponseArm (← u8)

def hostedRequestArm (fuel depth : ℕ) (tag : UInt8) : Wire HostedRequest := match tag with
  | 0 => pure .currentRevision
  | 1 => do return .query (← queryRequest limits order fuel depth)
  | 2 => do return .history (← snapshotTarget)
  | 3 => do return .commit (← commitRequest limits order fuel depth)
  | 4 => do return .openWatch ⟨← snapshotTarget, ← query limits order fuel depth⟩
  | 5 => do return .nextWatch (← u64)
  | 6 => do return .watchStatus (← u64)
  | 7 => do return .cancelWatch (← u64)
  | 8 => do return .closeWatch (← u64)
  | 9 => pure .closeSession
  | _ => throw (wireError "unknown hosted request variant")

def hostedRequest (fuel depth : ℕ) : Wire HostedRequest := do
  hostedRequestArm limits order fuel (nextDepth depth) (← node limits depth)

def historyKindFromTag : UInt8 → Wire HistoryKind
  | 0 => pure .relationData
  | 1 => pure .relationRewrite
  | 2 => pure .relationResolution
  | 3 => pure .mixedRevision
  | 4 => pure .fullRevision
  | 5 => pure .schemaMigration
  | _ => throw (wireError "unknown history kind")

def historyReversibilityFromTag : UInt8 → Wire HistoryReversibilityDto
  | 0 => pure .exactPlanInverse
  | 1 => pure .complementRequired
  | 2 => pure .nonPlanTransition
  | _ => throw (wireError "unknown history reversibility")

def historyRelationChange (fuel depth : ℕ) : Wire HistoryRelationChangeDto := do
  return ⟨← u128, ← rows limits order fuel depth, ← rows limits order fuel depth⟩

def historyEntry (fuel depth : ℕ) : Wire HistoryEntryDto := do
  let effectId ← u128
  let prerequisites ← sequence limits u128
  let idempotencyKey ← u128
  let sourceRevision ← u64
  let targetRevision ← u64
  let kind ← u8 >>= historyKindFromTag
  let reversibility ← u8 >>= historyReversibilityFromTag
  let changes ← sequence limits (historyRelationChange limits order fuel depth)
  return ⟨effectId, prerequisites, idempotencyKey, sourceRevision, targetRevision, kind,
    reversibility, changes⟩

def watchEvent (fuel depth : ℕ) : Wire WatchEventDto := do
  return ⟨← u64, ← u64, ← u64, ← rows limits order fuel depth, ← rows limits order fuel depth⟩

def watchStatusArm : UInt8 → Wire WatchStatusDto
  | 0 => do return .current (← u64)
  | 1 => do return .lagging (← u64) (← u64) (← usize)
  | 2 => do return .cancelled (← u64)
  | 3 => do return .runtimeClosed (← u64)
  | 4 => do return .unavailable (← u64) (← u64)
  | _ => throw (wireError "unknown watch status variant")

def watchStatus : Wire WatchStatusDto := do watchStatusArm (← u8)

def hostedResponseArm (fuel depth : ℕ) (tag : UInt8) : Wire HostedResponse := match tag with
  | 0 => do return .currentRevision (← u64)
  | 1 => do return .query (← queryResponse limits order fuel depth)
  | 2 => do return .history (← u64) (← sequence limits (historyEntry limits order fuel depth))
  | 3 => do return .commit (← commitResponse)
  | 4 => do return .watchOpened ⟨← u64, ← queryResponse limits order fuel depth⟩
  | 5 => do return .watchEvent (← watchEvent limits order fuel depth)
  | 6 => do return .watchStatus (← u64) (← watchStatus)
  | 7 => do return .watchCancelled (← u64)
  | 8 => do return .watchClosed (← u64)
  | 9 => pure .sessionClosed
  | _ => throw (wireError "unknown hosted response variant")

def hostedResponse (fuel depth : ℕ) : Wire HostedResponse := do
  hostedResponseArm limits order fuel (nextDepth depth) (← node limits depth)

def errorCodeFromTag : UInt8 → Wire ProtocolErrorCode
  | 0 => pure .recovery
  | 1 => pure .query
  | 2 => pure .invalidRequest
  | 3 => pure .invalidSchema
  | 4 => pure .typeMismatch
  | 5 => pure .cardinality
  | 6 => pure .notFound
  | 7 => pure .staleRevision
  | 8 => pure .transactionConflict
  | 9 => pure .historyConflict
  | 10 => pure .invariantViolation
  | 11 => pure .nonReversibleHistory
  | 12 => pure .watchUnavailable
  | 13 => pure .watchClosed
  | 14 => pure .resourceLimit
  | 15 => pure .permissionDenied
  | 16 => pure .sessionClosed
  | 17 => pure .internal
  | 18 => pure .formationProofUnavailable
  | 19 => pure .formationProofInvalidated
  | 20 => pure .contractNotRepresentable
  | _ => throw (wireError "unknown protocol error code")

def wireResponseArm (fuel : ℕ) (tag : UInt8) : Wire WireResponse := match tag with
  | 0 => do return .success (← hostedResponse limits order fuel 0)
  | 1 => do return .error (← u8 >>= errorCodeFromTag) (← string limits)
  | _ => throw (wireError "unknown wire response status")

def wireResponse (fuel : ℕ) : Wire WireResponse := do
  wireResponseArm limits order fuel (← u8)

end Decoder

/-- The size is checked, the decoder is run and nothing may be left. -/
def decodePayload {α : Type} (limits : WireLimits) (d : Wire α) (payload : List UInt8) :
    Except ProtocolError α :=
  if limits.maxPayloadBytes.toNat < payload.length then
    .error (resourceLimit "wire payload exceeds configured limit")
  else do
    let (a, rest, _) ← d (payload, 0)
    if rest.isEmpty then .ok a else .error (wireError "wire payload contains trailing bytes")

/-- `decode_request_payload` when the fields of products are collected by id. -/
def decodeRequestPayloadIn (order : FieldOrder) (payload : List UInt8) (limits : WireLimits) :
    Except ProtocolError HostedRequest :=
  decodePayload limits (Decoder.hostedRequest limits order payload.length 0) payload

def decodeRequestPayload (payload : List UInt8) (limits : WireLimits) :
    Except ProtocolError HostedRequest :=
  decodeRequestPayloadIn .byId payload limits

def decodeResponsePayloadIn (order : FieldOrder) (payload : List UInt8) (limits : WireLimits) :
    Except ProtocolError WireResponse :=
  decodePayload limits (Decoder.wireResponse limits order payload.length) payload

def decodeResponsePayload (payload : List UInt8) (limits : WireLimits) :
    Except ProtocolError WireResponse :=
  decodeResponsePayloadIn .byId payload limits

end Cfmd.Protocol
