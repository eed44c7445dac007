import Cfmd.Durability.Intent
import Cfmd.Durability.WalFrame

/-! Payloads of WAL frames: a prepare with its descriptor, a commit with the
prepare it binds, and a sealed client intent. -/

namespace Cfmd.Durability
open Lib Source

def mutationFormatTag : UInt16 := 0xC469

def intentSealFormatTag : UInt16 := 0xC510

def pushU16 (value : UInt16) : List UInt8 := toLeBytes 2 value.toNat

def Source.u16 : Decoder String UInt16 := Decoder.number "truncated mutation payload" 2 UInt16.ofNat

structure CommitRecord where
  targetRevision : RevisionId
  prepareLsn : UInt64
  preparePayloadCrc32c : UInt32
deriving DecidableEq

def encodeCommitPayload (record : CommitRecord) : List UInt8 :=
  pushU64 record.prepareLsn ++ pushU32 record.preparePayloadCrc32c

def decodeCommitPayload (targetRevision : RevisionId) (payload : List UInt8) :
    Except String CommitRecord :=
  if payload.length ≠ 12 then .error "commit payload length mismatch"
  else
    .ok
      { targetRevision, prepareLsn := readU64 (slice payload 0 8)
        preparePayloadCrc32c := readU32 (slice payload 8 12) }

theorem decodeCommitPayload_encode (record : CommitRecord) :
    decodeCommitPayload record.targetRevision (encodeCommitPayload record) = .ok record := by
  have hlsn : slice (encodeCommitPayload record) 0 8 = pushU64 record.prepareLsn := rfl
  have hcrc : slice (encodeCommitPayload record) 8 12 = pushU32 record.preparePayloadCrc32c := rfl
  have hlen : (encodeCommitPayload record).length = 12 := rfl
  rw [decodeCommitPayload, if_neg (not_not_intro hlen), hlsn, hcrc, readU64_pushU64,
    readU32_pushU32]

variable {target : RevisionId} {payload : List UInt8}

theorem targetRevision_of_decodeCommitPayload {record : CommitRecord}
    (h : decodeCommitPayload target payload = .ok record) :
    record.targetRevision = target := by
  unfold decodeCommitPayload at h
  split_ifs at h
  cases h
  rfl

section
variable [PayloadCodec]

structure IntentSealRecord where
  key : DurableTransactionKey
  committed : DurableCommittedTransaction
deriving DecidableEq

def encodeIntentSealPayload (record : IntentSealRecord) : Except CodecError (List UInt8) := do
  return pushU16 intentSealFormatTag ++ (pushU128 record.key.transactionId ++
    (pushU64 record.key.epoch ++ (← encodeCommittedTransaction record.committed)))

def readIntentSeal : Decoder String IntentSealRecord := do
  if (← u16) ≠ intentSealFormatTag then
    throw "unsupported pre-release intent-seal payload format"
  else
    let transactionId ← u128
    let epoch ← u64
    let committed ← decodeCommittedTransaction
    pure { key := { epoch, transactionId }, committed }

def decodeIntentSealPayload (payload : List UInt8) : Except String IntentSealRecord :=
  Decoder.finish "trailing bytes in mutation payload" readIntentSeal payload

def encodeRevisionEffectId : Option RevisionEffectId → List UInt8
  | some id => 1 :: pushU128 id
  | none => [0]

def encodePrepareIdentityPrefix (descriptor : DurableRevisionDescriptor) : List UInt8 :=
  pushU16 mutationFormatTag ++ (pushU128 descriptor.transactionId ++
    (pushU64 descriptor.idempotencyEpoch ++
      (encodeRevisionEffectId descriptor.revisionEffectId ++ pushU64 descriptor.sourceRevision)))

def encodePreparePayload (descriptor : DurableRevisionDescriptor) :
    Except CodecError (List UInt8) := do
  return encodePrepareIdentityPrefix descriptor ++
    ((← encodeTransactionIntent descriptor.intent) ++ (← encodeRevisionChange descriptor.change))

def readPrepare (targetRevision : RevisionId) : Decoder String DurableRevisionDescriptor := do
  if (← u16) ≠ mutationFormatTag then
    throw "unsupported pre-release mutation payload format"
  else
    let transactionId ← u128
    let idempotencyEpoch ← u64
    let revisionEffectId ← flag "invalid revision effect identity tag" (pure none)
      do return some (← u128)
    let sourceRevision ← u64
    let intent ← decodeTransactionIntent
    let change ← decodeRevisionChange
    pure
      { idempotencyEpoch, revisionEffectId, transactionId, sourceRevision, targetRevision, intent
        change }

def decodePreparePayload (targetRevision : RevisionId) (payload : List UInt8) :
    Except String DurableRevisionDescriptor := do
  let descriptor ← Decoder.finish "trailing bytes in mutation payload"
    (readPrepare targetRevision) payload
  if descriptor.intent.targetRevision ≠ targetRevision then
    .error "prepare intent target revision mismatch"
  else if descriptor.intent.sourceRevision.any (· ≠ descriptor.sourceRevision) then
    .error "prepare intent source revision mismatch"
  else .ok descriptor

theorem readPrepare_yields (target : RevisionId) :
    (readPrepare target).Yields fun d => d.targetRevision = target := by
  apply Decoder.Yields.bind
  intro tag
  split
  · exact .throw _
  -- every read but the last constructor is irrelevant
  apply Decoder.Yields.bind; intro transactionId
  apply Decoder.Yields.bind; intro epoch
  apply Decoder.Yields.bind; intro effectId
  apply Decoder.Yields.bind; intro source
  apply Decoder.Yields.bind; intro intent
  apply Decoder.Yields.bind; intro change
  exact .pure rfl

variable {d : DurableRevisionDescriptor}

theorem decodePreparePayload_eq_ok :
    decodePreparePayload target payload = .ok d ↔
      Decoder.finish "trailing bytes in mutation payload" (readPrepare target) payload = .ok d ∧
        d.intent.targetRevision = target ∧
        ∀ source, d.intent.sourceRevision = some source → source = d.sourceRevision := by
  unfold decodePreparePayload
  rw [bind_eq_ok]
  constructor
  · rintro ⟨d', hfinish, h⟩
    split_ifs at h with htarget hsource
    cases h
    exact ⟨hfinish, not_not.mp htarget, by simpa [Option.any_eq_false] using hsource⟩
  · rintro ⟨hfinish, htarget, hsource⟩
    refine ⟨d, hfinish, ?_⟩
    rw [if_neg (not_not_intro htarget), if_neg (by simpa [Option.any_eq_false] using hsource)]

theorem targetRevision_of_decodePreparePayload (h : decodePreparePayload target payload = .ok d) :
    d.targetRevision = target :=
  (readPrepare_yields target).finish (decodePreparePayload_eq_ok.mp h).1

end

/-! ### Transactions that change nothing -/

/-- Relation-data transactions that change nothing: a schema and an environment
revision are all that is left of them. -/
abbrev emptyRelationTypes : PayloadTypes where
  Request := UInt64 × UInt64
  Realization := Unit
  Change := UInt64 × UInt64
  decEqRequest := inferInstance
  decEqRealization := inferInstance
  decEqChange := inferInstance

section
attribute [local instance] emptyRelationTypes

/-- No mutations, no guard, no observations and no modules. -/
def emptyRelationParts : List UInt8 :=
  pushU32 0 ++ (0 :: (pushU32 0 ++ (pushU32 0 ++ (pushU32 0 ++ (pushU32 0 ++ pushU32 0)))))

def encodeEmptyRelationIntent : DurableTransactionIntent → Except CodecError (List UInt8)
  | .relationData source target request _ =>
    .ok (1 :: (pushU64 source ++ (pushU64 target ++ (pushU64 request.1 ++ (pushU64 request.2 ++
      emptyRelationParts)))))
  | _ => .error .semanticModuleUnavailable

def decodeEmptyRelationIntent : Decoder String DurableTransactionIntent := do
  if (← u8) = 1 then
    let source ← u64
    let target ← u64
    let schema ← u64
    let environment ← u64
    if (← take emptyRelationParts.length) = emptyRelationParts then
      return .relationData source target (schema, environment) ()
    else throw "relation data is not empty"
  else throw "not a relation-data intent"

end

abbrev emptyRelationCodec : PayloadCodec where
  toPayloadTypes := emptyRelationTypes
  encodeTransactionIntent := encodeEmptyRelationIntent
  decodeTransactionIntent := decodeEmptyRelationIntent
  encodeRevisionChange change := .ok (1 :: (pushU64 change.1 ++ (pushU64 change.2 ++ pushU32 0)))
  decodeRevisionChange := do
    if (← u8) = 1 then
      let schema ← u64
      let environment ← u64
      if (← u32) = 0 then return (schema, environment)
      else throw "relation data is not empty"
    else throw "not a relation-data change"
  encodeCommittedTransaction _ := .error .semanticModuleUnavailable
  decodeCommittedTransaction := throw "no sealed intent"

section
attribute [local instance] emptyRelationCodec

/-- A step from one revision to another under this transaction and effect id. -/
def emptyStep (source target : RevisionId) (id : Id128) : DurableRevisionDescriptor where
  idempotencyEpoch := 0
  revisionEffectId := some id
  transactionId := id
  sourceRevision := source
  targetRevision := target
  intent := .relationData source target (1, 1) ()
  change := (1, 1)

/-- Its intent and its change. -/
def emptyStepParts (source target : RevisionId) : List UInt8 :=
  (1 :: (pushU64 source ++ (pushU64 target ++ (pushU64 1 ++ (pushU64 1 ++ emptyRelationParts))))) ++
    (1 :: (pushU64 1 ++ (pushU64 1 ++ pushU32 0)))

def emptyStepPayload (source target : RevisionId) (id : Id128) : List UInt8 :=
  encodePrepareIdentityPrefix (emptyStep source target id) ++ emptyStepParts source target

theorem encodePreparePayload_emptyStep (source target : RevisionId) (id : Id128) :
    encodePreparePayload (emptyStep source target id) = .ok (emptyStepPayload source target id) :=
  rfl

end

end Cfmd.Durability
