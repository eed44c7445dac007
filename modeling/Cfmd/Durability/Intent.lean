import Cfmd.Durability.BinaryCodec
import Cfmd.Lib.TreeMap

/-! Transaction intents, revision descriptors and causal effect records. What a
client asked for and how it was realized are parameters: the logic below only
compares them and passes them to their codecs. -/

namespace Cfmd.Durability
open Std Lib

structure DurableTransactionKey where
  epoch : IdempotencyEpoch
  transactionId : ClientTransactionId
deriving DecidableEq

namespace DurableTransactionKey

def sortKey (key : DurableTransactionKey) : IdempotencyEpoch × ClientTransactionId :=
  (key.epoch, key.transactionId)

theorem sortKey_injective : Function.Injective sortKey := by
  rintro ⟨e, t⟩ ⟨e', t'⟩ h
  simpa [sortKey] using h

attribute [local instance] lexOrd

instance : Ord DurableTransactionKey := ⟨compareOn sortKey⟩

instance : TransOrd DurableTransactionKey := inferInstanceAs (TransCmp (compareOn sortKey))

instance : LawfulEqOrd DurableTransactionKey where
  eq_of_compare h := sortKey_injective (LawfulEqOrd.eq_of_compare h)

end DurableTransactionKey

/-- The parts of an intent that no modelled function looks into: what the client
asked for, what its realization adds, and the realized change. -/
class PayloadTypes where
  Request : Type
  Realization : Type
  Change : Type
  decEqRequest : DecidableEq Request
  decEqRealization : DecidableEq Realization
  decEqChange : DecidableEq Change

export PayloadTypes (Request Realization Change)

section
variable [PayloadTypes]

instance : DecidableEq Request := PayloadTypes.decEqRequest

instance : DecidableEq Realization := PayloadTypes.decEqRealization

instance : DecidableEq Change := PayloadTypes.decEqChange

inductive DurableTransactionIntent
  | relationData (sourceRevision targetRevision : RevisionId) (request : Request)
      (realization : Realization)
  | relationRewrite (sourceRevision targetRevision : RevisionId) (request : Request)
      (realization : Realization)
  | relationResolution (sourceRevision targetRevision : RevisionId) (request : Request)
      (causalParents : List RevisionId) (realization : Realization)
  | mixedRevision (sourceRevision targetRevision : RevisionId) (request : Request)
      (realization : Realization)
  | fullRevision (targetRevision : RevisionId) (request : Request) (realization : Realization)
  | schemaMigration (sourceRevision targetRevision : RevisionId) (request : Request)
      (realization : Realization)
deriving DecidableEq

inductive DurableClientIntent
  | relationData (request : Request)
  | mixedRevision (request : Request)
  | relationRewrite (request : Request)
  | relationResolution (request : Request) (causalParents : List RevisionId)
  | fullRevision (request : Request)
  | schemaMigration (request : Request)
deriving DecidableEq

namespace DurableTransactionIntent

def targetRevision : DurableTransactionIntent → RevisionId
  | relationData _ target _ _ => target
  | relationRewrite _ target _ _ => target
  | relationResolution _ target _ _ _ => target
  | mixedRevision _ target _ _ => target
  | fullRevision target _ _ => target
  | schemaMigration _ target _ _ => target

def sourceRevision : DurableTransactionIntent → Option RevisionId
  | relationData source _ _ _ => some source
  | relationRewrite source _ _ _ => some source
  | relationResolution source _ _ _ _ => some source
  | mixedRevision source _ _ _ => some source
  | fullRevision _ _ _ => none
  | schemaMigration source _ _ _ => some source

def clientIntentOwned : DurableTransactionIntent → DurableClientIntent
  | relationData _ _ request _ => .relationData request
  | relationRewrite _ _ request _ => .relationRewrite request
  | relationResolution _ _ request causalParents _ => .relationResolution request causalParents
  | mixedRevision _ _ request _ => .mixedRevision request
  | fullRevision _ request _ => .fullRevision request
  | schemaMigration _ _ request _ => .schemaMigration request

end DurableTransactionIntent

structure DurableCommittedTransaction where
  targetRevision : RevisionId
  intent : DurableClientIntent
deriving DecidableEq

def DurableCommittedTransaction.fromDescriptorIntent (targetRevision : RevisionId)
    (intent : DurableTransactionIntent) : DurableCommittedTransaction :=
  { targetRevision, intent := intent.clientIntentOwned }

def DurableCommittedTransaction.sameClientIntent (committed : DurableCommittedTransaction)
    (requested : DurableTransactionIntent) : Bool :=
  committed.intent = requested.clientIntentOwned

structure DurableRevisionDescriptor where
  idempotencyEpoch : IdempotencyEpoch
  revisionEffectId : Option RevisionEffectId
  transactionId : ClientTransactionId
  sourceRevision : RevisionId
  targetRevision : RevisionId
  intent : DurableTransactionIntent
  change : Change
deriving DecidableEq

def DurableRevisionDescriptor.key (descriptor : DurableRevisionDescriptor) :
    DurableTransactionKey :=
  { epoch := descriptor.idempotencyEpoch, transactionId := descriptor.transactionId }

structure DurableRevisionEffectRecord where
  id : RevisionEffectId
  prerequisites : ExtTreeSet RevisionEffectId
  transactionEpoch : IdempotencyEpoch
  transactionId : ClientTransactionId
  intent : DurableTransactionIntent
  change : Change
  sourceRevision : RevisionId
  targetRevision : RevisionId
deriving DecidableEq

def DurableRevisionEffectRecord.validateIdentity (effect : DurableRevisionEffectRecord) :
    Except String Unit :=
  if effect.sourceRevision = effect.targetRevision then
    .error "revision effect does not advance revision identity"
  else if effect.intent.targetRevision ≠ effect.targetRevision then
    .error "revision effect canonical intent targets another revision"
  else if effect.intent.sourceRevision.any (· ≠ effect.sourceRevision) then
    .error "revision effect canonical intent starts from another revision"
  else if effect.id ∈ effect.prerequisites then .error "revision effect depends on itself"
  else .ok ()

end

/-- The codecs of the parts above. -/
class PayloadCodec extends PayloadTypes where
  encodeTransactionIntent : DurableTransactionIntent → Except CodecError (List UInt8)
  decodeTransactionIntent : Decoder String DurableTransactionIntent
  encodeRevisionChange : Change → Except CodecError (List UInt8)
  decodeRevisionChange : Decoder String Change
  encodeCommittedTransaction : DurableCommittedTransaction → Except CodecError (List UInt8)
  decodeCommittedTransaction : Decoder String DurableCommittedTransaction

export PayloadCodec (encodeTransactionIntent decodeTransactionIntent encodeRevisionChange
  decodeRevisionChange encodeCommittedTransaction decodeCommittedTransaction)

end Cfmd.Durability
