import Cfmd.Durability.WalPayload
import Cfmd.Lib.Failure

/-! The state of a WAL scan: prepares under their LSN, target revision and
transaction key, commits and sealed intents. Every index and every `expect` of
the source is a possible panic here. -/

namespace Cfmd.Durability
open Std Lib

variable [PayloadCodec]

abbrev Scanned (α : Type) := Fallible DurabilityError α

/-- A prepare as the scan is seeded with it and reports it: LSN, descriptor and
payload checksum. -/
structure LoggedPrepare where
  lsn : UInt64
  descriptor : DurableRevisionDescriptor
  payloadCrc : UInt32
deriving DecidableEq

structure CommittedRevision where
  descriptor : DurableRevisionDescriptor
  prepareLsn : UInt64
  preparePayloadCrc32c : UInt32
  commitLsn : UInt64
deriving DecidableEq

structure RecoveryScan where
  baseRevision : RevisionId
  committed : List CommittedRevision
  lastGoodOffset : ℕ
  nextLsn : UInt64
  tailStatus : TailStatus
  committedTransactions : ExtTreeMap DurableTransactionKey DurableCommittedTransaction
  unresolvedPrepares : List LoggedPrepare
  replicationAuthorityFrames : List (List UInt8)
deriving DecidableEq

def RecoveryScan.durableRevision (scan : RecoveryScan) : RevisionId :=
  (scan.committed.getLast?.map (·.descriptor.targetRevision)).getD scan.baseRevision

structure ScanCommittedRevision where
  prepareOwner : ℕ
  prepareLsn : UInt64
  preparePayloadCrc32c : UInt32
  commitLsn : UInt64
deriving DecidableEq

structure ScanState where
  baseRevision : RevisionId
  durableHead : RevisionId
  prepareOwners : List DurableRevisionDescriptor
  preparesByLsn : ExtTreeMap UInt64 (ℕ × UInt32)
  prepareIdentity : ExtTreeMap RevisionId ℕ
  prepareTransactionIdentity : ExtTreeMap DurableTransactionKey ℕ
  committedTransactionKeys : ExtTreeSet DurableTransactionKey
  sealedTransactions : ExtTreeMap DurableTransactionKey DurableCommittedTransaction
  commits : ExtTreeMap RevisionId CommitRecord
  committed : List ScanCommittedRevision
  replicationAuthorityFrames : List (List UInt8)

/-- The texts of the conflicts that `seed_prepare` and `accept_prepare` both
look for. -/
structure PrepareConflicts where
  target : String
  transaction : String
  indices : String
  lsn : String

def capsuleConflicts : PrepareConflicts where
  target := "prepared cut capsule conflicts by target revision"
  transaction := "prepared cut capsule conflicts by transaction identity"
  indices := "prepared cut capsule has inconsistent prepare identity indices"
  lsn := "prepared cut capsule conflicts by prepare lsn"

def frameConflicts : PrepareConflicts where
  target := "conflicting duplicate prepare"
  transaction := "transaction id reused by conflicting prepare"
  indices := "prepare identity indices disagree"
  lsn := "conflicting duplicate prepare lsn"

namespace ScanState

def new (baseRevision : RevisionId) : ScanState where
  baseRevision
  durableHead := baseRevision
  prepareOwners := []
  preparesByLsn := ∅
  prepareIdentity := ∅
  prepareTransactionIdentity := ∅
  committedTransactionKeys := ∅
  sealedTransactions := ∅
  commits := ∅
  committed := []
  replicationAuthorityFrames := []

/-- `self.prepare_owners[owner].descriptor`. -/
def ownerDescriptor (state : ScanState) (owner : ℕ) : Scanned DurableRevisionDescriptor :=
  Fallible.expect "index out of bounds" state.prepareOwners[owner]?

def ownedByAnother (state : ScanState) (owner : Option ℕ)
    (descriptor : DurableRevisionDescriptor) : Scanned Bool :=
  match owner with
  | none => .ok false
  | some owner => do return (← state.ownerDescriptor owner) ≠ descriptor

/-- A descriptor that neither index knows becomes a new owner. -/
def addOwner (state : ScanState) (target : RevisionId) (descriptor : DurableRevisionDescriptor) :
    ScanState :=
  { state with
    prepareOwners := state.prepareOwners ++ [descriptor]
    prepareIdentity := state.prepareIdentity.insert target state.prepareOwners.length
    prepareTransactionIdentity :=
      state.prepareTransactionIdentity.insert descriptor.key state.prepareOwners.length }

/-- The owner of a descriptor by target revision and by transaction key. -/
def prepareOwner (conflicts : PrepareConflicts) (offset : ℕ) (state : ScanState)
    (target : RevisionId) (descriptor : DurableRevisionDescriptor) : Scanned (ℕ × ScanState) := do
  let targetOwner := state.prepareIdentity[target]?
  if ← state.ownedByAnother targetOwner descriptor then
    .error (.error (.protocol offset conflicts.target))
  else
    let transactionOwner := state.prepareTransactionIdentity[descriptor.key]?
    if ← state.ownedByAnother transactionOwner descriptor then
      .error (.error (.protocol offset conflicts.transaction))
    else if targetOwner.any fun owner => transactionOwner.any (owner ≠ ·) then
      .error (.error (.protocol offset conflicts.indices))
    else
      match targetOwner.or transactionOwner with
      | some owner => .ok (owner, state)
      | none => .ok (state.prepareOwners.length, state.addOwner target descriptor)

/-- What `seed_prepare` and `accept_prepare` have in common. -/
def insertPrepare (conflicts : PrepareConflicts) (offset : ℕ) (state : ScanState)
    (target : RevisionId) (lsn : UInt64) (descriptor : DurableRevisionDescriptor)
    (payloadCrc : UInt32) : Scanned ScanState := do
  let (owner, state) ← prepareOwner conflicts offset state target descriptor
  match state.preparesByLsn[lsn]? with
  | some (existingOwner, existingCrc) =>
    if existingOwner ≠ owner ∨ existingCrc ≠ payloadCrc then
      .error (.error (.protocol offset conflicts.lsn))
    else .ok state
  | none => .ok { state with preparesByLsn := state.preparesByLsn.insert lsn (owner, payloadCrc) }

def seedPrepare (state : ScanState) (seed : LoggedPrepare) : Scanned ScanState :=
  insertPrepare capsuleConflicts 0 state seed.descriptor.targetRevision seed.lsn seed.descriptor
    seed.payloadCrc

/-- The committed transaction of that key came from another descriptor. -/
def committedByAnother (state : ScanState) (descriptor : DurableRevisionDescriptor) :
    Scanned Bool :=
  if descriptor.key ∈ state.committedTransactionKeys then do
    let owner ← Fallible.expect "committed transaction retains prepare owner"
      state.prepareTransactionIdentity[descriptor.key]?
    return (← state.ownerDescriptor owner) ≠ descriptor
  else .ok false

def acceptPrepare (state : ScanState) (frame : DecodedFrame) : Scanned ScanState := do
  let descriptor ← Fallible.lift ((decodePreparePayload frame.revision frame.payload).mapError
    (.corruption frame.offset))
  match state.sealedTransactions[descriptor.key]? with
  | some committed =>
    .error (.error (.protocol frame.offset
      (if committed.sameClientIntent descriptor.intent then
        "transaction id is already durably sealed"
      else "transaction id is durably sealed to another exact intent")))
  | none =>
    if ← state.committedByAnother descriptor then
      .error (.error (.protocol frame.offset
        "transaction id already committed to another exact intent"))
    else
      insertPrepare frameConflicts frame.offset state frame.revision frame.lsn descriptor
        frame.payloadCrc

def publishCommit (state : ScanState) (owner : ℕ) (descriptor : DurableRevisionDescriptor)
    (record : CommitRecord) (frame : DecodedFrame) : ScanState :=
  { state with
    committedTransactionKeys := state.committedTransactionKeys.insert descriptor.key
    commits := state.commits.insert frame.revision record
    committed := state.committed ++
      [{ prepareOwner := owner, prepareLsn := record.prepareLsn
         preparePayloadCrc32c := record.preparePayloadCrc32c, commitLsn := frame.lsn }]
    durableHead := descriptor.targetRevision }

def acceptCommit (state : ScanState) (frame : DecodedFrame) : Scanned ScanState := do
  let record ← Fallible.lift ((decodeCommitPayload frame.revision frame.payload).mapError
    (.corruption frame.offset))
  match state.preparesByLsn[record.prepareLsn]? with
  | none => .error (.error (.protocol frame.offset "commit references missing prepare"))
  | some (prepareOwner, prepareCrc) =>
    let descriptor ← state.ownerDescriptor prepareOwner
    if descriptor.targetRevision ≠ frame.revision ∨ prepareCrc ≠ record.preparePayloadCrc32c then
      .error (.error (.protocol frame.offset "commit does not bind the referenced prepare"))
    else
      match state.commits[frame.revision]? with
      | some existing =>
        if existing ≠ record then
          .error (.error (.protocol frame.offset "conflicting duplicate commit"))
        else .ok state
      | none =>
        if descriptor.sourceRevision ≠ state.durableHead then
          .error (.error (.protocol frame.offset
            "commit source revision does not match durable head"))
        else if descriptor.targetRevision = descriptor.sourceRevision then
          .error (.error (.protocol frame.offset "revision transition does not advance identity"))
        else .ok (state.publishCommit prepareOwner descriptor record frame)

def acceptIntentSeal (state : ScanState) (frame : DecodedFrame) : Scanned ScanState := do
  let record ← Fallible.lift ((decodeIntentSealPayload frame.payload).mapError
    (.corruption frame.offset))
  if record.committed.targetRevision ≠ frame.revision then
    .error (.error (.protocol frame.offset
      "intent seal header revision does not match sealed satisfaction revision"))
  else if frame.revision ≠ state.durableHead then
    .error (.error (.protocol frame.offset
      "intent seal satisfaction revision does not match durable head"))
  else if record.key ∈ state.committedTransactionKeys then
    .error (.error (.protocol frame.offset
      "intent seal reuses a revision-committed transaction key"))
  else if record.key ∈ state.prepareTransactionIdentity then
    .error (.error (.protocol frame.offset "intent seal reuses a prepared transaction key"))
  else
    match state.sealedTransactions[record.key]? with
    | some existing =>
      if existing ≠ record.committed then
        .error (.error (.protocol frame.offset "conflicting duplicate durable intent seal"))
      else .ok state
    | none =>
      .ok { state with
            sealedTransactions := state.sealedTransactions.insert record.key record.committed }

def acceptAuthority (state : ScanState) (frame : DecodedFrame) : Scanned ScanState :=
  if frame.revision ≠ 0 then
    .error (.error (.corruption frame.offset
      "replication authority WAL frame carries nonzero revision"))
  else
    .ok { state with
          replicationAuthorityFrames := state.replicationAuthorityFrames ++ [frame.payload] }

def accept (state : ScanState) (frame : DecodedFrame) : Scanned ScanState := match frame.kind with
  | .prepareRevision => state.acceptPrepare frame
  | .commitRevision => state.acceptCommit frame
  | .sealClientIntent => state.acceptIntentSeal frame
  | .replicationAuthority => state.acceptAuthority frame

/-- The prepares of `finish` that no commit took, in LSN order. -/
def unresolvedPrepares (state : ScanState) : Scanned (List LoggedPrepare) :=
  (state.preparesByLsn.toList.filter fun entry =>
      entry.2.1 ∉ state.committed.map (·.prepareOwner)).mapM fun entry => do
    return { lsn := entry.1, descriptor := ← state.ownerDescriptor entry.2.1
             payloadCrc := entry.2.2 }

/-- What `finish` builds from the committed revisions: owners not yet taken,
revisions and transactions. -/
structure Published where
  owners : List (Option DurableRevisionDescriptor)
  committed : List CommittedRevision
  transactions : ExtTreeMap DurableTransactionKey DurableCommittedTransaction

/-- Insert with `debug_assert!(previous.is_none())`. -/
def insertTransaction (key : DurableTransactionKey) (committed : DurableCommittedTransaction)
    (transactions : ExtTreeMap DurableTransactionKey DurableCommittedTransaction) :
    Scanned (ExtTreeMap DurableTransactionKey DurableCommittedTransaction) :=
  if key ∈ transactions then .error (.panic "previous.is_none()")
  else .ok (transactions.insert key committed)

def publishRevision (published : Published) (revision : ScanCommittedRevision) :
    Scanned Published := do
  let slot ← Fallible.expect "index out of bounds" published.owners[revision.prepareOwner]?
  let descriptor ← Fallible.expect "one prepared owner can publish at most once" slot
  let transactions ← insertTransaction descriptor.key
    (.fromDescriptorIntent descriptor.targetRevision descriptor.intent) published.transactions
  return {
    owners := published.owners.set revision.prepareOwner none
    committed := published.committed ++
      [{ descriptor, prepareLsn := revision.prepareLsn
         preparePayloadCrc32c := revision.preparePayloadCrc32c, commitLsn := revision.commitLsn }]
    transactions }

def finish (state : ScanState) (lastGoodOffset : ℕ) (nextLsn : UInt64) (tailStatus : TailStatus) :
    Scanned RecoveryScan := do
  let unresolvedPrepares ← state.unresolvedPrepares
  let published ← state.committed.foldlM publishRevision
    { owners := state.prepareOwners.map some, committed := [], transactions := ∅ }
  let committedTransactions ← state.sealedTransactions.toList.foldlM
    (fun transactions entry => insertTransaction entry.1 entry.2 transactions)
    published.transactions
  return {
    baseRevision := state.baseRevision
    committed := published.committed
    lastGoodOffset, nextLsn, tailStatus
    committedTransactions, unresolvedPrepares
    replicationAuthorityFrames := state.replicationAuthorityFrames }

end ScanState

end Cfmd.Durability
