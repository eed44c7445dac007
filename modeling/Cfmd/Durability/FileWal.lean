import Cfmd.Durability.TornWrite
import Cfmd.Durability.WalReader

/-! The writer of an unencrypted WAL file, and what the scan of the file recovers
of its appends. -/

namespace Cfmd.Durability
open Lib List

/-- The file from its first byte, and what the freshness hasher has absorbed. -/
structure FileRevisionWal where
  file : List UInt8
  startOffset : ℕ
  nextLsn : UInt64
  freshness : List UInt8
  poisoned : Bool

structure DurablePrepareToken where
  transactionId : ClientTransactionId
  targetRevision : RevisionId
  revisionEffectId : RevisionEffectId
  prepareLsn : UInt64
  preparePayloadCrc32c : UInt32

structure DurableCommitReceipt where
  revision : RevisionId
  prepareLsn : UInt64
  commitLsn : UInt64

def DurablePrepareToken.record (token : DurablePrepareToken) : CommitRecord where
  targetRevision := token.targetRevision
  prepareLsn := token.prepareLsn
  preparePayloadCrc32c := token.preparePayloadCrc32c

namespace FileRevisionWal

def createAtLsn (nextLsn : UInt64) : Except DurabilityError FileRevisionWal :=
  if nextLsn = 0 then .error (.protocol 0 "WAL next LSN must be nonzero")
  else
    .ok
      { file := [], startOffset := 0, nextLsn, freshness := walFreshnessPrefixDomain
        poisoned := false }

def appendFrame (wal : FileRevisionWal) (kind : RecordKind) (revision : RevisionId)
    (payload : List UInt8) : Except DurabilityError (EncodedFrame × FileRevisionWal) :=
  if wal.poisoned then .error .poisoned
  else do
    let nextLsn ← successorLsn wal.nextLsn
    let frame ← encodeFrame wal.nextLsn kind revision payload
    return (frame,
      { wal with
        file := wal.file ++ frame.bytes, freshness := wal.freshness ++ frame.bytes, nextLsn })

section
variable [PayloadCodec]

def appendIntentSealUnflushed (wal : FileRevisionWal) (record : IntentSealRecord) :
    Except DurabilityError (EncodedFrame × FileRevisionWal) := do
  let payload ← (encodeIntentSealPayload record).mapError .encode
  wal.appendFrame .sealClientIntent record.committed.targetRevision payload

def appendPrepareUnflushedWithFrame (wal : FileRevisionWal)
    (descriptor : DurableRevisionDescriptor) :
    Except DurabilityError ((DurablePrepareToken × EncodedFrame) × FileRevisionWal) := do
  let payload ← (encodePreparePayload descriptor).mapError .encode
  let (frame, wal) ← wal.appendFrame .prepareRevision descriptor.targetRevision payload
  let token :=
    { transactionId := descriptor.transactionId, targetRevision := descriptor.targetRevision
      revisionEffectId := descriptor.revisionEffectId.getD descriptor.transactionId
      prepareLsn := frame.lsn, preparePayloadCrc32c := frame.payloadCrc32c }
  return ((token, frame), wal)

end

def appendCommitUnflushedWithFrame (wal : FileRevisionWal) (prepared : DurablePrepareToken) :
    Except DurabilityError ((DurableCommitReceipt × EncodedFrame) × FileRevisionWal) := do
  let payload := encodeCommitPayload prepared.record
  let (frame, wal) ← wal.appendFrame .commitRevision prepared.targetRevision payload
  let receipt :=
    { revision := prepared.targetRevision, prepareLsn := prepared.prepareLsn
      commitLsn := frame.lsn }
  return ((receipt, frame), wal)

end FileRevisionWal

section
variable [PayloadCodec]

inductive WalAppend
  | prepare (descriptor : DurableRevisionDescriptor)
  | commit (token : DurablePrepareToken)
  | intentSeal (record : IntentSealRecord)

namespace WalAppend

def entry : WalAppend → Except CodecError WalEntry
  | prepare descriptor => do
    return ⟨.prepareRevision, descriptor.targetRevision, ← encodePreparePayload descriptor⟩
  | commit token =>
    .ok ⟨.commitRevision, token.targetRevision, encodeCommitPayload token.record⟩
  | intentSeal record => do
    return ⟨.sealClientIntent, record.committed.targetRevision, ← encodeIntentSealPayload record⟩

end WalAppend

variable {e : WalEntry} {a : WalAppend} {appends : List WalAppend} {lsn : UInt64}
  {entries : List WalEntry}

namespace FileRevisionWal

def append (wal : FileRevisionWal) : WalAppend → Except DurabilityError FileRevisionWal
  | .prepare descriptor => do return (← wal.appendPrepareUnflushedWithFrame descriptor).2
  | .commit token => do return (← wal.appendCommitUnflushedWithFrame token).2
  | .intentSeal record => do return (← wal.appendIntentSealUnflushed record).2

def appendAll (wal : FileRevisionWal) (appends : List WalAppend) :
    Except DurabilityError FileRevisionWal := appends.foldlM append wal

variable {wal wal' : FileRevisionWal}

structure Appended (wal : FileRevisionWal) (e : WalEntry) (wal' : FileRevisionWal) : Prop where
  encoded : encodeFrame wal.nextLsn e.kind e.revision e.payload =
    .ok ⟨wal.nextLsn, crc32c e.payload, e.bytes wal.nextLsn⟩
  lsn_lt : wal.nextLsn.toNat + 1 < 2 ^ 64
  nextLsn_eq : wal'.nextLsn = wal.nextLsn + 1
  file_eq : wal'.file = wal.file ++ e.bytes wal.nextLsn
  startOffset_eq : wal'.startOffset = wal.startOffset

omit [PayloadCodec] in
theorem appended_of_appendFrame {frame : EncodedFrame}
    (h : wal.appendFrame e.kind e.revision e.payload = .ok (frame, wal')) :
    Appended wal e wal' := by
  unfold appendFrame at h
  split_ifs at h
  obtain ⟨nextLsn, hlsn, h⟩ := bind_eq_ok.mp h
  obtain ⟨frame', hframe, h⟩ := bind_eq_ok.mp h
  cases h
  have hencoded := hframe
  unfold encodeFrame at hframe
  split_ifs at hframe
  unfold successorLsn at hlsn
  split at hlsn
  · rename_i hlt
    cases hframe
    cases hlsn
    exact ⟨hencoded, hlt, rfl, rfl, rfl⟩
  · cases hlsn

theorem appended_of_append (h : wal.append a = .ok wal') :
    ∃ e, a.entry = .ok e ∧ Appended wal e wal' := by
  cases a with
  | prepare d =>
    obtain ⟨⟨_, _⟩, hprepare, h⟩ := bind_eq_ok.mp h
    obtain ⟨payload, hpayload, hprepare⟩ := bind_eq_ok.mp hprepare
    obtain ⟨⟨_, _⟩, hframe, hprepare⟩ := bind_eq_ok.mp hprepare
    cases hprepare
    cases h
    refine ⟨⟨.prepareRevision, d.targetRevision, payload⟩, ?_, appended_of_appendFrame hframe⟩
    rw [WalAppend.entry, mapError_eq_ok.mp hpayload]
    rfl
  | commit token =>
    obtain ⟨⟨_, _⟩, hcommit, h⟩ := bind_eq_ok.mp h
    obtain ⟨⟨_, _⟩, hframe, hcommit⟩ := bind_eq_ok.mp hcommit
    cases hcommit
    cases h
    exact ⟨_, rfl, appended_of_appendFrame hframe⟩
  | intentSeal record =>
    obtain ⟨⟨_, _⟩, hseal, h⟩ := bind_eq_ok.mp h
    obtain ⟨payload, hpayload, hframe⟩ := bind_eq_ok.mp hseal
    cases h
    refine ⟨⟨.sealClientIntent, record.committed.targetRevision, payload⟩, ?_,
      appended_of_appendFrame hframe⟩
    rw [WalAppend.entry, mapError_eq_ok.mp hpayload]
    rfl

/-- The file after a run of appends holds their frames, with consecutive LSNs. -/
theorem appendAll_frames (h : wal.appendAll appends = .ok wal') :
    ∃ entries log, Forall₂ (fun a e => a.entry = .ok e) appends entries ∧
      encodeFrames wal.nextLsn entries = .ok log ∧ wal'.file = wal.file ++ log ∧
      wal'.startOffset = wal.startOffset ∧
      wal.nextLsn.toNat + entries.length < 2 ^ 64 := by
  induction appends generalizing wal with
  | nil =>
    cases h
    exact ⟨[], [], .nil, rfl, (append_nil _).symm, rfl, UInt64.toNat_lt _⟩
  | cons a appends ih =>
    obtain ⟨wal₁, happend, h⟩ := bind_eq_ok.mp h
    obtain ⟨e, hentry, happended⟩ := appended_of_append happend
    obtain ⟨entries, log, hentries, hlog, hfile, hstart, hbound⟩ := ih h
    rw [happended.nextLsn_eq] at hlog hbound
    rw [toNat_successor happended.lsn_lt] at hbound
    refine ⟨e :: entries, e.bytes wal.nextLsn ++ log, .cons hentry hentries, ?_, ?_,
      hstart.trans happended.startOffset_eq, ?_⟩
    · rw [encodeFrames, happended.encoded]
      rw [hlog]
      rfl
    · rw [hfile, happended.file_eq, append_assoc]
    · rw [length_cons]
      omega

end FileRevisionWal

/-! ### Appends and events -/

namespace WalAppend

def numberFrom : UInt64 → List WalAppend → List (UInt64 × WalAppend)
  | _, [] => []
  | lsn, a :: appends => (lsn, a) :: numberFrom (lsn + 1) appends

def commit? : UInt64 × WalAppend → Option (UInt64 × DurablePrepareToken)
  | (lsn, commit token) => some (lsn, token)
  | _ => none

def commits (firstLsn : UInt64) (appends : List WalAppend) : List (UInt64 × DurablePrepareToken) :=
  (numberFrom firstLsn appends).filterMap commit?

theorem numberFrom_index {l : UInt64} (hbound : lsn.toNat + appends.length < 2 ^ 64)
    (h : (l, a) ∈ numberFrom lsn appends) :
    ∃ i, appends[i]? = some a ∧ l.toNat = lsn.toNat + i := by
  induction appends generalizing lsn with
  | nil => cases h
  | cons b appends ih =>
    rcases mem_cons.mp h with heq | h
    · cases heq
      exact ⟨0, rfl, rfl⟩
    rw [length_cons] at hbound
    have hnext : (lsn + 1).toNat = lsn.toNat + 1 := toNat_successor (by omega)
    obtain ⟨i, hi, hl⟩ := ih (by omega) h
    exact ⟨i + 1, hi, by omega⟩

theorem numberFrom_inj {l : UInt64} {b : WalAppend} (hbound : lsn.toNat + appends.length < 2 ^ 64)
    (ha : (l, a) ∈ numberFrom lsn appends) (hb : (l, b) ∈ numberFrom lsn appends) : a = b := by
  obtain ⟨i, hi, hli⟩ := numberFrom_index hbound ha
  obtain ⟨j, hj, hlj⟩ := numberFrom_index hbound hb
  have hij : i = j := by omega
  rw [hij, hj, Option.some.injEq] at hi
  exact hi.symm

inductive ReadsAs : UInt64 × WalAppend → WalEvent → Prop
  | prepare {lsn : UInt64} {d d' : DurableRevisionDescriptor} {payload : List UInt8}
      (hencode : encodePreparePayload d = .ok payload)
      (hdecode : decodePreparePayload d.targetRevision payload = .ok d') :
      ReadsAs (lsn, prepare d) (.prepare ⟨lsn, d', crc32c payload⟩)
  | commit {lsn : UInt64} {token : DurablePrepareToken} :
      ReadsAs (lsn, commit token) (.commit lsn token.record)
  | intentSeal {lsn : UInt64} {record record' : IntentSealRecord} {payload : List UInt8}
      (hencode : encodeIntentSealPayload record = .ok payload)
      (hdecode : decodeIntentSealPayload payload = .ok record')
      (htarget : record'.committed.targetRevision = record.committed.targetRevision) :
      ReadsAs (lsn, intentSeal record) (.intentSeal record')

theorem ofFrame_entry (h : a.entry = .ok e) (offset : ℕ) (lsn : UInt64) (event : WalEvent) :
    WalEvent.ofFrame (e.frame offset lsn) = some event ↔ ReadsAs (lsn, a) event := by
  cases a with
  | prepare d =>
    obtain ⟨payload, hencode, h⟩ := bind_eq_ok.mp h
    cases h
    show (decodePreparePayload d.targetRevision payload).toOption.map _ = _ ↔ _
    constructor
    · intro hevent
      obtain ⟨d', hd', rfl⟩ := Option.map_eq_some_iff.mp hevent
      exact .prepare hencode (toOption_eq_some.mp hd')
    · rintro ⟨hencode', hdecode⟩
      rw [hencode, Except.ok.injEq] at hencode'
      subst hencode'
      rw [hdecode]
      rfl
  | commit token =>
    cases h
    show (decodeCommitPayload token.record.targetRevision
      (encodeCommitPayload token.record)).toOption.map _ = _ ↔ _
    rw [decodeCommitPayload_encode]
    constructor
    · rintro ⟨⟩
      exact .commit
    · rintro ⟨⟩
      rfl
  | intentSeal record =>
    obtain ⟨payload, hencode, h⟩ := bind_eq_ok.mp h
    cases h
    show (decodeIntentSealPayload payload).toOption.bind _ = _ ↔ _
    constructor
    · intro hevent
      obtain ⟨record', hdecode, hevent⟩ := Option.bind_eq_some_iff.mp hevent
      split at hevent
      · rename_i htarget
        cases hevent
        exact .intentSeal hencode (toOption_eq_some.mp hdecode) htarget
      · cases hevent
    · rintro (_ | _ | ⟨hencode', hdecode, htarget⟩)
      rw [hencode, Except.ok.injEq] at hencode'
      subst hencode'
      rw [hdecode]
      exact if_pos htarget

theorem says_iff
    (h : Forall₂ (fun a e => a.entry = .ok e) appends entries) (offset : ℕ) (lsn : UInt64)
    (events : List WalEvent) :
    Says (framesFrom offset lsn entries) events ↔
      Forall₂ ReadsAs (numberFrom lsn appends) events := by
  induction h generalizing offset lsn events with
  | nil =>
    constructor
    · rintro ⟨⟩
      exact .nil
    · rintro ⟨⟩
      exact .nil
  | cons hentry _ ih =>
    constructor
    · intro hsaid
      cases hsaid with
      | cons hevent hrest =>
        exact .cons ((ofFrame_entry hentry _ _ _).mp hevent) ((ih _ _ _).mp hrest)
    · intro hreads
      cases hreads with
      | cons hevent hrest =>
        exact .cons ((ofFrame_entry hentry _ _ _).mpr hevent) ((ih _ _ _).mpr hrest)

section
variable {numbered : List (UInt64 × WalAppend)} {events : List WalEvent}

section
variable (h : Forall₂ ReadsAs numbered events)
include h

theorem commits_of_readsAs :
    events.filterMap WalEvent.commit? =
      (numbered.filterMap commit?).map fun t => (t.1, t.2.record) := by
  induction h with
  | nil => rfl
  | cons hreads _ ih =>
    cases hreads with
    | prepare => exact ih
    | commit => exact congrArg _ ih
    | intentSeal => exact ih

theorem prepare_of_event {p : LoggedPrepare}
    (hp : p ∈ events.filterMap WalEvent.prepare?) :
    ∃ d payload, (p.lsn, prepare d) ∈ numbered ∧ encodePreparePayload d = .ok payload ∧
      decodePreparePayload d.targetRevision payload = .ok p.descriptor := by
  obtain ⟨event, hevent, hsome⟩ := mem_filterMap.mp hp
  obtain ⟨⟨lsn, a⟩, ha, hreads⟩ := forall₂_exists_left h hevent
  cases hreads with
  | prepare hencode hdecode =>
    cases hsome
    exact ⟨_, _, ha, hencode, hdecode⟩
  | commit | intentSeal => cases hsome

theorem event_of_prepare {d : DurableRevisionDescriptor} (hd : (lsn, prepare d) ∈ numbered) :
    ∃ p ∈ events.filterMap WalEvent.prepare?, p.lsn = lsn ∧ ∃ payload,
      encodePreparePayload d = .ok payload ∧
        decodePreparePayload d.targetRevision payload = .ok p.descriptor := by
  obtain ⟨event, hevent, hreads⟩ := forall₂_exists_right h hd
  cases hreads with
  | prepare hencode hdecode =>
    exact ⟨_, mem_filterMap.mpr ⟨_, hevent, rfl⟩, rfl, _, hencode, hdecode⟩

end

end

/-- Only a commit can look encrypted: its payload begins with the LSN it binds. -/
theorem looksEncrypted_entry (h : a.entry = .ok e) :
    LooksEncrypted e.payload ↔
      ∃ token, a = commit token ∧ token.prepareLsn.toNat % 2 ^ 32 = 0x45414643 := by
  cases a with
  | prepare d =>
    obtain ⟨payload, hencode, h⟩ := bind_eq_ok.mp h
    obtain ⟨intent, _, hencode⟩ := bind_eq_ok.mp hencode
    obtain ⟨change, _, hencode⟩ := bind_eq_ok.mp hencode
    cases hencode
    cases h
    -- the payload begins with the two bytes of its format tag
    constructor
    · intro hlooks
      have hfirst : (0x69 : UInt8) = 0x43 := (List.cons.inj hlooks).1
      cases hfirst
    · rintro ⟨_, ⟨⟩, _⟩
  | commit token =>
    cases h
    have htake : (encodeCommitPayload token.record).take 4 =
        toLeBytes 4 token.prepareLsn.toNat := rfl
    rw [LooksEncrypted, htake]
    constructor
    · intro hbytes
      refine ⟨token, rfl, ?_⟩
      have hvalue := congrArg fromLeBytes hbytes
      rw [fromLeBytes_toLeBytes] at hvalue
      exact hvalue
    · rintro ⟨_, ⟨⟩, hlsn⟩
      have hbytes := toLeBytes_fromLeBytes (toLeBytes 4 token.prepareLsn.toNat)
      rw [fromLeBytes_toLeBytes] at hbytes
      rw [← hbytes, show token.prepareLsn.toNat % 256 ^ 4 = 0x45414643 from hlsn]
      rfl
  | intentSeal record =>
    obtain ⟨payload, hencode, h⟩ := bind_eq_ok.mp h
    obtain ⟨committed, _, hencode⟩ := bind_eq_ok.mp hencode
    cases hencode
    cases h
    constructor
    · intro hlooks
      have hfirst : (0x10 : UInt8) = 0x43 := (List.cons.inj hlooks).1
      cases hfirst
    · rintro ⟨_, ⟨⟩, _⟩

end WalAppend

/-! ### The scan of the file -/

omit [PayloadCodec] in
theorem payloads_framesFrom (offset : ℕ) (lsn : UInt64) (entries : List WalEntry) :
    (framesFrom offset lsn entries).map (·.payload) = entries.map (·.payload) := by
  induction entries generalizing offset lsn with
  | nil => rfl
  | cons e es ih => exact congrArg _ (ih _ _)

omit [PayloadCodec] in
theorem trace_whole {log : List UInt8}
    (hlog : encodeFrames lsn entries = .ok log) (hbound : lsn.toNat + entries.length < 2 ^ 64) :
    ∃ offset lsn' status, Trace (memoryFrame log) log.length () 0 lsn (framesFrom 0 lsn entries)
      offset lsn' status () := by
  obtain ⟨k, lsn', _, _, htrace⟩ := trace_torn hlog prefix_rfl hbound []
  obtain ⟨_, _, hframes⟩ := trace_encoded [] hlog htrace
  exact ⟨_, _, _, hframes ▸ htrace⟩

section
variable {entries : List WalEntry} {lsn : UInt64} {log : List UInt8}

theorem scanWalSeeded_encoded (hlog : encodeFrames lsn entries = .ok log)
    (hbound : lsn.toNat + entries.length < 2 ^ 64) (hzero : lsn ≠ 0) (base : RevisionId)
    (good : List CommittedRevision → Prop) :
    (∃ scan, scanWalSeeded log base lsn [] = .ok scan ∧ good scan.committed) ↔
      ∃ events, Says (framesFrom 0 lsn entries) events ∧ (Log.empty base).Accepts events ∧
        good ((Log.empty base).run events).committed := by
  constructor
  · rintro ⟨scan, hscan, hgood⟩
    obtain ⟨frames, events, h⟩ := scanFrom_sound (scanWalSeeded_eq_ok.mp hscan).2
    obtain ⟨_, _, hframes⟩ := trace_encoded [] hlog h.trace
    rw [h.recovers.committed] at hgood
    exact ⟨events, hframes ▸ h.said, h.accepts, hgood⟩
  · rintro ⟨events, hsaid, haccepts, hgood⟩
    obtain ⟨offset, lsn', status, htrace⟩ := trace_whole hlog hbound
    have hscanned : ScanAccepts base [] events := haccepts
    obtain ⟨scan, hscan, hscans, _⟩ := scanFrom_complete htrace.frameLen_pos htrace hsaid hscanned
    refine ⟨scan, scanWalSeeded_eq_ok.mpr ⟨hzero, hscan⟩, ?_⟩
    rwa [hscans.recovers.committed]

omit [PayloadCodec] in
theorem plainFrames_encoded (hlog : encodeFrames lsn entries = .ok log)
    (hbound : lsn.toNat + entries.length < 2 ^ 64) :
    PlainFrames log lsn ↔ ∀ e ∈ entries, ¬ LooksEncrypted e.payload := by
  obtain ⟨offset, lsn', status, htrace⟩ := trace_whole hlog hbound
  have hpayloads : (∀ f ∈ framesFrom 0 lsn entries, ¬ LooksEncrypted f.payload) ↔
      ∀ e ∈ entries, ¬ LooksEncrypted e.payload := by
    have hmap := forall_mem_map (f := DecodedFrame.payload) (l := framesFrom 0 lsn entries)
      (P := fun payload => ¬ LooksEncrypted payload)
    rw [← hmap, payloads_framesFrom, forall_mem_map]
  rw [← hpayloads]
  constructor
  · exact fun hplain => hplain _ _ _ _ htrace
  · intro hplain frames' offset' lsn'' status' htrace'
    obtain ⟨rfl, _⟩ := htrace.unique htrace'
    exact hplain

end

open WalAppend (numberFrom commits ReadsAs)

/-- A recovered revision is what an append committed: the prepare it binds was
appended with this descriptor. -/
structure IsCommitOf (numbered : List (UInt64 × WalAppend)) (c : CommittedRevision)
    (t : UInt64 × DurablePrepareToken) : Prop where
  entry : c.entry = (t.1, t.2.record)
  prepared : (t.2.prepareLsn, WalAppend.prepare c.descriptor) ∈ numbered

def FileRevisionWal.Recovers (wal : FileRevisionWal) (base : RevisionId) (firstLsn : UInt64)
    (appends : List WalAppend) : Prop :=
  ∃ scan hashed, scanWalReaderRegionSeeded wal.file
      { startOffset := wal.startOffset, endOffset := wal.file.length, baseRevision := base
        firstLsn, seededPrepares := [], crypto := none } = .ok (scan, hashed) ∧
    Forall₂ (IsCommitOf (numberFrom firstLsn appends)) scan.committed (commits firstLsn appends)

def ReadsBack (d : DurableRevisionDescriptor) : Prop :=
  ∃ payload, encodePreparePayload d = .ok payload ∧
    decodePreparePayload d.targetRevision payload = .ok d

structure Recoverable (base : RevisionId) (firstLsn : UInt64) (appends : List WalAppend)
    (events : List WalEvent) : Prop where
  readsAs : Forall₂ ReadsAs (numberFrom firstLsn appends) events
  accepts : (Log.empty base).Accepts events
  once : ((commits firstLsn appends).map (·.2.record)).Nodup
  readBack : ∀ t ∈ commits firstLsn appends, ∀ d,
    (t.2.prepareLsn, WalAppend.prepare d) ∈ numberFrom firstLsn appends → ReadsBack d
  plain : ∀ token, WalAppend.commit token ∈ appends → token.prepareLsn.toNat % 2 ^ 32 ≠ 0x45414643

section
variable {base : RevisionId} {firstLsn : UInt64} {appends : List WalAppend}
  {events : List WalEvent}

theorem prepared_of_committed (haccepts : (Log.empty base).Accepts events) {c : CommittedRevision}
    (hc : c ∈ ((Log.empty base).run events).committed) :
    ∃ p ∈ events.filterMap WalEvent.prepare?, p.commitAt c.commitLsn = c := by
  have hwell := (Log.WellFormed.empty base).run haccepts
  obtain ⟨p, hp, hpc⟩ := hwell.bound c hc
  rw [Log.prepares_run] at hp
  exact ⟨p, hp, hpc⟩

theorem committed_iff (hbound : firstLsn.toNat + appends.length < 2 ^ 64)
    (hreads : Forall₂ ReadsAs (numberFrom firstLsn appends) events)
    (haccepts : (Log.empty base).Accepts events) :
    Forall₂ (IsCommitOf (numberFrom firstLsn appends))
        ((Log.empty base).run events).committed (commits firstLsn appends) ↔
      ((commits firstLsn appends).map (·.2.record)).Nodup ∧
        ∀ t ∈ commits firstLsn appends, ∀ d,
          (t.2.prepareLsn, WalAppend.prepare d) ∈ numberFrom firstLsn appends → ReadsBack d := by
  have hwell := (Log.WellFormed.empty base).run haccepts
  have hcommits := WalAppend.commits_of_readsAs hreads
  constructor
  · intro hmatch
    have hrecords : ((Log.empty base).run events).committed.map (·.record) =
        (commits firstLsn appends).map (·.2.record) := by
      apply map_eq_map_iff_forall₂.mpr
      exact hmatch.imp fun c t h => congrArg Prod.snd h.entry
    refine ⟨hrecords ▸ hwell.records_nodup, ?_⟩
    intro t ht d hd
    obtain ⟨c, hc, hct⟩ := forall₂_exists_left hmatch ht
    -- the event of this append has the LSN that the commit binds
    obtain ⟨p, hp, hlsn, payload, hencode, hdecode⟩ := WalAppend.event_of_prepare hreads hd
    obtain ⟨q, hq, hqc⟩ := prepared_of_committed haccepts hc
    have hqlsn : q.lsn = t.2.prepareLsn := by
      have hbinds := congrArg (fun e => e.2.prepareLsn) hct.entry
      rw [← hqc] at hbinds
      exact hbinds
    have hpq : p = q := by
      have hrun := Log.prepares_run (Log.empty base) events
      exact (hwell.compatible p (hrun ▸ hp) q (hrun ▸ hq)).lsn (hlsn.trans hqlsn.symm)
    have hdescriptor : p.descriptor = c.descriptor := by
      rw [hpq, ← hqc]
      rfl
    have hsame := WalAppend.numberFrom_inj hbound hd hct.prepared
    rw [WalAppend.prepare.injEq] at hsame
    rw [hdescriptor, ← hsame] at hdecode
    exact ⟨payload, hencode, hdecode⟩
  · rintro ⟨honce, hreadBack⟩
    have hentries := (Log.WellFormed.empty base).entries_run haccepts
      (by rw [hcommits, map_map]; exact honce)
    rw [hcommits] at hentries
    apply forall₂_imp_mem (map_eq_map_iff_forall₂.mp hentries)
    intro c hc t ht hct
    obtain ⟨p, hp, hpc⟩ := prepared_of_committed haccepts hc
    obtain ⟨d, payload, hd, hencode, hdecode⟩ := WalAppend.prepare_of_event hreads hp
    have hlsn : p.lsn = t.2.prepareLsn := by
      have hbinds := congrArg (fun e => e.2.prepareLsn) hct
      rw [← hpc] at hbinds
      exact hbinds
    rw [hlsn] at hd
    obtain ⟨payload', hencode', hdecode'⟩ := hreadBack t ht d hd
    rw [hencode, Except.ok.injEq] at hencode'
    subst hencode'
    rw [hdecode', Except.ok.injEq] at hdecode
    have hdescriptor : c.descriptor = d := by
      rw [← hpc, hdecode]
      rfl
    exact ⟨hct, hdescriptor ▸ hd⟩

/-- The scan of a written file returns exactly the appended commits when every
payload decodes, those of the committed prepares to what was appended, the log
follows the protocol, no commit is made twice, and no commit binds a prepare whose
LSN begins like an encrypted payload. -/
theorem recovers_iff {wal : FileRevisionWal} (hcreate : FileRevisionWal.createAtLsn firstLsn = .ok wal)
    {wal' : FileRevisionWal} (happends : wal.appendAll appends = .ok wal') :
    wal'.Recovers base firstLsn appends ↔ ∃ events, Recoverable base firstLsn appends events := by
  have hcreated : wal.file = [] ∧ wal.startOffset = 0 ∧ wal.nextLsn = firstLsn ∧ firstLsn ≠ 0 := by
    unfold FileRevisionWal.createAtLsn at hcreate
    split_ifs at hcreate with hzero
    cases hcreate
    exact ⟨rfl, rfl, rfl, hzero⟩
  obtain ⟨hfile, hstart, hfirst, hzero⟩ := hcreated
  obtain ⟨entries, log, hentries, hlog, hfile', hstart', hbound⟩ :=
    FileRevisionWal.appendAll_frames happends
  rw [hfile, nil_append] at hfile'
  rw [hfirst] at hlog hbound
  have hlen : appends.length = entries.length := hentries.length_eq
  have hslice : slice log 0 log.length = log := by
    rw [slice, drop_zero, Nat.sub_zero, take_length]
  have hplain : PlainFrames log firstLsn ↔ ∀ token, WalAppend.commit token ∈ appends →
      token.prepareLsn.toNat % 2 ^ 32 ≠ 0x45414643 := by
    rw [plainFrames_encoded hlog hbound]
    constructor
    · intro hplain token htoken hmagic
      obtain ⟨e, he, hentry⟩ := forall₂_exists_right hentries htoken
      exact hplain e he ((WalAppend.looksEncrypted_entry hentry).mpr ⟨token, rfl, hmagic⟩)
    · intro hplain e he hlooks
      obtain ⟨a, ha, hentry⟩ := forall₂_exists_left hentries he
      obtain ⟨token, rfl, hmagic⟩ := (WalAppend.looksEncrypted_entry hentry).mp hlooks
      exact hplain token ha hmagic
  -- the scan of the region is the scan in memory, as long as no payload looks encrypted
  have hregion : wal'.Recovers base firstLsn appends ↔
      (∃ scan, scanWalSeeded log base firstLsn [] = .ok scan ∧
        Forall₂ (IsCommitOf (numberFrom firstLsn appends)) scan.committed
          (commits firstLsn appends)) ∧ PlainFrames log firstLsn := by
    unfold FileRevisionWal.Recovers
    rw [hfile', hstart', hstart]
    constructor
    · rintro ⟨scan, hashed, hscan, hcommits⟩
      have hmemory := (scanWalReaderRegionSeeded_iff (Nat.zero_le _) le_rfl).mp ⟨hashed, hscan⟩
      rw [hslice] at hmemory
      exact ⟨⟨scan, hmemory.1, hcommits⟩, hmemory.2⟩
    · rintro ⟨⟨scan, hscan, hcommits⟩, hframes⟩
      have hmemory : scanWalSeeded (slice log 0 log.length) base firstLsn [] = .ok scan ∧
          PlainFrames (slice log 0 log.length) firstLsn := by
        rw [hslice]
        exact ⟨hscan, hframes⟩
      obtain ⟨hashed, hregion⟩ := (scanWalReaderRegionSeeded_iff (Nat.zero_le _) le_rfl).mpr hmemory
      exact ⟨scan, hashed, hregion, hcommits⟩
  rw [hregion, hplain, scanWalSeeded_encoded hlog hbound hzero base (fun committed =>
    Forall₂ (IsCommitOf (numberFrom firstLsn appends)) committed (commits firstLsn appends))]
  rw [← hlen] at hbound
  constructor
  · rintro ⟨⟨events, hsaid, haccepts, hcommits⟩, hmagic⟩
    have hreads := (WalAppend.says_iff hentries 0 firstLsn events).mp hsaid
    obtain ⟨honce, hreadBack⟩ := (committed_iff hbound hreads haccepts).mp hcommits
    exact ⟨events, hreads, haccepts, honce, hreadBack, hmagic⟩
  · rintro ⟨events, h⟩
    have hsaid := (WalAppend.says_iff hentries 0 firstLsn events).mpr h.readsAs
    exact ⟨⟨events, hsaid, h.accepts,
      (committed_iff hbound h.readsAs h.accepts).mpr ⟨h.once, h.readBack⟩⟩, h.plain⟩

end

/-- The scan of a file returns exactly the commits appended to it, if the appends are recoverable,
and the scans in memory, of a stream and of a region agree if no payload looks encrypted. -/
theorem file_scan_recovers_appends :
    (∀ (base : RevisionId) (firstLsn : UInt64) (appends : List WalAppend)
      (wal wal' : FileRevisionWal), FileRevisionWal.createAtLsn firstLsn = .ok wal →
        wal.appendAll appends = .ok wal' → (wal'.Recovers base firstLsn appends ↔
            ∃ events, Recoverable base firstLsn appends events)) ∧
    ∀ (before bytes after : List UInt8) (base : RevisionId) (firstLsn : UInt64)
      (seeds : List LoggedPrepare), ScansAgree before bytes after base firstLsn seeds ↔
        (firstLsn ≠ 0 → PlainLog bytes base firstLsn seeds) := by
  constructor
  · intro base firstLsn appends wal wal' hcreate happends
    exact recovers_iff hcreate happends
  · intro before bytes after base firstLsn seeds
    exact scansAgree_iff before bytes after

end

section
attribute [local instance] emptyRelationCodec

def stepToken (lsn : UInt64) : DurablePrepareToken where
  transactionId := 7
  targetRevision := 6
  revisionEffectId := 7
  prepareLsn := lsn
  preparePayloadCrc32c := crc32c (emptyStepPayload 5 6 7)

def stepAppends (lsn : UInt64) : List WalAppend :=
  [.prepare (emptyStep 5 6 7), .commit (stepToken lsn)]

def stepBytes (lsn : UInt64) : List UInt8 :=
  WalEntry.bytes ⟨.prepareRevision, 6, emptyStepPayload 5 6 7⟩ lsn ++
    WalEntry.bytes ⟨.commitRevision, 6, encodeCommitPayload (stepToken lsn).record⟩ (lsn + 1)

def emptyWal (lsn : UInt64) : FileRevisionWal where
  file := []
  startOffset := 0
  nextLsn := lsn
  freshness := walFreshnessPrefixDomain
  poisoned := false

def stepWal (lsn : UInt64) : FileRevisionWal where
  file := stepBytes lsn
  startOffset := 0
  nextLsn := lsn + 1 + 1
  freshness := walFreshnessPrefixDomain ++ stepBytes lsn
  poisoned := false

set_option maxRecDepth 100000 in
/-- The first LSN is `b"CFAE"`: the commit of the first prepare looks encrypted,
and the scan of the file refuses a log that the scan in memory accepts. -/
theorem file_scan_refuses_lsn_magic :
    FileRevisionWal.createAtLsn 0x45414643 = .ok (emptyWal 0x45414643) ∧
    (emptyWal 0x45414643).appendAll (stepAppends 0x45414643) = .ok (stepWal 0x45414643) ∧
    (∃ scan, scanWalSeeded (stepWal 0x45414643).file 5 0x45414643 [] = .ok scan ∧
      scan.committed.map (·.entry) = [(0x45414644, (stepToken 0x45414643).record)]) ∧
    scanWalReaderRegionSeeded (stepWal 0x45414643).file
      { startOffset := 0, endOffset := (stepWal 0x45414643).file.length, baseRevision := 5
        firstLsn := 0x45414643, seededPrepares := [], crypto := none } =
      .error (.error (.protocol 166 "encrypted WAL frame requires a database key")) := by
  refine ⟨rfl, rfl, ?_, ?_⟩
  · have hscan : (scanWalSeeded (stepWal 0x45414643).file 5 0x45414643 []).toOption.map
        (fun scan => scan.committed.map (·.entry)) =
          some [(0x45414644, (stepToken 0x45414643).record)] := by decide +kernel
    obtain ⟨scan, hscan, hcommitted⟩ := Option.map_eq_some_iff.mp hscan
    exact ⟨scan, toOption_eq_some.mp hscan, hcommitted⟩
  · apply map_eq_error (f := fun _ => ()).mp
    decide +kernel

set_option maxRecDepth 100000 in
theorem stepAppends_recoverable : Recoverable 5 1 (stepAppends 1)
    [.prepare ⟨1, emptyStep 5 6 7, crc32c (emptyStepPayload 5 6 7)⟩,
      .commit 2 (stepToken 1).record] where
  readsAs := .cons (.prepare (encodePreparePayload_emptyStep 5 6 7) rfl) (.cons .commit .nil)
  accepts := ⟨⟨nofun, nofun⟩, ⟨_, mem_singleton_self _, rfl, .inr ⟨nofun, rfl, by decide⟩⟩, trivial⟩
  once := nodup_singleton _
  readBack := by
    intro t ht d hd
    rw [mem_singleton.mp ht] at hd
    rcases mem_cons.mp hd with hd | hd
    · cases hd
      exact ⟨_, encodePreparePayload_emptyStep 5 6 7, rfl⟩
    · cases mem_singleton.mp hd
  plain := by
    intro token htoken
    rcases mem_cons.mp htoken with htoken | htoken
    · cases htoken
    · cases mem_singleton.mp htoken
      decide

set_option maxRecDepth 100000 in
theorem file_scan_recovers_appends_of_step :
    FileRevisionWal.createAtLsn 1 = .ok (emptyWal 1) ∧
    (emptyWal 1).appendAll (stepAppends 1) = .ok (stepWal 1) ∧
    (stepWal 1).Recovers 5 1 (stepAppends 1) :=
  ⟨rfl, rfl, (file_scan_recovers_appends.1 5 1 (stepAppends 1) (emptyWal 1) (stepWal 1) rfl
    rfl).mpr ⟨_, stepAppends_recoverable⟩⟩

end

end Cfmd.Durability
