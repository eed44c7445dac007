import Cfmd.Durability.ScanState

/-! What the frames of a WAL say, apart from how a scan indexes it: which
prepares, commits and seals may follow a log, and what every log built this way
satisfies. -/

namespace Cfmd.Durability
open Lib List

variable [PayloadCodec]

def LoggedPrepare.record (p : LoggedPrepare) : CommitRecord :=
  { targetRevision := p.descriptor.targetRevision, prepareLsn := p.lsn
    preparePayloadCrc32c := p.payloadCrc }

def CommittedRevision.record (c : CommittedRevision) : CommitRecord :=
  { targetRevision := c.descriptor.targetRevision, prepareLsn := c.prepareLsn
    preparePayloadCrc32c := c.preparePayloadCrc32c }

/-- The frame that committed a revision, by its LSN and what it says. -/
def CommittedRevision.entry (c : CommittedRevision) : UInt64 × CommitRecord :=
  (c.commitLsn, c.record)

def LoggedPrepare.commitAt (p : LoggedPrepare) (lsn : UInt64) : CommittedRevision :=
  { descriptor := p.descriptor, prepareLsn := p.lsn, preparePayloadCrc32c := p.payloadCrc
    commitLsn := lsn }

inductive WalEvent
  | prepare (p : LoggedPrepare)
  | commit (lsn : UInt64) (record : CommitRecord)
  | intentSeal (record : IntentSealRecord)
  | authority (payload : List UInt8)

variable {record : CommitRecord} {p : LoggedPrepare} {c : CommittedRevision}

namespace WalEvent

def prepare? : WalEvent → Option LoggedPrepare
  | prepare p => some p
  | _ => none

def commit? : WalEvent → Option (UInt64 × CommitRecord)
  | commit lsn record => some (lsn, record)
  | _ => none

def seal? : WalEvent → Option IntentSealRecord
  | intentSeal record => some record
  | _ => none

/-- What a whole frame says; nothing if its payload does not decode or its
header names another revision. -/
def ofFrame (frame : DecodedFrame) : Option WalEvent := match frame.kind with
  | .prepareRevision =>
    (decodePreparePayload frame.revision frame.payload).toOption.map fun descriptor =>
      prepare { lsn := frame.lsn, descriptor, payloadCrc := frame.payloadCrc }
  | .commitRevision =>
    (decodeCommitPayload frame.revision frame.payload).toOption.map (commit frame.lsn)
  | .sealClientIntent =>
    (decodeIntentSealPayload frame.payload).toOption.bind fun record =>
      if record.committed.targetRevision = frame.revision then some (intentSeal record) else none
  | .replicationAuthority => if frame.revision = 0 then some (authority frame.payload) else none

theorem ofFrame_of_commit {frame : DecodedFrame} {e : WalEvent} (h : ofFrame frame = some e)
    (hkind : frame.kind = .commitRevision) : ∃ record, e = commit frame.lsn record ∧
      decodeCommitPayload frame.revision frame.payload = .ok record := by
  rw [ofFrame, hkind] at h
  rcases hdecode : decodeCommitPayload frame.revision frame.payload with reason | record
  · rw [hdecode] at h
    cases h
  · rw [hdecode] at h
    exact ⟨record, (Option.some.inj h).symm, rfl⟩

theorem kind_of_commit {frame : DecodedFrame} {lsn : UInt64}
    (h : ofFrame frame = some (commit lsn record)) : frame.kind = .commitRevision := by
  unfold ofFrame at h
  split at h
  · obtain ⟨_, _, h⟩ := Option.map_eq_some_iff.mp h
    cases h
  · assumption
  · obtain ⟨_, _, h⟩ := Option.bind_eq_some_iff.mp h
    split at h <;> cases h
  · split at h <;> cases h

end WalEvent

/-- Prepares that share a target, a transaction key or an LSN are one. -/
structure Compatible (p q : LoggedPrepare) : Prop where
  target : p.descriptor.targetRevision = q.descriptor.targetRevision → p.descriptor = q.descriptor
  key : p.descriptor.key = q.descriptor.key → p.descriptor = q.descriptor
  lsn : p.lsn = q.lsn → p = q

theorem Compatible.refl (p : LoggedPrepare) : Compatible p p :=
  ⟨fun _ => rfl, fun _ => rfl, fun _ => rfl⟩

theorem Compatible.symm {q : LoggedPrepare} (h : Compatible p q) : Compatible q p :=
  ⟨fun ht => (h.target ht.symm).symm, fun hk => (h.key hk.symm).symm,
    fun hl => (h.lsn hl.symm).symm⟩

structure Log where
  base : RevisionId
  prepares : List LoggedPrepare
  committed : List CommittedRevision
  seals : List IntentSealRecord
  authority : List (List UInt8)

def Chained : RevisionId → List CommittedRevision → Prop
  | _, [] => True
  | start, c :: cs => c.descriptor.sourceRevision = start ∧ Chained c.descriptor.targetRevision cs

def headFrom (base : RevisionId) (committed : List CommittedRevision) : RevisionId :=
  (committed.getLast?.map (·.descriptor.targetRevision)).getD base

@[simp] theorem headFrom_append (base : RevisionId) (cs : List CommittedRevision)
    (c : CommittedRevision) : headFrom base (cs ++ [c]) = c.descriptor.targetRevision := by
  simp [headFrom]

theorem headFrom_cons (base : RevisionId) (c : CommittedRevision) (cs : List CommittedRevision) :
    headFrom base (c :: cs) = headFrom c.descriptor.targetRevision cs := by
  cases cs with
  | nil => rfl
  | cons c' cs => simp [headFrom, getLast?_cons]

theorem chained_append {base : RevisionId} {cs : List CommittedRevision} :
    Chained base (cs ++ [c]) ↔
      Chained base cs ∧ c.descriptor.sourceRevision = headFrom base cs := by
  induction cs generalizing base with
  | nil => simp [Chained, headFrom]
  | cons c' cs ih =>
    rw [cons_append, Chained, Chained, ih, headFrom_cons, and_assoc]

namespace Log

def empty (base : RevisionId) : Log where
  base
  prepares := []
  committed := []
  seals := []
  authority := []

def head (log : Log) : RevisionId := headFrom log.base log.committed

/-- A first commit of a prepared revision on top of the head. -/
def Starts (log : Log) (record : CommitRecord) (p : LoggedPrepare) : Prop :=
  (∀ c ∈ log.committed, c.descriptor.targetRevision ≠ record.targetRevision) ∧
    p.descriptor.sourceRevision = log.head ∧
    p.descriptor.targetRevision ≠ p.descriptor.sourceRevision

def Repeats (log : Log) (record : CommitRecord) : Prop := ∃ c ∈ log.committed, c.record = record

def AllowsPrepare (log : Log) (p : LoggedPrepare) : Prop := ∀ q ∈ log.prepares, Compatible q p

def Allows (log : Log) : WalEvent → Prop
  | .prepare p => log.AllowsPrepare p ∧ ∀ s ∈ log.seals, s.key ≠ p.descriptor.key
  | .commit _ record =>
    ∃ p ∈ log.prepares, p.record = record ∧ (log.Repeats record ∨ log.Starts record p)
  | .intentSeal record =>
    record.committed.targetRevision = log.head ∧
      (∀ p ∈ log.prepares, p.descriptor.key ≠ record.key) ∧
      ∀ s ∈ log.seals, s.key = record.key → s = record
  | .authority _ => True

def addPrepare (log : Log) (p : LoggedPrepare) : Log := { log with prepares := log.prepares ++ [p] }

def addCommit (log : Log) (lsn : UInt64) (record : CommitRecord) : Log :=
  if record ∈ log.committed.map (·.record) then log
  else
    match log.prepares.find? (·.record = record) with
    | some p => { log with committed := log.committed ++ [p.commitAt lsn] }
    | none => log

def apply (log : Log) : WalEvent → Log
  | .prepare p => log.addPrepare p
  | .commit lsn record => log.addCommit lsn record
  | .intentSeal record => { log with seals := log.seals ++ [record] }
  | .authority payload => { log with authority := log.authority ++ [payload] }

def run (log : Log) (events : List WalEvent) : Log := events.foldl apply log

/-- Every event is allowed by the log before it. -/
def Accepts : Log → List WalEvent → Prop
  | _, [] => True
  | log, e :: es => log.Allows e ∧ (log.apply e).Accepts es

variable {es : List WalEvent}

theorem accepts_append {log : Log} {es' : List WalEvent} :
    log.Accepts (es ++ es') ↔ log.Accepts es ∧ (log.run es).Accepts es' := by
  induction es generalizing log with
  | nil => simp [Accepts, run]
  | cons e es ih =>
    rw [cons_append, Accepts, Accepts, ih, and_assoc]
    rfl

theorem run_append (log : Log) (es es' : List WalEvent) :
    log.run (es ++ es') = (log.run es).run es' := foldl_append

@[simp] theorem prepares_addCommit (log : Log) (lsn : UInt64) (record : CommitRecord) :
    (log.addCommit lsn record).prepares = log.prepares := by
  unfold addCommit
  split
  · rfl
  · split <;> rfl

@[simp] theorem seals_addCommit (log : Log) (lsn : UInt64) (record : CommitRecord) :
    (log.addCommit lsn record).seals = log.seals := by
  unfold addCommit
  split
  · rfl
  · split <;> rfl

theorem base_apply (log : Log) (e : WalEvent) : (log.apply e).base = log.base := by
  cases e with
  | prepare p => rfl
  | commit lsn record =>
    show (log.addCommit lsn record).base = _
    unfold addCommit
    split
    · rfl
    · split <;> rfl
  | intentSeal record | authority payload => rfl

section
variable (log : Log) (es : List WalEvent)

theorem base_run : (log.run es).base = log.base :=
  foldl_inv (I := fun l : Log => l.base = log.base) es
    (fun l e _ hl => (base_apply l e).trans hl) rfl

theorem prepares_run : (log.run es).prepares = log.prepares ++ es.filterMap WalEvent.prepare? := by
  induction es generalizing log with
  | nil => simp [run]
  | cons e es ih =>
    show ((log.apply e).run es).prepares = _
    rw [ih]
    cases e with
    | prepare p => simp [apply, addPrepare, WalEvent.prepare?]
    | commit lsn record | intentSeal record => simp [apply, WalEvent.prepare?, filterMap_cons]
    | authority payload => simp [apply, WalEvent.prepare?, filterMap_cons]

theorem seals_run : (log.run es).seals = log.seals ++ es.filterMap WalEvent.seal? := by
  induction es generalizing log with
  | nil => simp [run]
  | cons e es ih =>
    show ((log.apply e).run es).seals = _
    rw [ih]
    cases e with
    | prepare p => simp [apply, addPrepare, WalEvent.seal?, filterMap_cons]
    | commit lsn record => simp [apply, WalEvent.seal?, filterMap_cons]
    | intentSeal record => simp [apply, WalEvent.seal?]
    | authority payload => simp [apply, WalEvent.seal?, filterMap_cons]

end

theorem addCommit_cases {log : Log} (lsn : UInt64)
    (hcompatible : ∀ p ∈ log.prepares, ∀ q ∈ log.prepares, Compatible p q) (hp : p ∈ log.prepares)
    (hrecord : p.record = record) (h : log.Repeats record ∨ log.Starts record p) :
    (log.Repeats record ∧ log.addCommit lsn record = log) ∨ (log.Starts record p ∧
        log.addCommit lsn record = { log with committed := log.committed ++ [p.commitAt lsn] }) := by
  by_cases hrepeat : log.Repeats record
  · have hmem : record ∈ log.committed.map (·.record) := mem_map.mpr hrepeat
    exact .inl ⟨hrepeat, by rw [addCommit, if_pos hmem]⟩
  have hnot : record ∉ log.committed.map (·.record) := fun hmem => hrepeat (mem_map.mp hmem)
  refine .inr ⟨h.resolve_left hrepeat, ?_⟩
  -- the prepare found first has the LSN of `p`, so it is `p`
  have hfound : log.prepares.find? (·.record = record) = some p := by
    cases hfind : log.prepares.find? (·.record = record) with
    | none => exact absurd hrecord (by simpa using find?_eq_none.mp hfind p hp)
    | some q =>
      have hq : q.record = record := by simpa using find?_some hfind
      have hlsn : q.lsn = p.lsn := congrArg CommitRecord.prepareLsn (hq.trans hrecord.symm)
      rw [(hcompatible q (mem_of_find?_eq_some hfind) p hp).lsn hlsn]
  rw [addCommit, if_neg hnot, hfound]

structure WellFormed (log : Log) : Prop where
  compatible : ∀ p ∈ log.prepares, ∀ q ∈ log.prepares, Compatible p q
  chained : Chained log.base log.committed
  targets : (log.committed.map (·.descriptor.targetRevision)).Nodup
  bound : ∀ c ∈ log.committed, ∃ p ∈ log.prepares, p.commitAt c.commitLsn = c
  sealedNotPrepared : ∀ s ∈ log.seals, ∀ p ∈ log.prepares, s.key ≠ p.descriptor.key
  sealedOnce : ∀ s ∈ log.seals, ∀ s' ∈ log.seals, s.key = s'.key → s = s'

namespace WellFormed
variable {log : Log}

theorem empty (base : RevisionId) : (Log.empty base).WellFormed where
  compatible := nofun
  chained := trivial
  targets := nodup_nil
  bound := nofun
  sealedNotPrepared := nofun
  sealedOnce := nofun

section
variable (h : log.WellFormed)
include h

theorem addPrepare (hp : log.AllowsPrepare p)
    (hsealed : ∀ s ∈ log.seals, s.key ≠ p.descriptor.key) : (log.addPrepare p).WellFormed where
  compatible := by
    intro q hq q' hq'
    rcases mem_append.mp hq with hq | hq <;> rcases mem_append.mp hq' with hq' | hq'
    · exact h.compatible q hq q' hq'
    · rw [mem_singleton.mp hq']
      exact hp q hq
    · rw [mem_singleton.mp hq]
      exact (hp q' hq').symm
    · rw [mem_singleton.mp hq, mem_singleton.mp hq']
      exact .refl p
  chained := h.chained
  targets := h.targets
  bound := by
    intro c hc
    obtain ⟨q, hq, hqc⟩ := h.bound c hc
    exact ⟨q, mem_append_left _ hq, hqc⟩
  sealedNotPrepared := by
    intro s hs q hq
    rcases mem_append.mp hq with hq | hq
    · exact h.sealedNotPrepared s hs q hq
    · rw [mem_singleton.mp hq]
      exact hsealed s hs
  sealedOnce := h.sealedOnce

theorem publish (lsn : UInt64) (hp : p ∈ log.prepares)
    (hrecord : p.record = record) (hstarts : log.Starts record p) :
    { log with committed := log.committed ++ [p.commitAt lsn] : Log }.WellFormed where
  compatible := h.compatible
  chained := chained_append.mpr ⟨h.chained, hstarts.2.1⟩
  targets := by
    rw [map_append, nodup_append]
    refine ⟨h.targets, nodup_singleton _, ?_⟩
    intro t ht t' ht' heq
    obtain ⟨c, hc, rfl⟩ := mem_map.mp ht
    rw [map_singleton, mem_singleton] at ht'
    subst hrecord
    exact hstarts.1 c hc (heq.trans ht')
  bound := by
    intro c hc
    rcases mem_append.mp hc with hc | hc
    · exact h.bound c hc
    · rw [mem_singleton.mp hc]
      exact ⟨p, hp, rfl⟩
  sealedNotPrepared := h.sealedNotPrepared
  sealedOnce := h.sealedOnce

theorem addSeal {record : IntentSealRecord} (hrecord : log.Allows (.intentSeal record)) :
    { log with seals := log.seals ++ [record] : Log }.WellFormed where
  compatible := h.compatible
  chained := h.chained
  targets := h.targets
  bound := h.bound
  sealedNotPrepared := by
    intro s hs p hp
    rcases mem_append.mp hs with hs | hs
    · exact h.sealedNotPrepared s hs p hp
    · rw [mem_singleton.mp hs]
      exact (hrecord.2.1 p hp).symm
  sealedOnce := by
    intro s hs s' hs' hkey
    rcases mem_append.mp hs with hs | hs <;> rcases mem_append.mp hs' with hs' | hs'
    · exact h.sealedOnce s hs s' hs' hkey
    · rw [mem_singleton.mp hs'] at hkey ⊢
      exact hrecord.2.2 s hs hkey
    · rw [mem_singleton.mp hs] at hkey ⊢
      exact (hrecord.2.2 s' hs' hkey.symm).symm
    · rw [mem_singleton.mp hs, mem_singleton.mp hs']

theorem apply {e : WalEvent} (he : log.Allows e) : (log.apply e).WellFormed := by
  cases e with
  | prepare p => exact h.addPrepare he.1 he.2
  | commit lsn record =>
    obtain ⟨p, hp, hrecord, hcase⟩ := he
    show (log.addCommit lsn record).WellFormed
    rcases addCommit_cases lsn h.compatible hp hrecord hcase with
      ⟨_, heq⟩ | ⟨hstarts, heq⟩
    · rw [heq]
      exact h
    · rw [heq]
      exact h.publish lsn hp hrecord hstarts
  | intentSeal record => exact h.addSeal he
  | authority payload =>
    exact ⟨h.compatible, h.chained, h.targets, h.bound, h.sealedNotPrepared, h.sealedOnce⟩

theorem run (hes : log.Accepts es) : (log.run es).WellFormed := by
  induction es generalizing log with
  | nil => exact h
  | cons e es ih => exact ih (h.apply hes.1) hes.2

theorem committed_run (hes : log.Accepts es)
    (hc : c ∈ (log.run es).committed) :
    c ∈ log.committed ∨ ∃ before after, es = before ++ .commit c.commitLsn c.record :: after ∧
      ∃ p ∈ (log.run before).prepares, p.commitAt c.commitLsn = c := by
  induction es generalizing log with
  | nil => exact .inl hc
  | cons e es ih =>
    rcases ih (h.apply hes.1) hes.2 hc with hc | ⟨before, after, rfl, hbefore⟩
    · cases e with
      | prepare p => exact .inl hc
      | commit lsn record =>
        obtain ⟨p, hp, hrecord, hcase⟩ := hes.1
        rcases addCommit_cases lsn h.compatible hp hrecord hcase with ⟨_, heq⟩ | ⟨_, heq⟩
        · rw [Log.apply, heq] at hc
          exact .inl hc
        rw [Log.apply, heq] at hc
        rcases mem_append.mp hc with hc | hc
        · exact .inl hc
        · rw [mem_singleton] at hc
          subst hc hrecord
          exact .inr ⟨[], es, rfl, p, hp, rfl⟩
      | intentSeal record | authority payload => exact .inl hc
    · exact .inr ⟨e :: before, after, rfl, hbefore⟩

theorem prepare_of_committed (hc : c ∈ log.committed) :
    ∃ p ∈ log.prepares, p.descriptor = c.descriptor := by
  obtain ⟨p, hp, hpc⟩ := h.bound c hc
  exact ⟨p, hp, congrArg CommittedRevision.descriptor hpc⟩

theorem committed_eq_of_key {c' : CommittedRevision} (hc : c ∈ log.committed)
    (hc' : c' ∈ log.committed) (hkey : c.descriptor.key = c'.descriptor.key) : c = c' := by
  obtain ⟨p, hp, hpc⟩ := h.prepare_of_committed hc
  obtain ⟨p', hp', hpc'⟩ := h.prepare_of_committed hc'
  rw [← hpc, ← hpc'] at hkey
  have hdescriptor := (h.compatible p hp p' hp').key hkey
  rw [hpc, hpc'] at hdescriptor
  exact inj_on_of_nodup_map h.targets hc hc' (by rw [hdescriptor])

theorem records_nodup : (log.committed.map (·.record)).Nodup := by
  apply List.Nodup.of_map CommitRecord.targetRevision
  rw [map_map]
  exact h.targets

theorem entries_run (hes : log.Accepts es)
    (honce : (log.committed.map (·.record) ++ (es.filterMap WalEvent.commit?).map Prod.snd).Nodup) :
    (log.run es).committed.map (·.entry) =
      log.committed.map (·.entry) ++ es.filterMap WalEvent.commit? := by
  induction es generalizing log with
  | nil => simp [Log.run]
  | cons e es ih =>
    have hstep := ih (h.apply hes.1) hes.2
    cases e with
    | commit lsn record =>
      obtain ⟨p, hp, hrecord, hcase⟩ := hes.1
      have hnew : ¬ log.Repeats record := by
        rintro ⟨c, hc, hcr⟩
        rw [nodup_append] at honce
        exact honce.2.2 record (mem_map.mpr ⟨c, hc, hcr⟩) record (mem_cons_self ..) rfl
      rcases addCommit_cases lsn h.compatible hp hrecord hcase with ⟨hrepeats, _⟩ | ⟨_, heq⟩
      · exact absurd hrepeats hnew
      have hcommitted : (log.apply (.commit lsn record)).committed =
          log.committed ++ [p.commitAt lsn] := by
        rw [Log.apply, heq]
      subst hrecord
      rw [hcommitted, map_append, map_append, append_assoc, append_assoc]
        at hstep
      exact hstep honce
    | prepare p | intentSeal record | authority payload => exact hstep honce

theorem keys_nodup : (log.committed.map (·.descriptor.key)).Nodup :=
  (h.targets.of_map _).map_on fun _ hc _ hc' hkey => h.committed_eq_of_key hc hc' hkey

end

end WellFormed

end Log

end Cfmd.Durability
