import Cfmd.Durability.Log
import Cfmd.Lib.VecIndex

/-! The indices of a scan represent a log: each operation accepts exactly the
events that the log allows, leaves the state of the next log, and never panics. -/

namespace Cfmd.Durability
open Std Lib ScanState WalEvent List Fallible

variable [PayloadCodec]

/-- The two identity indices list the owners by target revision and by key. -/
structure Indexed (state : ScanState) : Prop where
  target : IndexedBy state.prepareIdentity state.prepareOwners
    DurableRevisionDescriptor.targetRevision
  key : IndexedBy state.prepareTransactionIdentity state.prepareOwners DurableRevisionDescriptor.key

/-- A committed revision of the scan stands for one of the log. -/
structure StandsFor (owners : List DurableRevisionDescriptor) (s : ScanCommittedRevision)
    (c : CommittedRevision) : Prop where
  descriptor : owners[s.prepareOwner]? = some c.descriptor
  prepareLsn : s.prepareLsn = c.prepareLsn
  preparePayloadCrc32c : s.preparePayloadCrc32c = c.preparePayloadCrc32c
  commitLsn : s.commitLsn = c.commitLsn

structure Represents (state : ScanState) (log : Log) : Prop where
  wellFormed : log.WellFormed
  indexed : Indexed state
  base : state.baseRevision = log.base
  head : state.durableHead = log.head
  owner_iff : ∀ d, d ∈ state.prepareOwners ↔ ∃ p ∈ log.prepares, p.descriptor = d
  lsn_iff : ∀ lsn owner crc, state.preparesByLsn[lsn]? = some (owner, crc) ↔
    ∃ p ∈ log.prepares, p.lsn = lsn ∧ p.payloadCrc = crc ∧
      state.prepareOwners[owner]? = some p.descriptor
  committedKey_iff : ∀ key, key ∈ state.committedTransactionKeys ↔
    ∃ c ∈ log.committed, c.descriptor.key = key
  sealed_iff : ∀ key committed, state.sealedTransactions[key]? = some committed ↔
    { key, committed } ∈ log.seals
  commit_iff : ∀ revision record, state.commits[revision]? = some record ↔
    record.targetRevision = revision ∧ log.Repeats record
  committed : List.Forall₂ (StandsFor state.prepareOwners) state.committed log.committed
  authority : state.replicationAuthorityFrames = log.authority

theorem Represents.new (base : RevisionId) : Represents (ScanState.new base) (Log.empty base) where
  wellFormed := .empty base
  indexed := ⟨.empty, .empty⟩
  base := rfl
  head := rfl
  owner_iff := by simp [ScanState.new, Log.empty]
  lsn_iff := by simp [ScanState.new, Log.empty]
  committedKey_iff := by simp [ScanState.new, Log.empty]
  sealed_iff := by simp [ScanState.new, Log.empty]
  commit_iff := by simp [ScanState.new, Log.empty, Log.Repeats]
  committed := .nil
  authority := rfl

/-! ### Owners -/

namespace ScanState
variable {state state' : ScanState} {owner : ℕ} {d d' : DurableRevisionDescriptor}

theorem ownerDescriptor_eq (h : state.prepareOwners[owner]? = some d) :
    state.ownerDescriptor owner = .ok d := by
  rw [ownerDescriptor, h, expect_some]

theorem ownedByAnother_none : state.ownedByAnother none d = .ok false := rfl

theorem ownedByAnother_self (h : state.prepareOwners[owner]? = some d) :
    state.ownedByAnother (some owner) d = .ok false := by
  rw [ownedByAnother, ownerDescriptor_eq h]
  simp

theorem ownedByAnother_of_ne (h : state.prepareOwners[owner]? = some d') (hne : d' ≠ d) :
    state.ownedByAnother (some owner) d = .ok true := by
  rw [ownedByAnother, ownerDescriptor_eq h]
  simp [hne]

end ScanState

/-- What registering a descriptor does to the owners; nothing else changes. -/
structure Registered (state state' : ScanState) (owner : ℕ) (d : DurableRevisionDescriptor) :
    Prop where
  indexed : Indexed state'
  owner_eq : state'.prepareOwners[owner]? = some d
  keeps : ∀ (i : ℕ) x, state.prepareOwners[i]? = some x → state'.prepareOwners[i]? = some x
  mem : ∀ x ∈ state'.prepareOwners, x ∈ state.prepareOwners ∨ x = d
  frame : state' = { state with
    prepareOwners := state'.prepareOwners
    prepareIdentity := state'.prepareIdentity
    prepareTransactionIdentity := state'.prepareTransactionIdentity }

variable {state : ScanState} {d x : DurableRevisionDescriptor} {owner : ℕ}

section
variable {state' : ScanState} (h : Registered state state' owner d)
include h

theorem Registered.mem_iff : x ∈ state'.prepareOwners ↔ x ∈ state.prepareOwners ∨ x = d := by
  refine ⟨h.mem x, ?_⟩
  rintro (hx | rfl)
  · obtain ⟨i, hi⟩ := mem_iff_getElem?.mp hx
    exact mem_of_getElem? (h.keeps i x hi)
  · exact mem_of_getElem? h.owner_eq

theorem Registered.getElem?_iff {i : ℕ} (hx : x ∈ state.prepareOwners) :
    state'.prepareOwners[i]? = some x ↔ state.prepareOwners[i]? = some x := by
  constructor
  · intro hi
    obtain ⟨j, hj⟩ := mem_iff_getElem?.mp hx
    have hij := (h.indexed.target.eq_of_key hi (h.keeps j x hj) rfl).1
    rwa [hij]
  · exact h.keeps i x

end

theorem Indexed.registered_of_owner (h : Indexed state)
    (howner : state.prepareOwners[owner]? = some d) :
    Registered state state owner d where
  indexed := h
  owner_eq := howner
  keeps := fun _ _ hx => hx
  mem := fun _ hx => .inl hx
  frame := rfl

theorem Indexed.registered_addOwner (h : Indexed state)
    (htarget : state.prepareIdentity[d.targetRevision]? = none)
    (hkey : state.prepareTransactionIdentity[d.key]? = none) :
    Registered state (state.addOwner d.targetRevision d) state.prepareOwners.length d where
  indexed := ⟨h.target.push htarget, h.key.push hkey⟩
  owner_eq := getElem?_concat_iff.mpr (.inr ⟨rfl, rfl⟩)
  keeps := fun _ _ hx => getElem?_concat_iff.mpr (.inl hx)
  mem := by
    intro x hx
    rcases mem_append.mp hx with hx | hx
    · exact .inl hx
    · exact .inr (mem_singleton.mp hx)
  frame := rfl

namespace ScanState
variable {state : ScanState} {log : Log}

/-- No owner shares the target or the key without being this descriptor. -/
def AllowsOwner (state : ScanState) (d : DurableRevisionDescriptor) : Prop :=
  ∀ x ∈ state.prepareOwners, x.targetRevision = d.targetRevision ∨ x.key = d.key → x = d

theorem prepareOwner_decides (h : Indexed state) (conflicts : PrepareConflicts) (offset : ℕ)
    (d : DurableRevisionDescriptor) :
    Decides (prepareOwner conflicts offset state d.targetRevision d) (state.AllowsOwner d)
      fun result => Registered state result.2 result.1 d := by
  unfold prepareOwner
  rcases htarget : state.prepareIdentity[d.targetRevision]? with _ | owner
  · rcases hkey : state.prepareTransactionIdentity[d.key]? with _ | owner
    · -- neither index knows the descriptor
      refine .ok ?_ (h.registered_addOwner htarget hkey)
      rintro x hx (hxd | hxd)
      · obtain ⟨i, _, hi⟩ := h.target.of_mem hx
        rw [hxd, htarget] at hi
        cases hi
      · obtain ⟨i, _, hi⟩ := h.key.of_mem hx
        rw [hxd, hkey] at hi
        cases hi
    · -- the key belongs to another target
      obtain ⟨d', howner, hkey'⟩ := (h.key _ _).mp hkey
      have hne : d' ≠ d := by
        rintro rfl
        rw [(h.target _ _).mpr ⟨d', howner, rfl⟩] at htarget
        cases htarget
      simp only [ownedByAnother_none, ownedByAnother_of_ne howner hne, ok_bind,
        Bool.false_eq_true, if_false, if_true]
      refine .error fun hallowed => hne ?_
      exact hallowed d' (mem_of_getElem? howner) (.inr hkey')
  · obtain ⟨d', howner, htarget'⟩ := (h.target _ _).mp htarget
    by_cases hne : d' = d
    · -- the key leads to the same owner
      subst hne
      have hkey := (h.key _ _).mpr ⟨d', howner, rfl⟩
      simp only [hkey, ownedByAnother_self howner, ok_bind, Bool.false_eq_true, if_false,
        Option.any_some, ne_eq, not_true_eq_false, decide_false, Option.some_or]
      refine .ok ?_ (h.registered_of_owner howner)
      rintro x hx (hxd | hxd)
      · obtain ⟨i, hi⟩ := mem_iff_getElem?.mp hx
        exact (h.target.eq_of_key hi howner hxd).2
      · obtain ⟨i, hi⟩ := mem_iff_getElem?.mp hx
        exact (h.key.eq_of_key hi howner hxd).2
    · simp only [ownedByAnother_of_ne howner hne, ok_bind, if_true]
      refine .error fun hallowed => hne ?_
      exact hallowed d' (mem_of_getElem? howner) (.inl htarget')

end ScanState

theorem StandsFor.mono {owners owners' : List DurableRevisionDescriptor}
    {s : ScanCommittedRevision} {c : CommittedRevision} (h : StandsFor owners s c)
    (hkeeps : ∀ (i : ℕ) x, owners[i]? = some x → owners'[i]? = some x) : StandsFor owners' s c :=
  ⟨hkeeps _ _ h.descriptor, h.prepareLsn, h.preparePayloadCrc32c, h.commitLsn⟩

section
variable {state state' : ScanState} {log : Log} {owner : ℕ} {p : LoggedPrepare}
  {frame : DecodedFrame}

section
variable (h : Represents state log) {key : DurableTransactionKey}
include h

theorem Represents.mem_owners (hp : p ∈ log.prepares) :
    p.descriptor ∈ state.prepareOwners := (h.owner_iff _).mpr ⟨p, hp, rfl⟩

theorem Represents.addPrepare
    (hreg : Registered state state' owner p.descriptor) (hallowed : log.AllowsPrepare p)
    (hsealed : ∀ s ∈ log.seals, s.key ≠ p.descriptor.key)
    {byLsn : ExtTreeMap UInt64 (ℕ × UInt32)}
    (hlsn : ∀ lsn owner crc, byLsn[lsn]? = some (owner, crc) ↔
      ∃ q ∈ log.prepares ++ [p], q.lsn = lsn ∧ q.payloadCrc = crc ∧
        state'.prepareOwners[owner]? = some q.descriptor) :
    Represents { state' with preparesByLsn := byLsn } (log.addPrepare p) := by
  rw [hreg.frame]
  exact {
    h with
    wellFormed := h.wellFormed.addPrepare hallowed hsealed
    indexed := ⟨hreg.indexed.target, hreg.indexed.key⟩
    owner_iff := by
      intro d
      show d ∈ state'.prepareOwners ↔ ∃ q ∈ log.prepares ++ [p], q.descriptor = d
      rw [hreg.mem_iff, h.owner_iff]
      simp [or_and_right, exists_or, eq_comm]
    lsn_iff := hlsn
    committed := h.committed.imp fun _ _ hs => hs.mono hreg.keeps }

theorem Represents.lsn_ne {lsn : UInt64}
    (hget : state.preparesByLsn[lsn]? = none) {q : LoggedPrepare} (hq : q ∈ log.prepares) :
    q.lsn ≠ lsn := by
  intro heq
  obtain ⟨i, hi⟩ := mem_iff_getElem?.mp (h.mem_owners hq)
  rw [(h.lsn_iff lsn i q.payloadCrc).mpr ⟨q, hq, heq, rfl, hi⟩] at hget
  cases hget

theorem Represents.seal_ne
    (hget : state.sealedTransactions[key]? = none) : ∀ s ∈ log.seals, s.key ≠ key := by
  rintro ⟨_, committed⟩ hs rfl
  rw [(h.sealed_iff _ _).mpr hs] at hget
  cases hget

theorem Represents.prepared_iff :
    key ∈ state.prepareTransactionIdentity ↔ ∃ p ∈ log.prepares, p.descriptor.key = key := by
  rw [← ExtTreeMap.isSome_getElem?_iff_mem, Option.isSome_iff_exists]
  constructor
  · rintro ⟨owner, howner⟩
    obtain ⟨d, hd, hkey⟩ := (h.indexed.key _ _).mp howner
    obtain ⟨p, hp, rfl⟩ := (h.owner_iff d).mp (mem_of_getElem? hd)
    exact ⟨p, hp, hkey⟩
  · rintro ⟨p, hp, rfl⟩
    obtain ⟨owner, _, hindex⟩ := h.indexed.key.of_mem (h.mem_owners hp)
    exact ⟨owner, hindex⟩

theorem Represents.lsn_iff_registered
    (hreg : Registered state state' owner d) (lsn : UInt64) (o : ℕ) (crc : UInt32) :
    state'.preparesByLsn[lsn]? = some (o, crc) ↔
      ∃ q ∈ log.prepares, q.lsn = lsn ∧ q.payloadCrc = crc ∧
        state'.prepareOwners[o]? = some q.descriptor := by
  have hby : state'.preparesByLsn = state.preparesByLsn := by rw [hreg.frame]
  rw [hby, h.lsn_iff]
  constructor
  · rintro ⟨q, hq, hlsn, hcrc, howner⟩
    exact ⟨q, hq, hlsn, hcrc, (hreg.getElem?_iff (h.mem_owners hq)).mpr howner⟩
  · rintro ⟨q, hq, hlsn, hcrc, howner⟩
    exact ⟨q, hq, hlsn, hcrc, (hreg.getElem?_iff (h.mem_owners hq)).mp howner⟩

end

theorem Represents.compatible_of_owner (h : Represents state log)
    (howner : state.AllowsOwner p.descriptor) {q : LoggedPrepare} (hq : q ∈ log.prepares)
    (hlsn : q.lsn = p.lsn → q = p) : Compatible q p where
  target := fun ht => howner _ (h.mem_owners hq) (.inl ht)
  key := fun hk => howner _ (h.mem_owners hq) (.inr hk)
  lsn := hlsn

theorem insertPrepare_decides (h : Represents state log) (conflicts : PrepareConflicts)
    (offset : ℕ) (hsealed : ∀ s ∈ log.seals, s.key ≠ p.descriptor.key) :
    Decides (insertPrepare conflicts offset state p.descriptor.targetRevision p.lsn
      p.descriptor p.payloadCrc) (log.AllowsPrepare p)
      fun state' => Represents state' (log.addPrepare p) := by
  apply (prepareOwner_decides h.indexed conflicts offset p.descriptor).bind
  · rintro hallowed x hx hshared
    obtain ⟨q, hq, rfl⟩ := (h.owner_iff x).mp hx
    exact hshared.elim (hallowed q hq).target (hallowed q hq).key
  · rintro ⟨owner, state'⟩ howner hreg
    have hlsn := h.lsn_iff_registered hreg
    rcases hget : state'.preparesByLsn[p.lsn]? with _ | ⟨o, crc⟩
    · -- a new LSN
      have hfree : ∀ q ∈ log.prepares, q.lsn ≠ p.lsn := by
        rw [show state' = _ from hreg.frame] at hget
        exact fun _ => h.lsn_ne hget
      have hallowed : log.AllowsPrepare p := fun q hq =>
        h.compatible_of_owner howner hq fun heq => absurd heq (hfree q hq)
      simp only [hget]
      refine .ok hallowed (h.addPrepare hreg hallowed hsealed ?_)
      intro lsn o crc
      rw [getElem?_insert_eq_some, hlsn, Prod.mk.injEq]
      constructor
      · rintro (⟨rfl, rfl, rfl⟩ | ⟨_, q, hq, hrest⟩)
        · exact ⟨p, mem_append_right _ mem_cons_self, rfl, rfl, hreg.owner_eq⟩
        · exact ⟨q, mem_append_left _ hq, hrest⟩
      · rintro ⟨q, hq, hql, hqc, hqo⟩
        rcases mem_append.mp hq with hq | hq
        · exact .inr ⟨fun heq => hfree q hq (hql.trans heq.symm), q, hq, hql, hqc, hqo⟩
        · rw [mem_singleton.mp hq] at hql hqc hqo
          exact .inl ⟨hql, (hreg.indexed.target.eq_of_key hreg.owner_eq hqo rfl).1, hqc⟩
    · -- the LSN is known: it has to be the same prepare
      obtain ⟨q, hq, hql, hqc, hqo⟩ := (hlsn _ _ _).mp hget
      simp only [hget]
      apply Decides.guard
      · rintro hallowed (hne | hne)
        · have heq := (hallowed q hq).lsn hql
          rw [heq] at hqo
          exact hne (hreg.indexed.target.eq_of_key hqo hreg.owner_eq rfl).1
        · exact hne (by rw [← hqc, (hallowed q hq).lsn hql])
      · intro hsame
        rw [not_or, not_not, not_not] at hsame
        have hdescriptor : q.descriptor = p.descriptor := by
          rw [hsame.1, hreg.owner_eq] at hqo
          exact (Option.some.inj hqo).symm
        have heq : q = p := by
          rw [LoggedPrepare.mk.injEq]
          exact ⟨hql, hdescriptor, hqc.trans hsame.2⟩
        subst heq
        have hallowed : log.AllowsPrepare q := fun q' hq' =>
          h.wellFormed.compatible q' hq' q hq
        refine .ok hallowed (h.addPrepare hreg hallowed hsealed ?_)
        simpa only [mem_concat_of_mem hq] using hlsn

/-! ### Frames -/

/-- The frame says something, and the log allows it. -/
def Log.AllowsFrame (log : Log) (frame : DecodedFrame) : Prop :=
  ∃ e, ofFrame frame = some e ∧ log.Allows e

/-- What accepting a frame leaves behind. -/
def Follows (log : Log) (frame : DecodedFrame) (state : ScanState) : Prop :=
  ∀ e, ofFrame frame = some e → Represents state (log.apply e)

section
variable {frame : DecodedFrame} {e : WalEvent} {x : Scanned ScanState}

theorem Log.decides_frame (he : ofFrame frame = some e)
    (h : Decides x (log.Allows e) fun state => Represents state (log.apply e)) :
    Decides x (log.AllowsFrame frame) (Follows log frame) := by
  apply h.congr
  · constructor
    · exact fun hallowed => ⟨e, he, hallowed⟩
    · rintro ⟨e', he', hallowed⟩
      rw [he, Option.some.injEq] at he'
      rwa [he']
  · intro state hstate e' he'
    rw [he, Option.some.injEq] at he'
    rwa [← he']

theorem Log.not_allowsFrame (he : ofFrame frame = none) : ¬ log.AllowsFrame frame := by
  rintro ⟨e, he', _⟩
  rw [he] at he'
  cases he'

end

section
variable (h : Represents state log)
include h

theorem committedByAnother_spec (d : DurableRevisionDescriptor) :
    ∃ b, state.committedByAnother d = .ok b ∧
      (b = true → ∃ q ∈ log.prepares, q.descriptor.key = d.key ∧ q.descriptor ≠ d) := by
  by_cases hkey : d.key ∈ state.committedTransactionKeys
  · obtain ⟨c, hc, hcd⟩ := (h.committedKey_iff d.key).mp hkey
    obtain ⟨q, hq, hqc⟩ := h.wellFormed.prepare_of_committed hc
    obtain ⟨owner, howner, hindex⟩ := h.indexed.key.of_mem (h.mem_owners hq)
    rw [hqc, hcd] at hindex
    refine ⟨decide (q.descriptor ≠ d), ?_, ?_⟩
    · rw [committedByAnother, if_pos hkey, hindex, expect_some,
        ok_bind, ownerDescriptor_eq howner]
      rfl
    · intro hne
      exact ⟨q, hq, by rw [hqc, hcd], of_decide_eq_true hne⟩
  · exact ⟨false, by rw [committedByAnother, if_neg hkey], nofun⟩

theorem acceptPrepare_decides (hkind : frame.kind = .prepareRevision) :
    Decides (state.acceptPrepare frame) (log.AllowsFrame frame) (Follows log frame) := by
  unfold acceptPrepare
  rcases hdecode : decodePreparePayload frame.revision frame.payload with reason | d
  · exact .error (Log.not_allowsFrame (by
      simp [ofFrame, hkind, hdecode, Except.toOption]))
  have htarget := targetRevision_of_decodePreparePayload hdecode
  refine Log.decides_frame (e := .prepare ⟨frame.lsn, d, frame.payloadCrc⟩)
    (by simp [ofFrame, hkind, hdecode, Except.toOption]) ?_
  simp only [Except.mapError, Fallible.lift, ok_bind]
  rcases hsealed : state.sealedTransactions[d.key]? with _ | committed
  · obtain ⟨another, hanother, hspec⟩ := committedByAnother_spec h d
    have hfree := h.seal_ne hsealed
    simp only [hanother, ok_bind]
    apply Decides.guard
    · intro hallowed htrue
      obtain ⟨q, hq, hkey, hne⟩ := hspec htrue
      exact hne ((hallowed.1 q hq).key hkey)
    intro _
    rw [← htarget]
    have hinsert := insertPrepare_decides (p := ⟨frame.lsn, d, frame.payloadCrc⟩) h
      frameConflicts frame.offset hfree
    exact hinsert.congr ⟨fun hallowed => ⟨hallowed, hfree⟩, And.left⟩ fun _ => id
  · exact .error fun hallowed => hallowed.2 _ ((h.sealed_iff _ _).mp hsealed) rfl

theorem Represents.publish {record : CommitRecord}
    (hp : p ∈ log.prepares) (hrecord : p.record = record)
    (hrevision : record.targetRevision = frame.revision)
    (howner : state.prepareOwners[owner]? = some p.descriptor) (hstarts : log.Starts record p) :
    Represents (state.publishCommit owner p.descriptor record frame)
      { log with committed := log.committed ++ [p.commitAt frame.lsn] } where
  wellFormed := h.wellFormed.publish frame.lsn hp hrecord hstarts
  indexed := ⟨h.indexed.target, h.indexed.key⟩
  base := h.base
  head := (headFrom_append log.base log.committed (p.commitAt frame.lsn)).symm
  owner_iff := h.owner_iff
  lsn_iff := h.lsn_iff
  committedKey_iff := by
    intro key
    show key ∈ state.committedTransactionKeys.insert p.descriptor.key ↔ _
    rw [ExtTreeSet.mem_insert, h.committedKey_iff, LawfulEqCmp.compare_eq_iff_eq]
    simp only [mem_append, mem_singleton, or_and_right, exists_or, exists_eq_left]
    exact or_comm
  sealed_iff := h.sealed_iff
  commit_iff := by
    intro revision r
    show (state.commits.insert frame.revision record)[revision]? = some r ↔ _
    have hrepeats : Log.Repeats { log with committed := log.committed ++ [p.commitAt frame.lsn] } r ↔
        log.Repeats r ∨ record = r := by
      simp only [Log.Repeats, mem_append, mem_singleton, or_and_right, exists_or, exists_eq_left]
      rw [← hrecord]
      rfl
    rw [getElem?_insert_eq_some, hrepeats, h.commit_iff]
    constructor
    · rintro (⟨rfl, rfl⟩ | ⟨_, htarget, hr⟩)
      · exact ⟨hrevision, .inr rfl⟩
      · exact ⟨htarget, .inl hr⟩
    · rintro ⟨htarget, hr | rfl⟩
      · refine .inr ⟨?_, htarget, hr⟩
        obtain ⟨c, hc, rfl⟩ := hr
        rintro rfl
        exact hstarts.1 c hc (htarget.trans hrevision.symm)
      · exact .inl ⟨hrevision.symm.trans htarget, rfl⟩
  committed := by
    subst hrecord
    exact rel_append h.committed (.cons ⟨howner, rfl, rfl, rfl⟩ .nil)
  authority := h.authority

theorem acceptCommit_decides (hkind : frame.kind = .commitRevision) :
    Decides (state.acceptCommit frame) (log.AllowsFrame frame) (Follows log frame) := by
  unfold acceptCommit
  rcases hdecode : decodeCommitPayload frame.revision frame.payload with reason | record
  · exact .error (Log.not_allowsFrame (by
      simp [ofFrame, hkind, hdecode, Except.toOption]))
  have hrevision := targetRevision_of_decodeCommitPayload hdecode
  refine Log.decides_frame (e := .commit frame.lsn record)
    (by simp [ofFrame, hkind, hdecode, Except.toOption]) ?_
  simp only [Except.mapError, Fallible.lift, ok_bind]
  rcases hget : state.preparesByLsn[record.prepareLsn]? with _ | ⟨owner, crc⟩
  · refine .error ?_
    rintro ⟨q, hq, rfl, _⟩
    exact h.lsn_ne hget hq rfl
  obtain ⟨p, hp, hlsn, hcrc, howner⟩ := (h.lsn_iff _ _ _).mp hget
  -- the prepare that the log knows under this LSN is the one the index names
  have hunique : ∀ q ∈ log.prepares, q.record = record → q = p := by
    rintro q hq rfl
    exact (h.wellFormed.compatible q hq p hp).lsn hlsn.symm
  simp only [ownerDescriptor_eq howner, ok_bind]
  apply Decides.guard
  · rintro ⟨q, hq, hqrecord, _⟩ hbad
    rw [hunique q hq hqrecord] at hqrecord
    subst hqrecord
    exact hbad.elim (fun hne => hne hrevision) fun hne => hne hcrc.symm
  intro hbinds
  rw [not_or, not_not, not_not] at hbinds
  have hrecord : p.record = record := by
    rw [CommitRecord.mk.injEq]
    exact ⟨hbinds.1.trans hrevision.symm, hlsn, hcrc.trans hbinds.2⟩
  rcases hcommit : state.commits[frame.revision]? with _ | existing
  · have hnew : ∀ c ∈ log.committed, c.descriptor.targetRevision ≠ record.targetRevision := by
      intro c hc heq
      rw [(h.commit_iff frame.revision c.record).mpr ⟨heq.trans hrevision, c, hc, rfl⟩] at hcommit
      cases hcommit
    have hfresh : ¬ log.Repeats record := by
      rintro ⟨c, hc, rfl⟩
      exact hnew c hc rfl
    have hstarts : log.Allows (.commit frame.lsn record) → log.Starts record p := by
      rintro ⟨q, hq, hqrecord, hcase⟩
      rw [hunique q hq hqrecord] at hcase
      exact hcase.resolve_left hfresh
    apply Decides.guard
    · intro hallowed hne
      exact hne ((hstarts hallowed).2.1.trans h.head.symm)
    intro hsource
    apply Decides.guard
    · intro hallowed heq
      exact (hstarts hallowed).2.2 heq
    intro hadvances
    have hstarts : log.Starts record p := ⟨hnew, (not_not.mp hsource).trans h.head, hadvances⟩
    refine .ok ⟨p, hp, hrecord, .inr hstarts⟩ ?_
    show Represents _ (log.addCommit frame.lsn record)
    rcases Log.addCommit_cases frame.lsn h.wellFormed.compatible hp hrecord (.inr hstarts) with
      ⟨hrepeats, _⟩ | ⟨_, heq⟩
    · exact absurd hrepeats hfresh
    · rw [heq]
      exact h.publish hp hrecord hrevision howner hstarts
  · obtain ⟨htarget, hexisting⟩ := (h.commit_iff _ _).mp hcommit
    apply Decides.guard
    · rintro ⟨q, hq, hqrecord, hcase⟩ hne
      obtain ⟨c, hc, hcrecord⟩ := hexisting
      rcases hcase with hrepeats | hstarts
      · exact hne (Option.some.inj (hcommit.symm.trans
          ((h.commit_iff _ _).mpr ⟨hrevision, hrepeats⟩)))
      · apply hstarts.1 c hc
        rw [hrevision, ← htarget, ← hcrecord]
        rfl
    · intro hsame
      rw [not_not] at hsame
      subst hsame
      refine .ok ⟨p, hp, hrecord, .inl hexisting⟩ ?_
      show Represents _ (log.addCommit frame.lsn existing)
      have hmem : existing ∈ log.committed.map (·.record) := mem_map.mpr hexisting
      rw [Log.addCommit, if_pos hmem]
      exact h

theorem Represents.addSeal {record : IntentSealRecord}
    (hallowed : log.Allows (.intentSeal record))
    {seals : ExtTreeMap DurableTransactionKey DurableCommittedTransaction}
    (hseals : ∀ key committed, seals[key]? = some committed ↔
      { key, committed } ∈ log.seals ++ [record]) :
    Represents { state with sealedTransactions := seals }
      { log with seals := log.seals ++ [record] } :=
  { h with
    wellFormed := h.wellFormed.addSeal hallowed
    indexed := ⟨h.indexed.target, h.indexed.key⟩
    sealed_iff := hseals }

theorem acceptIntentSeal_decides (hkind : frame.kind = .sealClientIntent) :
    Decides (state.acceptIntentSeal frame) (log.AllowsFrame frame) (Follows log frame) := by
  unfold acceptIntentSeal
  rcases hdecode : decodeIntentSealPayload frame.payload with reason | record
  · exact .error (Log.not_allowsFrame (by
      simp [ofFrame, hkind, hdecode, Except.toOption]))
  show Decides (if record.committed.targetRevision ≠ frame.revision then _ else _) _ _
  by_cases hrevision : record.committed.targetRevision = frame.revision
  · rw [if_neg (not_not_intro hrevision)]
    refine Log.decides_frame (e := .intentSeal record)
      (by simp [ofFrame, hkind, hdecode, Except.toOption, hrevision]) ?_
    apply Decides.guard
    · rintro ⟨hhead, _⟩ hne
      exact hne (hrevision.symm.trans (hhead.trans h.head.symm))
    intro hhead
    apply Decides.guard
    · rintro ⟨_, hfree, _⟩ hmem
      obtain ⟨c, hc, hkey⟩ := (h.committedKey_iff _).mp hmem
      obtain ⟨p, hp, hpc⟩ := h.wellFormed.prepare_of_committed hc
      exact hfree p hp (by rw [hpc, hkey])
    intro _
    apply Decides.guard
    · rintro ⟨_, hfree, _⟩ hmem
      obtain ⟨p, hp, hkey⟩ := h.prepared_iff.mp hmem
      exact hfree p hp hkey
    intro hnew
    have hallowed : (∀ s ∈ log.seals, s.key = record.key → s = record) →
        log.Allows (.intentSeal record) := by
      refine fun hseals => ⟨(hrevision.trans (not_not.mp hhead)).trans h.head, ?_, hseals⟩
      exact fun p hp hkey => hnew (h.prepared_iff.mpr ⟨p, hp, hkey⟩)
    rcases hsealed : state.sealedTransactions[record.key]? with _ | existing
    · have hfree := h.seal_ne hsealed
      have hallowed := hallowed fun s hs heq => absurd heq (hfree s hs)
      refine .ok hallowed (h.addSeal hallowed ?_)
      intro key committed
      rw [getElem?_insert_eq_some, mem_append, mem_singleton, h.sealed_iff]
      constructor
      · rintro (⟨rfl, rfl⟩ | ⟨_, hs⟩)
        · exact .inr rfl
        · exact .inl hs
      · rintro (hs | hs)
        · exact .inr ⟨fun heq => hfree _ hs heq.symm, hs⟩
        · rw [← hs]
          exact .inl ⟨rfl, rfl⟩
    · have hexisting := (h.sealed_iff _ _).mp hsealed
      apply Decides.guard
      · rintro ⟨_, _, honce⟩ hne
        exact hne (congrArg IntentSealRecord.committed (honce _ hexisting rfl))
      intro hsame
      rw [not_not] at hsame
      subst hsame
      have hallowed := hallowed fun s hs heq => h.wellFormed.sealedOnce s hs _ hexisting heq
      refine .ok hallowed (h.addSeal hallowed ?_)
      simpa only [mem_concat_of_mem hexisting] using h.sealed_iff
  · rw [if_pos hrevision]
    exact .error (Log.not_allowsFrame (by
      simp [ofFrame, hkind, hdecode, Except.toOption, hrevision]))

theorem acceptAuthority_decides (hkind : frame.kind = .replicationAuthority) :
    Decides (state.acceptAuthority frame) (log.AllowsFrame frame) (Follows log frame) := by
  unfold acceptAuthority
  by_cases hrevision : frame.revision = 0
  · rw [if_neg (not_not_intro hrevision)]
    refine Log.decides_frame (e := .authority frame.payload)
      (by simp [ofFrame, hkind, hrevision]) ?_
    refine .ok trivial ?_
    exact { h with
            wellFormed := h.wellFormed.apply (e := .authority frame.payload) trivial
            indexed := ⟨h.indexed.target, h.indexed.key⟩
            authority := congrArg (· ++ [frame.payload]) h.authority }
  · rw [if_pos hrevision]
    exact .error (Log.not_allowsFrame (by simp [ofFrame, hkind, hrevision]))

theorem accept_decides (frame : DecodedFrame) :
    Decides (state.accept frame) (log.AllowsFrame frame) (Follows log frame) := by
  unfold accept
  split
  · exact acceptPrepare_decides h ‹_›
  · exact acceptCommit_decides h ‹_›
  · exact acceptIntentSeal_decides h ‹_›
  · exact acceptAuthority_decides h ‹_›

end

end

end Cfmd.Durability
