import Cfmd.Durability.LogRefinement

/-! What `finish` reports is the log: its commits, its transactions and the
prepares that no commit took. -/

namespace Cfmd.Durability
open Std Lib List Fallible

variable [PayloadCodec]

structure Recovers (log : Log) (scan : RecoveryScan) : Prop where
  base : scan.baseRevision = log.base
  committed : scan.committed = log.committed
  unresolved_iff : ∀ p, p ∈ scan.unresolvedPrepares ↔
    p ∈ log.prepares ∧ ∀ c ∈ log.committed, c.descriptor ≠ p.descriptor
  unresolved_sorted : scan.unresolvedPrepares.Pairwise fun p q => p.lsn < q.lsn
  transaction_iff : ∀ key committed, scan.committedTransactions[key]? = some committed ↔
    (∃ c ∈ log.committed, c.descriptor.key = key ∧
      .fromDescriptorIntent c.descriptor.targetRevision c.descriptor.intent = committed) ∨
    { key, committed } ∈ log.seals
  authority : scan.replicationAuthorityFrames = log.authority

section
variable {state : ScanState} {log : Log}

theorem Represents.owner_committed_iff (h : Represents state log) {owner : ℕ}
    {d : DurableRevisionDescriptor} (howner : state.prepareOwners[owner]? = some d) :
    owner ∈ state.committed.map (·.prepareOwner) ↔ ∃ c ∈ log.committed, c.descriptor = d := by
  constructor
  · intro hmem
    obtain ⟨s, hs, rfl⟩ := mem_map.mp hmem
    obtain ⟨c, hc, hsc⟩ := forall₂_exists_right h.committed hs
    exact ⟨c, hc, Option.some.inj (hsc.descriptor.symm.trans howner)⟩
  · rintro ⟨c, hc, rfl⟩
    obtain ⟨s, hs, hsc⟩ := forall₂_exists_left h.committed hc
    have heq := (h.indexed.target.eq_of_key hsc.descriptor howner rfl).1
    exact mem_map.mpr ⟨s, hs, heq⟩

theorem unresolvedPrepares_spec (h : Represents state log) :
    ∃ unresolved, state.unresolvedPrepares = .ok unresolved ∧
      (∀ p, p ∈ unresolved ↔ p ∈ log.prepares ∧ ∀ c ∈ log.committed, c.descriptor ≠ p.descriptor) ∧
      unresolved.Pairwise fun p q => p.lsn < q.lsn := by
  have hlisted : ∀ lsn owner crc, (lsn, owner, crc) ∈ state.preparesByLsn.toList ↔
      ∃ p ∈ log.prepares, p.lsn = lsn ∧ p.payloadCrc = crc ∧
        state.prepareOwners[owner]? = some p.descriptor := by
    intro lsn owner crc
    rw [ExtTreeMap.mem_toList_iff_getElem?_eq_some, h.lsn_iff]
  have hread : ∀ lsn owner crc p, p.lsn = lsn → p.payloadCrc = crc →
      state.prepareOwners[owner]? = some p.descriptor →
      (do return { lsn, descriptor := ← state.ownerDescriptor owner, payloadCrc := crc } :
        Scanned LoggedPrepare) = .ok p := by
    rintro lsn owner crc p rfl rfl howner
    rw [ScanState.ownerDescriptor_eq howner]
    rfl
  obtain ⟨unresolved, hunresolved⟩ : ∃ unresolved, state.unresolvedPrepares = .ok unresolved := by
    apply (exists_mapM _).mpr
    rintro ⟨lsn, owner, crc⟩ hentry
    obtain ⟨p, _, hlsn, hcrc, howner⟩ := (hlisted ..).mp (mem_filter.mp hentry).1
    exact ⟨p, hread lsn owner crc p hlsn hcrc howner⟩
  refine ⟨unresolved, hunresolved, ?_, ?_⟩
  · intro p
    rw [mem_of_mapM hunresolved]
    constructor
    · rintro ⟨⟨lsn, owner, crc⟩, hentry, heq⟩
      obtain ⟨hmem, hfree⟩ := mem_filter.mp hentry
      obtain ⟨q, hq, hlsn, hcrc, howner⟩ := (hlisted ..).mp hmem
      rw [hread lsn owner crc q hlsn hcrc howner, Except.ok.injEq] at heq
      subst heq
      refine ⟨hq, fun c hc heq => ?_⟩
      exact of_decide_eq_true hfree ((h.owner_committed_iff howner).mpr ⟨c, hc, heq⟩)
    · rintro ⟨hp, hfree⟩
      obtain ⟨owner, howner⟩ := mem_iff_getElem?.mp (h.mem_owners hp)
      refine ⟨(p.lsn, owner, p.payloadCrc), mem_filter.mpr ⟨?_, ?_⟩, hread _ _ _ p rfl rfl howner⟩
      · exact (hlisted ..).mpr ⟨p, hp, rfl, rfl, howner⟩
      · apply decide_eq_true
        rw [h.owner_committed_iff howner]
        rintro ⟨c, hc, heq⟩
        exact hfree c hc heq
  · -- the entries come in LSN order, and an entry keeps its LSN
    have hlsns := map_of_mapM (g := LoggedPrepare.lsn) (k := Prod.fst) hunresolved <| by
      rintro ⟨lsn, owner, crc⟩ p heq
      obtain ⟨d, _, heq⟩ := bind_eq_ok.mp heq
      cases heq
      rfl
    rw [← pairwise_map (R := (· < ·)), hlsns, pairwise_map]
    apply List.Pairwise.filter
    apply (ExtTreeMap.ordered_keys_toList (t := state.preparesByLsn)).imp
    intro a b hlt
    exact Std.compare_eq_lt.mp hlt

end

/-! ### Publication -/

/-- What has been published of the commits already visited. -/
structure Publishing (owners : List DurableRevisionDescriptor) (done : List CommittedRevision)
    (published : ScanState.Published) : Prop where
  owners : ∀ (i : ℕ) d, owners[i]? = some d → (∀ c ∈ done, c.descriptor ≠ d) →
    published.owners[i]? = some (some d)
  committed : published.committed = done
  transaction_iff : ∀ key committed, published.transactions[key]? = some committed ↔
    ∃ c ∈ done, c.descriptor.key = key ∧
      .fromDescriptorIntent c.descriptor.targetRevision c.descriptor.intent = committed

section
variable {owners : List DurableRevisionDescriptor} {done : List CommittedRevision}
  {published : ScanState.Published}
  {transactions : ExtTreeMap DurableTransactionKey DurableCommittedTransaction}

theorem insertTransaction_eq {key : DurableTransactionKey}
    {committed : DurableCommittedTransaction} (h : ∀ t, transactions[key]? ≠ some t) :
    ScanState.insertTransaction key committed transactions =
      .ok (transactions.insert key committed) := by
  rw [ScanState.insertTransaction, if_neg]
  rw [← ExtTreeMap.isSome_getElem?_iff_mem, Option.isSome_iff_exists]
  rintro ⟨t, ht⟩
  exact h t ht

theorem Publishing.step (h : Publishing owners done published) {s : ScanCommittedRevision}
    {c : CommittedRevision} (hs : StandsFor owners s c)
    (hnew : ∀ c' ∈ done, c'.descriptor ≠ c.descriptor ∧ c'.descriptor.key ≠ c.descriptor.key) :
    ∃ published', ScanState.publishRevision published s = .ok published' ∧
      Publishing owners (done ++ [c]) published' := by
  have hslot := h.owners _ _ hs.descriptor fun c' hc' => (hnew c' hc').1
  have hkey : ∀ t, published.transactions[c.descriptor.key]? ≠ some t := by
    intro t ht
    obtain ⟨c', hc', heq, _⟩ := (h.transaction_iff _ _).mp ht
    exact (hnew c' hc').2 heq
  have hstep : ScanState.publishRevision published s = .ok
      { owners := published.owners.set s.prepareOwner none
        committed := published.committed ++
          [{ descriptor := c.descriptor, prepareLsn := s.prepareLsn
             preparePayloadCrc32c := s.preparePayloadCrc32c, commitLsn := s.commitLsn }]
        transactions := published.transactions.insert c.descriptor.key
          (.fromDescriptorIntent c.descriptor.targetRevision c.descriptor.intent) } := by
    rw [ScanState.publishRevision, hslot, expect_some, ok_bind,
      expect_some, ok_bind, insertTransaction_eq hkey, ok_bind]
    rfl
  refine ⟨_, hstep, ?_⟩
  · constructor
    · intro i d hi hfree
      have hne : s.prepareOwner ≠ i := by
        rintro rfl
        apply hfree c (mem_append_right _ mem_cons_self)
        exact Option.some.inj (hs.descriptor.symm.trans hi)
      rw [getElem?_set_ne hne]
      exact h.owners i d hi fun c' hc' => hfree c' (mem_append_left _ hc')
    · rw [h.committed, hs.prepareLsn, hs.preparePayloadCrc32c, hs.commitLsn]
    · intro key committed
      rw [getElem?_insert_eq_some, h.transaction_iff]
      constructor
      · rintro (⟨rfl, rfl⟩ | ⟨_, c', hc', hrest⟩)
        · exact ⟨c, mem_append_right _ mem_cons_self, rfl, rfl⟩
        · exact ⟨c', mem_append_left _ hc', hrest⟩
      · rintro ⟨c', hc', rfl, rfl⟩
        rcases mem_append.mp hc' with hc' | hc'
        · exact .inr ⟨(hnew c' hc').2.symm, c', hc', rfl, rfl⟩
        · rw [mem_singleton.mp hc']
          exact .inl ⟨rfl, rfl⟩

theorem Publishing.run {ss : List ScanCommittedRevision} {cs : List CommittedRevision}
    (h : Publishing owners done published) (hs : Forall₂ (StandsFor owners) ss cs)
    (htargets : ((done ++ cs).map (·.descriptor.targetRevision)).Nodup)
    (hkeys : ((done ++ cs).map (·.descriptor.key)).Nodup) :
    ∃ published', ss.foldlM ScanState.publishRevision published = .ok published' ∧
      Publishing owners (done ++ cs) published' := by
  induction hs generalizing done published with
  | nil => exact ⟨published, rfl, by rwa [append_nil]⟩
  | @cons s c ss cs hsc _ ih =>
    have hnew : ∀ c' ∈ done, c'.descriptor ≠ c.descriptor ∧
        c'.descriptor.key ≠ c.descriptor.key := by
      intro c' hc'
      rw [map_append, nodup_append] at htargets hkeys
      refine ⟨fun heq => ?_, fun heq => ?_⟩
      · exact htargets.2.2 _ (mem_map_of_mem hc') _ mem_cons_self (by rw [heq])
      · exact hkeys.2.2 _ (mem_map_of_mem hc') _ mem_cons_self heq
    obtain ⟨published', hstep, hpublished'⟩ := h.step hsc hnew
    have happend : done ++ c :: cs = (done ++ [c]) ++ cs := by simp
    rw [happend] at htargets hkeys ⊢
    obtain ⟨published'', hrun, hpublished''⟩ := ih hpublished' htargets hkeys
    refine ⟨published'', ?_, hpublished''⟩
    rw [foldlM_cons, hstep]
    exact hrun

theorem Publishing.start (owners : List DurableRevisionDescriptor) :
    Publishing owners [] { owners := owners.map some, committed := [], transactions := ∅ } where
  owners := by
    intro i d hi _
    rw [getElem?_map, hi]
    rfl
  committed := rfl
  transaction_iff := by simp

theorem foldlM_insertTransaction
    (entries : List (DurableTransactionKey × DurableCommittedTransaction))
    (hnodup : (entries.map Prod.fst).Nodup)
    (hnew : ∀ entry ∈ entries, ∀ t, transactions[entry.1]? ≠ some t) :
    ∃ all, entries.foldlM (fun transactions entry =>
        ScanState.insertTransaction entry.1 entry.2 transactions) transactions = .ok all ∧
      ∀ key committed, all[key]? = some committed ↔
        transactions[key]? = some committed ∨ (key, committed) ∈ entries := by
  induction entries generalizing transactions with
  | nil => exact ⟨transactions, rfl, by simp⟩
  | cons entry entries ih =>
    rw [map_cons, nodup_cons] at hnodup
    rw [forall_mem_cons] at hnew
    have hrest : ∀ e ∈ entries, ∀ t, (transactions.insert entry.1 entry.2)[e.1]? ≠ some t := by
      intro e he t ht
      rcases getElem?_insert_eq_some.mp ht with ⟨heq, _⟩ | ⟨_, ht⟩
      · exact hnodup.1 (heq ▸ mem_map_of_mem he)
      · exact hnew.2 e he t ht
    obtain ⟨all, hall, hiff⟩ := ih hnodup.2 hrest
    refine ⟨all, ?_, ?_⟩
    · rw [foldlM_cons, insertTransaction_eq hnew.1]
      exact hall
    · intro key committed
      rw [hiff, getElem?_insert_eq_some, mem_cons]
      grind

end

theorem finish_recovers {state : ScanState} {log : Log} (h : Represents state log) (offset : ℕ)
    (lsn : UInt64) (tail : TailStatus) :
    ∃ scan, state.finish offset lsn tail = .ok scan ∧ Recovers log scan ∧
      scan.lastGoodOffset = offset ∧ scan.nextLsn = lsn ∧ scan.tailStatus = tail := by
  obtain ⟨unresolved, hunresolved, hiff, hsorted⟩ := unresolvedPrepares_spec h
  obtain ⟨published, hpublished, hdone⟩ := (Publishing.start state.prepareOwners).run h.committed
    (by simpa using h.wellFormed.targets) (by simpa using h.wellFormed.keys_nodup)
  rw [nil_append] at hdone
  obtain ⟨transactions, htransactions, htransaction⟩ :=
    foldlM_insertTransaction state.sealedTransactions.toList (nodup_fst_toList _) (by
        rintro ⟨key, committed⟩ hentry t ht
        rw [ExtTreeMap.mem_toList_iff_getElem?_eq_some, h.sealed_iff] at hentry
        obtain ⟨c, hc, hkey, _⟩ := (hdone.transaction_iff _ _).mp ht
        obtain ⟨p, hp, hpc⟩ := h.wellFormed.prepare_of_committed hc
        exact h.wellFormed.sealedNotPrepared _ hentry p hp (by rw [hpc, hkey]))
  have hfinish : state.finish offset lsn tail = .ok
      { baseRevision := state.baseRevision, committed := published.committed
        lastGoodOffset := offset, nextLsn := lsn, tailStatus := tail
        committedTransactions := transactions, unresolvedPrepares := unresolved
        replicationAuthorityFrames := state.replicationAuthorityFrames } := by
    rw [ScanState.finish, hunresolved, ok_bind, hpublished, ok_bind, htransactions]
    rfl
  refine ⟨_, hfinish, ?_, rfl, rfl, rfl⟩
  · exact
      { base := h.base
        committed := hdone.committed
        unresolved_iff := hiff
        unresolved_sorted := hsorted
        transaction_iff := by
          intro key committed
          rw [htransaction, hdone.transaction_iff, ExtTreeMap.mem_toList_iff_getElem?_eq_some,
            h.sealed_iff]
        authority := h.authority }

end Cfmd.Durability
