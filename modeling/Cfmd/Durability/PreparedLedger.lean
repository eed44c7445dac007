import Cfmd.Durability.FileWal
import Cfmd.Lib.Postings

/-! The ledger of prepared transactions. One prepare may be stored under several LSNs; the
two indices lead from its retry key and from its target revision back to it. In every run of
the store's operations the indices find exactly what is stored. -/

namespace Cfmd.Durability
open Std Lib Option

section
variable [PayloadCodec]

structure PreparedTransactionEntry where
  descriptor : DurableRevisionDescriptor
  payloadCrc32c : UInt32
  commitCapable : Bool

structure PreparedTransactionLedger where
  byLsn : ExtTreeMap UInt64 PreparedTransactionEntry := ∅
  lsnsByRetryKey : ExtTreeMap DurableTransactionKey (ExtTreeSet UInt64) := ∅
  retryKeyByTargetRevision : ExtTreeMap RevisionId DurableTransactionKey := ∅

namespace PreparedTransactionLedger

/-- An entry put into the indices; `or_insert` keeps the key that is there. -/
def index (ledger : PreparedTransactionLedger) (lsn : UInt64)
    (descriptor : DurableRevisionDescriptor) : PreparedTransactionLedger where
  byLsn := ledger.byLsn
  lsnsByRetryKey := post ledger.lsnsByRetryKey descriptor.key lsn
  retryKeyByTargetRevision :=
    ledger.retryKeyByTargetRevision.insertIfNew descriptor.targetRevision descriptor.key

/-- What `insert_portable` and `insert_recovered` do. -/
def insertEntry (ledger : PreparedTransactionLedger) (commitCapable : Bool) (prepareLsn : UInt64)
    (descriptor : DurableRevisionDescriptor) (payloadCrc32c : UInt32) :
    PreparedTransactionLedger :=
  let ledger := ledger.index prepareLsn descriptor
  { ledger with byLsn := ledger.byLsn.insert prepareLsn ⟨descriptor, payloadCrc32c, commitCapable⟩ }

def insertPortable (ledger : PreparedTransactionLedger) := ledger.insertEntry true

def insertRecovered (ledger : PreparedTransactionLedger) := ledger.insertEntry false

def descriptorByLsn (ledger : PreparedTransactionLedger) (prepareLsn : UInt64) :
    Option DurableRevisionDescriptor :=
  ledger.byLsn[prepareLsn]?.map (·.descriptor)

def descriptorByRetryKey (ledger : PreparedTransactionLedger) (key : DurableTransactionKey) :
    Option DurableRevisionDescriptor :=
  (ledger.lsnsByRetryKey[key]?.bind (·.min?)).bind ledger.descriptorByLsn

def descriptorByTargetRevision (ledger : PreparedTransactionLedger) (targetRevision : RevisionId) :
    Option DurableRevisionDescriptor :=
  ledger.retryKeyByTargetRevision[targetRevision]?.bind ledger.descriptorByRetryKey

def publishPrepare (ledger : PreparedTransactionLedger) (token : DurablePrepareToken)
    (descriptor : DurableRevisionDescriptor) : PreparedTransactionLedger where
  byLsn := ledger.byLsn.insert token.prepareLsn ⟨descriptor, token.preparePayloadCrc32c, true⟩
  lsnsByRetryKey := post ledger.lsnsByRetryKey descriptor.key token.prepareLsn
  retryKeyByTargetRevision :=
    ledger.retryKeyByTargetRevision.insert descriptor.targetRevision descriptor.key

def retireCommitted (ledger : PreparedTransactionLedger) (prepareLsn : UInt64) :
    PreparedTransactionLedger :=
  match ledger.byLsn[prepareLsn]? with
  | none => ledger
  | some entry =>
    let key := entry.descriptor.key
    let targetRevision := entry.descriptor.targetRevision
    match ledger.lsnsByRetryKey[key]? with
    | none => ledger
    | some aliasLsns =>
      { byLsn := aliasLsns.toList.foldl (fun byLsn lsn => byLsn.erase lsn) ledger.byLsn
        lsnsByRetryKey := ledger.lsnsByRetryKey.erase key
        retryKeyByTargetRevision :=
          if ledger.retryKeyByTargetRevision[targetRevision]? = some key then
            ledger.retryKeyByTargetRevision.erase targetRevision
          else ledger.retryKeyByTargetRevision }

def rebuildIndices (ledger : PreparedTransactionLedger) : PreparedTransactionLedger :=
  ledger.byLsn.toList.foldl (fun ledger entry => ledger.index entry.1 entry.2.descriptor)
    { byLsn := ledger.byLsn }

def retainPublishedGeneration (ledger : PreparedTransactionLedger) (walFirstLsn : UInt64)
    (seededPrepareLsns : List UInt64) : PreparedTransactionLedger :=
  let seeded := ExtTreeSet.ofList seededPrepareLsns compare
  let byLsn := ledger.byLsn.filter fun lsn _ => lsn ≥ walFirstLsn || seeded.contains lsn
  rebuildIndices { ledger with byLsn }

def clear (_ : PreparedTransactionLedger) : PreparedTransactionLedger := {}

/-! ### What the indices say -/

variable {ledger : PreparedTransactionLedger} {lsn : UInt64}
  {descriptor : DurableRevisionDescriptor}

def Stores (ledger : PreparedTransactionLedger) (lsn : UInt64)
    (descriptor : DurableRevisionDescriptor) : Prop :=
  ∃ entry, ledger.byLsn[lsn]? = some entry ∧ entry.descriptor = descriptor

/-- Prepares of one key or one target are one prepare. -/
def Alone (ledger : PreparedTransactionLedger) (descriptor : DurableRevisionDescriptor) : Prop :=
  ∀ lsn stored, ledger.Stores lsn stored →
    stored.key = descriptor.key ∨ stored.targetRevision = descriptor.targetRevision →
      stored = descriptor

/-- The indices lead to what is stored and to nothing else. -/
structure Consistent (ledger : PreparedTransactionLedger) : Prop where
  lsns : ∀ key lsn, lsn ∈ ledger.lsnsByRetryKey.getD key ∅ ↔
    ∃ descriptor, ledger.Stores lsn descriptor ∧ descriptor.key = key
  targets : ∀ (revision : RevisionId) key, ledger.retryKeyByTargetRevision[revision]? = some key ↔
    ∃ lsn descriptor, ledger.Stores lsn descriptor ∧ descriptor.targetRevision = revision ∧
      descriptor.key = key
  alone : ∀ lsn descriptor, ledger.Stores lsn descriptor → ledger.Alone descriptor

theorem Stores.unique {stored : DurableRevisionDescriptor} (h : ledger.Stores lsn descriptor)
    (h' : ledger.Stores lsn stored) : stored = descriptor := by
  obtain ⟨entry, hentry, rfl⟩ := h
  obtain ⟨entry', hentry', rfl⟩ := h'
  rw [hentry, Option.some.injEq] at hentry'
  rw [hentry']

theorem descriptorByLsn_eq_some :
    ledger.descriptorByLsn lsn = some descriptor ↔ ledger.Stores lsn descriptor := by
  unfold descriptorByLsn Stores
  rw [map_eq_some_iff]

theorem Consistent.descriptorByRetryKey_eq_some (h : ledger.Consistent)
    {key : DurableTransactionKey} :
    ledger.descriptorByRetryKey key = some descriptor ↔
      ∃ lsn, ledger.Stores lsn descriptor ∧ descriptor.key = key := by
  unfold descriptorByRetryKey
  constructor
  · intro hfound
    obtain ⟨lsn, hlsn, hdescriptor⟩ := bind_eq_some_iff.mp hfound
    obtain ⟨lsns, hlsns, hmin⟩ := bind_eq_some_iff.mp hlsn
    have hmem : lsn ∈ ledger.lsnsByRetryKey.getD key ∅ := by
      rw [ExtTreeMap.getD_eq_getD_getElem?, hlsns]
      exact ExtTreeSet.min?_mem hmin
    obtain ⟨stored, hstored, hkey⟩ := (h.lsns key lsn).mp hmem
    have hstores := descriptorByLsn_eq_some.mp hdescriptor
    rw [hstores.unique hstored] at hkey
    exact ⟨lsn, hstores, hkey⟩
  · rintro ⟨lsn, hstores, hkey⟩
    have hmem := (h.lsns key lsn).mpr ⟨descriptor, hstores, hkey⟩
    rw [getElem?_of_mem_getD hmem, bind_some]
    -- the first alias may be another one, with the same descriptor
    cases hmin : (ledger.lsnsByRetryKey.getD key ∅).min? with
    | none =>
      rw [ExtTreeSet.min?_eq_none_iff.mp hmin] at hmem
      exact absurd hmem ExtTreeSet.not_mem_empty
    | some first =>
      obtain ⟨stored, hstored, hkey'⟩ := (h.lsns key first).mp (ExtTreeSet.min?_mem hmin)
      have heq : stored = descriptor :=
        h.alone lsn descriptor hstores first stored hstored (.inl (hkey'.trans hkey.symm))
      rw [bind_some, descriptorByLsn_eq_some, ← heq]
      exact hstored

theorem Consistent.descriptorByTargetRevision_eq_some (h : ledger.Consistent)
    {revision : RevisionId} :
    ledger.descriptorByTargetRevision revision = some descriptor ↔
      ∃ lsn, ledger.Stores lsn descriptor ∧ descriptor.targetRevision = revision := by
  unfold descriptorByTargetRevision
  rw [bind_eq_some_iff]
  constructor
  · rintro ⟨key, hkey, hfound⟩
    obtain ⟨lsn, hstores, rfl⟩ := h.descriptorByRetryKey_eq_some.mp hfound
    obtain ⟨lsn', stored, hstored, htarget, hkey'⟩ := (h.targets revision _).mp hkey
    have heq : stored = descriptor := h.alone lsn descriptor hstores lsn' stored hstored (.inl hkey')
    exact ⟨lsn, hstores, heq ▸ htarget⟩
  · rintro ⟨lsn, hstores, htarget⟩
    refine ⟨descriptor.key, (h.targets revision _).mpr ⟨lsn, descriptor, hstores, htarget, rfl⟩, ?_⟩
    exact h.descriptorByRetryKey_eq_some.mpr ⟨lsn, hstores, rfl⟩

/-! ### Additions -/

theorem Consistent.add (h : ledger.Consistent)
    (hlsn : ∀ stored, ledger.Stores lsn stored → stored = descriptor)
    (halone : ledger.Alone descriptor) {ledger' : PreparedTransactionLedger}
    {crc : UInt32} {commitCapable : Bool}
    (hentries : ledger'.byLsn = ledger.byLsn.insert lsn ⟨descriptor, crc, commitCapable⟩)
    (hlsns : ledger'.lsnsByRetryKey = post ledger.lsnsByRetryKey descriptor.key lsn)
    (htargets : ∀ (revision : RevisionId) key,
      ledger'.retryKeyByTargetRevision[revision]? = some key ↔
        (descriptor.targetRevision = revision ∧ descriptor.key = key) ∨
          ledger.retryKeyByTargetRevision[revision]? = some key) : ledger'.Consistent := by
  have hstores : ∀ lsn' stored, ledger'.Stores lsn' stored ↔
      (lsn = lsn' ∧ descriptor = stored) ∨ ledger.Stores lsn' stored := by
    intro lsn' stored
    unfold Stores
    rw [hentries]
    simp only [getElem?_insert_eq_some]
    constructor
    · rintro ⟨entry, ⟨rfl, rfl⟩ | ⟨_, hentry⟩, rfl⟩
      · exact .inl ⟨rfl, rfl⟩
      · exact .inr ⟨entry, hentry, rfl⟩
    · rintro (⟨rfl, rfl⟩ | ⟨entry, hentry, rfl⟩)
      · exact ⟨_, .inl ⟨rfl, rfl⟩, rfl⟩
      · by_cases heq : lsn = lsn'
        · subst heq
          exact ⟨_, .inl ⟨rfl, rfl⟩, (hlsn _ ⟨entry, hentry, rfl⟩).symm⟩
        · exact ⟨entry, .inr ⟨heq, hentry⟩, rfl⟩
  refine ⟨?_, ?_, ?_⟩
  · intro key lsn'
    rw [hlsns, mem_post, h.lsns]
    simp only [hstores]
    grind
  · intro revision key
    rw [htargets, h.targets]
    simp only [hstores]
    constructor
    · rintro (⟨rfl, rfl⟩ | ⟨lsn', stored, hstored, rfl, rfl⟩)
      · exact ⟨lsn, descriptor, .inl ⟨rfl, rfl⟩, rfl, rfl⟩
      · exact ⟨lsn', stored, .inr hstored, rfl, rfl⟩
    · rintro ⟨lsn', stored, ⟨rfl, rfl⟩ | hstored, rfl, rfl⟩
      · exact .inl ⟨rfl, rfl⟩
      · exact .inr ⟨lsn', stored, hstored, rfl, rfl⟩
  · intro lsn₁ first hfirst lsn₂ second hsecond hsame
    rcases (hstores _ _).mp hfirst with ⟨_, rfl⟩ | hfirst <;>
      rcases (hstores _ _).mp hsecond with ⟨_, rfl⟩ | hsecond
    · rfl
    · exact halone lsn₂ second hsecond hsame
    · exact (halone lsn₁ first hfirst (hsame.imp Eq.symm Eq.symm)).symm
    · exact h.alone lsn₁ first hfirst lsn₂ second hsecond hsame

theorem Consistent.insertEntry (h : ledger.Consistent) (commitCapable : Bool) (crc : UInt32)
    (hlsn : ∀ stored, ledger.Stores lsn stored → stored = descriptor)
    (halone : ledger.Alone descriptor) :
    (ledger.insertEntry commitCapable lsn descriptor crc).Consistent := by
  refine h.add hlsn halone rfl rfl ?_
  intro revision key
  apply getElem?_insertIfNew_eq_some
  -- a key that is there is the one of this prepare
  intro key hkey
  obtain ⟨lsn', stored, hstored, htarget, rfl⟩ := (h.targets _ _).mp hkey
  rw [halone lsn' stored hstored (.inr htarget)]

theorem Consistent.publishPrepare (h : ledger.Consistent) {token : DurablePrepareToken}
    (hlsn : ledger.byLsn[token.prepareLsn]? = none)
    (hfresh : ∀ lsn stored, ledger.Stores lsn stored →
      stored.key ≠ descriptor.key ∧ stored.targetRevision ≠ descriptor.targetRevision) :
    (ledger.publishPrepare token descriptor).Consistent := by
  have hnone : ∀ stored, ¬ ledger.Stores token.prepareLsn stored := by
    rintro stored ⟨entry, hentry, _⟩
    rw [hlsn] at hentry
    cases hentry
  refine h.add (fun stored hstored => absurd hstored (hnone stored)) ?_ rfl rfl ?_
  · intro lsn stored hstored hsame
    obtain ⟨hkey, htarget⟩ := hfresh lsn stored hstored
    exact (hsame.elim hkey htarget).elim
  · intro revision key
    show (ledger.retryKeyByTargetRevision.insert _ _)[revision]? = some key ↔ _
    rw [getElem?_insert_eq_some]
    apply or_congr_right
    rw [and_iff_right_iff_imp]
    rintro hold rfl
    obtain ⟨lsn, stored, hstored, htarget, _⟩ := (h.targets _ _).mp hold
    exact (hfresh lsn stored hstored).2 htarget

/-! ### Removals -/

section
variable (h : ledger.Consistent) (hstored : ledger.Stores lsn descriptor)
include h hstored

theorem Consistent.retireCommitted_eq :
    ledger.retireCommitted lsn =
      { byLsn := (ledger.lsnsByRetryKey.getD descriptor.key ∅).toList.foldl
          (fun byLsn lsn => byLsn.erase lsn) ledger.byLsn
        lsnsByRetryKey := ledger.lsnsByRetryKey.erase descriptor.key
        retryKeyByTargetRevision :=
          ledger.retryKeyByTargetRevision.erase descriptor.targetRevision } := by
  have hlsns := getElem?_of_mem_getD ((h.lsns descriptor.key lsn).mpr ⟨descriptor, hstored, rfl⟩)
  have htarget := (h.targets descriptor.targetRevision descriptor.key).mpr
    ⟨lsn, descriptor, hstored, rfl, rfl⟩
  obtain ⟨entry, hentry, rfl⟩ := hstored
  unfold PreparedTransactionLedger.retireCommitted
  simp only [hentry, hlsns, htarget, if_true]

theorem Consistent.byLsn_retireCommitted {lsn' : UInt64} {entry : PreparedTransactionEntry} :
    (ledger.retireCommitted lsn).byLsn[lsn']? = some entry ↔
      ledger.byLsn[lsn']? = some entry ∧ entry.descriptor.key ≠ descriptor.key := by
  rw [h.retireCommitted_eq hstored, getElem?_foldl_erase, ExtTreeSet.mem_toList, h.lsns, and_comm]
  apply and_congr_right
  intro hentry
  apply not_congr
  constructor
  · rintro ⟨stored, hstored', hkey⟩
    rw [← hkey, hstored'.unique ⟨entry, hentry, rfl⟩]
  · intro hkey
    exact ⟨entry.descriptor, ⟨entry, hentry, rfl⟩, hkey⟩

end

theorem Consistent.retireCommitted (h : ledger.Consistent) (lsn : UInt64) :
    (ledger.retireCommitted lsn).Consistent := by
  cases hfound : ledger.byLsn[lsn]? with
  | none =>
    have hsame : ledger.retireCommitted lsn = ledger := by
      unfold PreparedTransactionLedger.retireCommitted
      rw [hfound]
    rw [hsame]
    exact h
  | some found =>
    have hfound' : ledger.Stores lsn found.descriptor := ⟨found, hfound, rfl⟩
    have hstores : ∀ lsn' stored, (ledger.retireCommitted lsn).Stores lsn' stored ↔
        ledger.Stores lsn' stored ∧ stored.key ≠ found.descriptor.key := by
      intro lsn' stored
      unfold Stores
      simp only [h.byLsn_retireCommitted hfound']
      grind
    refine ⟨?_, ?_, ?_⟩
    · intro key lsn'
      rw [h.retireCommitted_eq hfound', mem_getD_erase, h.lsns, ← h.retireCommitted_eq hfound']
      simp only [hstores]
      grind
    · intro revision key
      rw [h.retireCommitted_eq hfound', getElem?_erase_eq_some, h.targets,
        ← h.retireCommitted_eq hfound']
      simp only [hstores]
      -- a prepare has the key of the one retired just when it has its target
      constructor
      · rintro ⟨hne, lsn', stored, hstored, rfl, rfl⟩
        refine ⟨lsn', stored, ⟨hstored, fun hkey => hne ?_⟩, rfl, rfl⟩
        rw [h.alone lsn _ hfound' lsn' stored hstored (.inl hkey)]
      · rintro ⟨lsn', stored, ⟨hstored, hne⟩, rfl, rfl⟩
        refine ⟨fun htarget => hne ?_, lsn', stored, hstored, rfl, rfl⟩
        rw [h.alone lsn _ hfound' lsn' stored hstored (.inr htarget.symm)]
    · intro lsn' stored hstored lsn'' stored' hstored'
      rw [hstores] at hstored hstored'
      exact h.alone lsn' stored hstored.1 lsn'' stored' hstored'.1

theorem byLsn_rebuildIndices : ledger.rebuildIndices.byLsn = ledger.byLsn := by
  refine foldl_inv (I := fun rebuilt : PreparedTransactionLedger =>
    rebuilt.byLsn = ledger.byLsn) _ ?_ rfl
  intro rebuilt entry _ hsame
  exact hsame

theorem exists_mem_toList_iff {P : UInt64 → DurableRevisionDescriptor → Prop} :
    (∃ entry ∈ ledger.byLsn.toList, P entry.1 entry.2.descriptor) ↔
      ∃ lsn descriptor, ledger.Stores lsn descriptor ∧ P lsn descriptor := by
  constructor
  · rintro ⟨⟨lsn, entry⟩, hmem, hP⟩
    exact ⟨lsn, _, ⟨entry, ExtTreeMap.mem_toList_iff_getElem?_eq_some.mp hmem, rfl⟩, hP⟩
  · rintro ⟨lsn, _, ⟨entry, hentry, rfl⟩, hP⟩
    exact ⟨(lsn, entry), ExtTreeMap.mem_toList_iff_getElem?_eq_some.mpr hentry, hP⟩

section
variable (halone : ∀ lsn descriptor, ledger.Stores lsn descriptor → ledger.Alone descriptor)
include halone

theorem targets_rebuildIndices (revision : RevisionId) (key : DurableTransactionKey) :
    ledger.rebuildIndices.retryKeyByTargetRevision[revision]? = some key ↔
      ∃ lsn descriptor, ledger.Stores lsn descriptor ∧ descriptor.targetRevision = revision ∧
        descriptor.key = key := by
  -- what the loop has found so far is stored, so that the key it keeps is the one it meets
  have hkept : ∀ (rebuilt : PreparedTransactionLedger), ∀ entry ∈ ledger.byLsn.toList,
      (∀ (r : RevisionId) k, rebuilt.retryKeyByTargetRevision[r]? = some k →
        ∃ lsn descriptor, ledger.Stores lsn descriptor ∧ descriptor.targetRevision = r ∧
          descriptor.key = k) →
      ∀ (r : RevisionId) k,
        (rebuilt.index entry.1 entry.2.descriptor).retryKeyByTargetRevision[r]? = some k ↔
          (entry.2.descriptor.targetRevision = r ∧ entry.2.descriptor.key = k) ∨
            rebuilt.retryKeyByTargetRevision[r]? = some k := by
    intro rebuilt entry hentry hfound r k
    have hstored : ledger.Stores entry.1 entry.2.descriptor :=
      ⟨entry.2, ExtTreeMap.mem_toList_iff_getElem?_eq_some.mp hentry, rfl⟩
    apply getElem?_insertIfNew_eq_some
    intro k' hk'
    obtain ⟨lsn, descriptor, hstored', htarget, rfl⟩ := hfound _ _ hk'
    rw [halone _ _ hstored _ _ hstored' (.inr htarget)]
  have hadds := foldl_adds_of_inv
    (f := fun rebuilt (entry : UInt64 × PreparedTransactionEntry) =>
      PreparedTransactionLedger.index rebuilt entry.1 entry.2.descriptor)
    (V := fun rebuilt => rebuilt.retryKeyByTargetRevision[revision]? = some key)
    (s := { byLsn := ledger.byLsn }) ledger.byLsn.toList ?_ (fun rebuilt entry hentry hfound =>
      hkept rebuilt entry hentry hfound revision key) ?_
  · refine hadds.trans (Iff.trans (or_iff_left ?_) ?_)
    · simp
    · exact exists_mem_toList_iff (P := fun _ descriptor =>
        descriptor.targetRevision = revision ∧ descriptor.key = key)
  · intro rebuilt entry hentry hfound r k hk
    rcases (hkept rebuilt entry hentry hfound r k).mp hk with hnew | hk
    · exact ⟨entry.1, _, ⟨entry.2, ExtTreeMap.mem_toList_iff_getElem?_eq_some.mp hentry, rfl⟩, hnew⟩
    · exact hfound r k hk
  · intro r k hk
    simp at hk

theorem consistent_rebuildIndices : ledger.rebuildIndices.Consistent := by
  have hstores : ∀ lsn descriptor,
      ledger.rebuildIndices.Stores lsn descriptor ↔ ledger.Stores lsn descriptor := by
    intro lsn descriptor
    unfold Stores
    rw [byLsn_rebuildIndices]
  refine ⟨?_, ?_, ?_⟩
  · intro key lsn
    have hadds := foldl_adds
      (f := fun rebuilt (entry : UInt64 × PreparedTransactionEntry) =>
        PreparedTransactionLedger.index rebuilt entry.1 entry.2.descriptor)
      (V := fun rebuilt => lsn ∈ rebuilt.lsnsByRetryKey.getD key ∅)
      ledger.byLsn.toList (fun _ _ _ => mem_post) { byLsn := ledger.byLsn }
    refine hadds.trans (Iff.trans (or_iff_left ?_) ?_)
    · simp
    · refine (exists_mem_toList_iff (P := fun lsn' descriptor =>
        descriptor.key = key ∧ lsn' = lsn)).trans ?_
      grind
  · intro revision key
    simp only [hstores]
    exact targets_rebuildIndices halone revision key
  · intro lsn descriptor hstored lsn' stored hstored'
    rw [hstores] at hstored hstored'
    exact halone lsn descriptor hstored lsn' stored hstored'

end

theorem Consistent.retainPublishedGeneration (h : ledger.Consistent) (walFirstLsn : UInt64)
    (seeded : List UInt64) : (ledger.retainPublishedGeneration walFirstLsn seeded).Consistent := by
  apply consistent_rebuildIndices
  have hold : ∀ {lsn stored}, Stores { ledger with byLsn := ledger.byLsn.filter fun lsn _ =>
      lsn ≥ walFirstLsn || (ExtTreeSet.ofList seeded compare).contains lsn } lsn stored →
      ledger.Stores lsn stored := by
    rintro lsn stored ⟨entry, hentry, rfl⟩
    rw [ExtTreeMap.getElem?_filter', filter_eq_some_iff] at hentry
    exact ⟨entry, hentry.1, rfl⟩
  intro lsn descriptor hstored lsn' stored hstored'
  exact h.alone lsn descriptor (hold hstored) lsn' stored (hold hstored')

/-! ### Runs -/

inductive Operation
  | publishPrepare (token : DurablePrepareToken) (descriptor : DurableRevisionDescriptor)
  | insertPortable (prepareLsn : UInt64) (descriptor : DurableRevisionDescriptor)
      (payloadCrc32c : UInt32)
  | insertRecovered (prepareLsn : UInt64) (descriptor : DurableRevisionDescriptor)
      (payloadCrc32c : UInt32)
  | retireCommitted (prepareLsn : UInt64)
  | retainPublishedGeneration (walFirstLsn : UInt64) (seededPrepareLsns : List UInt64)
  | clear

def apply (ledger : PreparedTransactionLedger) : Operation → PreparedTransactionLedger
  | .publishPrepare token descriptor => ledger.publishPrepare token descriptor
  | .insertPortable lsn descriptor crc => ledger.insertPortable lsn descriptor crc
  | .insertRecovered lsn descriptor crc => ledger.insertRecovered lsn descriptor crc
  | .retireCommitted lsn => ledger.retireCommitted lsn
  | .retainPublishedGeneration walFirstLsn seeded =>
    ledger.retainPublishedGeneration walFirstLsn seeded
  | .clear => ledger.clear

/-- What the store sees to before an operation: a new prepare is fresh in its LSN, key and target;
a recovered one is the same as any other of its LSN, key or target. -/
def Issued (ledger : PreparedTransactionLedger) : Operation → Prop
  | .publishPrepare token descriptor => ledger.byLsn[token.prepareLsn]? = none ∧
      ∀ lsn stored, ledger.Stores lsn stored →
        stored.key ≠ descriptor.key ∧ stored.targetRevision ≠ descriptor.targetRevision
  | .insertPortable lsn descriptor _ =>
    (∀ stored, ledger.Stores lsn stored → stored = descriptor) ∧ ledger.Alone descriptor
  | .insertRecovered lsn descriptor _ =>
    (∀ stored, ledger.Stores lsn stored → stored = descriptor) ∧ ledger.Alone descriptor
  | _ => True

/-- The ledgers that operations of the store lead to. -/
inductive Run : PreparedTransactionLedger → Prop
  | start : Run {}
  | step {ledger : PreparedTransactionLedger} (o : Operation) : Run ledger →
      ledger.Issued o → Run (ledger.apply o)

theorem consistent_empty : ({} : PreparedTransactionLedger).Consistent := by
  have hnone : ∀ lsn descriptor, ¬ ({} : PreparedTransactionLedger).Stores lsn descriptor := by
    rintro lsn descriptor ⟨entry, hentry, _⟩
    simp at hentry
  refine ⟨?_, ?_, ?_⟩
  · intro key lsn
    simp [hnone]
  · intro revision key
    simp [hnone]
  · intro lsn descriptor hstored
    exact absurd hstored (hnone lsn descriptor)

theorem Consistent.apply (h : ledger.Consistent) {operation : Operation}
    (hissued : ledger.Issued operation) : (ledger.apply operation).Consistent := by
  cases operation with
  | publishPrepare token descriptor => exact h.publishPrepare hissued.1 hissued.2
  | insertPortable lsn descriptor crc => exact h.insertEntry true crc hissued.1 hissued.2
  | insertRecovered lsn descriptor crc => exact h.insertEntry false crc hissued.1 hissued.2
  | retireCommitted lsn => exact h.retireCommitted lsn
  | retainPublishedGeneration walFirstLsn seeded =>
    exact h.retainPublishedGeneration walFirstLsn seeded
  | clear => exact consistent_empty

theorem Run.consistent (h : Run ledger) : ledger.Consistent := by
  induction h with
  | start => exact consistent_empty
  | step _ _ hissued ih => exact ih.apply hissued

/-- In every run a key and a target find the prepare stored with them, and only that; a
committed prepare is removed with all its aliases and nothing else is. -/
theorem run_indices_exact (h : Run ledger) :
    (∀ key descriptor, ledger.descriptorByRetryKey key = some descriptor ↔
      ∃ lsn, ledger.Stores lsn descriptor ∧ descriptor.key = key) ∧
    (∀ revision descriptor, ledger.descriptorByTargetRevision revision = some descriptor ↔
      ∃ lsn, ledger.Stores lsn descriptor ∧ descriptor.targetRevision = revision) ∧
    ∀ lsn descriptor, ledger.Stores lsn descriptor →
      ∀ (lsn' : UInt64) (entry : PreparedTransactionEntry),
        (ledger.retireCommitted lsn).byLsn[lsn']? = some entry ↔
          ledger.byLsn[lsn']? = some entry ∧ entry.descriptor.key ≠ descriptor.key :=
  ⟨fun _ _ => h.consistent.descriptorByRetryKey_eq_some,
    fun _ _ => h.consistent.descriptorByTargetRevision_eq_some,
    fun _ _ hstored _ _ => h.consistent.byLsn_retireCommitted hstored⟩

end PreparedTransactionLedger

end

section
open PreparedTransactionLedger
attribute [local instance] emptyRelationCodec

/-- One step that was recovered under two LSNs. -/
def aliasedLedger : PreparedTransactionLedger :=
  (insertRecovered {} 1 (emptyStep 5 6 1) 0).insertRecovered 2 (emptyStep 5 6 1) 0

theorem run_indices_exact_of_aliases :
    Run aliasedLedger ∧
    aliasedLedger.descriptorByRetryKey (emptyStep 5 6 1).key = some (emptyStep 5 6 1) ∧
    aliasedLedger.descriptorByTargetRevision 6 = some (emptyStep 5 6 1) ∧
    ∀ entry, (aliasedLedger.retireCommitted 1).byLsn[(2 : UInt64)]? ≠ some entry := by
  have hfirst : ∀ lsn stored, (insertRecovered {} 1 (emptyStep 5 6 1) 0).Stores lsn stored →
      stored = emptyStep 5 6 1 := by
    rintro lsn stored ⟨entry, hentry, rfl⟩
    rcases getElem?_insert_eq_some.mp hentry with ⟨_, rfl⟩ | ⟨_, hnone⟩
    · rfl
    · simp [PreparedTransactionLedger.index] at hnone
  have hrun : Run aliasedLedger := by
    refine .step (.insertRecovered 2 _ 0) (.step (.insertRecovered 1 _ 0) .start ⟨?_, ?_⟩) ⟨?_, ?_⟩
    · rintro stored ⟨entry, hentry, rfl⟩
      simp at hentry
    · rintro lsn stored ⟨entry, hentry, rfl⟩
      simp at hentry
    · exact fun stored hstored => hfirst 2 stored hstored
    · exact fun lsn stored hstored _ => hfirst lsn stored hstored
  have hfound : aliasedLedger.byLsn[(2 : UInt64)]? = some ⟨emptyStep 5 6 1, 0, false⟩ :=
    getElem?_insert_eq_some.mpr (.inl ⟨rfl, rfl⟩)
  have hfirst' : aliasedLedger.byLsn[(1 : UInt64)]? = some ⟨emptyStep 5 6 1, 0, false⟩ :=
    getElem?_insert_eq_some.mpr (.inr ⟨by decide, getElem?_insert_eq_some.mpr (.inl ⟨rfl, rfl⟩)⟩)
  obtain ⟨hkeys, htargets, hretire⟩ := run_indices_exact hrun
  refine ⟨hrun, (hkeys _ _).mpr ⟨2, ⟨_, hfound, rfl⟩, rfl⟩,
    (htargets _ _).mpr ⟨2, ⟨_, hfound, rfl⟩, rfl⟩, ?_⟩
  intro entry hentry
  obtain ⟨hentry, hne⟩ := (hretire 1 _ ⟨_, hfirst', rfl⟩ 2 entry).mp hentry
  rw [hfound, Option.some.injEq] at hentry
  subst hentry
  exact hne rfl

end

end Cfmd.Durability
