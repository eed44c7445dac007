import Cfmd.Durability.FreshnessPreflight

/-! The external freshness authority: a signed record for each lineage, replaced by
compare-and-set. Whatever requests it serves in between, the cuts of a lineage only move
forward, so a store that recovers is not behind any cut acknowledged before. -/

namespace Cfmd.Durability
open Lib List

def FreshnessAuthorityState.lineageId : FreshnessAuthorityState → Bytes 32
  | durableCut cut => cut.storeId
  | volatileFence fence => fence.lineageId

structure SignedFreshnessAuthority where
  state : FreshnessAuthorityState
  signer : Bytes 32
  signature : Bytes 64
deriving DecidableEq

def SignedFreshnessAuthority.durableCut (record : SignedFreshnessAuthority) : Option FreshnessCut :=
  match record.state with
  | .durableCut cut => some cut
  | .volatileFence _ => none

/-- The hashes and the signing key, over messages that spell out the states. -/
structure FreshnessCrypto where
  recordDigest : SignedFreshnessAuthority → AuthorityDigest
  volatileFenceNonce : AuthorityDigest → AuthorityDigest → AuthorityDigest
  signer : Bytes 32
  sign : FreshnessAuthorityState → Bytes 64

inductive FreshnessWireRequest
  | read (storeId : Bytes 32)
  | compareAndSet (expectedRecord : Option AuthorityDigest) (next : FreshnessAuthorityState)
  | compareAndRebind (sourceStoreId : Bytes 32) (expectedSourceRecord : AuthorityDigest)
      (next : FreshnessAuthorityState)

inductive FreshnessWireResponse
  | none
  | record (record : SignedFreshnessAuthority)
  | casMismatch
  | rejected
deriving DecidableEq

/-! ### The server -/

def validCutExtension (current next : FreshnessCut) : Bool :=
  if current.storeId ≠ next.storeId ∨ next.generation < current.generation ∨
      followingGeneration current.generation < next.generation ∨
      next.trustRootEpoch < current.trustRootEpoch ∨
      next.deploymentPolicyEpoch < current.deploymentPolicyEpoch then false
  else if next.generation = current.generation then
    next.previousGeneration = current.previousGeneration ∧
      next.generationDigest = current.generationDigest ∧ current.walLsn ≤ next.walLsn ∧
      (next.walLsn ≠ current.walLsn ∨ next.walDigest = current.walDigest)
  else next.previousGeneration = some current.generationDigest

section
variable (crypto : FreshnessCrypto)

def validStateExtension (record : SignedFreshnessAuthority) (next : FreshnessAuthorityState) : Bool :=
  let digest := crypto.recordDigest record
  match record.state, next with
  | .durableCut current, .durableCut next => validCutExtension current next
  | .durableCut current, .volatileFence next =>
    next.lineageId = current.storeId ∧ next.predecessorRecordDigest = digest ∧
      next.sourceGenerationDigest = current.generationDigest ∧
      current.trustRootEpoch ≤ next.trustRootEpoch ∧
      current.deploymentPolicyEpoch ≤ next.deploymentPolicyEpoch ∧
      next.transitionNonce = crypto.volatileFenceNonce digest current.generationDigest
  | .volatileFence current, .durableCut next =>
    next.storeId = current.lineageId ∧
      next.previousGeneration = some current.sourceGenerationDigest ∧
      current.trustRootEpoch ≤ next.trustRootEpoch ∧
      current.deploymentPolicyEpoch ≤ next.deploymentPolicyEpoch
  | .volatileFence _, .volatileFence _ => false

/-- The files of the state directory, by the lineage in their name. -/
abbrev AuthorityRecords := Bytes 32 → Option SignedFreshnessAuthority

def signFreshnessAuthority (state : FreshnessAuthorityState) : SignedFreshnessAuthority :=
  ⟨state, crypto.signer, crypto.sign state⟩

variable (records : AuthorityRecords)

def persistRecord (record : SignedFreshnessAuthority) : AuthorityRecords :=
  Function.update records record.state.lineageId (some record)

def readRecord (lineageId : Bytes 32) : Except String (Option SignedFreshnessAuthority) :=
  match records lineageId with
  | none => .ok none
  | some record =>
    if record.state.lineageId ≠ lineageId then .error "freshness authority state record is corrupt"
    else .ok (some record)

/-- A lineage starts with a cut that has no predecessor. -/
def validSuccessor (next : FreshnessAuthorityState) : Option SignedFreshnessAuthority → Bool
  | some current => validStateExtension crypto current next
  | none => match next with
    | .durableCut cut => cut.previousGeneration.isNone
    | .volatileFence _ => false

def compareAndSet (expectedRecord : Option AuthorityDigest) (next : FreshnessAuthorityState) :
    Except String (FreshnessWireResponse × AuthorityRecords) := do
  let current ← readRecord records next.lineageId
  if current.map crypto.recordDigest ≠ expectedRecord then .ok (.casMismatch, records)
  else if validSuccessor crypto next current then
    let signed := signFreshnessAuthority crypto next
    .ok (.record signed, persistRecord records signed)
  else .ok (.rejected, records)

def compareAndRebind (sourceStoreId : Bytes 32) (expectedSourceRecord : AuthorityDigest) :
    FreshnessAuthorityState → Except String (FreshnessWireResponse × AuthorityRecords)
  | .volatileFence _ => .ok (.rejected, records)
  | .durableCut next =>
    if sourceStoreId = next.storeId then .ok (.rejected, records)
    else do
      if (← readRecord records next.storeId).isSome then .ok (.rejected, records)
      else match ← readRecord records sourceStoreId with
        | none => .error "freshness rebind source record is missing"
        | some source =>
          if crypto.recordDigest source ≠ expectedSourceRecord then .ok (.casMismatch, records)
          else match source.durableCut with
            | none => .ok (.rejected, records)
            | some cut =>
              if next.previousGeneration ≠ some cut.generationDigest ∨
                  next.trustRootEpoch < cut.trustRootEpoch ∨
                  next.deploymentPolicyEpoch < cut.deploymentPolicyEpoch then
                .ok (.rejected, records)
              else
                let signed := signFreshnessAuthority crypto (.durableCut next)
                .ok (.record signed,
                  Function.update (persistRecord records signed) sourceStoreId none)

def serveOne : FreshnessWireRequest → Except String (FreshnessWireResponse × AuthorityRecords)
  | .read storeId => do return ((← readRecord records storeId).elim .none .record, records)
  | .compareAndSet expected next => compareAndSet crypto records expected next
  | .compareAndRebind source expected next => compareAndRebind crypto records source expected next

/-- A request that fails leaves the records as they are. -/
def serveAll (requests : List FreshnessWireRequest) : AuthorityRecords :=
  requests.foldl (fun records request =>
    ((serveOne crypto records request).toOption.map (·.2)).getD records) records

end

/-! ### Cuts only move forward -/

/-- A later cut of a lineage: a later generation, or the same one with a WAL that is not
shorter. -/
structure FreshnessCut.Precedes (cut later : FreshnessCut) : Prop where
  storeId : later.storeId = cut.storeId
  trustRootEpoch : cut.trustRootEpoch ≤ later.trustRootEpoch
  deploymentPolicyEpoch : cut.deploymentPolicyEpoch ≤ later.deploymentPolicyEpoch
  generation : cut.generation ≤ later.generation
  wal : later.generation = cut.generation → later.previousGeneration = cut.previousGeneration ∧
    later.generationDigest = cut.generationDigest ∧ cut.walLsn ≤ later.walLsn ∧
    (later.walLsn = cut.walLsn → later.walDigest = cut.walDigest)

namespace FreshnessCut.Precedes
variable {cut later last : FreshnessCut}

theorem refl (cut : FreshnessCut) : cut.Precedes cut :=
  ⟨rfl, UInt64.le_refl _, UInt64.le_refl _, UInt64.le_refl _,
    fun _ => ⟨rfl, rfl, UInt64.le_refl _, fun _ => rfl⟩⟩

theorem trans (h : cut.Precedes later) (h' : later.Precedes last) : cut.Precedes last where
  storeId := h'.storeId.trans h.storeId
  trustRootEpoch := UInt64.le_trans h.trustRootEpoch h'.trustRootEpoch
  deploymentPolicyEpoch := UInt64.le_trans h.deploymentPolicyEpoch h'.deploymentPolicyEpoch
  generation := UInt64.le_trans h.generation h'.generation
  wal heq := by
    have hmid : later.generation = cut.generation :=
      UInt64.le_antisymm (heq ▸ h'.generation) h.generation
    obtain ⟨hprevious, hdigest, hlsn, hwal⟩ := h.wal hmid
    obtain ⟨hprevious', hdigest', hlsn', hwal'⟩ := h'.wal (heq.trans hmid.symm)
    refine ⟨hprevious'.trans hprevious, hdigest'.trans hdigest, UInt64.le_trans hlsn hlsn', ?_⟩
    intro hsame
    have hmid : later.walLsn = cut.walLsn := UInt64.le_antisymm (hsame ▸ hlsn') hlsn
    exact (hwal' (hsame.trans hmid.symm)).trans (hwal hmid)

theorem antisymm (h : cut.Precedes later) (h' : later.Precedes cut) : later = cut := by
  have hgeneration := UInt64.le_antisymm h'.generation h.generation
  obtain ⟨hprevious, hdigest, hlsn, hwal⟩ := h.wal hgeneration
  have hlsn := UInt64.le_antisymm (h'.wal hgeneration.symm).2.2.1 hlsn
  have htrust := UInt64.le_antisymm h'.trustRootEpoch h.trustRootEpoch
  have hpolicy := UInt64.le_antisymm h'.deploymentPolicyEpoch h.deploymentPolicyEpoch
  have hstore := h.storeId
  cases cut
  cases later
  simp_all

end FreshnessCut.Precedes

theorem precedes_of_validCutExtension {current next : FreshnessCut}
    (h : validCutExtension current next) : current.Precedes next := by
  unfold validCutExtension at h
  split at h
  · cases h
  rename_i hrefused
  simp only [not_or, UInt64.not_lt, ne_eq, not_not] at hrefused
  obtain ⟨hstore, hgeneration, -, htrust, hpolicy⟩ := hrefused
  refine ⟨hstore.symm, htrust, hpolicy, hgeneration, fun heq => ?_⟩
  rw [if_pos heq] at h
  obtain ⟨hprevious, hdigest, hlsn, hwal⟩ := of_decide_eq_true h
  exact ⟨hprevious, hdigest, hlsn, fun heq => hwal.resolve_left (not_not.mpr heq)⟩

section
variable {crypto : FreshnessCrypto} {records records' : AuthorityRecords} {lineageId : Bytes 32}
  {record signed : SignedFreshnessAuthority} {cut : FreshnessCut} {answer : FreshnessWireResponse}
  {next : FreshnessAuthorityState} {requests : List FreshnessWireRequest}

/-- The cut that the lineage is at, unless it has no record or is fenced. -/
def heldCut (records : AuthorityRecords) (lineageId : Bytes 32) : Option FreshnessCut :=
  (records lineageId).bind (·.durableCut)

/-- The lineage is at a cut that does not come before this one. -/
def AtOrAfter (records : AuthorityRecords) (lineageId : Bytes 32) (cut : FreshnessCut) : Prop :=
  ∃ later, heldCut records lineageId = some later ∧ cut.Precedes later

theorem durableCut_eq_some : record.durableCut = some cut ↔ record.state = .durableCut cut := by
  unfold SignedFreshnessAuthority.durableCut
  split
  · rename_i h
    rw [h, Option.some.injEq, FreshnessAuthorityState.durableCut.injEq]
  · rename_i h
    rw [h]
    exact ⟨nofun, nofun⟩

theorem heldCut_of_eq (h : records' lineageId = records lineageId) :
    heldCut records' lineageId = heldCut records lineageId := congrArg (Option.bind · _) h

theorem persistRecord_self :
    persistRecord records (signFreshnessAuthority crypto next) next.lineageId =
      some (signFreshnessAuthority crypto next) := Function.update_self _ _ _

theorem persistRecord_of_ne (h : next.lineageId ≠ lineageId) :
    persistRecord records (signFreshnessAuthority crypto next) lineageId = records lineageId :=
  Function.update_of_ne h.symm _ _

theorem readRecord_eq_ok {found : Option SignedFreshnessAuthority}
    (h : readRecord records lineageId = .ok found) : records lineageId = found := by
  unfold readRecord at h
  split at h
  · cases h
    assumption
  · split_ifs at h
    cases h
    assumption

theorem compareAndSet_cases {expected : Option AuthorityDigest}
    (h : compareAndSet crypto records expected next = .ok (answer, records')) :
    (records' = records ∧ ∀ signed, answer ≠ .record signed) ∨
      ((records next.lineageId).map crypto.recordDigest = expected ∧
        validSuccessor crypto next (records next.lineageId) = true ∧
        records' = persistRecord records (signFreshnessAuthority crypto next)) := by
  obtain ⟨current, hread, h⟩ := bind_eq_ok.mp h
  obtain rfl := readRecord_eq_ok hread
  split_ifs at h with hdigest hvalid
  · cases h
    exact .inl ⟨rfl, nofun⟩
  · cases h
    exact .inr ⟨not_not.mp hdigest, hvalid, rfl⟩
  · cases h
    exact .inl ⟨rfl, nofun⟩

theorem compareAndRebind_cases {source : Bytes 32} {expected : AuthorityDigest}
    (h : compareAndRebind crypto records source expected next = .ok (answer, records')) :
    records' = records ∨ (records next.lineageId = none ∧ records' =
      Function.update (persistRecord records (signFreshnessAuthority crypto next)) source none) := by
  cases next with
  | volatileFence fence =>
    cases h
    exact .inl rfl
  | durableCut next =>
    simp only [compareAndRebind] at h
    split_ifs at h with hsame
    · cases h
      exact .inl rfl
    obtain ⟨target, htarget, h⟩ := bind_eq_ok.mp h
    split_ifs at h with hfound
    · cases h
      exact .inl rfl
    obtain rfl := readRecord_eq_ok htarget
    obtain ⟨found, hsource, h⟩ := bind_eq_ok.mp h
    repeat' split at h
    all_goals cases h
    all_goals first | exact .inl rfl | exact .inr ⟨Option.not_isSome_iff_eq_none.mp hfound, rfl⟩

/-- A step keeps the lineage at or after a cut, if it leaves it at some cut. -/
theorem serveOne_atOrAfter {request : FreshnessWireRequest} (hafter : AtOrAfter records lineageId cut)
    (hheld : (heldCut records' lineageId).isSome)
    (h : serveOne crypto records request = .ok (answer, records')) :
    AtOrAfter records' lineageId cut := by
  obtain ⟨mid, hmid, hprecedes⟩ := hafter
  obtain ⟨current, hcurrent, hcut⟩ := Option.bind_eq_some_iff.mp hmid
  cases request with
  | read storeId =>
    obtain ⟨_, _, h⟩ := bind_eq_ok.mp h
    cases h
    exact ⟨mid, hmid, hprecedes⟩
  | compareAndSet expected next =>
    obtain ⟨rfl, -⟩ | ⟨-, hvalid, rfl⟩ := compareAndSet_cases h
    · exact ⟨mid, hmid, hprecedes⟩
    by_cases heq : next.lineageId = lineageId
    · subst heq
      rw [heldCut, persistRecord_self] at hheld
      cases next with
      | volatileFence fence => cases hheld
      | durableCut next =>
        refine ⟨next, by rw [heldCut, persistRecord_self]; rfl, hprecedes.trans ?_⟩
        apply precedes_of_validCutExtension
        rw [hcurrent, validSuccessor] at hvalid
        unfold validStateExtension at hvalid
        rwa [durableCut_eq_some.mp hcut] at hvalid
    · exact ⟨mid, (heldCut_of_eq (persistRecord_of_ne heq)).trans hmid, hprecedes⟩
  | compareAndRebind source expected next =>
    obtain rfl | ⟨htarget, rfl⟩ := compareAndRebind_cases h
    · exact ⟨mid, hmid, hprecedes⟩
    by_cases hsource : source = lineageId
    · subst hsource
      rw [heldCut, Function.update_self] at hheld
      cases hheld
    -- the target of a rebind has no record yet
    have hne : next.lineageId ≠ lineageId := by
      rintro rfl
      rw [hcurrent] at htarget
      cases htarget
    refine ⟨mid, (heldCut_of_eq ?_).trans hmid, hprecedes⟩
    rw [Function.update_of_ne (Ne.symm hsource), persistRecord_of_ne hne]

theorem serveAll_append (before after : List FreshnessWireRequest) :
    serveAll crypto records (before ++ after) =
      serveAll crypto (serveAll crypto records before) after := foldl_append

theorem serveAll_atOrAfter
    (hheld : ∀ served, served <+: requests →
      (heldCut (serveAll crypto records served) lineageId).isSome)
    (hcut : heldCut records lineageId = some cut) :
    AtOrAfter (serveAll crypto records requests) lineageId cut := by
  induction requests using reverseRecOn with
  | nil => exact ⟨cut, hcut, .refl cut⟩
  | append_singleton requests request ih =>
    have hafter := ih fun served hserved => hheld served (hserved.trans (prefix_append _ _))
    have hlast := hheld _ prefix_rfl
    rw [serveAll_append, serveAll, foldl_cons, foldl_nil] at hlast ⊢
    cases h : serveOne crypto (serveAll crypto records requests) request with
    | error reason => exact hafter
    | ok served =>
      rw [h] at hlast
      exact serveOne_atOrAfter hafter hlast h

/-- Whatever the authority served since it held a cut, as long as it went on holding some cut of
the lineage, a store that passes the check against the one it holds now is not behind the first. -/
theorem preflight_not_behind {sha256 : List UInt8 → AuthorityDigest} {backing : List UInt8}
    {material : FreshnessRecoveryMaterial} {config : ExternalFreshnessConfig}
    {anchored result : FreshnessCut}
    (hheld : ∀ served, served <+: requests →
      (heldCut (serveAll crypto records served) lineageId).isSome)
    (hcut : heldCut records lineageId = some cut)
    (hanchored : heldCut (serveAll crypto records requests) lineageId = some anchored)
    (hok : preflightExternalFreshness sha256 backing material config (.durableCut anchored) =
      .ok result) :
    cut.generation ≤ result.generation ∧ (result.generation = cut.generation →
      result.generationDigest = cut.generationDigest ∧ cut.walLsn ≤ result.walLsn) := by
  obtain ⟨_, hlater, hprecedes⟩ := serveAll_atOrAfter hheld hcut
  cases hlater.symm.trans hanchored
  obtain ⟨-, hge, -, -, hdigest, walLsn, walDigest, -, hwal, rfl⟩ :=
    preflightExternalFreshness_eq_ok.mp hok
  refine ⟨UInt64.le_trans hprecedes.generation hge, fun hsame => ?_⟩
  have hmid : anchored.generation = cut.generation :=
    UInt64.le_antisymm (hsame ▸ hge) hprecedes.generation
  obtain ⟨-, hdigest', hlsn, -⟩ := hprecedes.wal hmid
  have hlocal : material.generation.generation = anchored.generation := hsame.trans hmid.symm
  exact ⟨(hdigest hlocal).trans hdigest', UInt64.le_trans hlsn (hwal hlocal).1⟩

/-- No update is lost: a compare-and-set that a client bases on a cut it has read succeeds only
if the lineage was at that cut after all the requests served since, unless it was fenced or taken
away in between. -/
theorem compareAndSet_unchanged_since {served : List FreshnessWireRequest}
    (hinjective : ∀ r, crypto.recordDigest r = crypto.recordDigest record → r = record)
    (hheld : ∀ served, served <+: requests →
      (heldCut (serveAll crypto records served) next.lineageId).isSome)
    (hrecord : records next.lineageId = some record) (hcut : record.state = .durableCut cut)
    (hok : compareAndSet crypto (serveAll crypto records requests)
      (some (crypto.recordDigest record)) next = .ok (.record signed, records'))
    (hserved : served <+: requests) :
    heldCut (serveAll crypto records served) next.lineageId = some cut := by
  have hcut' := durableCut_eq_some.mpr hcut
  obtain ⟨later, hlater, hdigest⟩ : ∃ later, serveAll crypto records requests next.lineageId =
      some later ∧ crypto.recordDigest later = crypto.recordDigest record := by
    obtain ⟨-, hanswer⟩ | ⟨hdigest, -⟩ := compareAndSet_cases hok
    · exact absurd rfl (hanswer signed)
    · exact Option.map_eq_some_iff.mp hdigest
  obtain rfl := hinjective later hdigest
  -- the record is still the one that was read, so the cuts in between are squeezed
  obtain ⟨after, rfl⟩ := hserved
  have hfirst : heldCut records next.lineageId = some cut := by rw [heldCut, hrecord]; exact hcut'
  obtain ⟨mid, hmid, hbefore⟩ := serveAll_atOrAfter
    (fun q (hq : q <+: served) => hheld q (hq.trans (prefix_append _ _))) hfirst
  have hrest : ∀ q, q <+: after → (heldCut (serveAll crypto (serveAll crypto records served) q)
      next.lineageId).isSome := by
    intro q hq
    rw [← serveAll_append]
    exact hheld _ ((prefix_append_right_inj served).mpr hq)
  obtain ⟨last, hlast, hafter⟩ := serveAll_atOrAfter hrest hmid
  rw [← serveAll_append, heldCut, hlater] at hlast
  cases hlast.symm.trans hcut'
  rw [hmid, hbefore.antisymm hafter]

end

/-! ### Two stores -/

def firstRecord : SignedFreshnessAuthority :=
  ⟨.durableCut (testCut 8 1 prepareFrame), .replicate 32 1, .replicate 64 1⟩

def firstRecords : AuthorityRecords := Function.update (fun _ => none) (.replicate 32 7) firstRecord

def testCrypto : FreshnessCrypto where
  recordDigest record := .replicate 32 (if record = firstRecord then 1 else 2)
  volatileFenceNonce _ digest := digest
  signer := .replicate 32 1
  sign _ := .replicate 64 1

/-- A fence and a rebind that are refused, and the first cut of another store. -/
def otherRequests : List FreshnessWireRequest :=
  let cut := { testCut 1 0 [] with storeId := .replicate 32 9, previousGeneration := none }
  [.compareAndSet none (.volatileFence ⟨.replicate 32 7, .replicate 32 1, .replicate 32 2, 1, 1,
      .replicate 32 2⟩),
    .compareAndRebind (.replicate 32 7) (.replicate 32 5) (.durableCut cut),
    .compareAndSet none (.durableCut cut)]

def committedCut : FreshnessCut := testCut 8 2 (stepBytes 1)

/-- After them the store moves on to the committed step. -/
def committedRequests : List FreshnessWireRequest :=
  otherRequests ++ [.compareAndSet (some (.replicate 32 1)) (.durableCut committedCut)]

theorem preflight_not_behind_committed :
    ∃ result, preflightExternalFreshness lengthDigest (stepBytes 1) committedMaterial testConfig
        (.durableCut committedCut) = .ok result ∧ 1 ≤ result.walLsn := by
  have hok : preflightExternalFreshness lengthDigest (stepBytes 1) committedMaterial testConfig
      (.durableCut committedCut) = .ok committedCut := by decide +kernel
  have hheld : ∀ served ∈ inits committedRequests,
      (heldCut (serveAll testCrypto firstRecords served) (.replicate 32 7)).isSome := by
    decide +kernel
  have hanchored : heldCut (serveAll testCrypto firstRecords committedRequests)
      (.replicate 32 7) = some committedCut := by decide +kernel
  have hcut : heldCut firstRecords (.replicate 32 7) = some (testCut 8 1 prepareFrame) := by
    decide +kernel
  have hbehind := preflight_not_behind (fun served h => hheld served ((mem_inits _ _).mpr h)) hcut
    hanchored hok
  exact ⟨_, hok, (hbehind.2 rfl).2⟩

theorem compareAndSet_unchanged_since_first :
    heldCut (serveAll testCrypto firstRecords (otherRequests.take 2)) (.replicate 32 7) =
      some (testCut 8 1 prepareFrame) := by
  have hinjective : ∀ r, testCrypto.recordDigest r = testCrypto.recordDigest firstRecord →
      r = firstRecord := by
    intro r hr
    by_contra hne
    simp only [testCrypto, if_neg hne] at hr
    exact absurd hr (by decide)
  have hheld : ∀ served ∈ inits otherRequests, (heldCut (serveAll testCrypto firstRecords served)
      (FreshnessAuthorityState.durableCut committedCut).lineageId).isSome := by decide +kernel
  have hrecord : firstRecords (FreshnessAuthorityState.durableCut committedCut).lineageId =
      some firstRecord := by decide +kernel
  have hok : ((compareAndSet testCrypto (serveAll testCrypto firstRecords otherRequests)
      (some (testCrypto.recordDigest firstRecord)) (.durableCut committedCut)).toOption.map (·.1)) =
        some (.record (signFreshnessAuthority testCrypto (.durableCut committedCut))) := by
    decide +kernel
  obtain ⟨⟨answer, after⟩, hok, hanswer⟩ := Option.map_eq_some_iff.mp hok
  change answer = _ at hanswer
  rw [hanswer] at hok
  have hcut : firstRecord.state = .durableCut (testCut 8 1 prepareFrame) := rfl
  have hunchanged := compareAndSet_unchanged_since hinjective
    (fun served h => hheld served ((mem_inits _ _).mpr h)) hrecord hcut (toOption_eq_some.mp hok)
    ⟨_, take_append_drop 2 _⟩
  exact hunchanged

end Cfmd.Durability
