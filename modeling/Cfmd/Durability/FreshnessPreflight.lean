import Cfmd.Durability.CausalMetadata
import Cfmd.Durability.Freshness

/-! The check of a local store against the externally anchored cut before recovery. It
refuses a store that is behind the anchor; at the last generation it also refuses the store
that the anchor describes. -/

namespace Cfmd.Durability
open Lib WalFreshnessSource List

abbrev AuthorityDigest := Bytes 32

structure FreshnessGenerationMaterial where
  generation : UInt64
  binding : DurableExternalFreshnessBinding
  generationDigest : AuthorityDigest

structure FreshnessRecoveryMaterial where
  generation : FreshnessGenerationMaterial
  wal : WalFreshnessSource

/-- Of the trust roots the check only reads the epoch. -/
structure ExternalFreshnessConfig where
  storeId : Bytes 32
  trustRootEpoch : UInt64
  deploymentPolicyEpoch : UInt64

structure FreshnessCut where
  storeId : Bytes 32
  generation : UInt64
  previousGeneration : Option AuthorityDigest
  generationDigest : AuthorityDigest
  walLsn : UInt64
  walDigest : AuthorityDigest
  trustRootEpoch : UInt64
  deploymentPolicyEpoch : UInt64
deriving DecidableEq

structure VolatileFence where
  lineageId : Bytes 32
  predecessorRecordDigest : AuthorityDigest
  sourceGenerationDigest : AuthorityDigest
  trustRootEpoch : UInt64
  deploymentPolicyEpoch : UInt64
  transitionNonce : AuthorityDigest
deriving DecidableEq

inductive FreshnessAuthorityState
  | durableCut (cut : FreshnessCut)
  | volatileFence (fence : VolatileFence)
deriving DecidableEq

/-- `generation.saturating_add(1)`. -/
def followingGeneration (generation : UInt64) : UInt64 :=
  if generation.toNat + 1 < 2 ^ 64 then generation + 1 else generation

section
variable (sha256 : List UInt8 → AuthorityDigest) (backing : List UInt8)

def FreshnessRecoveryMaterial.cut (material : FreshnessRecoveryMaterial)
    (config : ExternalFreshnessConfig) (walLsn : UInt64) (walDigest : AuthorityDigest) :
    FreshnessCut where
  storeId := config.storeId
  generation := material.generation.generation
  previousGeneration := material.generation.binding.previousGenerationDigest
  generationDigest := material.generation.generationDigest
  walLsn
  walDigest
  trustRootEpoch := config.trustRootEpoch
  deploymentPolicyEpoch := config.deploymentPolicyEpoch

/-- The generation was published for this store, under these epochs. -/
def FreshnessRecoveryMaterial.Identified (material : FreshnessRecoveryMaterial)
    (config : ExternalFreshnessConfig) : Prop :=
  material.generation.binding.storeId = config.storeId ∧
  material.generation.binding.trustRootEpoch = config.trustRootEpoch ∧
  material.generation.binding.deploymentPolicyEpoch = config.deploymentPolicyEpoch

instance (material : FreshnessRecoveryMaterial) (config : ExternalFreshnessConfig) :
    Decidable (material.Identified config) :=
  inferInstanceAs (Decidable (_ ∧ _ ∧ _))

def preflightExternalFreshness (material : FreshnessRecoveryMaterial)
    (config : ExternalFreshnessConfig) (anchored : FreshnessAuthorityState) :
    Fallible DurabilityError FreshnessCut :=
  match anchored with
  | .volatileFence _ =>
    .error (.error (.protocol 0 "durable source was retired by an external volatile fence"))
  | .durableCut anchoredCut =>
    let generation := material.generation.generation
    let binding := material.generation.binding
    let generationDigest := material.generation.generationDigest
    if ¬ material.Identified config then
      .error (.error (.protocol 0
        "published external freshness binding is stale or belongs to another store"))
    else if generation < anchoredCut.generation then
      .error (.error (.protocol 0
        "local durable generation was rolled back behind external freshness authority"))
    else if generation > followingGeneration anchoredCut.generation then
      .error (.error (.protocol 0
        "local durable generation jumped beyond external freshness authority"))
    else if generation = followingGeneration anchoredCut.generation ∧
        binding.previousGenerationDigest ≠ some anchoredCut.generationDigest then
      .error (.error (.protocol 0
        "local generation does not extend externally anchored predecessor"))
    else if generation = anchoredCut.generation ∧
        generationDigest ≠ anchoredCut.generationDigest then
      .error (.error (.protocol 0
        "same-generation durable store fork detected by external freshness authority"))
    else do
      let (walLsn, walDigest) ← material.wal.head sha256 backing
      if generation = anchoredCut.generation then
        if walLsn < anchoredCut.walLsn then
          .error (.error (.protocol 0
            "local WAL was truncated behind external freshness authority"))
        else do
          let anchoredPrefix ← material.wal.digestAtLsn sha256 backing anchoredCut.walLsn
          if anchoredPrefix ≠ anchoredCut.walDigest then
            .error (.error (.protocol 0 "local WAL prefix forks from external freshness authority"))
          else return material.cut config walLsn walDigest
      else return material.cut config walLsn walDigest

end

/-! ### The anchored WAL -/

/-- The frames with LSNs up to this one take this many bytes. -/
def FramesUpTo (bytes : List UInt8) (firstLsn lsn : UInt64) (stop : ℕ) : Prop :=
  (lsn < firstLsn ∧ stop = 0) ∨
    ∃ start, Walk bytes 0 firstLsn start lsn ∧ FrameEnds bytes start lsn stop

/-- The WAL that an anchored cut was taken of: whole frames, their last LSN and their hash. -/
structure AnchoredWal (sha256 : List UInt8 → AuthorityDigest) (cut : FreshnessCut) where
  firstLsn : UInt64
  bytes : List UInt8
  next : UInt64
  firstLsn_ne : firstLsn ≠ 0
  walk : Walk bytes 0 firstLsn bytes.length next
  walLsn_eq : cut.walLsn = precedingLsn next
  walDigest_eq : cut.walDigest = walPrefixDigest sha256 bytes

section
variable {region : List UInt8} {offset offset' : ℕ} {lsn lsn' : UInt64} {stop : ℕ}

theorem FrameEnds.unique {stop' : ℕ} (h : FrameEnds region offset lsn stop)
    (h' : FrameEnds region offset lsn stop') : stop = stop' := by
  obtain ⟨bytes, _, hread, rfl⟩ := h
  obtain ⟨bytes', _, hread', rfl⟩ := h'
  rw [hread] at hread'
  cases hread'
  rfl

theorem BreaksOff.not_frame (h : BreaksOff region offset lsn) :
    ¬ FrameEnds region offset lsn stop := by
  rintro ⟨bytes, hopen, hread, _⟩
  rcases h with hend | ⟨_, hnone⟩
  · omega
  · rw [hread] at hnone
    cases hnone

theorem Walk.lt_of_breaksOff (h : Walk region offset lsn offset' lsn')
    (hbreaks : BreaksOff region offset' lsn') {start : ℕ} {t : UInt64}
    (hwalk : Walk region offset lsn start t) (hframe : FrameEnds region start t stop) :
    t.toNat < lsn'.toNat := by
  induction h with
  | here =>
    cases hwalk with
    | here => exact absurd hframe hbreaks.not_frame
    | frame hfirst _ _ => exact absurd hfirst hbreaks.not_frame
  | frame hfirst hlsn hrest ih =>
    have hnext := successorLsn_eq_ok.mp hlsn
    have hle := hrest.le.2
    cases hwalk with
    | here => omega
    | frame hfirst' hlsn' hrest' =>
      obtain rfl := hfirst.unique hfirst'
      rw [hlsn, Except.ok.injEq] at hlsn'
      subst hlsn'
      exact ih hbreaks hrest'

theorem Walk.last (h : Walk region offset lsn offset' lsn') :
    (offset = offset' ∧ lsn = lsn') ∨ ∃ start t, Walk region offset lsn start t ∧
      FrameEnds region start t offset' ∧ successorLsn t = .ok lsn' := by
  induction h with
  | here => exact .inl ⟨rfl, rfl⟩
  | frame hframe hlsn hrest ih =>
    right
    rcases ih with ⟨rfl, rfl⟩ | ⟨start, t, hwalk, hlast, ht⟩
    · exact ⟨_, _, .here, hframe, hlsn⟩
    · exact ⟨start, t, .frame hframe hlsn hwalk, hlast, ht⟩

theorem toNat_precedingLsn (lsn : UInt64) : (precedingLsn lsn).toNat = lsn.toNat - 1 := by
  unfold precedingLsn
  split
  · rename_i h
    rw [h]
    rfl
  rename_i h
  have hpos : lsn.toNat ≠ 0 := fun h0 => h (UInt64.toNat_inj.mp h0)
  rw [UInt64.toNat_sub_of_le _ _ (by rw [UInt64.le_iff_toNat_le]; show 1 ≤ _; omega)]
  rfl

theorem framesUpTo_of_walk (hfirst : lsn ≠ 0) (h : Walk region 0 lsn offset' lsn') :
    FramesUpTo region lsn (precedingLsn lsn') offset' := by
  have hpos : lsn.toNat ≠ 0 := fun h0 => hfirst (UInt64.toNat_inj.mp h0)
  rcases h.last with ⟨rfl, rfl⟩ | ⟨start, t, hwalk, hlast, ht⟩
  · left
    rw [UInt64.lt_iff_toNat_lt, toNat_precedingLsn]
    exact ⟨by omega, rfl⟩
  right
  have heq : precedingLsn lsn' = t := by
    apply UInt64.toNat_inj.mp
    rw [toNat_precedingLsn, successorLsn_eq_ok.mp ht]
    omega
  rw [heq]
  exact ⟨start, hwalk, hlast⟩

theorem FramesUpTo.congr {region' : List UInt8} (h : FramesUpTo region lsn lsn' stop)
    (hsame : region'.take stop = region.take stop) : FramesUpTo region' lsn lsn' stop := by
  rcases h with hbefore | ⟨start, hwalk, hframe⟩
  · exact .inl hbefore
  have hstart : region'.take start = region.take start := by
    have htake := congrArg (List.take start) hsame
    rwa [take_take, take_take, Nat.min_eq_left hframe.lt.1.le] at htake
  exact .inr ⟨start, hwalk.congr hstart, hframe.congr hsame⟩

end

/-! ### What the check decides -/

section
variable {sha256 : List UInt8 → AuthorityDigest} {backing : List UInt8}
  {source : WalFreshnessSource} {t : UInt64} {digest : AuthorityDigest}

theorem WalFreshnessSource.head_sound (h : source.head sha256 backing = .ok (t, digest)) :
    source.Readable backing ∧ ∃ stop next, Walk (source.bytes backing) 0 source.firstLsn stop next ∧
      BreaksOff (source.bytes backing) stop next ∧ t = precedingLsn next := by
  have hreadable : source.Readable backing := by
    unfold head walFreshnessPrefix at h
    split_ifs at h with hfirst hstart hend
    exact ⟨hfirst, Nat.le_of_not_lt hstart, Nat.le_of_not_lt hend⟩
  refine ⟨hreadable, ?_⟩
  unfold head at h
  rw [walFreshnessPrefix_eq sha256 hreadable] at h
  obtain ⟨⟨walked, out⟩, hloop, h⟩ := bind_eq_ok.mp h
  cases h
  have hzero : walFreshnessPrefixDomain ++ (source.bytes backing).take 0 =
      walFreshnessPrefixDomain := append_nil _
  rw [← hzero] at hloop
  obtain ⟨stop, next, hwalk, ⟨_, hbreaks, hresult, _⟩ | ⟨_, hnone, _⟩⟩ :=
    walFreshnessLoop_sound _ hloop
  · exact ⟨stop, next, hwalk, hbreaks, hresult⟩
  · cases hnone

theorem WalFreshnessSource.digestAtLsn_iff (h : source.Readable backing) :
    source.digestAtLsn sha256 backing t = .ok digest ↔
      ∃ stop, FramesUpTo (source.bytes backing) source.firstLsn t stop ∧
        digest = walPrefixDigest sha256 ((source.bytes backing).take stop) := by
  constructor
  · intro hdigest
    unfold digestAtLsn at hdigest
    split at hdigest
    · rename_i hbefore
      cases hdigest
      exact ⟨0, .inl ⟨hbefore, rfl⟩, rfl⟩
    rw [walFreshnessPrefix_eq sha256 h] at hdigest
    obtain ⟨_, hbegins, hdigest⟩ := bind_eq_ok.mp hdigest
    obtain ⟨⟨walked, out⟩, hloop, hbegins⟩ := bind_eq_ok.mp hbegins
    cases hbegins
    cases hdigest
    have hzero : walFreshnessPrefixDomain ++ (source.bytes backing).take 0 =
        walFreshnessPrefixDomain := append_nil _
    rw [← hzero] at hloop
    obtain ⟨start, next, hwalk, ⟨hnone, _⟩ | ⟨stop, htarget, hframe, hout⟩⟩ :=
      walFreshnessLoop_sound _ hloop
    · cases hnone
    · cases htarget
      exact ⟨stop, .inr ⟨start, hwalk, hframe⟩, by rw [hout]; rfl⟩
  · rintro ⟨stop, ⟨hbefore, rfl⟩ | ⟨start, hwalk, hframe⟩, rfl⟩
    · rw [digestAtLsn, if_pos hbefore]
      rfl
    · exact digestAtLsn_eq sha256 h hwalk hframe

variable {material : FreshnessRecoveryMaterial} {config : ExternalFreshnessConfig}
  {cut result : FreshnessCut} {wal : AnchoredWal sha256 cut}

theorem preflightExternalFreshness_eq_ok :
    preflightExternalFreshness sha256 backing material config (.durableCut cut) = .ok result ↔
      material.Identified config ∧
      cut.generation ≤ material.generation.generation ∧
      material.generation.generation ≤ followingGeneration cut.generation ∧
      (material.generation.generation = followingGeneration cut.generation →
        material.generation.binding.previousGenerationDigest = some cut.generationDigest) ∧
      (material.generation.generation = cut.generation →
        material.generation.generationDigest = cut.generationDigest) ∧
      ∃ walLsn walDigest, material.wal.head sha256 backing = .ok (walLsn, walDigest) ∧
        (material.generation.generation = cut.generation → cut.walLsn ≤ walLsn ∧
          material.wal.digestAtLsn sha256 backing cut.walLsn = .ok cut.walDigest) ∧
        result = material.cut config walLsn walDigest := by
  unfold preflightExternalFreshness
  simp only [ite_error_eq_ok, bind_eq_ok, not_not, UInt64.not_lt, gt_iff_lt, not_and, ne_eq,
    Prod.exists]
  refine and_congr_right fun _ => and_congr_right fun _ => and_congr_right fun _ =>
    and_congr_right fun _ => and_congr_right fun _ => exists_congr fun walLsn =>
      exists_congr fun walDigest => and_congr_right fun _ => ?_
  by_cases hsame : material.generation.generation = cut.generation
  · rw [if_pos hsame]
    simp only [ite_error_eq_ok, bind_eq_ok, not_not, UInt64.not_lt]
    constructor
    · rintro ⟨hlsn, _, hdigest, rfl, h⟩
      exact ⟨fun _ => ⟨hlsn, hdigest⟩, (Except.ok.inj h).symm⟩
    · rintro ⟨hwal, rfl⟩
      obtain ⟨hlsn, hdigest⟩ := hwal hsame
      exact ⟨hlsn, cut.walDigest, hdigest, rfl, rfl⟩
  · rw [if_neg hsame]
    exact ⟨fun h => ⟨fun h' => absurd h' hsame, (Except.ok.inj h).symm⟩,
      fun h => congrArg Except.ok h.2.symm⟩

/-- The local WAL, up to the anchored LSN, is the anchored WAL. -/
def ExtendsAnchored (backing : List UInt8) (source : WalFreshnessSource) (cut : FreshnessCut)
    (wal : AnchoredWal sha256 cut) : Prop :=
  ∃ stop, FramesUpTo (source.bytes backing) source.firstLsn cut.walLsn stop ∧
    (source.bytes backing).take stop = wal.bytes

/-- The local store is the anchored generation with a WAL that goes on from the anchored one,
or the generation after it. -/
def NotBehind (backing : List UInt8) (material : FreshnessRecoveryMaterial) (cut : FreshnessCut)
    (wal : AnchoredWal sha256 cut) : Prop :=
  (material.generation.generation = cut.generation ∧
    material.generation.generationDigest = cut.generationDigest ∧
    ExtendsAnchored backing material.wal cut wal) ∨
  (material.generation.generation.toNat = cut.generation.toNat + 1 ∧
    material.generation.binding.previousGenerationDigest = some cut.generationDigest)

theorem AnchoredWal.framesUpTo (wal : AnchoredWal sha256 cut) :
    FramesUpTo wal.bytes wal.firstLsn cut.walLsn wal.bytes.length := by
  rw [wal.walLsn_eq]
  exact framesUpTo_of_walk wal.firstLsn_ne wal.walk

/-- A WAL that starts at the anchored first LSN goes on from the anchored one just when it
has its bytes first. -/
theorem extendsAnchored_of_prefix (wal : AnchoredWal sha256 cut)
    (hfirst : source.firstLsn = wal.firstLsn) (hbegins : wal.bytes <+: source.bytes backing) :
    ExtendsAnchored backing source cut wal := by
  have htake := prefix_iff_eq_take.mp hbegins
  refine ⟨wal.bytes.length, ?_, htake.symm⟩
  rw [hfirst]
  apply wal.framesUpTo.congr
  rw [← htake, take_length]

/-- The file that holds the anchored WAL and nothing else. -/
def AnchoredWal.ownSource (wal : AnchoredWal sha256 cut) : WalFreshnessSource :=
  ⟨0, wal.bytes.length, wal.firstLsn⟩

theorem AnchoredWal.bytes_ownSource (wal : AnchoredWal sha256 cut) :
    wal.ownSource.bytes wal.bytes = wal.bytes := by
  unfold ownSource WalFreshnessSource.bytes slice
  rw [drop_zero, Nat.sub_zero, take_length]

theorem AnchoredWal.head_ownSource (wal : AnchoredWal sha256 cut) :
    wal.ownSource.head sha256 wal.bytes = .ok (cut.walLsn, cut.walDigest) := by
  have hreadable : wal.ownSource.Readable wal.bytes := ⟨wal.firstLsn_ne, Nat.zero_le _, le_rfl⟩
  have hwalk := wal.walk
  have hbreaks : BreaksOff wal.bytes wal.bytes.length wal.next := .inl le_rfl
  rw [← wal.bytes_ownSource] at hwalk hbreaks
  rw [head_eq sha256 hreadable hwalk hbreaks, wal.walLsn_eq, wal.walDigest_eq,
    wal.bytes_ownSource, take_length]

/-- The anchored store, published with that predecessor. -/
def AnchoredWal.ownMaterial (wal : AnchoredWal sha256 cut) (config : ExternalFreshnessConfig)
    (previousGenerationDigest : Option AuthorityDigest) : FreshnessRecoveryMaterial where
  generation :=
    { generation := cut.generation
      binding :=
        { storeId := config.storeId
          previousGenerationDigest
          trustRootEpoch := config.trustRootEpoch
          deploymentPolicyEpoch := config.deploymentPolicyEpoch }
      generationDigest := cut.generationDigest }
  wal := wal.ownSource

theorem AnchoredWal.notBehind_ownMaterial (wal : AnchoredWal sha256 cut)
    (previous : Option AuthorityDigest) :
    NotBehind wal.bytes (wal.ownMaterial config previous) cut wal := by
  refine .inl ⟨rfl, rfl, extendsAnchored_of_prefix wal rfl ?_⟩
  show wal.bytes <+: wal.ownSource.bytes wal.bytes
  rw [wal.bytes_ownSource]

theorem toNat_followingGeneration (generation : UInt64) :
    (followingGeneration generation).toNat = min (generation.toNat + 1) (2 ^ 64 - 1) := by
  have hlt := generation.toNat_lt
  unfold followingGeneration
  split
  · show (generation.toNat + 1) % 2 ^ 64 = _
    omega
  · omega

theorem walLsn_le_of_extends (hhead : source.head sha256 backing = .ok (t, digest))
    (h : ExtendsAnchored backing source cut wal) : cut.walLsn ≤ t := by
  obtain ⟨hreadable, stop, next, hwalk, hbreaks, rfl⟩ := head_sound hhead
  have hle := hwalk.le.2
  obtain ⟨_, ⟨hbefore, _⟩ | ⟨start, hwalk', hframe⟩, _⟩ := h
  · rw [UInt64.lt_iff_toNat_lt] at hbefore
    rw [UInt64.le_iff_toNat_le, toNat_precedingLsn]
    omega
  · have hlt := hwalk.lt_of_breaksOff hbreaks hwalk' hframe
    rw [UInt64.le_iff_toNat_le, toNat_precedingLsn]
    omega

/-- Whatever passes the check is not behind the anchor, if no other part of the local WAL has the
anchored hash. Whatever is not behind passes it, unless the anchored generation is the last one:
its successor saturates to itself. -/
theorem preflight_exact_iff (sha256 : List UInt8 → AuthorityDigest)
    (config : ExternalFreshnessConfig) (cut : FreshnessCut) (wal : AnchoredWal sha256 cut) :
    (∀ backing material result,
      (∀ n, walPrefixDigest sha256 ((material.wal.bytes backing).take n) = cut.walDigest →
        (material.wal.bytes backing).take n = wal.bytes) →
      preflightExternalFreshness sha256 backing material config (.durableCut cut) = .ok result →
        NotBehind backing material cut wal ∧
        material.wal.head sha256 backing = .ok (result.walLsn, result.walDigest) ∧
        (result.generation = cut.generation ∧ cut.walLsn ≤ result.walLsn ∨
          result.generation.toNat = cut.generation.toNat + 1)) ∧
    ((∀ backing material, material.Identified config →
      (∃ head, material.wal.head sha256 backing = .ok head) →
      NotBehind backing material cut wal →
        ∃ result, preflightExternalFreshness sha256 backing material config (.durableCut cut) =
          .ok result) ↔ cut.generation.toNat ≠ 2 ^ 64 - 1) := by
  have hlt := cut.generation.toNat_lt
  refine ⟨?_, ?_, ?_⟩
  · intro backing material result hcollision hok
    obtain ⟨-, hge, hle, hprevious, hdigest, walLsn, walDigest, hhead, hwal, rfl⟩ :=
      preflightExternalFreshness_eq_ok.mp hok
    rw [UInt64.le_iff_toNat_le] at hge hle
    by_cases hsame : material.generation.generation = cut.generation
    · obtain ⟨hlsn, hanchored⟩ := hwal hsame
      obtain ⟨hreadable, -⟩ := WalFreshnessSource.head_sound hhead
      obtain ⟨stop, hframes, heq⟩ := (WalFreshnessSource.digestAtLsn_iff hreadable).mp hanchored
      exact ⟨.inl ⟨hsame, hdigest hsame, stop, hframes, hcollision stop heq.symm⟩, hhead,
        .inl ⟨hsame, hlsn⟩⟩
    · have hne : material.generation.generation.toNat ≠ cut.generation.toNat :=
        fun heq => hsame (UInt64.toNat_inj.mp heq)
      rw [toNat_followingGeneration] at hle
      have hnext : material.generation.generation.toNat = cut.generation.toNat + 1 := by omega
      have hfollowing : material.generation.generation = followingGeneration cut.generation := by
        apply UInt64.toNat_inj.mp
        rw [toNat_followingGeneration]
        omega
      exact ⟨.inr ⟨hnext, hprevious hfollowing⟩, hhead, .inr hnext⟩
  · -- at the last generation, the anchored store without a predecessor is refused
    intro haccepts hlast
    have hfollowing : followingGeneration cut.generation = cut.generation := by
      apply UInt64.toNat_inj.mp
      rw [toNat_followingGeneration]
      omega
    obtain ⟨result, hok⟩ := haccepts wal.bytes (wal.ownMaterial config none) ⟨rfl, rfl, rfl⟩
      ⟨_, wal.head_ownSource⟩ (wal.notBehind_ownMaterial none)
    obtain ⟨-, -, -, hprevious, -⟩ := preflightExternalFreshness_eq_ok.mp hok
    cases hprevious hfollowing.symm
  · intro hnotLast backing material hidentified hhead hnotBehind
    obtain ⟨⟨walLsn, walDigest⟩, hhead⟩ := hhead
    refine ⟨material.cut config walLsn walDigest, preflightExternalFreshness_eq_ok.mpr ?_⟩
    have hfollowing := toNat_followingGeneration cut.generation
    rcases hnotBehind with ⟨hsame, hdigest, hextends⟩ | ⟨hnext, hprevious⟩
    · refine ⟨hidentified, ?_, ?_, ?_, fun _ => hdigest, walLsn, walDigest, hhead, ?_, rfl⟩
      · rw [hsame, UInt64.le_iff_toNat_le]
      · rw [hsame, UInt64.le_iff_toNat_le]
        omega
      · intro heq
        rw [hsame] at heq
        rw [← heq] at hfollowing
        omega
      · intro _
        refine ⟨walLsn_le_of_extends hhead hextends, ?_⟩
        obtain ⟨hreadable, -⟩ := WalFreshnessSource.head_sound hhead
        obtain ⟨stop, hframes, heq⟩ := hextends
        rw [WalFreshnessSource.digestAtLsn_iff hreadable]
        exact ⟨stop, hframes, by rw [heq]; exact wal.walDigest_eq⟩
    · refine ⟨hidentified, ?_, ?_, fun _ => hprevious, ?_, walLsn, walDigest, hhead, ?_, rfl⟩
      · rw [UInt64.le_iff_toNat_le]
        omega
      · rw [UInt64.le_iff_toNat_le]
        omega
      · intro heq
        rw [heq] at hnext
        omega
      · intro heq
        rw [heq] at hnext
        omega

end

/-! ### The last generation -/

/-- The hash of a byte string is its length here. -/
def lengthDigest (bytes : List UInt8) : AuthorityDigest :=
  ⟨toLeBytes 32 bytes.length, length_toLeBytes 32 _⟩

def testConfig : ExternalFreshnessConfig where
  storeId := Bytes.replicate 32 7
  trustRootEpoch := 1
  deploymentPolicyEpoch := 1

/-- The cut of a generation with this WAL. -/
def testCut (generation walLsn : UInt64) (wal : List UInt8) : FreshnessCut where
  storeId := Bytes.replicate 32 7
  generation
  previousGeneration := some (Bytes.replicate 32 1)
  generationDigest := Bytes.replicate 32 2
  walLsn
  walDigest := walPrefixDigest lengthDigest wal
  trustRootEpoch := 1
  deploymentPolicyEpoch := 1

def prepareFrame : List UInt8 := WalEntry.bytes ⟨.prepareRevision, 6, emptyStepPayload 5 6 7⟩ 1

theorem frameEnds_prepareFrame : FrameEnds prepareFrame 0 1 prepareFrame.length :=
  ⟨prepareFrame, by decide +kernel, by decide +kernel, (Nat.zero_add _).symm⟩

def preparedWal (generation : UInt64) :
    AnchoredWal lengthDigest (testCut generation 1 prepareFrame) where
  firstLsn := 1
  bytes := prepareFrame
  next := 2
  firstLsn_ne := by decide
  walk := .frame frameEnds_prepareFrame rfl .here
  walLsn_eq := rfl
  walDigest_eq := rfl

/-- The anchored generation, where the prepared step has been committed since. -/
def committedMaterial : FreshnessRecoveryMaterial :=
  { (preparedWal 8).ownMaterial testConfig (some (Bytes.replicate 32 1)) with
    wal := ⟨0, (stepBytes 1).length, 1⟩ }

theorem preflight_exact_of_committed :
    ∃ result, preflightExternalFreshness lengthDigest (stepBytes 1) committedMaterial testConfig
      (.durableCut (testCut 8 1 prepareFrame)) = .ok result := by
  have hhead : committedMaterial.wal.head lengthDigest (stepBytes 1) =
      .ok (2, walPrefixDigest lengthDigest (stepBytes 1)) := by decide +kernel
  have hbegins : prepareFrame <+: committedMaterial.wal.bytes (stepBytes 1) := by decide +kernel
  exact (preflight_exact_iff lengthDigest testConfig _ (preparedWal 8)).2.mpr (by decide) _ _
    ⟨rfl, rfl, rfl⟩ ⟨_, hhead⟩ (.inl ⟨rfl, rfl, extendsAnchored_of_prefix (preparedWal 8) rfl hbegins⟩)

/-- The store of the last generation, as it was anchored, is refused. -/
theorem preflight_refuses_last_generation :
    let cut := testCut 0xFFFFFFFFFFFFFFFF 1 prepareFrame
    let wal := preparedWal 0xFFFFFFFFFFFFFFFF
    let material := wal.ownMaterial testConfig (some (Bytes.replicate 32 1))
    material.Identified testConfig ∧
    material.wal.head lengthDigest prepareFrame = .ok (cut.walLsn, cut.walDigest) ∧
    NotBehind prepareFrame material cut wal ∧
    preflightExternalFreshness lengthDigest prepareFrame material testConfig (.durableCut cut) =
      .error (.error (.protocol 0
        "local generation does not extend externally anchored predecessor")) :=
  ⟨⟨rfl, rfl, rfl⟩, (preparedWal _).head_ownSource, (preparedWal _).notBehind_ownMaterial _,
    by decide +kernel⟩

end Cfmd.Durability
