import Cfmd.Durability.WalPayload

/-! The causal part of the durable metadata: historical epoch anchors, the
revision effect state and the external freshness binding, with the byte strings
that their decoders accept and their encoders would not write. -/

namespace Cfmd.Durability
open Std Lib Source ExtTreeMap List

structure HistoricalEpochAnchor where
  effectId : RevisionEffectId
  sourceRevision : RevisionId
  sourceSchema : SchemaRevisionId
  generation : UInt64
deriving DecidableEq

structure DurableExternalFreshnessBinding where
  storeId : Bytes 32
  previousGenerationDigest : Option (Bytes 32)
  trustRootEpoch : UInt64
  deploymentPolicyEpoch : UInt64
deriving DecidableEq

/-! ### Historical epoch anchors -/

def encodeHistoricalEpochAnchors (anchors : ExtTreeMap RevisionEffectId HistoricalEpochAnchor) :
    Except CodecError (List UInt8) :=
  pushSequence (fun (effectId, anchor) =>
    if effectId ≠ anchor.effectId then .error .collectionTooLarge
    else .ok (pushU128 effectId ++ (pushU64 anchor.sourceRevision ++
      (pushU64 anchor.sourceSchema ++ pushU64 anchor.generation)))) anchors.toList

def decodeHistoricalEpochAnchor : Decoder String HistoricalEpochAnchor := do
  let effectId ← u128
  let sourceRevision ← u64
  let sourceSchema ← u64
  let generation ← u64
  pure { effectId, sourceRevision, sourceSchema, generation }

def insertHistoricalEpochAnchors :
    ℕ → ExtTreeMap RevisionEffectId HistoricalEpochAnchor →
      Decoder String (ExtTreeMap RevisionEffectId HistoricalEpochAnchor)
  | 0, anchors => pure anchors
  | count + 1, anchors => do
    let anchor ← decodeHistoricalEpochAnchor
    if anchor.effectId ∉ anchors then
      insertHistoricalEpochAnchors count (anchors.insert anchor.effectId anchor)
    else throw "historical epoch anchors are not unique by effect identity"

def decodeHistoricalEpochAnchors :
    Decoder String (ExtTreeMap RevisionEffectId HistoricalEpochAnchor) := do
  insertHistoricalEpochAnchors (← len) ∅

/-! ### External freshness -/

def encodeExternalFreshness : Option DurableExternalFreshnessBinding → List UInt8
  | none => [0]
  | some binding =>
    1 :: (binding.storeId.bytes ++ ((match binding.previousGenerationDigest with
        | some digest => 1 :: digest.bytes
        | none => 0 :: (Bytes.replicate 32 0).bytes) ++
      (pushU64 binding.trustRootEpoch ++ pushU64 binding.deploymentPolicyEpoch)))

namespace Source

/-- `take_owned` into an array of that size. -/
def array (n : ℕ) : Decoder String (Bytes n) := do
  let bytes ← take n
  if h : bytes.length = n then pure ⟨bytes, h⟩
  else throw "truncated mutation payload"

end Source

def decodePreviousGenerationDigest : Decoder String (Option (Bytes 32)) := do
  if (← u8) = 0 then do
    let zero ← array 32
    if zero = Bytes.replicate 32 0 then pure none
    else throw "external freshness none digest is nonzero"
  else do return some (← array 32)

def decodeFreshnessBinding : Decoder String DurableExternalFreshnessBinding := do
  let storeId ← array 32
  let previousGenerationDigest ← decodePreviousGenerationDigest
  let trustRootEpoch ← u64
  let deploymentPolicyEpoch ← u64
  pure { storeId, previousGenerationDigest, trustRootEpoch, deploymentPolicyEpoch }

def decodeExternalFreshness : Decoder String (Option DurableExternalFreshnessBinding) := do
  if (← u8) = 0 then pure none
  else do return some (← decodeFreshnessBinding)

/-! ### Revision effect state -/

structure RevisionEffectState [PayloadTypes] where
  causalCoverageRoot : Option RevisionId
  effects : ExtTreeMap RevisionEffectId DurableRevisionEffectRecord
  frontiers : ExtTreeMap RevisionId (ExtTreeSet RevisionEffectId)

section
variable [PayloadCodec]

def encodeEffectIds (ids : ExtTreeSet RevisionEffectId) : Except CodecError (List UInt8) :=
  pushSequence (fun id => .ok (pushU128 id)) ids.toList

def encodeRevisionEffect (id : RevisionEffectId) (effect : DurableRevisionEffectRecord) :
    Except CodecError (List UInt8) := do
  effect.validateIdentity.mapError fun _ => .collectionTooLarge
  if id ≠ effect.id then .error .collectionTooLarge
  else do
    return pushU128 id ++ ((← encodeEffectIds effect.prerequisites) ++
      (pushU64 effect.transactionEpoch ++ (pushU128 effect.transactionId ++
        ((← encodeTransactionIntent effect.intent) ++ ((← encodeRevisionChange effect.change) ++
          (pushU64 effect.sourceRevision ++ pushU64 effect.targetRevision))))))

def encodeCausalCoverageRoot : Option RevisionId → List UInt8
  | some root => 1 :: pushU64 root
  | none => [0]

def encodeRevisionEffectState (state : RevisionEffectState) : Except CodecError (List UInt8) := do
  return encodeCausalCoverageRoot state.causalCoverageRoot ++
    ((← pushSequence (fun (id, effect) => encodeRevisionEffect id effect) state.effects.toList) ++
      (← pushSequence (fun (revision, frontier) => do
        return pushU64 revision ++ (← encodeEffectIds frontier)) state.frontiers.toList))

def decodeEffectIds (unsorted : String) : Decoder String (ExtTreeSet RevisionEffectId) := do
  return ExtTreeSet.ofList (← keyedSequence id fun previous => do
    let effect ← u128
    if ascends previous effect then pure effect else throw unsorted)

def decodeRevisionEffect (previous : Option RevisionEffectId) :
    Decoder String DurableRevisionEffectRecord := do
  let id ← u128
  if ascends previous id then do
    let prerequisites ← decodeEffectIds
      "revision effect prerequisites are not strictly sorted and unique"
    let transactionEpoch ← u64
    let transactionId ← u128
    let intent ← decodeTransactionIntent
    let change ← decodeRevisionChange
    let sourceRevision ← u64
    let targetRevision ← u64
    let effect : DurableRevisionEffectRecord :=
      { id, prerequisites, transactionEpoch, transactionId, intent, change, sourceRevision
        targetRevision }
    effect.validateIdentity
    pure effect
  else throw "revision effect ids are not strictly sorted and unique"

def decodeFrontier (previous : Option RevisionId) :
    Decoder String (RevisionId × ExtTreeSet RevisionEffectId) := do
  let revision ← u64
  if ascends previous revision then do
    return (revision, ← decodeEffectIds
      "revision frontier effect ids are not strictly sorted and unique")
  else throw "revision effect frontier revisions are not strictly sorted and unique"

def decodeCausalCoverageRoot : Decoder String (Option RevisionId) :=
  flag "invalid causal coverage root tag" (pure none) do return some (← u64)

def decodeRevisionEffectState : Decoder String RevisionEffectState := do
  let causalCoverageRoot ← decodeCausalCoverageRoot
  let effects ← keyedSequence DurableRevisionEffectRecord.id decodeRevisionEffect
  let frontiers ← keyedSequence Prod.fst decodeFrontier
  pure
    { causalCoverageRoot
      effects := ofList (effects.map fun effect => (effect.id, effect))
      frontiers := ofList frontiers }

/-- The payload codecs, where each reads only what it writes for the value it has read. -/
abbrev reencodedCodec : PayloadCodec :=
  { ‹PayloadCodec› with
    decodeTransactionIntent :=
      decodeTransactionIntent.reencoded "noncanonical intent" encodeTransactionIntent
    decodeRevisionChange :=
      decodeRevisionChange.reencoded "noncanonical change" encodeRevisionChange }

/-- Every transaction intent and every realized change inside re-encodes to the bytes that it is
read from. -/
def PayloadsReencode (bytes : List UInt8) : Prop :=
  ∃ state, Decoder.finish "trailing bytes in mutation payload"
    (@decodeRevisionEffectState reencodedCodec) bytes = .ok state

end

/-! ### Anchors are read in any order -/

def AnchorFormat (anchor : HistoricalEpochAnchor) (bytes : List UInt8) : Prop :=
  bytes = pushU128 anchor.effectId ++ (pushU64 anchor.sourceRevision ++
    (pushU64 anchor.sourceSchema ++ pushU64 anchor.generation))

/-- The effect ids of `count` entries of 40 bytes each, in the order in which they
are written. -/
def writtenAnchorIds : ℕ → List UInt8 → List RevisionEffectId
  | 0, _ => []
  | count + 1, bytes =>
    ⟨BitVec.ofNat 128 (fromLeBytes (bytes.take 16))⟩ :: writtenAnchorIds count (bytes.drop 40)

/-- The entries after the count are written in increasing order of their ids. -/
def AnchorsSorted (bytes : List UInt8) : Prop :=
  (writtenAnchorIds (fromLeBytes (bytes.take 4)) (bytes.drop 4)).Pairwise fun a b =>
    compare a b = .lt

theorem decodeHistoricalEpochAnchor_parses : Parses decodeHistoricalEpochAnchor AnchorFormat := by
  apply (u128_parses.bind fun effectId => u64_parses.bind fun sourceRevision =>
    u64_parses.bind fun sourceSchema => u64_parses.bind_pure).congr
  rintro ⟨⟩ b
  simp [AnchorFormat]

def anchorEntry (anchor : HistoricalEpochAnchor) : RevisionEffectId × HistoricalEpochAnchor :=
  (anchor.effectId, anchor)

theorem insertHistoricalEpochAnchors_parses (count : ℕ)
    (anchors : ExtTreeMap RevisionEffectId HistoricalEpochAnchor) :
    Parses (insertHistoricalEpochAnchors count anchors) fun m b =>
      ∃ as : List HistoricalEpochAnchor, as.length = count ∧ Written AnchorFormat as b ∧
        (as.map HistoricalEpochAnchor.effectId).Nodup ∧ (∀ a ∈ as, a.effectId ∉ anchors) ∧
        m = as.foldl (fun m a => m.insert a.effectId a) anchors := by
  induction count generalizing anchors with
  | zero =>
    apply (Parses.pure anchors).congr
    intro m b
    aesop
  | succ count ih =>
    apply (decodeHistoricalEpochAnchor_parses.bind fun anchor =>
      (ih (anchors.insert anchor.effectId anchor)).guard).congr
    intro m b
    constructor
    · rintro ⟨a, _, _, ha, ⟨hfresh, as, rfl, hwritten, hnodup, hnot, rfl⟩, rfl⟩
      have hids : ∀ x ∈ as, x.effectId ∉ anchors ∧ x.effectId ≠ a.effectId := by
        intro x hx
        have hins := hnot x hx
        rw [mem_insert, not_or] at hins
        exact ⟨hins.2, fun h => hins.1 (by rw [h]; exact ReflCmp.compare_self)⟩
      refine ⟨a :: as, rfl, ⟨_, _, ha, hwritten, rfl⟩, ?_, ?_, rfl⟩
      · rw [map_cons, nodup_cons, mem_map]
        refine ⟨?_, hnodup⟩
        rintro ⟨x, hx, heq⟩
        exact (hids x hx).2 heq
      · exact forall_mem_cons.mpr ⟨hfresh, fun x hx => (hids x hx).1⟩
    · rintro ⟨as, hlen, hwritten, hnodup, hnot, rfl⟩
      cases as with
      | nil => cases hlen
      | cons a as =>
        obtain ⟨b₁, b₂, ha, has, rfl⟩ := hwritten
        obtain ⟨hfresh, hrest⟩ := forall_mem_cons.mp hnot
        rw [map_cons, nodup_cons, mem_map] at hnodup
        refine ⟨a, b₁, b₂, ha, ⟨hfresh, as, by simpa using hlen, has, hnodup.2, ?_, rfl⟩, rfl⟩
        intro x hx
        rw [mem_insert, not_or]
        refine ⟨fun heq => hnodup.1 ⟨x, hx, ?_⟩, hrest x hx⟩
        exact (LawfulEqCmp.compare_eq_iff_eq.mp heq).symm

theorem decodeHistoricalEpochAnchors_parses :
    Parses decodeHistoricalEpochAnchors fun m b =>
      ∃ as : List HistoricalEpochAnchor, Sequence AnchorFormat as b ∧
        (as.map HistoricalEpochAnchor.effectId).Nodup ∧
        m = ofList (as.map anchorEntry) := by
  apply (len_parses.bind fun count => insertHistoricalEpochAnchors_parses count ∅).congr
  intro m b
  have hmap : ∀ as : List HistoricalEpochAnchor,
      as.foldl (fun m a => m.insert a.effectId a) ∅ = ofList (as.map anchorEntry) := by
    intro as
    rw [ofList_eq_foldl, foldl_map]
    rfl
  constructor
  · rintro ⟨_, l, c, hl, ⟨as, rfl, hwritten, hnodup, -, rfl⟩, rfl⟩
    exact ⟨as, ⟨l, c, hl, hwritten, rfl⟩, hnodup, hmap as⟩
  · rintro ⟨as, ⟨l, c, hl, hwritten, rfl⟩, hnodup, rfl⟩
    exact ⟨_, l, c, hl, ⟨as, rfl, hwritten, hnodup, fun a _ => not_mem_empty, (hmap as).symm⟩, rfl⟩

variable {as : List HistoricalEpochAnchor} {bytes : List UInt8}
  {anchors : ExtTreeMap RevisionEffectId HistoricalEpochAnchor}

theorem writtenAnchorIds_of_written (h : Written AnchorFormat as bytes) :
    writtenAnchorIds as.length bytes = as.map HistoricalEpochAnchor.effectId := by
  induction as generalizing bytes with
  | nil => rfl
  | cons a as ih =>
    obtain ⟨b, bs, hb, hbs, rfl⟩ := h
    have hid : (b ++ bs).take 16 = pushU128 a.effectId := by
      rw [hb]
      exact take_left' (length_toLeBytes 16 _)
    have hlen : b.length = 40 := by
      rw [hb]
      simp [pushU128, pushU64]
    rw [length_cons, writtenAnchorIds, hid, drop_left' hlen, ih hbs, map_cons,
      pushU128, fromLeBytes_toLeBytes_of_lt a.effectId.value.isLt, BitVec.ofNat_toNat]
    rfl

theorem anchorsSorted_iff (h : Sequence AnchorFormat as bytes) :
    AnchorsSorted bytes ↔ (as.map HistoricalEpochAnchor.effectId).Pairwise fun a b =>
      compare a b = .lt := by
  obtain ⟨l, b, hl, hwritten, rfl⟩ := h
  obtain ⟨hmax, rfl⟩ := pushLen_eq_ok.mp hl
  have hcount : fromLeBytes (pushU32 (UInt32.ofNat as.length)) = as.length := by
    unfold maxCollectionLen at hmax
    rw [pushU32, fromLeBytes_toLeBytes_of_lt (UInt32.toNat_lt _), UInt32.toNat_ofNat',
      Nat.mod_eq_of_lt (by omega)]
  have hlen : (pushU32 (UInt32.ofNat as.length)).length = 4 := length_toLeBytes 4 _
  rw [AnchorsSorted, take_left' hlen, drop_left' hlen, hcount, writtenAnchorIds_of_written hwritten]

theorem encodeHistoricalEpochAnchors_eq_ok (hkeys : ∀ e ∈ anchors.toList, e.1 = e.2.effectId) :
    encodeHistoricalEpochAnchors anchors = .ok bytes ↔
      Sequence AnchorFormat (anchors.toList.map Prod.snd) bytes := by
  rw [encodeHistoricalEpochAnchors, pushSequence_eq_ok, sequence_map]
  have hentry : ∀ e ∈ anchors.toList, ∀ b, (if e.1 ≠ e.2.effectId then .error .collectionTooLarge
        else .ok (pushU128 e.1 ++ (pushU64 e.2.sourceRevision ++
          (pushU64 e.2.sourceSchema ++ pushU64 e.2.generation))) : Except CodecError (List UInt8)) =
        .ok b ↔ AnchorFormat e.2 b := by
    intro e he b
    rw [if_neg (not_not_intro (hkeys e he)), hkeys e he]
    exact ⟨fun h => by cases h; rfl, fun h => by rw [h]⟩
  exact ⟨fun h => h.mono fun e he b hb => (hentry e he b).mp hb,
    fun h => h.mono fun e he b hb => (hentry e he b).mpr hb⟩

theorem encodeHistoricalEpochAnchors_iff
    (h : Decoder.finish "trailing bytes in mutation payload" decodeHistoricalEpochAnchors bytes =
      .ok anchors) :
    encodeHistoricalEpochAnchors anchors = .ok bytes ↔ AnchorsSorted bytes := by
  obtain ⟨as, hwritten, hnodup, rfl⟩ := decodeHistoricalEpochAnchors_parses.finish.mp h
  have hperm : (ofList (as.map anchorEntry)).toList.Perm (as.map anchorEntry) := by
    apply toList_ofList_perm
    rwa [List.map_map]
  have hkeys : ∀ e ∈ (ofList (as.map anchorEntry)).toList, e.1 = e.2.effectId := by
    intro e he
    obtain ⟨a, -, rfl⟩ := mem_map.mp (hperm.mem_iff.mp he)
    rfl
  rw [encodeHistoricalEpochAnchors_eq_ok hkeys, anchorsSorted_iff hwritten]
  constructor
  · -- two lists of anchors written as the same bytes are the same list, and a map is sorted
    intro hencode
    have has : _ = as := (sequence_parses decodeHistoricalEpochAnchor_parses).unique
      hencode hwritten
    rw [pairwise_map, ← has, pairwise_map]
    have hsorted := (ofList (as.map anchorEntry)).ordered_keys_toList
    apply hsorted.imp_of_mem
    intro e e' he he' hlt
    rwa [← hkeys e he, ← hkeys e' he']
  · intro hsorted
    have hlist : (ofList (as.map anchorEntry)).toList = as.map anchorEntry := by
      apply toList_ofList
      rw [pairwise_map] at hsorted ⊢
      exact hsorted
    rw [hlist, List.map_map]
    rwa [show Prod.snd ∘ anchorEntry = id from rfl, List.map_id]

/-! ### Any nonzero tag stands for a binding -/

/-- The two tag bytes of a freshness binding are 0 or 1, where they are present. -/
def FreshnessTagsCanonical (bytes : List UInt8) : Prop := bytes.getD 0 0 ≤ 1 ∧ bytes.getD 33 0 ≤ 1

/-- The bytes of the previous digest after its tag, as the decoder reads them. -/
def DigestFormat (tag : UInt8) (digest : Option (Bytes 32)) (bytes : List UInt8) : Prop :=
  (tag = 0 ∧ digest = none ∧ bytes = (Bytes.replicate 32 0).bytes) ∨
    (tag ≠ 0 ∧ ∃ d, digest = some d ∧ bytes = d.bytes)

theorem Source.array_parses (n : ℕ) : Parses (array n) fun x b => b = x.bytes := by
  have hcheck : ∀ bytes : List UInt8, Parses (ε := String)
      (if h : bytes.length = n then pure (⟨bytes, h⟩ : Bytes n)
        else throw "truncated mutation payload") fun x b => x.bytes = bytes ∧ b = [] := by
    intro bytes
    by_cases hlen : bytes.length = n
    · rw [dif_pos hlen]
      apply (Parses.pure _).congr
      rintro ⟨⟩ b
      simp
    · rw [dif_neg hlen]
      apply (Parses.throw _).congr
      rintro ⟨⟩ b
      grind
  apply ((Parses.take _ n).bind hcheck).congr
  rintro ⟨⟩ b
  grind

theorem decodePreviousGenerationDigest_parses :
    Parses decodePreviousGenerationDigest fun digest b =>
      ∃ tag c, DigestFormat tag digest c ∧ b = tag :: c := by
  have hbranch : ∀ tag : UInt8, Parses
      (if tag = 0 then do
          let zero ← array 32
          if zero = Bytes.replicate 32 0 then pure none
          else throw "external freshness none digest is nonzero"
        else do return some (← array 32)) (DigestFormat tag) := by
    intro tag
    by_cases htag : tag = 0
    · rw [if_pos htag]
      apply ((array_parses 32).bind fun zero => (Parses.pure none).guard).congr
      intro digest b
      grind [DigestFormat]
    · rw [if_neg htag]
      apply (array_parses 32).bind_pure.congr
      intro digest b
      grind [DigestFormat]
  apply (u8_parses.bind hbranch).congr
  intro digest b
  simp

theorem decodeFreshnessBinding_parses :
    Parses decodeFreshnessBinding fun v b =>
      ∃ digestTag c, DigestFormat digestTag v.previousGenerationDigest c ∧
        b = v.storeId.bytes ++ ((digestTag :: c) ++
          (pushU64 v.trustRootEpoch ++ pushU64 v.deploymentPolicyEpoch)) := by
  apply ((array_parses 32).bind fun storeId =>
    decodePreviousGenerationDigest_parses.bind fun digest =>
      u64_parses.bind fun root => u64_parses.bind_pure).congr
  rintro ⟨⟩ b
  simp

theorem decodeExternalFreshness_parses :
    Parses decodeExternalFreshness fun binding b => (binding = none ∧ b = [0]) ∨
      ∃ v tag digestTag c, tag ≠ 0 ∧ binding = some v ∧
        DigestFormat digestTag v.previousGenerationDigest c ∧
        b = tag :: (v.storeId.bytes ++ ((digestTag :: c) ++
          (pushU64 v.trustRootEpoch ++ pushU64 v.deploymentPolicyEpoch))) := by
  have hbranch : ∀ tag : UInt8, Parses
      (if tag = 0 then pure none else do return some (← decodeFreshnessBinding))
      fun binding b => (tag = 0 ∧ binding = none ∧ b = []) ∨
        (tag ≠ 0 ∧ ∃ v, (∃ digestTag c, DigestFormat digestTag v.previousGenerationDigest c ∧
          b = v.storeId.bytes ++ ((digestTag :: c) ++
            (pushU64 v.trustRootEpoch ++ pushU64 v.deploymentPolicyEpoch))) ∧
          binding = some v) := by
    intro tag
    by_cases htag : tag = 0
    · rw [if_pos htag]
      apply (Parses.pure none).congr
      intro binding b
      grind
    · rw [if_neg htag]
      apply decodeFreshnessBinding_parses.bind_pure.congr
      intro binding b
      grind
  apply (u8_parses.bind hbranch).congr
  intro binding b
  aesop

theorem le_one_iff_of_ne_zero {tag : UInt8} (h : tag ≠ 0) : tag ≤ 1 ↔ tag = 1 := by
  constructor
  · intro hle
    have hpos : tag.toNat ≠ 0 := fun h0 => h (UInt8.toNat_inj.mp h0)
    rw [UInt8.le_iff_toNat_le] at hle
    apply UInt8.toNat_inj.mp
    have : (1 : UInt8).toNat = 1 := rfl
    omega
  · rintro rfl
    exact UInt8.le_refl 1

theorem encodeExternalFreshness_iff {binding : Option DurableExternalFreshnessBinding}
    (h : Decoder.finish "trailing bytes in mutation payload" decodeExternalFreshness bytes =
      .ok binding) :
    encodeExternalFreshness binding = bytes ↔ FreshnessTagsCanonical bytes := by
  rcases decodeExternalFreshness_parses.finish.mp h with
    ⟨rfl, rfl⟩ | ⟨v, tag, digestTag, c, htag, rfl, hdigest, rfl⟩
  · exact ⟨fun _ => ⟨by decide, by decide⟩, fun _ => rfl⟩
  have hsecond : (tag :: (v.storeId.bytes ++ ((digestTag :: c) ++
      (pushU64 v.trustRootEpoch ++ pushU64 v.deploymentPolicyEpoch)))).getD 33 0 = digestTag := by
    rw [getD_cons_succ, getD_eq_getElem?_getD,
      getElem?_append_right (by rw [v.storeId.length_eq]), v.storeId.length_eq]
    rfl
  rw [FreshnessTagsCanonical, hsecond]
  show _ ↔ tag ≤ 1 ∧ digestTag ≤ 1
  rw [le_one_iff_of_ne_zero htag]
  rcases hdigest with ⟨rfl, hnone, rfl⟩ | ⟨hne, d, hsome, rfl⟩
  · rw [encodeExternalFreshness, hnone]
    constructor
    · intro heq
      exact ⟨(List.cons.inj heq).1.symm, by decide⟩
    · rintro ⟨rfl, -⟩
      rfl
  · rw [encodeExternalFreshness, hsome, le_one_iff_of_ne_zero hne]
    constructor
    · intro heq
      obtain ⟨htag, hrest⟩ := List.cons.inj heq
      have hafter := append_cancel_left hrest
      exact ⟨htag.symm, (List.cons.inj hafter).1.symm⟩
    · rintro ⟨rfl, rfl⟩
      rfl

/-! ### The revision effect state -/

def EffectIdsFormat (ids : ExtTreeSet RevisionEffectId) (bytes : List UInt8) : Prop :=
  ∃ l : List RevisionEffectId, (Ascending id none l ∧ Sequence (fun e b => b = pushU128 e) l bytes) ∧
    ids = ExtTreeSet.ofList l

theorem decodeEffectIds_parses (unsorted : String) :
    Parses (decodeEffectIds unsorted) EffectIdsFormat := by
  have hentry : ∀ previous : Option RevisionEffectId, Parses (do
      let effect ← u128
      if ascends previous effect then pure effect else throw unsorted)
      fun e b => ascends previous (id e) ∧ b = pushU128 e := by
    intro previous
    apply (u128_parses.bind fun effect => (Parses.pure effect).guard).congr
    intro e b
    simp
  exact (keyedSequence_parses hentry).bind_pure

theorem encodeEffectIds_of_format {ids : ExtTreeSet RevisionEffectId}
    (h : EffectIdsFormat ids bytes) : encodeEffectIds ids = .ok bytes := by
  obtain ⟨l, ⟨hsorted, hl⟩, rfl⟩ := h
  rw [encodeEffectIds, set_toList_ofList (ascending_iff_pairwise.mp hsorted), pushSequence_eq_ok]
  apply hl.mono
  rintro e - b rfl
  rfl

theorem decodeFrontier_parses (previous : Option RevisionId) :
    Parses (decodeFrontier previous) fun entry b => ascends previous entry.1 ∧
      ∃ c, EffectIdsFormat entry.2 c ∧ b = pushU64 entry.1 ++ c := by
  apply (u64_parses.bind fun revision =>
    (decodeEffectIds_parses _).bind_pure.guard).congr
  rintro ⟨⟩ b
  simp [and_assoc]

theorem decodeCausalCoverageRoot_parses :
    Parses decodeCausalCoverageRoot fun root b => b = encodeCausalCoverageRoot root := by
  apply (flag_parses (Parses.pure _) u64_parses.bind_pure).congr
  intro root b
  constructor
  · rintro (⟨_, ⟨rfl, rfl⟩, rfl⟩ | ⟨_, ⟨x, rfl, rfl⟩, rfl⟩)
    · rfl
    · rfl
  · rintro rfl
    cases root with
    | none => exact .inl ⟨[], ⟨rfl, rfl⟩, rfl⟩
    | some root => exact .inr ⟨_, ⟨root, rfl, rfl⟩, rfl⟩

section
variable [PayloadTypes] (I J : DurableTransactionIntent → List UInt8 → Prop)
  (C D : Change → List UInt8 → Prop)

def EffectFormat (effect : DurableRevisionEffectRecord) (bytes : List UInt8) : Prop :=
  ∃ prerequisites intent change, EffectIdsFormat effect.prerequisites prerequisites ∧
    I effect.intent intent ∧ C effect.change change ∧ effect.validateIdentity = .ok () ∧
    bytes = pushU128 effect.id ++ (prerequisites ++ (pushU64 effect.transactionEpoch ++
      (pushU128 effect.transactionId ++ (intent ++ (change ++
        (pushU64 effect.sourceRevision ++ pushU64 effect.targetRevision))))))

def StateFormat (state : RevisionEffectState) (bytes : List UInt8) : Prop :=
  ∃ effects be bf frontiers, Ascending DurableRevisionEffectRecord.id none effects ∧
    Sequence (EffectFormat I C) effects be ∧ Ascending Prod.fst none frontiers ∧
    Sequence (fun entry b => ∃ c, EffectIdsFormat entry.2 c ∧ b = pushU64 entry.1 ++ c)
      frontiers bf ∧
    state.effects = ofList (effects.map fun effect => (effect.id, effect)) ∧
    state.frontiers = ofList frontiers ∧
    bytes = encodeCausalCoverageRoot state.causalCoverageRoot ++ (be ++ bf)

variable {I J C D}

theorem StateFormat.mono {state : RevisionEffectState} (hI : ∀ x b, I x b → J x b)
    (hC : ∀ x b, C x b → D x b) (h : StateFormat I C state bytes) : StateFormat J D state bytes := by
  obtain ⟨effects, be, bf, frontiers, hsorted, he, hrest⟩ := h
  refine ⟨effects, be, bf, frontiers, hsorted, he.mono ?_, hrest⟩
  rintro effect - b ⟨bp, bi, bc, hp, hi, hc, hvalid⟩
  exact ⟨bp, bi, bc, hp, hI _ _ hi, hC _ _ hc, hvalid⟩

end

section
variable [PayloadCodec] {I : DurableTransactionIntent → List UInt8 → Prop}
  {C : Change → List UInt8 → Prop}

section
variable (hI : Parses decodeTransactionIntent I) (hC : Parses decodeRevisionChange C)
include hI hC

theorem decodeRevisionEffect_parses (previous : Option RevisionEffectId) :
    Parses (decodeRevisionEffect previous) fun effect b =>
      ascends previous effect.id ∧ EffectFormat I C effect b := by
  apply (u128_parses.bind fun id => ((decodeEffectIds_parses _).bind fun prerequisites =>
    u64_parses.bind fun transactionEpoch => u128_parses.bind fun transactionId =>
      hI.bind fun intent => hC.bind fun change => u64_parses.bind fun sourceRevision =>
        u64_parses.bind fun targetRevision => (Parses.lift _).bind fun _ =>
          Parses.pure _).guard).congr
  rintro ⟨⟩ b
  simp [EffectFormat, and_assoc, Unique.exists_iff]

theorem decodeRevisionEffectState_parses : Parses decodeRevisionEffectState (StateFormat I C) := by
  apply (decodeCausalCoverageRoot_parses.bind fun root =>
    (keyedSequence_parses (decodeRevisionEffect_parses hI hC)).bind fun effects =>
      (keyedSequence_parses decodeFrontier_parses).bind_pure).congr
  rintro ⟨⟩ b
  simp [StateFormat, and_assoc]

end

section
variable (hI : ∀ x b, I x b → encodeTransactionIntent x = .ok b)
  (hC : ∀ x b, C x b → encodeRevisionChange x = .ok b)
include hI hC

theorem encodeRevisionEffect_of_format {effect : DurableRevisionEffectRecord}
    (h : EffectFormat I C effect bytes) :
    encodeRevisionEffect effect.id effect = .ok bytes := by
  obtain ⟨bp, bi, bc, hp, hi, hc, hvalid, rfl⟩ := h
  rw [encodeRevisionEffect, hvalid]
  rw [if_neg (not_not_intro rfl), encodeEffectIds_of_format hp, hI _ _ hi, hC _ _ hc]
  rfl

/-- Every order, tag and identity check of the encoder is made again by the
decoder. -/
theorem encodeRevisionEffectState_of_format {state : RevisionEffectState}
    (h : StateFormat I C state bytes) : encodeRevisionEffectState state = .ok bytes := by
  obtain ⟨effects, be, bf, frontiers, heffects, he, hfrontiers, hf, heq, hfeq, rfl⟩ := h
  have heffectsList : state.effects.toList = effects.map fun effect => (effect.id, effect) := by
    rw [heq]
    apply toList_ofList
    rw [pairwise_map]
    exact ascending_iff_pairwise.mp heffects
  have hfrontiersList : state.frontiers.toList = frontiers := by
    rw [hfeq]
    exact toList_ofList (ascending_iff_pairwise.mp hfrontiers)
  have hbe : pushSequence (fun (id, effect) => encodeRevisionEffect id effect)
      state.effects.toList = .ok be := by
    rw [heffectsList, pushSequence_eq_ok, sequence_map]
    exact he.mono fun effect _ b hb => encodeRevisionEffect_of_format hI hC hb
  have hbf : pushSequence (fun (revision, frontier) => do
      return pushU64 revision ++ (← encodeEffectIds frontier)) state.frontiers.toList = .ok bf := by
    rw [hfrontiersList, pushSequence_eq_ok]
    apply hf.mono
    rintro entry - b ⟨c, hc, rfl⟩
    exact prefixed_eq_ok.mpr ⟨c, encodeEffectIds_of_format hc, rfl⟩
  rw [encodeRevisionEffectState, hbe, hbf]
  rfl

end

theorem encodeRevisionEffectState_of_payloadsReencode (hI : Parses decodeTransactionIntent I)
    (hC : Parses decodeRevisionChange C) {state : RevisionEffectState}
    (h : Decoder.finish "trailing bytes in mutation payload" decodeRevisionEffectState bytes =
      .ok state) (hpayloads : PayloadsReencode bytes) :
    encodeRevisionEffectState state = .ok bytes := by
  obtain ⟨state', hstrict⟩ := hpayloads
  have hformat := (@decodeRevisionEffectState_parses reencodedCodec _ _ hI.reencoded
    hC.reencoded).finish.mp hstrict
  obtain rfl := (decodeRevisionEffectState_parses hI hC).unique
    (hformat.mono (fun _ _ h => h.1) fun _ _ h => h.1)
    ((decodeRevisionEffectState_parses hI hC).finish.mp h)
  exact encodeRevisionEffectState_of_format (fun _ _ h => h.2) (fun _ _ h => h.2) hformat

/-- What the three decoders accept as a whole is what the encoders write, but for anchors out of
order, for intents and changes that are not written as they were read, and for tags above 1 in a
freshness binding. The codecs of intents and changes only have to leave alone what follows. -/
theorem causal_metadata_reencode_iff (hintent : ∃ I, Parses decodeTransactionIntent I)
    (hchange : ∃ C, Parses decodeRevisionChange C) (bytes : List UInt8) :
    (∀ anchors, Decoder.finish "trailing bytes in mutation payload" decodeHistoricalEpochAnchors
        bytes = .ok anchors →
      (encodeHistoricalEpochAnchors anchors = .ok bytes ↔ AnchorsSorted bytes)) ∧
    (∀ state, Decoder.finish "trailing bytes in mutation payload" decodeRevisionEffectState
        bytes = .ok state → PayloadsReencode bytes → encodeRevisionEffectState state = .ok bytes) ∧
    (∀ binding, Decoder.finish "trailing bytes in mutation payload" decodeExternalFreshness
        bytes = .ok binding →
      (encodeExternalFreshness binding = bytes ↔ FreshnessTagsCanonical bytes)) := by
  obtain ⟨I, hI⟩ := hintent
  obtain ⟨C, hC⟩ := hchange
  exact ⟨fun _ h => encodeHistoricalEpochAnchors_iff h,
    fun _ h => encodeRevisionEffectState_of_payloadsReencode hI hC h,
    fun _ h => encodeExternalFreshness_iff h⟩

end

section
attribute [local instance] emptyRelationCodec

/-- One effect, from revision 5 to revision 6, and the frontiers of both. -/
def oneEffectBytes : List UInt8 :=
  1 :: (pushU64 5 ++ ((pushU32 1 ++ (pushU128 1 ++ (pushU32 0 ++ (pushU64 0 ++ (pushU128 1 ++
    (emptyStepParts 5 6 ++ (pushU64 5 ++ pushU64 6))))))) ++
    (pushU32 2 ++ (pushU64 5 ++ (pushU32 0 ++ (pushU64 6 ++ (pushU32 1 ++ pushU128 1)))))))

theorem causal_metadata_reencode_oneEffect :
    ∃ state, Decoder.finish "trailing bytes in mutation payload" decodeRevisionEffectState
        oneEffectBytes = .ok state ∧ encodeRevisionEffectState state = .ok oneEffectBytes := by
  have hintent : ∃ I, Parses decodeTransactionIntent I := by
    unfold decodeTransactionIntent emptyRelationCodec decodeEmptyRelationIntent
    exact ⟨_, u8_parses.bind fun _ => (u64_parses.bind fun _ => u64_parses.bind fun _ =>
      u64_parses.bind fun _ => u64_parses.bind fun _ => (Parses.take _ _).bind fun _ =>
        (Parses.pure _).guard).guard⟩
  have hchange : ∃ C, Parses decodeRevisionChange C := by
    unfold decodeRevisionChange emptyRelationCodec
    exact ⟨_, u8_parses.bind fun _ => (u64_parses.bind fun _ => u64_parses.bind fun _ =>
      u32_parses.bind fun _ => (Parses.pure _).guard).guard⟩
  obtain ⟨state, h⟩ := exists_ok_of_isSome (x := Decoder.finish
    "trailing bytes in mutation payload" decodeRevisionEffectState oneEffectBytes)
    (by decide +kernel)
  exact ⟨state, h, (causal_metadata_reencode_iff hintent hchange _).2.1 state h
    (exists_ok_of_isSome (by decide +kernel))⟩

end

def unsortedAnchorBytes : List UInt8 :=
  pushU32 2 ++ ((pushU128 2 ++ (pushU64 7 ++ (pushU64 3 ++ pushU64 1))) ++
    (pushU128 1 ++ (pushU64 6 ++ (pushU64 3 ++ pushU64 1))))

/-- A binding under tag 2, with a digest under tag 1. -/
def foreignTagBytes : List UInt8 :=
  2 :: ((Bytes.replicate 32 8).bytes ++ ((1 :: (Bytes.replicate 32 9).bytes) ++
    (pushU64 4 ++ pushU64 5)))

theorem causal_metadata_accepts_other_bytes :
    (∃ anchors, Decoder.finish "trailing bytes in mutation payload" decodeHistoricalEpochAnchors
        unsortedAnchorBytes = .ok anchors ∧
      encodeHistoricalEpochAnchors anchors ≠ .ok unsortedAnchorBytes) ∧
    ∃ binding, Decoder.finish "trailing bytes in mutation payload" decodeExternalFreshness
        foreignTagBytes = .ok binding ∧ encodeExternalFreshness binding ≠ foreignTagBytes :=
  ⟨⟨_, rfl, by decide +kernel⟩, _, rfl, by decide +kernel⟩

end Cfmd.Durability
