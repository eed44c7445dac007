import Cfmd.Durability.RelationMutation
import Cfmd.Lib.MapDiff
import Cfmd.Lifecycle.Graph

/-! The patch between two database states, outside their relations: `between` finds it,
`apply_to` applies it, and a codec carries it. A patch of a set says whether the set is
there in the target, since an empty set differs from none. -/

namespace Cfmd
open Std Lifecycle List

attribute [local instance] lexOrd

/-- The relations are of any type here: a model delta leaves them alone. -/
structure FiniteModel (R : Type) where
  carriers : ExtTreeMap SemanticId (ExtTreeSet EntityId)
  fields : ExtTreeMap (SemanticId × EntityId) Value
  relations : R

structure DatabaseState (R : Type) where
  model : FiniteModel R
  lifecycle : LifecycleGraph

/-- Every field holds a value the source can build. -/
def DatabaseState.Ordered {R : Type} (state : DatabaseState R) : Prop :=
  ∀ (key : SemanticId × EntityId) value, state.model.fields[key]? = some value → value.Ordered

namespace Durability
open Lib

/-- A patch of the set under a key. -/
structure DurableSetPatch where
  key : Id128
  targetPresent : Bool
  inserted : List EntityId
  removed : List EntityId
deriving DecidableEq

/-- The key is the `carrier`. -/
abbrev DurableCarrierPatch := DurableSetPatch

/-- The key is the `parent`. -/
abbrev DurableKeepsAlivePatch := DurableSetPatch

structure DurableFieldPatch where
  field : SemanticId
  owner : EntityId
  value : Option Value
deriving DecidableEq

def DurableFieldPatch.key (patch : DurableFieldPatch) : SemanticId × EntityId :=
  (patch.field, patch.owner)

structure DurableModelDelta where
  carriers : List DurableCarrierPatch := []
  fields : List DurableFieldPatch := []
  lifecycleEntitiesInserted : List EntityId := []
  lifecycleEntitiesRemoved : List EntityId := []
  lifecycleRootsInserted : List EntityId := []
  lifecycleRootsRemoved : List EntityId := []
  lifecycleKeepsAlive : List DurableKeepsAlivePatch := []
deriving DecidableEq

namespace DurableSetPatch

/-- The patch at a key where the two maps differ. -/
def between (key : Id128) (source target : Option (ExtTreeSet EntityId)) : DurableSetPatch :=
  let sourceValues := source.getD ∅
  let targetValues := target.getD ∅
  { key
    targetPresent := target.isSome
    inserted := difference targetValues sourceValues
    removed := difference sourceValues targetValues }

def applyTo (sets : ExtTreeMap Id128 (ExtTreeSet EntityId)) (patch : DurableSetPatch) :
    ExtTreeMap Id128 (ExtTreeSet EntityId) :=
  let sets := sets.insert patch.key (editSet patch.removed patch.inserted (sets[patch.key]?.getD ∅))
  if patch.targetPresent then sets else sets.erase patch.key

end DurableSetPatch

def DurableFieldPatch.between (key : SemanticId × EntityId) (_ target : Option Value) :
    DurableFieldPatch :=
  { field := key.1, owner := key.2, value := target }

def DurableFieldPatch.applyTo (fields : ExtTreeMap (SemanticId × EntityId) Value)
    (patch : DurableFieldPatch) : ExtTreeMap (SemanticId × EntityId) Value :=
  match patch.value with
  | some value => fields.insert (patch.field, patch.owner) value
  | none => fields.erase (patch.field, patch.owner)

namespace DurableModelDelta
variable {R : Type}

def between (source target : DatabaseState R) : DurableModelDelta where
  carriers := diffWith DurableSetPatch.between source.model.carriers target.model.carriers
  fields := diffWith DurableFieldPatch.between source.model.fields target.model.fields
  lifecycleEntitiesInserted := difference target.lifecycle.entities source.lifecycle.entities
  lifecycleEntitiesRemoved := difference source.lifecycle.entities target.lifecycle.entities
  lifecycleRootsInserted := difference target.lifecycle.roots source.lifecycle.roots
  lifecycleRootsRemoved := difference source.lifecycle.roots target.lifecycle.roots
  lifecycleKeepsAlive :=
    diffWith DurableSetPatch.between source.lifecycle.keepsAlive target.lifecycle.keepsAlive

def applyTo (delta : DurableModelDelta) (state : DatabaseState R) : DatabaseState R where
  model :=
    { state.model with
      carriers := delta.carriers.foldl DurableSetPatch.applyTo state.model.carriers
      fields := delta.fields.foldl DurableFieldPatch.applyTo state.model.fields }
  lifecycle :=
    { entities := editSet delta.lifecycleEntitiesRemoved delta.lifecycleEntitiesInserted
        state.lifecycle.entities
      roots := editSet delta.lifecycleRootsRemoved delta.lifecycleRootsInserted
        state.lifecycle.roots
      keepsAlive := delta.lifecycleKeepsAlive.foldl DurableSetPatch.applyTo
        state.lifecycle.keepsAlive }

end DurableModelDelta

/-! ### The codec -/

def encodeEntities (entities : List EntityId) : Except CodecError (List UInt8) :=
  pushSequence (fun entity => .ok (pushU128 entity)) entities

def encodeBool (value : Bool) : List UInt8 := [if value then 1 else 0]

def encodeSetPatch (patch : DurableSetPatch) : Except CodecError (List UInt8) := do
  return pushU128 patch.key ++ (encodeBool patch.targetPresent ++
    ((← encodeEntities patch.inserted) ++ (← encodeEntities patch.removed)))

/-- The value of a field patch, after its tag. -/
def encodePatchValue : Option Value → Except CodecError (List UInt8)
  | none => .ok [0]
  | some value => do return 1 :: (← encodeValue value 0)

def encodeFieldPatch (patch : DurableFieldPatch) : Except CodecError (List UInt8) := do
  return pushU128 patch.field ++ (pushU128 patch.owner ++ (← encodePatchValue patch.value))

def encodeModelDelta (delta : DurableModelDelta) : Except CodecError (List UInt8) := do
  return (← pushSequence encodeSetPatch delta.carriers) ++
    ((← pushSequence encodeFieldPatch delta.fields) ++
      ((← encodeEntities delta.lifecycleEntitiesInserted) ++
        ((← encodeEntities delta.lifecycleEntitiesRemoved) ++
          ((← encodeEntities delta.lifecycleRootsInserted) ++
            ((← encodeEntities delta.lifecycleRootsRemoved) ++
              (← pushSequence encodeSetPatch delta.lifecycleKeepsAlive))))))

/-- `inserted.iter().any(|entity| removed.binary_search(entity).is_ok())`, of sorted lists. -/
def overlaps (inserted removed : List EntityId) : Bool :=
  inserted.any fun entity => removed.contains entity

namespace Source

def entities : Decoder String (List EntityId) :=
  keyedSequence id fun previous => do
    let entity ← u128
    if ascends previous entity then pure entity
    else throw "entity ids are not strictly sorted"

def bool : Decoder String Bool := flag "invalid bool encoding" (pure false) (pure true)

def setPatch (unsorted overlapping : String) (previous : Option Id128) :
    Decoder String DurableSetPatch := do
  let key ← u128
  if ascends previous key then do
    let targetPresent ← bool
    let inserted ← entities
    let removed ← entities
    if ¬ overlaps inserted removed then pure { key, targetPresent, inserted, removed }
    else throw overlapping
  else throw unsorted

def carrierPatch := setPatch "carrier patches are not strictly sorted"
  "carrier patch inserts and removes the same entity"

def keepsAlivePatch := setPatch "keeps-alive patches are not strictly sorted"
  "keeps-alive patch inserts and removes the same entity"

def patchValue : Decoder String (Option Value) :=
  flag "invalid field patch value tag" (pure none) do return some (← value 0)

def fieldPatch (previous : Option (SemanticId × EntityId)) : Decoder String DurableFieldPatch := do
  let field ← u128
  let owner ← u128
  if ascends previous (field, owner) then do
    let value ← patchValue
    pure { field, owner, value }
  else throw "field patches are not strictly sorted"

end Source

open Source in
def decodeModelDelta : Decoder String DurableModelDelta := do
  let carriers ← keyedSequence DurableSetPatch.key carrierPatch
  let fields ← keyedSequence DurableFieldPatch.key fieldPatch
  let lifecycleEntitiesInserted ← entities
  let lifecycleEntitiesRemoved ← entities
  let lifecycleRootsInserted ← entities
  let lifecycleRootsRemoved ← entities
  if ¬ (overlaps lifecycleEntitiesInserted lifecycleEntitiesRemoved ∨
      overlaps lifecycleRootsInserted lifecycleRootsRemoved) then do
    let lifecycleKeepsAlive ← keyedSequence DurableSetPatch.key keepsAlivePatch
    pure
      { carriers, fields, lifecycleEntitiesInserted, lifecycleEntitiesRemoved
        lifecycleRootsInserted, lifecycleRootsRemoved, lifecycleKeepsAlive }
  else throw "lifecycle patch inserts and removes the same entity"

/-! ### What is accepted -/

/-- Sorted, and without an entity in both lists. -/
def EditWellFormed (inserted removed : List EntityId) : Prop :=
  Ascending id none inserted ∧ Ascending id none removed ∧ ¬ overlaps inserted removed

def DurableSetPatch.WellFormed (patch : DurableSetPatch) : Prop :=
  EditWellFormed patch.inserted patch.removed

structure DurableModelDelta.WellFormed (delta : DurableModelDelta) : Prop where
  carriers : Ascending DurableSetPatch.key none delta.carriers
  carrierPatches : ∀ patch ∈ delta.carriers, patch.WellFormed
  fields : Ascending DurableFieldPatch.key none delta.fields
  fieldValues : ∀ patch ∈ delta.fields, ∀ value ∈ patch.value, value.Ordered
  entities : EditWellFormed delta.lifecycleEntitiesInserted delta.lifecycleEntitiesRemoved
  roots : EditWellFormed delta.lifecycleRootsInserted delta.lifecycleRootsRemoved
  keepsAlive : Ascending DurableSetPatch.key none delta.lifecycleKeepsAlive
  keepsAlivePatches : ∀ patch ∈ delta.lifecycleKeepsAlive, patch.WellFormed

theorem encodeEntities_eq_ok {entities : List EntityId} {bytes : List UInt8} :
    encodeEntities entities = .ok bytes ↔
      Sequence (fun entity b => b = pushU128 entity) entities bytes := by
  unfold encodeEntities
  rw [pushSequence_eq_ok]
  apply Sequence.congr
  intro entity b
  simp [eq_comm]

namespace Source

theorem entities_parses :
    Parses entities fun es b => Ascending id none es ∧ encodeEntities es = .ok b := by
  have hentry : ∀ previous : Option EntityId, Parses (ε := String) (do
      let entity ← u128
      if ascends previous entity then pure entity
      else throw "entity ids are not strictly sorted")
      fun entity b => ascends previous (id entity) ∧ b = pushU128 entity := by
    intro previous
    apply (u128_parses.bind fun entity => (Parses.pure entity).guard).congr
    intro entity b
    simp
  apply (keyedSequence_parses hentry).congr
  intro es b
  rw [encodeEntities_eq_ok]

theorem bool_reads : Parses bool fun value b => b = encodeBool value := by
  apply (flag_parses (Parses.pure false) (Parses.pure true)).congr
  intro value b
  grind [encodeBool]

theorem setPatch_parses (unsorted overlapping : String) (previous : Option Id128) :
    Parses (setPatch unsorted overlapping previous) fun patch b => ascends previous patch.key ∧
      patch.WellFormed ∧ encodeSetPatch patch = .ok b := by
  apply (u128_parses.bind fun key => (bool_reads.bind fun targetPresent =>
    entities_parses.bind fun inserted => entities_parses.bind fun removed =>
      (Parses.pure _).guard).guard).congr
  intro patch b
  unfold encodeSetPatch
  simp only [bind_eq_ok]
  constructor
  · rintro ⟨key, _, _, rfl, ⟨hlt, present, _, _, rfl, ⟨inserted, bi, _, ⟨hi, hbi⟩,
      ⟨removed, br, _, ⟨hr, hbr⟩, ⟨hdisjoint, rfl, rfl⟩, rfl⟩, rfl⟩, rfl⟩, rfl⟩
    refine ⟨hlt, ⟨hi, hr, hdisjoint⟩, bi, hbi, br, hbr, ?_⟩
    rw [append_nil]
    rfl
  · rintro ⟨hlt, ⟨hi, hr, hdisjoint⟩, bi, hbi, br, hbr, h⟩
    cases h
    exact ⟨patch.key, _, _, rfl, ⟨hlt, patch.targetPresent, _, _, rfl, ⟨patch.inserted, bi, _,
      ⟨hi, hbi⟩, ⟨patch.removed, br, [], ⟨hr, hbr⟩, ⟨hdisjoint, rfl, rfl⟩, rfl⟩, rfl⟩, rfl⟩,
      by rw [append_nil]⟩

theorem patchValue_parses : Parses patchValue fun value b =>
    (∀ v ∈ value, v.Ordered) ∧ encodePatchValue value = .ok b := by
  apply (flag_parses (Parses.pure none) (value_parses 0).bind_pure).congr
  rintro (_ | value) b
  · simp [encodePatchValue, eq_comm]
  · simp [encodePatchValue, fmap_eq_ok, and_assoc]

theorem fieldPatch_parses (previous : Option (SemanticId × EntityId)) :
    Parses (fieldPatch previous) fun patch b => ascends previous patch.key ∧
      (∀ value ∈ patch.value, value.Ordered) ∧ encodeFieldPatch patch = .ok b := by
  apply (u128_parses.bind fun field => u128_parses.bind fun owner =>
    patchValue_parses.bind_pure.guard).congr
  rintro ⟨⟩ b
  simp [encodeFieldPatch, fmap_eq_ok, DurableFieldPatch.key, and_assoc]

theorem patches_parses {α κ : Type} [Ord κ] {key : α → κ} {entry : Option κ → Decoder String α}
    {P : α → Prop} {enc : α → Except CodecError (List UInt8)}
    (h : ∀ previous, Parses (entry previous) fun a b =>
      ascends previous (key a) ∧ P a ∧ enc a = .ok b) :
    Parses (keyedSequence key entry) fun as b =>
      (Ascending key none as ∧ ∀ a ∈ as, P a) ∧ pushSequence enc as = .ok b := by
  apply (keyedSequence_parses h).congr
  intro as b
  rw [pushSequence_eq_ok, and_assoc]
  apply and_congr_right
  intro _
  constructor
  · intro hall
    refine ⟨fun a ha => ?_, hall.mono fun a _ b hb => hb.2⟩
    obtain ⟨_, hP, -⟩ := hall.exists a ha
    exact hP
  · rintro ⟨hP, hall⟩
    exact hall.mono fun a ha b hb => ⟨hP a ha, hb⟩

end Source

open Source in
theorem decodeModelDelta_parses :
    Parses decodeModelDelta fun delta b => delta.WellFormed ∧ encodeModelDelta delta = .ok b := by
  apply ((patches_parses (setPatch_parses _ _)).bind fun carriers =>
    (patches_parses fieldPatch_parses).bind fun fields => entities_parses.bind fun ei =>
      entities_parses.bind fun er => entities_parses.bind fun ri => entities_parses.bind fun rr =>
        ((patches_parses (setPatch_parses _ _)).bind_pure).guard).congr
  intro delta b
  unfold encodeModelDelta
  simp only [bind_eq_ok]
  constructor
  · rintro ⟨carriers, bc, _, ⟨hc, hbc⟩, ⟨fields, bf, _, ⟨hf, hbf⟩, ⟨ei, bei, _, ⟨hei, hbei⟩,
      ⟨er, ber, _, ⟨her, hber⟩, ⟨ri, bri, _, ⟨hri, hbri⟩, ⟨rr, brr, bk, ⟨hrr, hbrr⟩,
      ⟨hdisjoint, keeps, ⟨hk, hbk⟩, rfl⟩, rfl⟩, rfl⟩, rfl⟩, rfl⟩, rfl⟩, rfl⟩
    rw [not_or] at hdisjoint
    exact ⟨⟨hc.1, hc.2, hf.1, hf.2, ⟨hei, her, hdisjoint.1⟩, ⟨hri, hrr, hdisjoint.2⟩, hk.1, hk.2⟩,
      bc, hbc, bf, hbf, bei, hbei, ber, hber, bri, hbri, brr, hbrr, bk, hbk, rfl⟩
  · rintro ⟨h, bc, hbc, bf, hbf, bei, hbei, ber, hber, bri, hbri, brr, hbrr, bk, hbk, heq⟩
    cases heq
    obtain ⟨hei, her, hentities⟩ := h.entities
    obtain ⟨hri, hrr, hroots⟩ := h.roots
    exact ⟨delta.carriers, bc, _, ⟨⟨h.carriers, h.carrierPatches⟩, hbc⟩, ⟨delta.fields, bf, _,
      ⟨⟨h.fields, h.fieldValues⟩, hbf⟩, ⟨_, bei, _, ⟨hei, hbei⟩, ⟨_, ber, _, ⟨her, hber⟩,
        ⟨_, bri, _, ⟨hri, hbri⟩, ⟨_, brr, bk, ⟨hrr, hbrr⟩, ⟨not_or.mpr ⟨hentities, hroots⟩,
          delta.lifecycleKeepsAlive, ⟨⟨h.keepsAlive, h.keepsAlivePatches⟩, hbk⟩, rfl⟩, rfl⟩, rfl⟩,
            rfl⟩, rfl⟩, rfl⟩, rfl⟩

/-! ### The difference of two states -/

variable {R : Type} {source target : DatabaseState R}

theorem DurableSetPatch.foldl_between
    {source target : ExtTreeMap Id128 (ExtTreeSet EntityId)} :
    (diffWith between source target).foldl applyTo source = target := by
  apply foldl_diffWith
  · intro sets key set
    unfold applyTo between
    cases set with
    | none => simp
    | some set => simp [editSet_difference]
  · intro sets key before after key' hne
    unfold applyTo between
    split_ifs
    · simp [ExtTreeMap.getElem?_insert, hne]
    · simp [ExtTreeMap.getElem?_insert, ExtTreeMap.getElem?_erase, hne]

theorem DurableFieldPatch.foldl_between
    {source target : ExtTreeMap (SemanticId × EntityId) Value} :
    (diffWith between source target).foldl applyTo source = target := by
  apply foldl_diffWith
  · intro fields key value
    unfold applyTo between
    cases value with
    | none | some value => simp
  · intro fields key before after key' hne
    unfold applyTo between
    cases after with
    | none => simp [ExtTreeMap.getElem?_erase, hne]
    | some value => simp [ExtTreeMap.getElem?_insert, hne]

namespace DurableModelDelta

theorem applyTo_between : (between source target).applyTo source =
    { model := { target.model with relations := source.model.relations }
      lifecycle := target.lifecycle } := by
  unfold applyTo between
  rw [DurableSetPatch.foldl_between, DurableFieldPatch.foldl_between, editSet_difference,
    editSet_difference, DurableSetPatch.foldl_between]

theorem between_eq_empty : between source target = {} ↔
    source.model.carriers = target.model.carriers ∧ source.model.fields = target.model.fields ∧
      source.lifecycle = target.lifecycle := by
  have hlifecycle : source.lifecycle = target.lifecycle ↔
      source.lifecycle.entities = target.lifecycle.entities ∧
      source.lifecycle.roots = target.lifecycle.roots ∧
      source.lifecycle.keepsAlive = target.lifecycle.keepsAlive := by
    rw [LifecycleGraph.mk.injEq]
  unfold between
  rw [DurableModelDelta.mk.injEq, diffWith_eq_nil, diffWith_eq_nil, diffWith_eq_nil, hlifecycle,
    ← difference_eq_nil, ← difference_eq_nil]
  tauto

theorem editWellFormed_difference {before after : ExtTreeSet EntityId} :
    EditWellFormed (difference after before) (difference before after) := by
  refine ⟨ascending_difference, ascending_difference, ?_⟩
  unfold overlaps
  rw [any_eq_true]
  rintro ⟨entity, hinserted, hremoved⟩
  rw [contains_iff_mem, mem_difference] at hremoved
  rw [mem_difference] at hinserted
  exact hinserted.2 hremoved.1

theorem wellFormed_of_mem_between {before after : ExtTreeMap Id128 (ExtTreeSet EntityId)}
    {patch : DurableSetPatch} (h : patch ∈ diffWith DurableSetPatch.between before after) :
    patch.WellFormed := by
  obtain ⟨key, -, rfl⟩ := mem_diffWith.mp h
  exact editWellFormed_difference

theorem wellFormed_between (hordered : target.Ordered) : (between source target).WellFormed where
  carriers := ascending_diffWith fun _ _ _ => rfl
  carrierPatches := fun _ => wellFormed_of_mem_between
  fields := ascending_diffWith fun _ _ _ => rfl
  fieldValues := by
    intro patch hpatch value hvalue
    obtain ⟨key, -, rfl⟩ := mem_diffWith.mp hpatch
    exact hordered key value hvalue
  entities := editWellFormed_difference
  roots := editWellFormed_difference
  keepsAlive := ascending_diffWith fun _ _ _ => rfl
  keepsAlivePatches := fun _ => wellFormed_of_mem_between

/-- The difference leads from the source to the target and back, is empty only for equal parts,
and is read back as it was written. -/
theorem between_exact (source target : DatabaseState R) (hordered : target.Ordered) :
    (((between source target).applyTo source).model.carriers = target.model.carriers ∧
      ((between source target).applyTo source).model.fields = target.model.fields ∧
      ((between source target).applyTo source).lifecycle = target.lifecycle) ∧
    (between source target = {} ↔
      source.model.carriers = target.model.carriers ∧ source.model.fields = target.model.fields ∧
        source.lifecycle = target.lifecycle) ∧
    (between target source).applyTo ((between source target).applyTo source) = source ∧
    ∀ bytes, encodeModelDelta (between source target) = .ok bytes →
      ∀ rest, decodeModelDelta (bytes ++ rest) = .ok (between source target, rest) := by
  refine ⟨?_, between_eq_empty, ?_, ?_⟩
  · rw [applyTo_between]
    exact ⟨rfl, rfl, rfl⟩
  · -- the way back does not look at the relations
    have hback : between target source =
        between ((between source target).applyTo source) source := by
      rw [applyTo_between]
      rfl
    rw [hback, applyTo_between, applyTo_between]
  · intro bytes hencode rest
    exact (decodeModelDelta_parses _ _ _).mpr ⟨bytes, ⟨wellFormed_between hordered, hencode⟩, rfl⟩

/-- A carrier that is there and empty, and an entity with a field that keeps nothing alive. -/
def carriedState : DatabaseState Unit where
  model :=
    { carriers := (ExtTreeMap.empty.insert 1 ∅).insert 2 (ExtTreeSet.empty.insert 7)
      fields := ExtTreeMap.empty.insert (3, 7) (.bool true)
      relations := () }
  lifecycle :=
    { entities := ExtTreeSet.empty.insert 7
      roots := ExtTreeSet.empty.insert 7
      keepsAlive := ExtTreeMap.empty.insert 7 ∅ }

def emptyState : DatabaseState Unit where
  model := { carriers := ∅, fields := ∅, relations := () }
  lifecycle := { entities := ∅, roots := ∅, keepsAlive := ∅ }

theorem between_exact_carriedState :
    ((between emptyState carriedState).applyTo emptyState).model.carriers =
      carriedState.model.carriers ∧
    ∃ bytes, encodeModelDelta (between emptyState carriedState) = .ok bytes ∧
      decodeModelDelta (bytes ++ [9]) = .ok (between emptyState carriedState, [9]) := by
  have hordered : carriedState.Ordered := by
    intro key value hvalue
    have hmem := ExtTreeMap.mem_toList_iff_getElem?_eq_some.mpr hvalue
    have hlist : carriedState.model.fields.toList = [((3, 7), .bool true)] := by decide +kernel
    rw [hlist, mem_singleton, Prod.mk.injEq] at hmem
    rw [hmem.2]
    exact Value.ordered_iff.mpr ⟨trivial, nofun⟩
  have hencode : ∃ bytes, encodeModelDelta (between emptyState carriedState) = .ok bytes :=
    exists_ok_of_isSome (by decide +kernel)
  obtain ⟨bytes, hbytes⟩ := hencode
  obtain ⟨⟨hcarriers, -, -⟩, -, -, hdecode⟩ := between_exact emptyState carriedState hordered
  exact ⟨hcarriers, bytes, hbytes, hdecode bytes hbytes [9]⟩

end DurableModelDelta

end Durability

end Cfmd
