import Cfmd.Durability.BinaryCodec

/-! Relation mutations in a PREPARE record. The encoder writes the value of an
object field write as a row at depth 0, the decoder reads that row at depth 1:
a value that uses the last level is written and cannot be read back. -/

namespace Cfmd.Durability
open Lib List

attribute [local instance] lexOrd

structure DurableObjectFieldWrite where
  owner : EntityId
  field : SemanticId
  value : Value

structure DurableRelationAuthorization where
  relationWrite : Bool
  objectCreate : Bool
  objectDelete : Bool
  relationshipAttach : Bool
  relationshipDetach : Bool
  relationshipMove : Bool
deriving DecidableEq

structure DurableRelationMutation where
  relation : SemanticId
  inserted : List (List Value)
  removed : List (List Value)
  objectFieldWrites : List DurableObjectFieldWrite
  authorization : DurableRelationAuthorization

def DurableObjectFieldWrite.key (write : DurableObjectFieldWrite) : EntityId × SemanticId :=
  (write.owner, write.field)

/-- Every value in the mutation is one the source can build. -/
def DurableRelationMutation.Ordered (mutation : DurableRelationMutation) : Prop :=
  (∀ row ∈ mutation.inserted, ∀ value ∈ row, value.Ordered) ∧
  (∀ row ∈ mutation.removed, ∀ value ∈ row, value.Ordered) ∧
  ∀ write ∈ mutation.objectFieldWrites, write.value.Ordered

namespace DurableRelationAuthorization

def bits (authorization : DurableRelationAuthorization) : UInt8 :=
  authorization.relationWrite.toUInt8 |||
    (authorization.objectCreate.toUInt8 <<< 1) |||
    (authorization.objectDelete.toUInt8 <<< 2) |||
    (authorization.relationshipAttach.toUInt8 <<< 3) |||
    (authorization.relationshipDetach.toUInt8 <<< 4) |||
    (authorization.relationshipMove.toUInt8 <<< 5)

def ofBits (bits : UInt8) : DurableRelationAuthorization where
  relationWrite := bits &&& ((1 : UInt8) <<< 0) != 0
  objectCreate := bits &&& ((1 : UInt8) <<< 1) != 0
  objectDelete := bits &&& ((1 : UInt8) <<< 2) != 0
  relationshipAttach := bits &&& ((1 : UInt8) <<< 3) != 0
  relationshipDetach := bits &&& ((1 : UInt8) <<< 4) != 0
  relationshipMove := bits &&& ((1 : UInt8) <<< 5) != 0

end DurableRelationAuthorization

def encodeRows (rows : List (List Value)) : Except CodecError (List UInt8) :=
  pushSequence (pushSequence fun value => encodeValue value 0) rows

/-- A counted list whose keys have to be strictly increasing. -/
def pushAscending {α κ : Type} [Ord κ] (key : α → κ) (enc : α → Except CodecError (List UInt8))
    (values : List α) : Except CodecError (List UInt8) := do
  return (← pushLen values.length) ++ (← writeAscending .collectionTooLarge key enc none values)

def encodeObjectFieldWrite (write : DurableObjectFieldWrite) : Except CodecError (List UInt8) := do
  return pushU128 write.owner ++ (pushU128 write.field ++ (← encodeRows [[write.value]]))

def encodeRelationMutation (mutation : DurableRelationMutation) :
    Except CodecError (List UInt8) := do
  return pushU128 mutation.relation ++ ((← encodeRows mutation.inserted) ++
    ((← encodeRows mutation.removed) ++
      ((← pushAscending DurableObjectFieldWrite.key encodeObjectFieldWrite
          mutation.objectFieldWrites) ++ [mutation.authorization.bits])))

def encodeRelationMutations (mutations : List DurableRelationMutation) :
    Except CodecError (List UInt8) :=
  pushAscending DurableRelationMutation.relation encodeRelationMutation mutations

namespace Source

def rows (depth : ℕ) : Decoder String (List (List Value)) := sequence (sequence (value depth))

def objectFieldWrite (previous : Option (EntityId × SemanticId)) :
    Decoder String DurableObjectFieldWrite := do
  let owner ← u128
  let field ← u128
  match ← rows 1 with
  | [[value]] =>
    if ascends previous (owner, field) then pure { owner, field, value }
    else throw "object field writes are not strictly sorted and unique"
  | _ => throw "invalid object field write value"

def relationMutation (previous : Option SemanticId) : Decoder String DurableRelationMutation := do
  let relation ← u128
  if ascends previous relation then do
    let inserted ← rows 0
    let removed ← rows 0
    let objectFieldWrites ← keyedSequence DurableObjectFieldWrite.key objectFieldWrite
    let bits ← u8
    if bits &&& ~~~0b00111111 = 0 then
      pure
        { relation, inserted, removed, objectFieldWrites
          authorization := DurableRelationAuthorization.ofBits bits }
    else throw "invalid relation authorization bits"
  else throw "relation mutations are not strictly sorted and unique"

end Source

def decodeRelationMutations : Decoder String (List DurableRelationMutation) :=
  Source.keyedSequence DurableRelationMutation.relation Source.relationMutation

/-- The bytes of one object field write, given those of values in its row. -/
def FieldWriteFormat (V : Value → List UInt8 → Prop) (write : DurableObjectFieldWrite)
    (bytes : List UInt8) : Prop :=
  ∃ c, Sequence (Sequence V) [[write.value]] c ∧
    bytes = pushU128 write.owner ++ (pushU128 write.field ++ c)

/-- The bytes of one mutation, given those of values in its rows (`V`) and in its
object field writes (`V'`). -/
def MutationFormat (V V' : Value → List UInt8 → Prop) (mutation : DurableRelationMutation)
    (bytes : List UInt8) : Prop :=
  ∃ inserted removed writes, Sequence (Sequence V) mutation.inserted inserted ∧
    Sequence (Sequence V) mutation.removed removed ∧
    Ascending DurableObjectFieldWrite.key none mutation.objectFieldWrites ∧
    Sequence (FieldWriteFormat V') mutation.objectFieldWrites writes ∧
    bytes = pushU128 mutation.relation ++ (inserted ++
      (removed ++ (writes ++ [mutation.authorization.bits])))

namespace DurableRelationAuthorization

theorem ofBits_bits (authorization : DurableRelationAuthorization) :
    authorization.bits &&& ~~~0b00111111 = 0 ∧ ofBits authorization.bits = authorization := by
  obtain ⟨a, b, c, d, e, f⟩ := authorization
  revert a b c d e f
  decide

theorem bits_ofBits (byte : UInt8) (h : byte &&& ~~~0b00111111 = 0) : (ofBits byte).bits = byte := by
  obtain ⟨⟨n⟩⟩ := byte
  revert n
  decide +kernel

end DurableRelationAuthorization

variable {bytes : List UInt8} {write : DurableObjectFieldWrite} {V : Value → List UInt8 → Prop}

theorem pushAscending_eq_ok {α κ : Type} [Ord κ] {key : α → κ}
    {enc : α → Except CodecError (List UInt8)} {values : List α} :
    pushAscending key enc values = .ok bytes ↔
      Ascending key none values ∧ Sequence (fun a b => enc a = .ok b) values bytes := by
  unfold pushAscending
  rw [joined_eq_ok]
  simp only [Sequence, writeAscending_eq_ok]
  grind

theorem encodeRows_eq_ok {rows : List (List Value)} :
    encodeRows rows = .ok bytes ↔
      Sequence (Sequence fun v b => encodeValue v 0 = .ok b) rows bytes := by
  unfold encodeRows
  rw [pushSequence_eq_ok]
  exact Sequence.congr (fun row b => pushSequence_eq_ok) rows bytes

theorem encodeObjectFieldWrite_eq_ok :
    encodeObjectFieldWrite write = .ok bytes ↔
      FieldWriteFormat (fun v b => encodeValue v 0 = .ok b) write bytes := by
  unfold encodeObjectFieldWrite FieldWriteFormat
  simp only [bind_eq_ok, ← encodeRows_eq_ok]
  apply exists_congr
  intro c
  exact and_congr_right fun _ => ⟨fun h => by cases h; rfl, fun h => by rw [h]; rfl⟩

theorem encodeRelationMutation_eq_ok {mutation : DurableRelationMutation} :
    encodeRelationMutation mutation = .ok bytes ↔
      MutationFormat (fun v b => encodeValue v 0 = .ok b) (fun v b => encodeValue v 0 = .ok b)
        mutation bytes := by
  have hwrites : ∀ b, pushAscending DurableObjectFieldWrite.key encodeObjectFieldWrite
      mutation.objectFieldWrites = .ok b ↔
        Ascending DurableObjectFieldWrite.key none mutation.objectFieldWrites ∧
        Sequence (FieldWriteFormat fun v b => encodeValue v 0 = .ok b)
          mutation.objectFieldWrites b := by
    intro b
    rw [pushAscending_eq_ok]
    exact and_congr_right fun _ =>
      Sequence.congr (fun write b => encodeObjectFieldWrite_eq_ok) _ b
  unfold encodeRelationMutation MutationFormat
  simp only [bind_eq_ok, encodeRows_eq_ok, hwrites]
  constructor
  · rintro ⟨inserted, hinserted, removed, hremoved, writes, ⟨hsorted, hw⟩, h⟩
    cases h
    exact ⟨inserted, removed, writes, hinserted, hremoved, hsorted, hw, rfl⟩
  · rintro ⟨inserted, removed, writes, hinserted, hremoved, hsorted, hw, rfl⟩
    exact ⟨inserted, hinserted, removed, hremoved, writes, ⟨hsorted, hw⟩, rfl⟩

theorem encodeRelationMutations_eq_ok {mutations : List DurableRelationMutation} :
    encodeRelationMutations mutations = .ok bytes ↔
      Ascending DurableRelationMutation.relation none mutations ∧
      Sequence (MutationFormat (fun v b => encodeValue v 0 = .ok b)
        fun v b => encodeValue v 0 = .ok b) mutations bytes := by
  unfold encodeRelationMutations
  rw [pushAscending_eq_ok]
  exact and_congr_right fun _ =>
    Sequence.congr (fun mutation b => encodeRelationMutation_eq_ok) mutations bytes

namespace Source

theorem value_parses (depth : ℕ) :
    Parses (value depth) fun v b => v.Ordered ∧ encodeValue v depth = .ok b :=
  valueWithin_parses _

theorem objectFieldWrite_parses (previous : Option (EntityId × SemanticId)) :
    Parses (objectFieldWrite previous) fun write b => ascends previous write.key ∧
      FieldWriteFormat (fun v b => v.Ordered ∧ encodeValue v 1 = .ok b) write b := by
  have harm : ∀ (owner : EntityId) (field : SemanticId) (rows : List (List Value)),
      Parses (ε := String)
        (match rows with
          | [[value]] =>
            if ascends previous (owner, field) then pure { owner, field, value }
            else throw "object field writes are not strictly sorted and unique"
          | _ => throw "invalid object field write value")
        fun (write : DurableObjectFieldWrite) b => rows = [[write.value]] ∧ ascends previous write.key ∧
          write.owner = owner ∧ write.field = field ∧ b = [] := by
    intro owner field rows
    split
    · apply (Parses.pure _).guard.congr
      intro write b
      constructor
      · rintro ⟨hlt, rfl, rfl⟩
        exact ⟨rfl, hlt, rfl, rfl, rfl⟩
      · rintro ⟨hvalue, hlt, rfl, rfl, rfl⟩
        cases hvalue
        exact ⟨hlt, rfl, rfl⟩
    · rename_i hshape
      apply (Parses.throw _).congr
      intro write b
      exact ⟨False.elim, fun h => hshape _ h.1⟩
  apply (u128_parses.bind fun owner => u128_parses.bind fun field =>
    (sequence_parses (sequence_parses (value_parses 1))).bind (harm owner field)).congr
  intro write b
  simp [FieldWriteFormat, and_assoc, and_left_comm]

theorem relationMutation_parses (previous : Option SemanticId) :
    Parses (relationMutation previous) fun mutation b => ascends previous mutation.relation ∧
      MutationFormat (fun v b => v.Ordered ∧ encodeValue v 0 = .ok b)
        (fun v b => v.Ordered ∧ encodeValue v 1 = .ok b) mutation b := by
  have hrows := sequence_parses (sequence_parses (value_parses 0))
  apply (u128_parses.bind fun relation => (hrows.bind fun inserted => hrows.bind fun removed =>
    (keyedSequence_parses objectFieldWrite_parses).bind fun writes =>
      u8_parses.bind fun bits => (Parses.pure _).guard).guard).congr
  intro mutation b
  constructor
  · rintro ⟨relation, _, _, rfl, ⟨hlt, inserted, bi, _, hi, ⟨removed, br, _, hr,
      ⟨writes, bw, _, ⟨hsorted, hw⟩, ⟨bits, _, _, rfl, ⟨hbits, rfl, rfl⟩, rfl⟩, rfl⟩, rfl⟩, rfl⟩,
      rfl⟩
    refine ⟨hlt, bi, br, bw, hi, hr, hsorted, hw, ?_⟩
    rw [DurableRelationAuthorization.bits_ofBits bits hbits]
    rfl
  · rintro ⟨hlt, bi, br, bw, hi, hr, hsorted, hw, rfl⟩
    obtain ⟨hbits, hof⟩ := DurableRelationAuthorization.ofBits_bits mutation.authorization
    refine ⟨mutation.relation, _, _, rfl, ⟨hlt, mutation.inserted, bi, _, hi, ⟨mutation.removed,
      br, _, hr, ⟨mutation.objectFieldWrites, bw, _, ⟨hsorted, hw⟩, ⟨_, _, [], rfl,
        ⟨hbits, ?_, rfl⟩, rfl⟩, rfl⟩, rfl⟩, rfl⟩, rfl⟩
    rw [hof]

end Source

theorem decodeRelationMutations_parses :
    Parses decodeRelationMutations fun mutations b =>
      Ascending DurableRelationMutation.relation none mutations ∧
      Sequence (MutationFormat (fun v b => v.Ordered ∧ encodeValue v 0 = .ok b)
        fun v b => v.Ordered ∧ encodeValue v 1 = .ok b) mutations b :=
  Source.keyedSequence_parses Source.relationMutation_parses

/-- The value of an object field write that the encoder accepts can be read at
depth 1 unless it uses the last level. -/
theorem encodeValue_one_iff {v : Value} (hv : v.Ordered) (h : encodeValue v 0 = .ok bytes) :
    encodeValue v 1 = .ok bytes ↔ v.nestsWithin 127 :=
  ⟨nestsWithin_of_encodeValueWithin hv, encodeValueWithin_of_nestsWithin hv h⟩

theorem FieldWriteFormat.exists (h : FieldWriteFormat V write bytes) : ∃ b, V write.value b := by
  obtain ⟨_, hrows, -⟩ := h
  obtain ⟨_, hrow⟩ := hrows.exists _ mem_cons_self
  exact hrow.exists _ mem_cons_self

theorem FieldWriteFormat.mono {V' : Value → List UInt8 → Prop}
    (hV : ∀ b, V write.value b → V' write.value b) (h : FieldWriteFormat V write bytes) :
    FieldWriteFormat V' write bytes := by
  obtain ⟨c, hrows, rfl⟩ := h
  refine ⟨c, hrows.mono ?_, rfl⟩
  intro row hrow b hb
  rw [mem_singleton.mp hrow] at hb ⊢
  refine hb.mono ?_
  intro v hv b hb
  rw [mem_singleton.mp hv] at hb ⊢
  exact hV b hb

/-- Mutations that were written are read back, with what follows left unread,
exactly when no object field write uses the last level. -/
theorem decodeRelationMutations_encode_iff (mutations : List DurableRelationMutation)
    (hordered : ∀ mutation ∈ mutations, mutation.Ordered) (bytes : List UInt8)
    (hencode : encodeRelationMutations mutations = .ok bytes) :
    (∀ suffix, decodeRelationMutations (bytes ++ suffix) = .ok (mutations, suffix)) ↔
      ∀ mutation ∈ mutations, ∀ write ∈ mutation.objectFieldWrites,
        write.value.nestsWithin 127 := by
  constructor
  · intro hdecode mutation hmutation write hwrite
    obtain ⟨used, ⟨-, hformat⟩, -⟩ := (decodeRelationMutations_parses _ _ _).mp (hdecode [])
    obtain ⟨_, _, _, _, -, -, -, hwrites, -⟩ := hformat.exists mutation hmutation
    obtain ⟨_, hwrite⟩ := hwrites.exists write hwrite
    obtain ⟨_, hvalue, hone⟩ := hwrite.exists
    exact nestsWithin_of_encodeValueWithin hvalue hone
  · intro hnests suffix
    obtain ⟨hsorted, hformat⟩ := encodeRelationMutations_eq_ok.mp hencode
    refine (decodeRelationMutations_parses _ _ _).mpr ⟨bytes, ⟨hsorted, hformat.mono ?_⟩, rfl⟩
    rintro mutation hmutation b ⟨inserted, removed, writes, hi, hr, hkeys, hw, rfl⟩
    obtain ⟨hinserted, hremoved, hvalues⟩ := hordered mutation hmutation
    refine ⟨inserted, removed, writes, hi.mono ?_, hr.mono ?_, hkeys, hw.mono ?_, rfl⟩
    · intro row hrow b hb
      exact hb.mono fun v hv b hok => ⟨hinserted row hrow v hv, hok⟩
    · intro row hrow b hb
      exact hb.mono fun v hv b hok => ⟨hremoved row hrow v hv, hok⟩
    · intro write hwrite b hb
      have hvalue := hvalues write hwrite
      refine hb.mono fun b hok => ⟨hvalue, ?_⟩
      exact (encodeValue_one_iff hvalue hok).mpr (hnests mutation hmutation write hwrite)

def deepOption : ℕ → Value
  | 0 => .unit
  | levels + 1 => .option (some (deepOption levels))

theorem deepOption_ordered (levels : ℕ) : (deepOption levels).Ordered := by
  induction levels with
  | zero => exact ⟨trivial, nofun⟩
  | succ levels ih => exact ⟨trivial, forall_mem_singleton.mpr ih⟩

def deepFieldWrite (levels : ℕ) : DurableRelationMutation where
  relation := 1
  inserted := []
  removed := []
  objectFieldWrites := [{ owner := 2, field := 3, value := deepOption levels }]
  authorization := ⟨true, false, false, false, false, false⟩

set_option maxRecDepth 100000 in
theorem decodeRelationMutations_encode_127 :
    ∃ bytes, encodeRelationMutations [deepFieldWrite 127] = .ok bytes ∧
      decodeRelationMutations (bytes ++ [5]) = .ok ([deepFieldWrite 127], [5]) := by
  have hordered : ∀ mutation ∈ [deepFieldWrite 127], mutation.Ordered := by
    refine forall_mem_singleton.mpr ⟨nofun, nofun, ?_⟩
    exact forall_mem_singleton.mpr (deepOption_ordered 127)
  obtain ⟨bytes, hencode⟩ : ∃ bytes, encodeRelationMutations [deepFieldWrite 127] = .ok bytes :=
    ⟨_, rfl⟩
  refine ⟨bytes, hencode, ?_⟩
  apply (decodeRelationMutations_encode_iff [deepFieldWrite 127] hordered bytes hencode).mpr
  refine forall_mem_singleton.mpr (forall_mem_singleton.mpr ?_)
  decide

set_option maxRecDepth 100000 in
theorem decodeRelationMutations_encode_128 :
    ∃ bytes, encodeRelationMutations [deepFieldWrite 128] = .ok bytes ∧
      decodeRelationMutations bytes = .error "value nesting exceeds hard limit" :=
  ⟨_, rfl, rfl⟩

end Cfmd.Durability
