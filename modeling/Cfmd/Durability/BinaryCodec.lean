import Cfmd.Durability.Types
import Cfmd.Model.Value

/-! The binary format of values: `encode_value` and `BinarySource::value`, which
count the same levels and accept the same byte strings. -/

namespace Cfmd.Durability
open Lib List

def maxCollectionLen : ℕ := 1000000

def maxValueDepth : ℕ := 128

def pushU32 (value : UInt32) : List UInt8 := toLeBytes 4 value.toNat

def pushU64 (value : UInt64) : List UInt8 := toLeBytes 8 value.toNat

def pushU128 (id : Id128) : List UInt8 := toLeBytes 16 id.value.toNat

def pushLen (value : ℕ) : Except CodecError (List UInt8) :=
  if value > maxCollectionLen then .error .collectionTooLarge
  else .ok (pushU32 (UInt32.ofNat value))

def pushBytes (bytes : List UInt8) : Except CodecError (List UInt8) := do
  return (← pushLen bytes.length) ++ bytes

def pushSequence {α : Type} (enc : α → Except CodecError (List UInt8)) (values : List α) :
    Except CodecError (List UInt8) := do
  return (← pushLen values.length) ++ (← writeAll enc values)

/-- The arms of `encode_value`, with this many levels left below the depth
limit. -/
def encodeValueWithin : ℕ → Value → Except CodecError (List UInt8)
  | 0, _ => .error .valueNestingTooDeep
  | levels + 1, value =>
    match value with
    | .unit => .ok [0]
    | .bool value => .ok [1, if value then 1 else 0]
    | .i64 value => .ok (2 :: pushU64 value.toUInt64)
    | .f64Bits value => .ok (3 :: pushU64 value)
    | .text value => do return 4 :: (← pushBytes value.toByteArray.data.toList)
    | .liveEntityRef entityType id => .ok (5 :: (pushU128 entityType ++ pushU128 id))
    | .historicalEntityId entityType id => .ok (6 :: (pushU128 entityType ++ pushU128 id))
    | .product fields => do
      return 7 :: (← pushSequence (fun entry => do
        return pushU128 entry.1 ++ (← encodeValueWithin levels entry.2)) fields)
    | .option none => .ok [8, 0]
    | .option (some value) => do return 8 :: 1 :: (← encodeValueWithin levels value)
    | .variant tag value => do return 9 :: (pushU128 tag ++ (← encodeValueWithin levels value))
    | .seq values => do return 10 :: (← pushSequence (encodeValueWithin levels) values)
    | .set equivalence elements => do
      return 11 :: (pushU128 equivalence ++ (← pushSequence (encodeValueWithin levels) elements))
    | .bag equivalence entries => do
      return 12 :: (pushU128 equivalence ++ (← pushSequence (fun entry => do
        return (← encodeValueWithin levels entry.1) ++ pushU64 entry.2) entries))
    | .map keyEquivalence entries => do
      return 13 :: (pushU128 keyEquivalence ++ (← pushSequence (fun entry => do
        return (← encodeValueWithin levels entry.1) ++
          (← encodeValueWithin levels entry.2)) entries))

/-- `encode_value`: fails at a depth above the limit, which its children reach
one level at a time. -/
def encodeValue (value : Value) (depth : ℕ) : Except CodecError (List UInt8) :=
  encodeValueWithin (maxValueDepth + 1 - depth) value

namespace Source

def take (n : ℕ) : Decoder String (List UInt8) := Decoder.take "truncated mutation payload" n

def u8 : Decoder String UInt8 := Decoder.number "truncated mutation payload" 1 UInt8.ofNat

def u32 : Decoder String UInt32 := Decoder.number "truncated mutation payload" 4 UInt32.ofNat

def u64 : Decoder String UInt64 := Decoder.number "truncated mutation payload" 8 UInt64.ofNat

def u128 : Decoder String Id128 :=
  Decoder.number "truncated mutation payload" 16 fun x => ⟨BitVec.ofNat 128 x⟩

def len : Decoder String ℕ := do
  let value ← u32
  if value.toNat ≤ maxCollectionLen then pure value.toNat
  else throw "collection length exceeds hard limit"

def sequence {α : Type} (d : Decoder String α) : Decoder String (List α) := do
  Decoder.times d (← len)

/-- A counted list with a check of each entry against the key before it. -/
def keyedSequence {α κ : Type} (key : α → κ) (entry : Option κ → Decoder String α) :
    Decoder String (List α) := do
  Decoder.keyed key entry (← len) none

/-- A byte that has to be 0 or 1 chooses how to go on. -/
def flag {α : Type} (invalid : String) (zero one : Decoder String α) : Decoder String α := do
  match ← u8 with
  | 0 => zero
  | 1 => one
  | _ => throw invalid

def text : Decoder String String := do
  let bytes ← take (← len)
  match String.fromUTF8? ⟨bytes.toArray⟩ with
  | some text => pure text
  | none => throw "invalid utf-8 text"

/-- The arms of `BinarySource::value` after the depth check and the tag;
`child` reads a value one level deeper. -/
def valueArm (child : Decoder String Value) (tag : UInt8) : Decoder String Value := match tag with
  | 0 => pure .unit
  | 1 => flag "invalid bool encoding" (pure (.bool false)) (pure (.bool true))
  | 2 => do return .i64 (Int64.ofUInt64 (← u64))
  | 3 => do return .f64Bits (← u64)
  | 4 => do return .text (← text)
  | 5 => do return .liveEntityRef (← u128) (← u128)
  | 6 => do return .historicalEntityId (← u128) (← u128)
  | 7 => do
    return .product (← keyedSequence Prod.fst fun previous => do
      let field ← u128
      if ascends previous field then do return (field, ← child)
      else throw "product fields are not strictly sorted and unique")
  | 8 => flag "invalid option discriminant" (pure (.option none)) do
      return .option (some (← child))
  | 9 => do return .variant (← u128) (← child)
  | 10 => do return .seq (← sequence child)
  | 11 => do return .set (← u128) (← sequence child)
  | 12 => do return .bag (← u128) (← sequence do return (← child, ← u64))
  | 13 => do return .map (← u128) (← sequence do return (← child, ← child))
  | _ => throw "unknown value tag"

def valueWithin : ℕ → Decoder String Value
  | 0 => throw "value nesting exceeds hard limit"
  | levels + 1 => do valueArm (valueWithin levels) (← u8)

/-- `BinarySource::value`. -/
def value (depth : ℕ) : Decoder String Value := valueWithin (maxValueDepth + 1 - depth)

end Source

/-- The bytes of a counted list, given those of its elements. -/
def Sequence {α : Type} (W : α → List UInt8 → Prop) (values : List α) (bytes : List UInt8) :
    Prop :=
  ∃ l b, pushLen values.length = .ok l ∧ Written W values b ∧ bytes = l ++ b

/-- The format of a value after its tag, given the format of the values one level
below. -/
def ValueFormat (W : Value → List UInt8 → Prop) (tag : UInt8) (value : Value)
    (bytes : List UInt8) : Prop :=
  match tag with
  | 0 => value = .unit ∧ bytes = []
  | 1 => ∃ b, value = .bool b ∧ bytes = [if b then 1 else 0]
  | 2 => ∃ n, value = .i64 n ∧ bytes = pushU64 n.toUInt64
  | 3 => ∃ n, bytes = pushU64 n ∧ value = .f64Bits n
  | 4 => ∃ t, pushBytes t.toByteArray.data.toList = .ok bytes ∧ value = .text t
  | 5 => ∃ t i, value = .liveEntityRef t i ∧ bytes = pushU128 t ++ pushU128 i
  | 6 => ∃ t i, value = .historicalEntityId t i ∧ bytes = pushU128 t ++ pushU128 i
  | 7 => ∃ fs, value = .product fs ∧ Ascending Prod.fst none fs ∧
      Sequence (fun e b => ∃ c, W e.2 c ∧ b = pushU128 e.1 ++ c) fs bytes
  | 8 => (value = .option none ∧ bytes = [0]) ∨
      ∃ v b, value = .option (some v) ∧ W v b ∧ bytes = 1 :: b
  | 9 => ∃ t v b, value = .variant t v ∧ W v b ∧ bytes = pushU128 t ++ b
  | 10 => ∃ vs, Sequence W vs bytes ∧ value = .seq vs
  | 11 => ∃ e vs b, value = .set e vs ∧ Sequence W vs b ∧ bytes = pushU128 e ++ b
  | 12 => ∃ e es b, value = .bag e es ∧
      Sequence (fun e b => ∃ c, W e.1 c ∧ b = c ++ pushU64 e.2) es b ∧ bytes = pushU128 e ++ b
  | 13 => ∃ e es b, value = .map e es ∧
      Sequence (fun e b => ∃ c c', W e.1 c ∧ W e.2 c' ∧ b = c ++ c') es b ∧ bytes = pushU128 e ++ b
  | _ => False

variable {bytes : List UInt8} {levels : ℕ} {α : Type} {values : List α}

theorem pushLen_eq_ok {n : ℕ} :
    pushLen n = .ok bytes ↔ n ≤ maxCollectionLen ∧ bytes = pushU32 (UInt32.ofNat n) := by
  unfold pushLen
  split
  · exact ⟨nofun, fun h => by omega⟩
  · exact ⟨fun h => by cases h; exact ⟨by omega, rfl⟩, fun h => by rw [h.2]⟩

section
variable {x y : Except CodecError (List UInt8)} {out bytes : List UInt8}

theorem prefixed_eq_ok :
    (do return out ++ (← x)) = Except.ok bytes ↔ ∃ b, x = .ok b ∧ bytes = out ++ b := by
  rw [bind_eq_ok]
  exact exists_congr fun b => and_congr_right fun _ => ⟨fun h => by cases h; rfl, fun h => by rw [h]; rfl⟩

theorem suffixed_eq_ok :
    (do return (← x) ++ out) = Except.ok bytes ↔ ∃ b, x = .ok b ∧ bytes = b ++ out := by
  rw [bind_eq_ok]
  exact exists_congr fun b => and_congr_right fun _ => ⟨fun h => by cases h; rfl, fun h => by rw [h]; rfl⟩

theorem joined_eq_ok :
    (do return (← x) ++ (← y)) = Except.ok bytes ↔
      ∃ b c, x = .ok b ∧ y = .ok c ∧ bytes = b ++ c := by
  simp only [bind_eq_ok]
  constructor
  · rintro ⟨b, hb, c, hc, h⟩
    cases h
    exact ⟨b, c, hb, hc, rfl⟩
  · rintro ⟨b, c, hb, hc, rfl⟩
    exact ⟨b, hb, c, hc, rfl⟩

end

theorem pushBytes_eq_ok {bs : List UInt8} :
    pushBytes bs = .ok bytes ↔ ∃ l, pushLen bs.length = .ok l ∧ bytes = l ++ bs :=
  suffixed_eq_ok

theorem pushSequence_eq_ok {enc : α → Except CodecError (List UInt8)} :
    pushSequence enc values = .ok bytes ↔ Sequence (fun a b => enc a = .ok b) values bytes := by
  unfold pushSequence
  rw [joined_eq_ok]
  simp only [Sequence, writeAll_eq_ok]

namespace Source

theorem u8_parses : Parses u8 fun x b => b = [x] := by
  apply (Parses.number _ 1 UInt8.toNat_lt (fun _ => UInt8.ofNat_toNat) fun x h => ?_).congr
  · intro x b
    rw [toLeBytes, toLeBytes, UInt8.ofNat_toNat]
  · rw [UInt8.toNat_ofNat', Nat.mod_eq_of_lt (by omega)]

theorem u32_parses : Parses u32 fun x b => b = pushU32 x :=
  Parses.number _ 4 UInt32.toNat_lt (fun _ => UInt32.ofNat_toNat) fun x h => by
    rw [UInt32.toNat_ofNat', Nat.mod_eq_of_lt (by omega)]

theorem u64_parses : Parses u64 fun x b => b = pushU64 x :=
  Parses.number _ 8 UInt64.toNat_lt (fun _ => UInt64.ofNat_toNat) fun x h => by
    rw [UInt64.toNat_ofNat', Nat.mod_eq_of_lt (by omega)]

theorem u128_parses : Parses u128 fun x b => b = pushU128 x :=
  Parses.number _ 16 (fun x => x.value.isLt) (fun x => by rw [BitVec.ofNat_toNat]; rfl)
    fun x h => by rw [BitVec.toNat_ofNat, Nat.mod_eq_of_lt (by omega)]

theorem len_parses : Parses len fun n b => pushLen n = .ok b := by
  apply (u32_parses.bind fun value => (Parses.pure value.toNat).guard).congr
  intro n b
  rw [pushLen_eq_ok]
  constructor
  · rintro ⟨value, b₁, _, rfl, ⟨hle, rfl, rfl⟩, rfl⟩
    exact ⟨hle, by rw [UInt32.ofNat_toNat, append_nil]⟩
  · rintro ⟨hle, rfl⟩
    have hvalue : (UInt32.ofNat n).toNat = n := by
      unfold maxCollectionLen at hle
      rw [UInt32.toNat_ofNat', Nat.mod_eq_of_lt (by omega)]
    exact ⟨UInt32.ofNat n, _, [], rfl, ⟨by rw [hvalue]; exact hle, hvalue.symm, rfl⟩,
      (append_nil _).symm⟩

theorem sequence_parses {d : Decoder String α} {W : α → List UInt8 → Prop}
    (h : Parses d W) : Parses (sequence d) (Sequence W) := by
  apply (len_parses.bind fun n => h.times n).congr
  intro values b
  simp [Sequence]

theorem keyedSequence_parses {α κ : Type} [Ord κ] {key : α → κ}
    {entry : Option κ → Decoder String α} {W : α → List UInt8 → Prop}
    (h : ∀ previous, Parses (entry previous) fun a b => ascends previous (key a) ∧ W a b) :
    Parses (keyedSequence key entry) fun as b => Ascending key none as ∧ Sequence W as b := by
  apply (len_parses.bind fun n => Parses.keyed h n none).congr
  intro values b
  grind [Sequence]

theorem text_parses : Parses text fun t b => pushBytes t.toByteArray.data.toList = .ok b := by
  apply (len_parses.bind fun n => Parses.takeUtf8 _ _ n).congr
  intro t b
  rw [pushBytes_eq_ok]
  grind

theorem flag_parses {invalid : String} {zero one : Decoder String α}
    {V₀ V₁ : α → List UInt8 → Prop} (h₀ : Parses zero V₀) (h₁ : Parses one V₁) :
    Parses (flag invalid zero one) fun y b =>
      (∃ c, V₀ y c ∧ b = 0 :: c) ∨ ∃ c, V₁ y c ∧ b = 1 :: c := by
  have harm : ∀ x : UInt8, Parses
      (match x with
        | 0 => zero
        | 1 => one
        | _ => throw invalid)
      fun y b => (x = 0 ∧ V₀ y b) ∨ (x = 1 ∧ V₁ y b) := by
    intro x
    split
    · apply h₀.congr
      intro y b
      simp
    · apply h₁.congr
      intro y b
      simp
    · apply (Parses.throw _).congr
      intro y b
      grind
  apply (u8_parses.bind harm).congr
  intro y b
  grind

section
variable {child : Decoder String Value} {W : Value → List UInt8 → Prop}

theorem bool_parses :
    Parses (flag "invalid bool encoding" (pure (.bool false)) (pure (.bool true)))
      fun v b => ∃ x, v = Value.bool x ∧ b = [if x then 1 else 0] := by
  apply (flag_parses (Parses.pure _) (Parses.pure _)).congr
  intro v b
  simp

section
variable (h : Parses child W)
include h

theorem option_parses :
    Parses (flag "invalid option discriminant" (pure (.option none)) do
        return .option (some (← child)))
      fun v b => (v = Value.option none ∧ b = [0]) ∨
        ∃ x c, v = .option (some x) ∧ W x c ∧ b = 1 :: c := by
  apply (flag_parses (Parses.pure _) h.bind_pure).congr
  intro v b
  grind

theorem product_parses :
    Parses (do
      return .product (← keyedSequence Prod.fst fun previous => do
        let field ← u128
        if ascends previous field then do return (field, ← child)
        else throw "product fields are not strictly sorted and unique") : Decoder String Value)
      fun v b => ∃ fs, v = .product fs ∧ Ascending Prod.fst none fs ∧
        Sequence (fun e b => ∃ c, W e.2 c ∧ b = pushU128 e.1 ++ c) fs b := by
  have hentry : ∀ previous : Option SemanticId, Parses (ε := String) (do
      let field ← u128
      if ascends previous field then do return (field, ← child)
      else throw "product fields are not strictly sorted and unique")
      fun e b => ascends previous e.1 ∧ ∃ c, W e.2 c ∧ b = pushU128 e.1 ++ c := by
    intro previous
    apply (u128_parses.bind fun field => h.bind_pure.guard).congr
    rintro ⟨⟩ b
    simp [and_assoc]
  apply (keyedSequence_parses hentry).bind_pure.congr
  intro v b
  grind

theorem bagEntry_parses :
    Parses (do return (← child, ← u64)) fun e b => ∃ c, W e.1 c ∧ b = c ++ pushU64 e.2 := by
  apply (h.bind fun v => u64_parses.bind_pure).congr
  rintro ⟨⟩ b
  simp

theorem mapEntry_parses :
    Parses (do return (← child, ← child)) fun e b =>
      ∃ c c', W e.1 c ∧ W e.2 c' ∧ b = c ++ c' := by
  apply (h.bind fun v => h.bind_pure).congr
  rintro ⟨⟩ b
  simp

theorem valueArm_parses (tag : UInt8) : Parses (valueArm child tag) (ValueFormat W tag) := by
  unfold valueArm
  split
  · exact Parses.pure _
  · exact bool_parses
  · apply u64_parses.bind_pure.congr
    intro v b
    constructor
    · rintro ⟨n, rfl, rfl⟩
      exact ⟨Int64.ofUInt64 n, rfl, rfl⟩
    · rintro ⟨n, rfl, rfl⟩
      exact ⟨n.toUInt64, rfl, rfl⟩
  · exact u64_parses.bind_pure
  · exact text_parses.bind_pure
  · exact u128_parses.twoKeys
  · exact u128_parses.twoKeys
  · exact product_parses h
  · exact option_parses h
  · exact u128_parses.headed h
  · exact (sequence_parses h).bind_pure
  · exact u128_parses.headed (sequence_parses h)
  · exact u128_parses.headed (sequence_parses (bagEntry_parses h))
  · exact u128_parses.headed (sequence_parses (mapEntry_parses h))
  · apply (Parses.throw _).congr
    intro v b
    simp [ValueFormat]

end

end

end Source

section
variable {W : Value → List UInt8 → Prop} {tag : UInt8} {value : Value}

theorem Sequence.mono {W V : α → List UInt8 → Prop}
    (h : ∀ a ∈ values, ∀ b, W a b → V a b) (hW : Sequence W values bytes) :
    Sequence V values bytes := by
  obtain ⟨l, b, hl, hvalues, rfl⟩ := hW
  exact ⟨l, b, hl, hvalues.mono h, rfl⟩

theorem Sequence.exists {W : α → List UInt8 → Prop}
    (hW : Sequence W values bytes) : ∀ a ∈ values, ∃ b, W a b := by
  obtain ⟨_, _, -, hvalues, -⟩ := hW
  exact hvalues.exists

theorem sequence_map {α β : Type} {W : α → List UInt8 → Prop} {f : β → α} {values : List β} :
    Sequence W (values.map f) bytes ↔ Sequence (fun b => W (f b)) values bytes := by
  simp only [Sequence, length_map, written_map]

theorem Sequence.congr {W V : α → List UInt8 → Prop} (h : ∀ a b, W a b ↔ V a b)
    (values : List α) (bytes : List UInt8) : Sequence W values bytes ↔ Sequence V values bytes :=
  ⟨mono fun a _ b => (h a b).mp, mono fun a _ b => (h a b).mpr⟩

theorem ValueFormat.mono {V : Value → List UInt8 → Prop}
    (h : ∀ child ∈ value.children, ∀ b, W child b → V child b)
    (hW : ValueFormat W tag value bytes) : ValueFormat V tag value bytes := by
  unfold ValueFormat at hW ⊢
  split at hW
  any_goals exact hW
  · obtain ⟨fs, rfl, hsorted, hfs⟩ := hW
    refine ⟨fs, rfl, hsorted, hfs.mono ?_⟩
    rintro e he b ⟨c, hc, rfl⟩
    exact ⟨c, h e.2 (mem_map_of_mem he) c hc, rfl⟩
  · obtain hnone | ⟨v, b, rfl, hv, rfl⟩ := hW
    · exact .inl hnone
    · exact .inr ⟨v, b, rfl, h v (by simp [Value.children]) b hv, rfl⟩
  · obtain ⟨t, v, b, rfl, hv, rfl⟩ := hW
    exact ⟨t, v, b, rfl, h v (by simp [Value.children]) b hv, rfl⟩
  · obtain ⟨vs, hvs, rfl⟩ := hW
    exact ⟨vs, hvs.mono h, rfl⟩
  · obtain ⟨e, vs, b, rfl, hvs, rfl⟩ := hW
    exact ⟨e, vs, b, rfl, hvs.mono h, rfl⟩
  · obtain ⟨e, es, b, rfl, hes, rfl⟩ := hW
    refine ⟨e, es, b, rfl, hes.mono ?_, rfl⟩
    rintro e he b ⟨c, hc, rfl⟩
    exact ⟨c, h e.1 (mem_map_of_mem he) c hc, rfl⟩
  · obtain ⟨e, es, b, rfl, hes, rfl⟩ := hW
    refine ⟨e, es, b, rfl, hes.mono ?_, rfl⟩
    rintro entry he b ⟨c, c', hc, hc', rfl⟩
    have hkey : entry.1 ∈ (Value.map e es).children := mem_flatMap.mpr ⟨entry, he, mem_cons_self⟩
    have hvalue : entry.2 ∈ (Value.map e es).children :=
      mem_flatMap.mpr ⟨entry, he, mem_cons_of_mem _ mem_cons_self⟩
    exact ⟨c, c', h entry.1 hkey c hc, h entry.2 hvalue c' hc', rfl⟩

theorem ValueFormat.exists (hW : ValueFormat W tag value bytes) :
    ∀ child ∈ value.children, ∃ b, W child b := by
  unfold ValueFormat at hW
  split at hW
  all_goals intro child hchild
  all_goals grind [Value.children, Sequence.exists]

theorem valueFormat_and {P : Value → Prop} :
    ValueFormat (fun v b => P v ∧ W v b) tag value bytes ↔
      (∀ child ∈ value.children, P child) ∧ ValueFormat W tag value bytes := by
  constructor
  · intro h
    have hP : ∀ child ∈ value.children, P child := by
      intro child hchild
      obtain ⟨_, hP, -⟩ := h.exists child hchild
      exact hP
    exact ⟨hP, h.mono fun child _ b hb => hb.2⟩
  · rintro ⟨hP, hW⟩
    exact hW.mono fun child hchild b hb => ⟨hP child hchild, hb⟩

theorem encodeValueWithin_succ :
    Ascending Prod.fst none value.fields ∧ encodeValueWithin (levels + 1) value = .ok bytes ↔
      ∃ tag c, bytes = tag :: c ∧
        ValueFormat (fun v b => encodeValueWithin levels v = .ok b) tag value c := by
  constructor
  · rintro ⟨hsorted, h⟩
    cases value with
    | unit => cases h; exact ⟨0, _, rfl, rfl, rfl⟩
    | bool b => cases h; exact ⟨1, _, rfl, b, rfl, rfl⟩
    | i64 n => cases h; exact ⟨2, _, rfl, n, rfl, rfl⟩
    | f64Bits n => cases h; exact ⟨3, _, rfl, n, rfl, rfl⟩
    | text t =>
      obtain ⟨b, hb, h⟩ := bind_eq_ok.mp h
      cases h
      exact ⟨4, b, rfl, t, hb, rfl⟩
    | liveEntityRef t i => cases h; exact ⟨5, _, rfl, t, i, rfl, rfl⟩
    | historicalEntityId t i => cases h; exact ⟨6, _, rfl, t, i, rfl, rfl⟩
    | product fs =>
      obtain ⟨b, hb, h⟩ := bind_eq_ok.mp h
      cases h
      refine ⟨7, b, rfl, fs, rfl, hsorted, ?_⟩
      exact (Sequence.congr (fun e b => prefixed_eq_ok) fs b).mp (pushSequence_eq_ok.mp hb)
    | option v =>
      cases v with
      | none => cases h; exact ⟨8, _, rfl, .inl ⟨rfl, rfl⟩⟩
      | some v =>
        obtain ⟨b, hb, h⟩ := bind_eq_ok.mp h
        cases h
        exact ⟨8, _, rfl, .inr ⟨v, b, rfl, hb, rfl⟩⟩
    | variant t v =>
      obtain ⟨b, hb, h⟩ := bind_eq_ok.mp h
      cases h
      exact ⟨9, _, rfl, t, v, b, rfl, hb, rfl⟩
    | seq vs =>
      obtain ⟨b, hb, h⟩ := bind_eq_ok.mp h
      cases h
      exact ⟨10, b, rfl, vs, pushSequence_eq_ok.mp hb, rfl⟩
    | set e vs =>
      obtain ⟨b, hb, h⟩ := bind_eq_ok.mp h
      cases h
      exact ⟨11, _, rfl, e, vs, b, rfl, pushSequence_eq_ok.mp hb, rfl⟩
    | bag e es =>
      obtain ⟨b, hb, h⟩ := bind_eq_ok.mp h
      cases h
      refine ⟨12, _, rfl, e, es, b, rfl, ?_, rfl⟩
      exact (Sequence.congr (fun e b => suffixed_eq_ok) es b).mp (pushSequence_eq_ok.mp hb)
    | map e es =>
      obtain ⟨b, hb, h⟩ := bind_eq_ok.mp h
      cases h
      refine ⟨13, _, rfl, e, es, b, rfl, ?_, rfl⟩
      exact (Sequence.congr (fun e b => joined_eq_ok) es b).mp (pushSequence_eq_ok.mp hb)
  · rintro ⟨tag, c, rfl, h⟩
    unfold ValueFormat at h
    split at h
    · obtain ⟨rfl, rfl⟩ := h
      exact ⟨trivial, rfl⟩
    · obtain ⟨b, rfl, rfl⟩ := h
      exact ⟨trivial, rfl⟩
    · obtain ⟨n, rfl, rfl⟩ := h
      exact ⟨trivial, rfl⟩
    · obtain ⟨n, rfl, rfl⟩ := h
      exact ⟨trivial, rfl⟩
    · obtain ⟨t, hb, rfl⟩ := h
      exact ⟨trivial, bind_eq_ok.mpr ⟨c, hb, rfl⟩⟩
    · obtain ⟨t, i, rfl, rfl⟩ := h
      exact ⟨trivial, rfl⟩
    · obtain ⟨t, i, rfl, rfl⟩ := h
      exact ⟨trivial, rfl⟩
    · obtain ⟨fs, rfl, hsorted, hb⟩ := h
      refine ⟨hsorted, bind_eq_ok.mpr ⟨c, ?_, rfl⟩⟩
      exact pushSequence_eq_ok.mpr ((Sequence.congr (fun e b => prefixed_eq_ok) fs c).mpr hb)
    · obtain ⟨rfl, rfl⟩ | ⟨v, b, rfl, hb, rfl⟩ := h
      · exact ⟨trivial, rfl⟩
      · exact ⟨trivial, bind_eq_ok.mpr ⟨b, hb, rfl⟩⟩
    · obtain ⟨t, v, b, rfl, hb, rfl⟩ := h
      exact ⟨trivial, bind_eq_ok.mpr ⟨b, hb, rfl⟩⟩
    · obtain ⟨vs, hb, rfl⟩ := h
      exact ⟨trivial, bind_eq_ok.mpr ⟨c, pushSequence_eq_ok.mpr hb, rfl⟩⟩
    · obtain ⟨e, vs, b, rfl, hb, rfl⟩ := h
      exact ⟨trivial, bind_eq_ok.mpr ⟨b, pushSequence_eq_ok.mpr hb, rfl⟩⟩
    · obtain ⟨e, es, b, rfl, hb, rfl⟩ := h
      refine ⟨trivial, bind_eq_ok.mpr ⟨b, ?_, rfl⟩⟩
      exact pushSequence_eq_ok.mpr ((Sequence.congr (fun e b => suffixed_eq_ok) es b).mpr hb)
    · obtain ⟨e, es, b, rfl, hb, rfl⟩ := h
      refine ⟨trivial, bind_eq_ok.mpr ⟨b, ?_, rfl⟩⟩
      exact pushSequence_eq_ok.mpr ((Sequence.congr (fun e b => joined_eq_ok) es b).mpr hb)
    · exact h.elim

end

/-- The decoder accepts exactly what the encoder writes for a value whose
products are sorted. -/
theorem valueWithin_parses (levels : ℕ) :
    Parses (Source.valueWithin levels) fun v b =>
      v.Ordered ∧ encodeValueWithin levels v = .ok b := by
  induction levels with
  | zero =>
    apply (Parses.throw _).congr
    exact fun v b => ⟨False.elim, fun h => nomatch h.2⟩
  | succ levels ih =>
    apply (Source.u8_parses.bind (Source.valueArm_parses ih)).congr
    intro v b
    rw [Value.ordered_iff, and_assoc, and_left_comm, encodeValueWithin_succ]
    constructor
    · rintro ⟨tag, _, c, rfl, hformat, rfl⟩
      obtain ⟨hchildren, hformat⟩ := valueFormat_and.mp hformat
      exact ⟨hchildren, tag, c, rfl, hformat⟩
    · rintro ⟨hchildren, tag, c, rfl, hformat⟩
      exact ⟨tag, _, c, rfl, valueFormat_and.mpr ⟨hchildren, hformat⟩, rfl⟩

theorem nestsWithin_of_encodeValueWithin {v : Value} (hv : v.Ordered)
    (h : encodeValueWithin (levels + 1) v = .ok bytes) : v.nestsWithin levels := by
  induction levels generalizing v bytes with
  | zero =>
    obtain ⟨tag, c, rfl, hformat⟩ := encodeValueWithin_succ.mp ⟨(Value.ordered_iff.mp hv).1, h⟩
    have hnone : v.children = [] := by
      apply eq_nil_iff_forall_not_mem.mpr
      intro child hchild
      obtain ⟨_, hok⟩ := hformat.exists child hchild
      cases hok
    rw [Value.nestsWithin, hnone]
    rfl
  | succ levels ih =>
    obtain ⟨hsorted, hchildren⟩ := Value.ordered_iff.mp hv
    obtain ⟨tag, c, rfl, hformat⟩ := encodeValueWithin_succ.mp ⟨hsorted, h⟩
    rw [Value.nestsWithin, all_eq_true]
    intro child hchild
    obtain ⟨_, hok⟩ := hformat.exists child hchild
    exact ih (hchildren child hchild) hok

theorem encodeValueWithin_of_nestsWithin {levels' : ℕ} {v : Value} (hv : v.Ordered)
    (h : encodeValueWithin (levels' + 1) v = .ok bytes) (hnests : v.nestsWithin levels) :
    encodeValueWithin (levels + 1) v = .ok bytes := by
  induction levels generalizing levels' v bytes with
  | zero =>
    obtain ⟨hsorted, -⟩ := Value.ordered_iff.mp hv
    obtain ⟨tag, c, rfl, hformat⟩ := encodeValueWithin_succ.mp ⟨hsorted, h⟩
    rw [Value.nestsWithin, List.isEmpty_iff] at hnests
    refine (encodeValueWithin_succ.mpr ⟨tag, c, rfl, hformat.mono ?_⟩).2
    rw [hnests]
    exact nofun
  | succ levels ih =>
    obtain ⟨hsorted, hchildren⟩ := Value.ordered_iff.mp hv
    obtain ⟨tag, c, rfl, hformat⟩ := encodeValueWithin_succ.mp ⟨hsorted, h⟩
    rw [Value.nestsWithin, List.all_eq_true] at hnests
    refine (encodeValueWithin_succ.mpr ⟨tag, c, rfl, hformat.mono ?_⟩).2
    intro child hchild b hb
    cases levels' with
    | zero => cases hb
    | succ levels' => exact ih (hchildren child hchild) hb (hnests child hchild)

/-- In both directions: whatever is encoded is read back with what follows left
unread, and whatever is read is exactly what the encoder writes for it. -/
theorem value_format_canonical (depth : ℕ) :
    (∀ v : {v : Value // v.Ordered}, ∀ bytes, encodeValue v.1 depth = .ok bytes →
      ∀ suffix, Source.value depth (bytes ++ suffix) = .ok (v.1, suffix)) ∧
    (∀ bytes v rest, Source.value depth bytes = .ok (v, rest) →
      v.Ordered ∧ ∃ used, bytes = used ++ rest ∧ encodeValue v depth = .ok used) ∧
    (∀ bytes bytes' v, Source.value depth bytes = .ok (v, []) →
      Source.value depth bytes' = .ok (v, []) → bytes = bytes') := by
  have hparses := valueWithin_parses (maxValueDepth + 1 - depth)
  refine ⟨?_, ?_, ?_⟩
  · intro v bytes hencode suffix
    exact (hparses _ _ _).mpr ⟨bytes, ⟨v.2, hencode⟩, rfl⟩
  · intro bytes v rest hdecode
    obtain ⟨used, ⟨hordered, hencode⟩, hbytes⟩ := (hparses _ _ _).mp hdecode
    exact ⟨hordered, used, hbytes, hencode⟩
  · intro bytes bytes' v hdecode hdecode'
    obtain ⟨used, ⟨-, hencode⟩, rfl⟩ := (hparses _ _ _).mp hdecode
    obtain ⟨used', ⟨-, hencode'⟩, rfl⟩ := (hparses _ _ _).mp hdecode'
    rw [hencode] at hencode'
    cases hencode'
    rfl

theorem value_format_canonical_product :
    ∃ v : {v : Value // v.Ordered}, ∃ bytes, encodeValue v.1 127 = .ok bytes ∧
      Source.value 127 (bytes ++ [9]) = .ok (v.1, [9]) := by
  have hordered : (Value.product [(1, .bool true), (2, .unit)]).Ordered := by
    apply Value.ordered_iff.mpr
    refine ⟨⟨rfl, by decide, trivial⟩, ?_⟩
    simp only [Value.children, List.map, forall_mem_cons]
    have hleaf : ∀ v ∈ ([] : List Value), v.Ordered := forall_mem_nil _
    exact ⟨⟨trivial, hleaf⟩, ⟨trivial, hleaf⟩, hleaf⟩
  exact ⟨⟨_, hordered⟩, _, rfl, (value_format_canonical 127).1 ⟨_, hordered⟩ _ rfl [9]⟩

end Cfmd.Durability
