import Cfmd.Semantics.Equivalence

/-! The durable encoding of canonical keys: a self-delimiting payload for one key, and
the decoder that accepts exactly the payloads of keys within its depth. Which of those
keys are canonical is checked after decoding. -/

namespace Cfmd.Semantics
open Lib List

inductive CanonicalEqKeyCodecError
  | truncated
  | invalidMagic
  | unsupportedVersion (version : UInt32)
  | unknownTag (tag : UInt8)
  | invalidUtf8
  | lengthOverflow
  | nonCanonicalShape
  | trailingBytes
  | depthLimitExceeded
deriving DecidableEq

/-- A slice of bytes in memory. -/
def ByteSlice : Type := {bytes : List UInt8 // bytes.length < 2 ^ 64}

def canonicalEqKeyEncodingVersion : UInt32 := 1

/-- `CEK\0`. -/
def canonicalEqKeyMagic : List UInt8 := [67, 69, 75, 0]

/-- `CKT\0`. -/
def canonicalEqKeyTupleMagic : List UInt8 := [67, 75, 84, 0]

def maxCanonicalEqKeyDepth : ℕ := 256

/-! ### Encoding -/

def beU64 (value : UInt64) : List UInt8 := toBeBytes 8 value.toNat

def beId (id : Id128) : List UInt8 := toBeBytes 16 id.value.toNat

def textBytes (text : String) : List UInt8 := text.toByteArray.data.toList

/-- `u64::try_from` and `unwrap_or(u64::MAX)`. -/
def encodeLen (len : ℕ) : List UInt8 := toBeBytes 8 (min len (2 ^ 64 - 1))

def encodeStringKey (tag : UInt8) (value : String) : List UInt8 :=
  tag :: (encodeLen (textBytes value).length ++ textBytes value)

def encodeEntityKey (tag : UInt8) (entityType : SemanticId) (id : EntityId) : List UInt8 :=
  tag :: (beId entityType ++ beId id)

namespace CanonicalEqKey

mutual

def encodePayload : CanonicalEqKey → List UInt8
  | unit => [0]
  | bool value => [1, if value then 1 else 0]
  | i64 value => 2 :: beU64 value.toUInt64
  | f64Bits value => 3 :: beU64 value
  | textExact value => encodeStringKey 4 value
  | textAsciiCaseInsensitive value => encodeStringKey 5 value
  | liveEntityId entityType id => encodeEntityKey 6 entityType id
  | historicalEntityId entityType id => encodeEntityKey 7 entityType id
  | product fields => 8 :: (encodeLen fields.length ++ encodeFields fields)
  | optionNone => [9]
  | optionSome value => 10 :: encodePayload value
  | variant tag value => 11 :: (beId tag ++ encodePayload value)
  | seq values => 12 :: (encodeLen values.length ++ encodeValues values)
  | set entries => 13 :: (encodeLen entries.length ++ encodeSet entries)
  | bag entries => 14 :: (encodeLen entries.length ++ encodeBag entries)
  | map entries => 15 :: (encodeLen entries.length ++ encodeMap entries)

def encodeFields : List (SemanticId × CanonicalEqKey) → List UInt8
  | [] => []
  | (field, value) :: rest => beId field ++ encodePayload value ++ encodeFields rest

def encodeValues : List CanonicalEqKey → List UInt8
  | [] => []
  | value :: rest => encodePayload value ++ encodeValues rest

def encodeSet : FiniteMeasure CanonicalEqKey → List UInt8
  | [] => []
  | ⟨atom, multiplicity⟩ :: rest => encodePayload atom ++ beU64 multiplicity ++ encodeSet rest

def encodeBag : FiniteMeasure (BagAtom CanonicalEqKey) → List UInt8
  | [] => []
  | ⟨⟨value, storedCount⟩, multiplicity⟩ :: rest =>
    encodePayload value ++ beU64 storedCount ++ beU64 multiplicity ++ encodeBag rest

def encodeMap : FiniteMeasure (MapAtom CanonicalEqKey) → List UInt8
  | [] => []
  | ⟨⟨key, value⟩, multiplicity⟩ :: rest =>
    encodePayload key ++ encodePayload value ++ beU64 multiplicity ++ encodeMap rest

end

def encodeField (entry : SemanticId × CanonicalEqKey) : List UInt8 :=
  beId entry.1 ++ encodePayload entry.2

def encodeSetEntry (entry : FiniteMeasureEntry CanonicalEqKey) : List UInt8 :=
  encodePayload entry.atom ++ beU64 entry.multiplicity

def encodeBagEntry (entry : FiniteMeasureEntry CanonicalBagAtom) : List UInt8 :=
  encodePayload entry.atom.value ++ beU64 entry.atom.storedCount ++ beU64 entry.multiplicity

def encodeMapEntry (entry : FiniteMeasureEntry CanonicalMapAtom) : List UInt8 :=
  encodePayload entry.atom.key ++ encodePayload entry.atom.value ++ beU64 entry.multiplicity

theorem encodeFields_eq (fields : List (SemanticId × CanonicalEqKey)) :
    encodeFields fields = fields.flatMap encodeField := by
  induction fields with
  | nil => rfl
  | cons field rest ih => rw [encodeFields, ih, flatMap_cons, encodeField]

theorem encodeValues_eq (values : List CanonicalEqKey) :
    encodeValues values = values.flatMap encodePayload := by
  induction values with
  | nil => rfl
  | cons value rest ih => rw [encodeValues, ih, flatMap_cons]

theorem encodeSet_eq (entries : FiniteMeasure CanonicalEqKey) :
    encodeSet entries = entries.flatMap encodeSetEntry := by
  induction entries with
  | nil => rfl
  | cons entry rest ih => rw [encodeSet, ih, flatMap_cons, encodeSetEntry]

theorem encodeBag_eq (entries : FiniteMeasure CanonicalBagAtom) :
    encodeBag entries = entries.flatMap encodeBagEntry := by
  induction entries with
  | nil => rfl
  | cons entry rest ih => rw [encodeBag, ih, flatMap_cons, encodeBagEntry]

theorem encodeMap_eq (entries : FiniteMeasure CanonicalMapAtom) :
    encodeMap entries = entries.flatMap encodeMapEntry := by
  induction entries with
  | nil => rfl
  | cons entry rest ih => rw [encodeMap, ih, flatMap_cons, encodeMapEntry]

end CanonicalEqKey

def encodeHeader (magic : List UInt8) : List UInt8 :=
  magic ++ toBeBytes 4 canonicalEqKeyEncodingVersion.toNat

def encodeCanonicalEqKey (key : CanonicalEqKey) : List UInt8 :=
  encodeHeader canonicalEqKeyMagic ++ key.encodePayload

def encodeCanonicalEqKeyTuple (keys : List CanonicalEqKey) : List UInt8 :=
  encodeHeader canonicalEqKeyTupleMagic ++
    (encodeLen keys.length ++ keys.flatMap CanonicalEqKey.encodePayload)

/-! ### Decoding -/

namespace CanonicalKeyCursor

abbrev Cursor (α : Type) := Decoder CanonicalEqKeyCodecError α

def take (len : ℕ) : Cursor (List UInt8) := Decoder.take .truncated len

def u8 : Cursor UInt8 := Decoder.bigNumber .truncated 1 UInt8.ofNat

def u32 : Cursor UInt32 := Decoder.bigNumber .truncated 4 UInt32.ofNat

def u64 : Cursor UInt64 := Decoder.bigNumber .truncated 8 UInt64.ofNat

def u128 : Cursor Id128 := Decoder.bigNumber .truncated 16 fun x => ⟨BitVec.ofNat 128 x⟩

def len : Cursor ℕ := do return (← u64).toNat

/-- More entries than bytes are refused before the first one is read. -/
def collectionLen (minimumEntryBytes : ℕ) : Cursor ℕ := do
  let len ← len
  let remaining ← get
  if remaining.length / minimumEntryBytes < len then throw .truncated else pure len

/-- `size` is the length of the whole input, which gives the offset. -/
def string (size : ℕ) : Cursor String := do
  let len ← len
  let remaining ← get
  if 2 ^ 64 ≤ size - remaining.length + len then throw .lengthOverflow
  else
    let bytes ← take len
    Decoder.utf8 .invalidUtf8 bytes

def counted {α : Type} (minimumEntryBytes : ℕ) (entry : Cursor α) : Cursor (List α) := do
  Decoder.times entry (← collectionLen minimumEntryBytes)

end CanonicalKeyCursor

open CanonicalKeyCursor

/-- The arms after the depth check and the tag; `child` reads a key one level deeper. -/
def decodeArm (size : ℕ) (child : Cursor CanonicalEqKey) (tag : UInt8) : Cursor CanonicalEqKey :=
  match tag with
  | 0 => pure .unit
  | 1 => do
    match ← u8 with
    | 0 => pure (.bool false)
    | 1 => pure (.bool true)
    | _ => throw .nonCanonicalShape
  | 2 => do return .i64 (Int64.ofUInt64 (← u64))
  | 3 => do return .f64Bits (← u64)
  | 4 => do return .textExact (← string size)
  | 5 => do return .textAsciiCaseInsensitive (← string size)
  | 6 => do return .liveEntityId (← u128) (← u128)
  | 7 => do return .historicalEntityId (← u128) (← u128)
  | 8 => do return .product (← counted 17 do return (← u128, ← child))
  | 9 => pure .optionNone
  | 10 => do return .optionSome (← child)
  | 11 => do return .variant (← u128) (← child)
  | 12 => do return .seq (← counted 1 child)
  | 13 => do return .set (← counted 9 do return ⟨← child, ← u64⟩)
  | 14 => do return .bag (← counted 9 do return ⟨⟨← child, ← u64⟩, ← u64⟩)
  | 15 => do return .map (← counted 2 do return ⟨⟨← child, ← child⟩, ← u64⟩)
  | other => throw (.unknownTag other)

/-- `decode_canonical_eq_key_payload` with this many levels left. -/
def decodePayload (size : ℕ) : ℕ → Cursor CanonicalEqKey
  | 0 => throw .depthLimitExceeded
  | levels + 1 => do decodeArm size (decodePayload size levels) (← u8)

/-! ### Canonical shapes -/

/-- `windows(2)` with `<`. -/
def ascendingBy {α κ : Type} [Ord κ] (key : α → κ) : List α → Bool
  | [] => true
  | [_] => true
  | a :: b :: rest => (compare (key a) (key b)).isLT && ascendingBy key (b :: rest)

mutual

def shapeIsCanonical : CanonicalEqKey → Bool
  | .product fields => ascendingBy Prod.fst fields && fieldShapes fields
  | .optionSome value => shapeIsCanonical value
  | .variant _ value => shapeIsCanonical value
  | .seq values => valueShapes values
  | .set entries => ascendingBy FiniteMeasureEntry.atom entries && setShapes entries
  | .bag entries => ascendingBy FiniteMeasureEntry.atom entries && bagShapes entries
  | .map entries => ascendingBy FiniteMeasureEntry.atom entries && mapShapes entries
  | .textAsciiCaseInsensitive value => decide (value = toAsciiLowercase value)
  | .unit | .bool _ | .i64 _ | .f64Bits _ | .textExact _ | .liveEntityId _ _
  | .historicalEntityId _ _ | .optionNone => true

def fieldShapes : List (SemanticId × CanonicalEqKey) → Bool
  | [] => true
  | (_, value) :: rest => shapeIsCanonical value && fieldShapes rest

def valueShapes : List CanonicalEqKey → Bool
  | [] => true
  | value :: rest => shapeIsCanonical value && valueShapes rest

def setShapes : FiniteMeasure CanonicalEqKey → Bool
  | [] => true
  | ⟨atom, multiplicity⟩ :: rest =>
    decide (0 < multiplicity) && shapeIsCanonical atom && setShapes rest

def bagShapes : FiniteMeasure (BagAtom CanonicalEqKey) → Bool
  | [] => true
  | ⟨⟨value, storedCount⟩, multiplicity⟩ :: rest =>
    decide (0 < multiplicity) && decide (0 < storedCount) && shapeIsCanonical value &&
      bagShapes rest

def mapShapes : FiniteMeasure (MapAtom CanonicalEqKey) → Bool
  | [] => true
  | ⟨⟨key, value⟩, multiplicity⟩ :: rest =>
    decide (0 < multiplicity) && shapeIsCanonical key && shapeIsCanonical value && mapShapes rest

end

/-! ### Whole keys and tuples -/

def decodeHeader (magic : List UInt8) : Cursor Unit := do
  if (← take 4) ≠ magic then throw .invalidMagic
  else
    let version ← u32
    if version ≠ canonicalEqKeyEncodingVersion then throw (.unsupportedVersion version)
    else pure ()

def decodeRoot (size : ℕ) : Cursor CanonicalEqKey := decodePayload size (maxCanonicalEqKeyDepth + 1)

def requireCanonical (key : CanonicalEqKey) : Except CanonicalEqKeyCodecError CanonicalEqKey :=
  if shapeIsCanonical key then .ok key else .error .nonCanonicalShape

def decodeCanonicalEqKey (bytes : ByteSlice) : Except CanonicalEqKeyCodecError CanonicalEqKey := do
  let key ← Decoder.finish .trailingBytes
    (do decodeHeader canonicalEqKeyMagic; decodeRoot bytes.1.length) bytes.1
  requireCanonical key

def decodeCanonicalEqKeyTuple (bytes : ByteSlice) :
    Except CanonicalEqKeyCodecError (List CanonicalEqKey) :=
  Decoder.finish .trailingBytes (do
    decodeHeader canonicalEqKeyTupleMagic
    counted 1 do
      let key ← decodeRoot bytes.1.length
      liftM (requireCanonical key)) bytes.1

end Cfmd.Semantics
