import Cfmd.Semantics.KeyCodec

/-! What the key decoder accepts: the payloads of the keys whose levels and lengths fit,
and nothing else. -/

namespace Cfmd.Semantics
open Lib CanonicalKeyCursor List

/-! ### Reads of the cursor -/

variable {size : ℕ}

namespace CanonicalKeyCursor

theorem u8_parses : Parses u8 fun x b => b = [x] := by
  apply (Parses.bigNumber _ 1 UInt8.toNat_lt (fun _ => UInt8.ofNat_toNat) fun x h => ?_).congr
  · intro x b
    rw [toBeBytes, toLeBytes, toLeBytes, UInt8.ofNat_toNat, reverse_singleton]
  · rw [UInt8.toNat_ofNat', Nat.mod_eq_of_lt (by omega)]

theorem u32_parses : Parses u32 fun x b => b = toBeBytes 4 x.toNat :=
  Parses.bigNumber _ 4 UInt32.toNat_lt (fun _ => UInt32.ofNat_toNat) fun x h => by
    rw [UInt32.toNat_ofNat', Nat.mod_eq_of_lt (by omega)]

theorem u64_parses : Parses u64 fun x b => b = beU64 x :=
  Parses.bigNumber _ 8 UInt64.toNat_lt (fun _ => UInt64.ofNat_toNat) fun x h => by
    rw [UInt64.toNat_ofNat', Nat.mod_eq_of_lt (by omega)]

theorem u128_parses : Parses u128 fun x b => b = beId x :=
  Parses.bigNumber _ 16 (fun x => x.value.isLt) (fun x => by rw [BitVec.ofNat_toNat]; rfl)
    fun x h => by rw [BitVec.toNat_ofNat, Nat.mod_eq_of_lt (by omega)]

theorem encodeLen_of_lt {n : ℕ} (h : n < 2 ^ 64) : encodeLen n = toBeBytes 8 n := by
  rw [encodeLen, Nat.min_eq_left (by omega)]

theorem len_parses : Parses len fun n b => n < 2 ^ 64 ∧ b = encodeLen n := by
  apply u64_parses.bind_pure.congr
  intro n b
  constructor
  · rintro ⟨x, rfl, rfl⟩
    exact ⟨x.toNat_lt, (encodeLen_of_lt x.toNat_lt).symm⟩
  · rintro ⟨hlt, rfl⟩
    refine ⟨UInt64.ofNat n, ?_, (UInt64.toNat_ofNat_of_lt' hlt).symm⟩
    rw [encodeLen_of_lt hlt, beU64, UInt64.toNat_ofNat_of_lt' hlt]

def Counted {α : Type} (P : α → Prop) (enc : α → List UInt8) (values : List α)
    (bytes : List UInt8) : Prop :=
  values.length < 2 ^ 64 ∧ (∀ a ∈ values, P a) ∧
    bytes = encodeLen values.length ++ values.flatMap enc

theorem mul_le_length_flatMap {α : Type} {enc : α → List UInt8} {minimum : ℕ} {values : List α}
    (h : ∀ a ∈ values, minimum ≤ (enc a).length) :
    values.length * minimum ≤ (values.flatMap enc).length := by
  induction values with
  | nil => simp
  | cons a rest ih =>
    rw [forall_mem_cons] at h
    rw [flatMap_cons, length_append, length_cons, Nat.succ_mul]
    have hrest := ih h.2
    omega

theorem counted_eq {α : Type} (minimum : ℕ) (entry : Cursor α) :
    counted minimum entry = (len >>= fun n => do
      let remaining ← get
      if remaining.length / minimum < n then throw .truncated else Decoder.times entry n) := by
  simp only [counted, collectionLen, bind_assoc]
  congr
  funext n
  congr
  funext remaining
  split
  · rfl
  · rfl

/-- The early check on the length refuses nothing that could be read. -/
theorem counted_parses {α : Type} {entry : Cursor α} {P : α → Prop} {enc : α → List UInt8}
    {minimum : ℕ} (hpos : 0 < minimum) (hmin : ∀ a, minimum ≤ (enc a).length)
    (h : Parses entry fun a b => P a ∧ b = enc a) :
    Parses (counted minimum entry) (Counted P enc) := by
  rw [counted_eq]
  have htimes : ∀ n, Parses (do
      let remaining ← get
      if remaining.length / minimum < n then throw .truncated else Decoder.times entry n)
      fun values b => values.length = n ∧ (∀ a ∈ values, P a) ∧ b = values.flatMap enc := by
    intro n
    refine ((h.times n).congr fun values b => and_congr_right' written_iff).peek ?_
    rintro values b rest ⟨rfl, _, rfl⟩
    have hlen := mul_le_length_flatMap fun a (_ : a ∈ values) => hmin a
    rw [Nat.not_lt, Nat.le_div_iff_mul_le hpos, length_append]
    omega
  apply (len_parses.bind htimes).congr
  intro values b
  aesop

def Text (text : String) (bytes : List UInt8) : Prop :=
  (textBytes text).length < 2 ^ 64 ∧ bytes = encodeLen (textBytes text).length ++ textBytes text

/-- In an input that fits in memory, no offset overflows before the input ends. -/
theorem string_parses (hsize : size < 2 ^ 64) : Parses (string size) Text := by
  have hbytes : ∀ n, n < 2 ^ 64 → Parses (do
      let remaining ← get
      if 2 ^ 64 ≤ size - remaining.length + n then throw .lengthOverflow
      else
        let bytes ← take n
        Decoder.utf8 .invalidUtf8 bytes : Cursor String)
      fun text b => (textBytes text).length = n ∧ b = textBytes text := by
    intro n hn
    refine Parses.peek ?_ ?_
    · exact Parses.takeUtf8 _ _ n
    · rintro text b rest ⟨rfl, rfl⟩
      rw [length_append]
      omega
  intro bytes text rest
  show (len >>= _) bytes = _ ↔ _
  rw [Decoder.bind_eq_ok]
  constructor
  · rintro ⟨n, mid, hlen, htext⟩
    obtain ⟨_, ⟨hn, rfl⟩, rfl⟩ := (len_parses _ _ _).mp hlen
    obtain ⟨_, ⟨rfl, rfl⟩, rfl⟩ := (hbytes n hn _ _ _).mp htext
    exact ⟨_, ⟨hn, rfl⟩, (append_assoc _ _ _).symm⟩
  · rintro ⟨_, ⟨hn, rfl⟩, rfl⟩
    refine ⟨_, textBytes text ++ rest, (len_parses _ _ _).mpr ⟨_, ⟨hn, rfl⟩, ?_⟩,
      (hbytes _ hn _ _ _).mpr ⟨_, ⟨rfl, rfl⟩, rfl⟩⟩
    rw [append_assoc]

theorem bool_parses :
    Parses (do
      match ← u8 with
      | 0 => pure (.bool false)
      | 1 => pure (.bool true)
      | _ => throw .nonCanonicalShape : Cursor CanonicalEqKey)
      fun k b => ∃ x, k = .bool x ∧ b = [if x then 1 else 0] := by
  have harm : ∀ byte : UInt8, Parses
      (match byte with
        | 0 => pure (.bool false)
        | 1 => pure (.bool true)
        | _ => throw .nonCanonicalShape : Cursor CanonicalEqKey)
      fun k b => (∃ x, k = .bool x ∧ byte = if x then 1 else 0) ∧ b = [] := by
    intro byte
    split
    · apply (Parses.pure _).congr
      intro k b
      simp
    · apply (Parses.pure _).congr
      intro k b
      simp
    · apply (Parses.throw _).congr
      intro k b
      grind
  apply (u8_parses.bind harm).congr
  intro k b
  simp

end CanonicalKeyCursor

/-! ### The format of one level -/

namespace CanonicalEqKey

def children : CanonicalEqKey → List CanonicalEqKey
  | product fields => fields.map Prod.snd
  | optionSome value => [value]
  | variant _ value => [value]
  | seq values => values
  | set entries => entries.map (·.atom)
  | bag entries => entries.map (·.atom.value)
  | map entries => entries.flatMap fun entry => [entry.atom.key, entry.atom.value]
  | unit | bool _ | i64 _ | f64Bits _ | textExact _ | textAsciiCaseInsensitive _
  | liveEntityId _ _ | historicalEntityId _ _ | optionNone => []

def count : CanonicalEqKey → ℕ
  | textExact value | textAsciiCaseInsensitive value => (textBytes value).length
  | product fields => fields.length
  | seq values => values.length
  | set entries => entries.length
  | bag entries => entries.length
  | map entries => entries.length
  | unit | bool _ | i64 _ | f64Bits _ | liveEntityId _ _ | historicalEntityId _ _ | optionNone
  | optionSome _ | variant _ _ => 0

def Fits : ℕ → CanonicalEqKey → Prop
  | 0, _ => False
  | levels + 1, key => key.count < 2 ^ 64 ∧ ∀ child ∈ key.children, Fits levels child

end CanonicalEqKey

open CanonicalEqKey (encodePayload encodeField encodeSetEntry encodeBagEntry encodeMapEntry)

def KeyFormat (P : CanonicalEqKey → Prop) (tag : UInt8) (key : CanonicalEqKey)
    (bytes : List UInt8) : Prop :=
  match tag with
  | 0 => key = .unit ∧ bytes = []
  | 1 => ∃ b, key = .bool b ∧ bytes = [if b then 1 else 0]
  | 2 => ∃ n, key = .i64 n ∧ bytes = beU64 n.toUInt64
  | 3 => ∃ n, bytes = beU64 n ∧ key = .f64Bits n
  | 4 => ∃ t, Text t bytes ∧ key = .textExact t
  | 5 => ∃ t, Text t bytes ∧ key = .textAsciiCaseInsensitive t
  | 6 => ∃ t i, key = .liveEntityId t i ∧ bytes = beId t ++ beId i
  | 7 => ∃ t i, key = .historicalEntityId t i ∧ bytes = beId t ++ beId i
  | 8 => ∃ fields, Counted (fun e => P e.2) encodeField fields bytes ∧ key = .product fields
  | 9 => key = .optionNone ∧ bytes = []
  | 10 => ∃ k, (P k ∧ bytes = encodePayload k) ∧ key = .optionSome k
  | 11 => ∃ t k c, key = .variant t k ∧ (P k ∧ c = encodePayload k) ∧ bytes = beId t ++ c
  | 12 => ∃ keys, Counted P encodePayload keys bytes ∧ key = .seq keys
  | 13 => ∃ entries, Counted (fun e => P e.atom) encodeSetEntry entries bytes ∧ key = .set entries
  | 14 => ∃ entries, Counted (fun e => P e.atom.value) encodeBagEntry entries bytes ∧
      key = .bag entries
  | 15 => ∃ entries, Counted (fun e => P e.atom.key ∧ P e.atom.value) encodeMapEntry entries bytes ∧
      key = .map entries
  | _ => False

section
variable {P : CanonicalEqKey → Prop} {child : Cursor CanonicalEqKey}

theorem one_le_encodePayload (key : CanonicalEqKey) : 1 ≤ key.encodePayload.length := by
  cases key <;> simp [encodePayload, encodeStringKey, encodeEntityKey]

section
variable (h : Parses child fun k b => P k ∧ b = encodePayload k)
include h

theorem field_parses :
    Parses (do return (← u128, ← child)) fun e b => P e.2 ∧ b = encodeField e := by
  apply (u128_parses.headed h).congr
  rintro ⟨⟩ b
  simp [encodeField]

theorem setEntry_parses :
    Parses (do return ⟨← child, ← u64⟩) fun e b => P e.atom ∧ b = encodeSetEntry e := by
  apply (h.bind fun k => u64_parses.bind_pure).congr
  rintro ⟨⟩ b
  simp [encodeSetEntry]

theorem bagEntry_parses :
    Parses (do return ⟨⟨← child, ← u64⟩, ← u64⟩) fun e b =>
      P e.atom.value ∧ b = encodeBagEntry e := by
  apply (h.bind fun k => u64_parses.bind fun count => u64_parses.bind_pure).congr
  intro e b
  grind [encodeBagEntry]

theorem mapEntry_parses :
    Parses (do return ⟨⟨← child, ← child⟩, ← u64⟩) fun e b =>
      (P e.atom.key ∧ P e.atom.value) ∧ b = encodeMapEntry e := by
  apply (h.bind fun k => h.bind fun v => u64_parses.bind_pure).congr
  intro e b
  grind [encodeMapEntry]

end

theorem decodeArm_parses (hsize : size < 2 ^ 64)
    (h : Parses child fun k b => P k ∧ b = encodePayload k) (tag : UInt8) :
    Parses (decodeArm size child tag) (KeyFormat P tag) := by
  have hpayload : ∀ key : CanonicalEqKey, 1 ≤ key.encodePayload.length := one_le_encodePayload
  unfold decodeArm
  split
  · exact Parses.pure _
  · exact bool_parses
  · apply u64_parses.bind_pure.congr
    intro v b
    constructor
    · rintro ⟨n, rfl, rfl⟩
      exact ⟨Int64.ofUInt64 n, rfl, rfl⟩
    · rintro ⟨n, rfl, rfl⟩
      exact ⟨n.toUInt64, rfl, rfl⟩
  · exact u64_parses.bind_pure
  · exact (string_parses hsize).bind_pure
  · exact (string_parses hsize).bind_pure
  · exact u128_parses.twoKeys
  · exact u128_parses.twoKeys
  · refine (counted_parses (by norm_num) (fun e => ?_) (field_parses h)).bind_pure
    have hkey := hpayload e.2
    simp only [encodeField, beId, length_append, length_toBeBytes]
    omega
  · exact Parses.pure _
  · exact h.bind_pure
  · exact u128_parses.headed h
  · exact (counted_parses one_pos hpayload h).bind_pure
  · refine (counted_parses (by norm_num) (fun e => ?_) (setEntry_parses h)).bind_pure
    have hkey := hpayload e.atom
    simp only [encodeSetEntry, beU64, length_append, length_toBeBytes]
    omega
  · refine (counted_parses (by norm_num) (fun e => ?_) (bagEntry_parses h)).bind_pure
    simp only [encodeBagEntry, beU64, length_append, length_toBeBytes]
    omega
  · refine (counted_parses (by norm_num) (fun e => ?_) (mapEntry_parses h)).bind_pure
    simp only [encodeMapEntry, beU64, length_append, length_toBeBytes]
    omega
  · apply (Parses.throw _).congr
    intro v b
    simp [KeyFormat]

theorem forall_mem_mapChildren {entries : FiniteMeasure CanonicalMapAtom} :
    (∀ child ∈ entries.flatMap fun entry => [entry.atom.key, entry.atom.value], P child) ↔
      ∀ entry ∈ entries, P entry.atom.key ∧ P entry.atom.value := by
  simp only [forall_mem_flatMap, forall_mem_cons, not_mem_nil, false_implies,
    implies_true, and_true]

theorem keyFormat_iff {key : CanonicalEqKey} {bytes : List UInt8} :
    (∃ tag rest, bytes = tag :: rest ∧ KeyFormat P tag key rest) ↔
      (key.count < 2 ^ 64 ∧ ∀ child ∈ key.children, P child) ∧ bytes = encodePayload key := by
  constructor
  · rintro ⟨tag, rest, rfl, h⟩
    unfold KeyFormat at h
    split at h
    all_goals grind [encodePayload, encodeStringKey, encodeEntityKey, Counted, Text,
      CanonicalEqKey.encodeFields_eq, CanonicalEqKey.encodeValues_eq, CanonicalEqKey.encodeSet_eq,
      CanonicalEqKey.encodeBag_eq, CanonicalEqKey.encodeMap_eq, CanonicalEqKey.count,
      CanonicalEqKey.children]
  · rintro ⟨⟨hlen, hP⟩, rfl⟩
    cases key with
    | unit => exact ⟨0, _, rfl, rfl, rfl⟩
    | bool b => exact ⟨1, _, rfl, b, rfl, rfl⟩
    | i64 n => exact ⟨2, _, rfl, n, rfl, rfl⟩
    | f64Bits n => exact ⟨3, _, rfl, n, rfl, rfl⟩
    | textExact t => exact ⟨4, _, rfl, t, ⟨hlen, rfl⟩, rfl⟩
    | textAsciiCaseInsensitive t => exact ⟨5, _, rfl, t, ⟨hlen, rfl⟩, rfl⟩
    | liveEntityId t i => exact ⟨6, _, rfl, t, i, rfl, rfl⟩
    | historicalEntityId t i => exact ⟨7, _, rfl, t, i, rfl, rfl⟩
    | product fields =>
      rw [encodePayload, CanonicalEqKey.encodeFields_eq]
      exact ⟨8, _, rfl, fields, ⟨hlen, forall_mem_map.mp hP, rfl⟩, rfl⟩
    | optionNone => exact ⟨9, _, rfl, rfl, rfl⟩
    | optionSome k => exact ⟨10, _, rfl, k, ⟨forall_mem_singleton.mp hP, rfl⟩, rfl⟩
    | variant t k => exact ⟨11, _, rfl, t, k, _, rfl, ⟨forall_mem_singleton.mp hP, rfl⟩, rfl⟩
    | seq keys =>
      rw [encodePayload, CanonicalEqKey.encodeValues_eq]
      exact ⟨12, _, rfl, keys, ⟨hlen, hP, rfl⟩, rfl⟩
    | set entries =>
      rw [encodePayload, CanonicalEqKey.encodeSet_eq]
      exact ⟨13, _, rfl, entries, ⟨hlen, forall_mem_map.mp hP, rfl⟩, rfl⟩
    | bag entries =>
      rw [encodePayload, CanonicalEqKey.encodeBag_eq]
      exact ⟨14, _, rfl, entries, ⟨hlen, forall_mem_map.mp hP, rfl⟩, rfl⟩
    | map entries =>
      rw [encodePayload, CanonicalEqKey.encodeMap_eq]
      exact ⟨15, _, rfl, entries, ⟨hlen, forall_mem_mapChildren.mp hP, rfl⟩, rfl⟩

end

theorem decodePayload_parses (hsize : size < 2 ^ 64) (levels : ℕ) :
    Parses (decodePayload size levels) fun key b => key.Fits levels ∧ b = encodePayload key := by
  induction levels with
  | zero =>
    apply (Parses.throw _).congr
    exact fun key b => ⟨False.elim, fun h => h.1⟩
  | succ levels ih =>
    apply (u8_parses.bind (decodeArm_parses hsize ih)).congr
    intro key b
    refine Iff.trans ?_ keyFormat_iff
    grind

end Cfmd.Semantics
