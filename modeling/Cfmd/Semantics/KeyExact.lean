import Cfmd.Semantics.CompiledKeys
import Cfmd.Semantics.KeyFormat
import Cfmd.Semantics.Measure

/-! The key format is exact on canonical keys. The key of a value is canonical exactly
when no bag in the value stores a count of zero: the key builder keeps such a count and
the decoder refuses it. -/

variable {value : Value}

namespace Cfmd

namespace Value

def bagCounts : Value → List UInt64
  | bag _ entries => entries.map Prod.snd
  | _ => []

inductive CountsPositive : Value → Prop
  | intro {value : Value} (counts : ∀ count ∈ value.bagCounts, 0 < count)
      (children : ∀ child ∈ value.children, CountsPositive child) : CountsPositive value

theorem countsPositive_iff : value.CountsPositive ↔
    (∀ count ∈ value.bagCounts, 0 < count) ∧ ∀ child ∈ value.children, child.CountsPositive :=
  ⟨fun ⟨counts, children⟩ => ⟨counts, children⟩, fun ⟨counts, children⟩ => ⟨counts, children⟩⟩

end Value

end Cfmd

namespace Cfmd.Semantics
open Std Lib CanonicalKeyCursor SemanticRegistry List
open CanonicalEqKey (encodePayload encodeField encodeSetEntry encodeBagEntry encodeMapEntry)

/-! ### Canonical shapes, level by level -/

theorem ascendingBy_iff {α κ : Type} [Ord κ] [TransOrd κ] (key : α → κ) (xs : List α) :
    ascendingBy key xs = true ↔ xs.Pairwise fun a b => compare (key a) (key b) = .lt := by
  have hchain : ascendingBy key xs = true ↔
      xs.IsChain fun a b => compare (key a) (key b) = .lt := by
    induction xs with
    | nil => simp [ascendingBy]
    | cons a rest ih =>
      cases rest with
      | nil => simp [ascendingBy]
      | cons b rest =>
        rw [ascendingBy, Bool.and_eq_true, ih, isChain_cons_cons, Ordering.isLT_iff_eq_lt]
  rw [hchain]
  have htrans : IsTrans α fun a b => compare (key a) (key b) = .lt :=
    ⟨fun a b c hab hbc => TransCmp.lt_trans hab hbc⟩
  exact isChain_iff_pairwise

namespace CanonicalEqKey

def Level : CanonicalEqKey → Prop
  | product fields => fields.Pairwise fun a b => compare a.1 b.1 = .lt
  | set entries => (entries.Pairwise fun a b => compare a.atom b.atom = .lt) ∧
      ∀ entry ∈ entries, 0 < entry.multiplicity
  | bag entries => (entries.Pairwise fun a b => compare a.atom b.atom = .lt) ∧
      ∀ entry ∈ entries, 0 < entry.multiplicity ∧ 0 < entry.atom.storedCount
  | map entries => (entries.Pairwise fun a b => compare a.atom b.atom = .lt) ∧
      ∀ entry ∈ entries, 0 < entry.multiplicity
  | textAsciiCaseInsensitive value => value = toAsciiLowercase value
  | unit | bool _ | i64 _ | f64Bits _ | textExact _ | liveEntityId _ _ | historicalEntityId _ _
  | optionNone | optionSome _ | variant _ _ | seq _ => True

end CanonicalEqKey

theorem fieldShapes_iff (fields : List (SemanticId × CanonicalEqKey)) :
    fieldShapes fields = true ↔ ∀ field ∈ fields, shapeIsCanonical field.2 = true := by
  induction fields with
  | nil => simp [fieldShapes]
  | cons field rest ih => rw [fieldShapes, Bool.and_eq_true, ih, forall_mem_cons]

theorem valueShapes_iff (values : List CanonicalEqKey) :
    valueShapes values = true ↔ ∀ value ∈ values, shapeIsCanonical value = true := by
  induction values with
  | nil => simp [valueShapes]
  | cons value rest ih => rw [valueShapes, Bool.and_eq_true, ih, forall_mem_cons]

theorem setShapes_iff (entries : FiniteMeasure CanonicalEqKey) :
    setShapes entries = true ↔
      ∀ entry ∈ entries, 0 < entry.multiplicity ∧ shapeIsCanonical entry.atom = true := by
  induction entries with
  | nil => simp [setShapes]
  | cons entry rest ih =>
    rw [setShapes, Bool.and_eq_true, Bool.and_eq_true, decide_eq_true_eq, ih, forall_mem_cons]

theorem bagShapes_iff (entries : FiniteMeasure CanonicalBagAtom) :
    bagShapes entries = true ↔ ∀ entry ∈ entries,
      (0 < entry.multiplicity ∧ 0 < entry.atom.storedCount) ∧
        shapeIsCanonical entry.atom.value = true := by
  induction entries with
  | nil => simp [bagShapes]
  | cons entry rest ih =>
    rw [bagShapes, Bool.and_eq_true, Bool.and_eq_true, Bool.and_eq_true, decide_eq_true_eq,
      decide_eq_true_eq, ih, forall_mem_cons]

theorem mapShapes_iff (entries : FiniteMeasure CanonicalMapAtom) :
    mapShapes entries = true ↔ ∀ entry ∈ entries, 0 < entry.multiplicity ∧
      shapeIsCanonical entry.atom.key = true ∧ shapeIsCanonical entry.atom.value = true := by
  induction entries with
  | nil => simp [mapShapes]
  | cons entry rest ih =>
    rw [mapShapes, Bool.and_eq_true, Bool.and_eq_true, Bool.and_eq_true, decide_eq_true_eq, ih,
      forall_mem_cons, and_assoc (b := shapeIsCanonical entry.atom.key = true)]

theorem shapeIsCanonical_iff (key : CanonicalEqKey) :
    shapeIsCanonical key = true ↔
      key.Level ∧ ∀ child ∈ key.children, shapeIsCanonical child = true := by
  cases key with
  | product fields =>
    rw [shapeIsCanonical, Bool.and_eq_true, ascendingBy_iff, fieldShapes_iff,
      CanonicalEqKey.children, forall_mem_map]
    rfl
  | set entries =>
    rw [shapeIsCanonical, Bool.and_eq_true, ascendingBy_iff, setShapes_iff, forall₂_and,
      ← and_assoc, CanonicalEqKey.children, forall_mem_map]
    rfl
  | bag entries =>
    rw [shapeIsCanonical, Bool.and_eq_true, ascendingBy_iff, bagShapes_iff, forall₂_and,
      ← and_assoc, CanonicalEqKey.children, forall_mem_map]
    rfl
  | map entries =>
    rw [shapeIsCanonical, Bool.and_eq_true, ascendingBy_iff, mapShapes_iff, forall₂_and,
      ← and_assoc, CanonicalEqKey.children, forall_mem_mapChildren]
    rfl
  | seq values =>
    rw [shapeIsCanonical, valueShapes_iff]
    exact (and_iff_right trivial).symm
  | _ => simp [shapeIsCanonical, CanonicalEqKey.Level, CanonicalEqKey.children]

/-! ### Keys of values -/

section
variable {ν : Type} {key : ν → Value → Fallible SemanticError CanonicalEqKey}
  {kind : EquivalenceKind ν} {value : Value} {result : CanonicalEqKey}
  {values : List (SemanticId × Value)} {fields : List (SemanticId × ν)}
  {keys : List (SemanticId × CanonicalEqKey)}

def EquivalenceKind.Sorted (kind : EquivalenceKind ν) : Prop :=
  ∀ fields, kind = .product fields → fields.Pairwise fun a b => compare a.1 b.1 = .lt

theorem canonicalKey_leaf {resolved : ResolvedPrimitiveEquivalence}
    (h : resolved.canonicalKey value = .ok result) :
    result.Level ∧ result.children = [] ∧ value.children = [] ∧ value.bagCounts = [] := by
  unfold ResolvedPrimitiveEquivalence.canonicalKey at h
  generalize resolved.contract = contract at h
  cases contract <;> cases value <;> try cases h
  case textAsciiCaseInsensitive.text.refl text =>
    refine ⟨?_, rfl, rfl, rfl⟩
    rw [CanonicalEqKey.Level, toAsciiLowercase_toAsciiLowercase]
  case liveEntityIdExact.liveEntityRef =>
    dsimp only at h
    split at h
    · cases h
      exact ⟨trivial, rfl, rfl, rfl⟩
    · cases h
  case historicalEntityIdExact.historicalEntityId =>
    dsimp only at h
    split at h
    · cases h
      exact ⟨trivial, rfl, rfl, rfl⟩
    · cases h
  all_goals exact ⟨trivial, rfl, rfl, rfl⟩

theorem fst_eq_of_fieldKeys (h : Forall₂ (FieldKey key values) fields keys) :
    fields.map Prod.fst = keys.map Prod.fst :=
  map_eq_map_iff_forall₂.mpr (h.imp fun _ _ hfield => hfield.1)

theorem measureOf_spec {α β : Type} [Ord β] [TransOrd β] [LawfulEqOrd β] [DecidableEq β]
    {atom : α → Fallible SemanticError β} {entries : List α} {measure : FiniteMeasure β}
    (h : measureOf atom entries = .ok measure) :
    measure.Pairwise (fun a b => compare a.atom b.atom = .lt) ∧
      (∀ found ∈ measure, 0 < found.multiplicity ∧ ∃ e ∈ entries, atom e = .ok found.atom) ∧
      ∀ e ∈ entries, ∃ found ∈ measure, atom e = .ok found.atom := by
  obtain ⟨atoms, hatoms, hmeasure⟩ := bind_eq_ok.mp h
  obtain ⟨hpairs, hentries⟩ := measure_canonical hmeasure
  refine ⟨hpairs, fun found hfound => ?_, fun e he => ?_⟩
  · exact ⟨(hentries found hfound).1, (mem_of_mapM hatoms).mp (hentries found hfound).2⟩
  · obtain ⟨a, ha, heq⟩ := forall₂_exists_right ((mapM_eq_ok _).mp hatoms) he
    obtain ⟨found, hfound, rfl⟩ := mem_measure hmeasure ha
    exact ⟨found, hfound, heq⟩

section
variable (h : KeyOf key kind value result) (hsilent : kind.silent = none)
include h hsilent

/-- Only the stored counts of a bag can make a level non-canonical. -/
theorem KeyOf.level_iff
    (hsorted : kind.Sorted) : result.Level ↔ ∀ count ∈ value.bagCounts, 0 < count := by
  cases h with
  | primitive h =>
    obtain ⟨hlevel, _, _, hcounts⟩ := canonicalKey_leaf h
    rw [hcounts]
    exact ⟨fun _ => nofun, fun _ => hlevel⟩
  | mu h | var h => cases hsilent
  | @product fields values keys hlen hfields =>
    refine ⟨fun _ => nofun, fun _ => ?_⟩
    have hnames := fst_eq_of_fieldKeys hfields
    have hpairs : (fields.map Prod.fst).Pairwise fun a b => compare a b = .lt :=
      pairwise_map.mpr (hsorted _ rfl)
    rw [hnames] at hpairs
    exact pairwise_map.mp hpairs
  | set h | map h =>
    obtain ⟨hpairs, hentries, _⟩ := measureOf_spec h
    exact ⟨fun _ => nofun, fun _ => ⟨hpairs, fun entry hentry => (hentries entry hentry).1⟩⟩
  | bag h =>
    obtain ⟨hpairs, hentries, hsources⟩ := measureOf_spec h
    constructor
    · rintro ⟨_, hcounts⟩ count hcount
      obtain ⟨source, hsource, rfl⟩ := mem_map.mp hcount
      obtain ⟨entry, hentry, heq⟩ := hsources source hsource
      rw [(bagAtom_eq_ok.mp heq).2]
      exact (hcounts entry hentry).2
    · intro hcounts
      refine ⟨hpairs, fun entry hentry => ?_⟩
      obtain ⟨hpos, source, hsource, heq⟩ := hentries entry hentry
      rw [← (bagAtom_eq_ok.mp heq).2]
      exact ⟨hpos, hcounts _ (mem_map_of_mem hsource)⟩
  | _ => exact ⟨fun _ => nofun, fun _ => trivial⟩

theorem KeyOf.exists_part {child : CanonicalEqKey} (hchild : child ∈ result.children) :
    ∃ node, ∃ part ∈ value.children, key node part = .ok child := by
  cases h with
  | primitive h =>
    rw [(canonicalKey_leaf h).2.1] at hchild
    cases hchild
  | mu h | var h => cases hsilent
  | product hlen hfields =>
    obtain ⟨entry, hentry, rfl⟩ := mem_map.mp hchild
    obtain ⟨field, _, _, part, hpart, hkey⟩ := forall₂_exists_left hfields hentry
    exact ⟨field.2, part, mem_map_of_mem (mem_of_lookup hpart), hkey⟩
  | optionNone => cases hchild
  | optionSome h | sum _ h =>
    rw [mem_singleton.mp hchild]
    exact ⟨_, _, mem_singleton_self _, h⟩
  | seq h =>
    obtain ⟨part, hpart, hkey⟩ := (mem_of_mapM h).mp hchild
    exact ⟨_, part, hpart, hkey⟩
  | set h =>
    obtain ⟨entry, hentry, rfl⟩ := mem_map.mp hchild
    obtain ⟨_, part, hpart, hkey⟩ := (measureOf_spec h).2.1 entry hentry
    exact ⟨_, part, hpart, hkey⟩
  | bag h =>
    obtain ⟨entry, hentry, rfl⟩ := mem_map.mp hchild
    obtain ⟨_, part, hpart, hkey⟩ := (measureOf_spec h).2.1 entry hentry
    exact ⟨_, part.1, mem_map_of_mem hpart, (bagAtom_eq_ok.mp hkey).1⟩
  | map h =>
    obtain ⟨entry, hentry, hchild⟩ := mem_flatMap.mp hchild
    obtain ⟨_, part, hpart, hkey⟩ := (measureOf_spec h).2.1 entry hentry
    rw [mapAtom_eq_ok] at hkey
    rcases mem_pair.mp hchild with rfl | rfl
    · exact ⟨_, part.1, mem_flatMap.mpr ⟨part, hpart, mem_cons_self⟩, hkey.1⟩
    · exact ⟨_, part.2, mem_flatMap.mpr ⟨part, hpart, mem_cons_of_mem _
        (mem_singleton_self _)⟩, hkey.2⟩

end

theorem mem_fields_of_length (hlen : fields.length = values.length)
    (hfields : Forall₂ (FieldKey key values) fields keys)
    (hsorted : fields.Pairwise fun a b => compare a.1 b.1 = .lt) {name : SemanticId}
    (hname : name ∈ values.map Prod.fst) : name ∈ fields.map Prod.fst := by
  have hnodup : (fields.map Prod.fst).Nodup := by
    rw [Nodup, pairwise_map]
    apply hsorted.imp
    intro a b hlt heq
    rw [heq] at hlt
    exact compare_lt_irrefl _ hlt
  have hsub : fields.map Prod.fst ⊆ values.map Prod.fst := by
    intro name hname
    obtain ⟨field, hfield, rfl⟩ := mem_map.mp hname
    obtain ⟨_, _, _, part, hpart, _⟩ := forall₂_exists_right hfields hfield
    exact mem_map_of_mem (mem_of_lookup hpart)
  have hperm := (subperm_of_subset hnodup hsub).perm_of_length_le (by
    rw [length_map, length_map, hlen])
  exact hperm.mem_iff.mpr hname

theorem lookup_of_mem {entry : SemanticId × Value} (hsorted : Ascending Prod.fst none values)
    (hentry : entry ∈ values) :
    values.lookup entry.1 = some entry.2 := by
  rw [ascending_iff_pairwise] at hsorted
  obtain ⟨before, after, rfl⟩ := append_of_mem hentry
  rw [lookup_eq_some_iff]
  refine ⟨before, after, rfl, fun other hother => ?_⟩
  have hlt := (pairwise_append.mp hsorted).2.2 other hother entry mem_cons_self
  rw [bne_iff_ne]
  intro heq
  rw [heq] at hlt
  exact compare_lt_irrefl _ hlt

theorem KeyOf.exists_child (h : KeyOf key kind value result) (hsilent : kind.silent = none)
    (hsorted : kind.Sorted) (hordered : Ascending Prod.fst none value.fields) {part : Value}
    (hpart : part ∈ value.children) :
    ∃ node, ∃ child ∈ result.children, key node part = .ok child := by
  cases h with
  | primitive h =>
    rw [(canonicalKey_leaf h).2.2.1] at hpart
    cases hpart
  | mu h | var h => cases hsilent
  | @product fields values keys hlen hfields =>
    obtain ⟨entry, hentry, rfl⟩ := mem_map.mp hpart
    have hname := mem_fields_of_length hlen hfields (hsorted _ rfl) (mem_map_of_mem hentry)
    obtain ⟨field, hfield, hname⟩ := mem_map.mp hname
    obtain ⟨child, hchild, _, found, hfound, hkey⟩ := forall₂_exists_right hfields hfield
    -- the field is looked up under the name of this entry
    have hlookup : values.lookup entry.1 = some entry.2 := lookup_of_mem hordered hentry
    rw [hname, hlookup, Option.some.injEq] at hfound
    subst hfound
    exact ⟨field.2, child.2, mem_map_of_mem hchild, hkey⟩
  | optionNone => cases hpart
  | optionSome h | sum _ h =>
    rw [mem_singleton.mp hpart]
    exact ⟨_, _, mem_singleton_self _, h⟩
  | seq h =>
    obtain ⟨child, hchild, hkey⟩ := forall₂_exists_right ((mapM_eq_ok _).mp h) hpart
    exact ⟨_, child, hchild, hkey⟩
  | set h =>
    obtain ⟨entry, hentry, hkey⟩ := (measureOf_spec h).2.2 part hpart
    exact ⟨_, entry.atom, mem_map_of_mem hentry, hkey⟩
  | bag h =>
    obtain ⟨source, hsource, rfl⟩ := mem_map.mp hpart
    obtain ⟨entry, hentry, hkey⟩ := (measureOf_spec h).2.2 source hsource
    exact ⟨_, entry.atom.value, mem_map_of_mem hentry, (bagAtom_eq_ok.mp hkey).1⟩
  | map h =>
    obtain ⟨source, hsource, hpart⟩ := mem_flatMap.mp hpart
    obtain ⟨entry, hentry, hkey⟩ := (measureOf_spec h).2.2 source hsource
    rw [mapAtom_eq_ok] at hkey
    rcases mem_pair.mp hpart with rfl | rfl
    · exact ⟨_, _, mem_flatMap.mpr ⟨entry, hentry, mem_cons_self⟩, hkey.1⟩
    · exact ⟨_, _, mem_flatMap.mpr ⟨entry, hentry, mem_cons_of_mem _
        (mem_singleton_self _)⟩, hkey.2⟩

theorem KeyOf.of_silent (h : KeyOf key kind value result) {node : ν}
    (hsilent : kind.silent = some node) : key node value = .ok result := by
  cases h with
  | mu h | var h =>
    cases hsilent
    exact h
  | _ => cases hsilent

/-- What holds of a value and its key at every level that is not silent, when it holds
of the values and the keys below. -/
theorem keyWith_induction {view : ν → Fallible SemanticError (SemanticId × EquivalenceKind ν)}
    {P : Value → CanonicalEqKey → Prop}
    (hlevel : ∀ (key : ν → Value → Fallible SemanticError CanonicalEqKey) node seen value result,
      view node = .ok seen → seen.2.silent = none → KeyOf key seen.2 value result →
      (∀ node part child, key node part = .ok child → P part child) → P value result)
    {fuel : ℕ} {node : ν} (h : keyWith view fuel node value = .ok result) : P value result := by
  induction fuel generalizing node value result with
  | zero => cases h
  | succ fuel ih =>
    have hview : ∃ seen, view node = .ok seen := by
      obtain ⟨seen, hseen, _⟩ := bind_eq_ok.mp h
      exact ⟨seen, hseen⟩
    obtain ⟨seen, hseen⟩ := hview
    rw [keyWith_eq_ok hseen] at h
    cases hsilent : seen.2.silent with
    | some next => exact ih (h.of_silent hsilent)
    | none => exact hlevel _ node seen value result hseen hsilent h fun _ _ _ => ih

section
variable {view : ν → Fallible SemanticError (SemanticId × EquivalenceKind ν)} {fuel : ℕ} {node : ν}

theorem shapeIsCanonical_iff_countsPositive
    (hview : ∀ node seen, view node = .ok seen → seen.2.Sorted)
    (h : keyWith view fuel node value = .ok result) (hordered : value.Ordered) :
    shapeIsCanonical result = true ↔ value.CountsPositive := by
  have hrun := keyWith_induction (P := fun value result =>
    value.Ordered → (shapeIsCanonical result = true ↔ value.CountsPositive)) ?_ h
  · exact hrun hordered
  intro key node seen value result hseen hsilent hkey ih hordered
  obtain ⟨hfields, hparts⟩ := Value.ordered_iff.mp hordered
  have hsorted := hview node seen hseen
  rw [shapeIsCanonical_iff, Value.countsPositive_iff, hkey.level_iff hsilent hsorted]
  apply and_congr_right
  intro _
  constructor
  · intro hchildren part hpart
    obtain ⟨inner, child, hchild, heq⟩ := hkey.exists_child hsilent hsorted hfields hpart
    exact (ih inner part child heq (hparts part hpart)).mp (hchildren child hchild)
  · intro hpositive child hchild
    obtain ⟨inner, part, hpart, heq⟩ := hkey.exists_part hsilent hchild
    exact (ih inner part child heq (hparts part hpart)).mpr (hpositive part hpart)

end

end

/-! ### Lengths -/

variable {key result : CanonicalEqKey}

namespace CanonicalEqKey

theorem length_le_flatMap {α : Type} {enc : α → List UInt8} {entries : List α} {entry : α}
    (h : entry ∈ entries) : (enc entry).length ≤ (entries.flatMap enc).length := by
  obtain ⟨before, after, rfl⟩ := append_of_mem h
  rw [flatMap_append, flatMap_cons, length_append, length_append]
  omega

theorem le_encodeField (entry : SemanticId × CanonicalEqKey) :
    (encodePayload entry.2).length ≤ (encodeField entry).length := by
  rw [encodeField, length_append]
  omega

theorem le_encodeSetEntry (entry : FiniteMeasureEntry CanonicalEqKey) :
    (encodePayload entry.atom).length ≤ (encodeSetEntry entry).length := by
  rw [encodeSetEntry, length_append]
  omega

theorem le_encodeBagEntry (entry : FiniteMeasureEntry CanonicalBagAtom) :
    (encodePayload entry.atom.value).length ≤ (encodeBagEntry entry).length := by
  rw [encodeBagEntry, length_append, length_append]
  omega

theorem le_encodeMapEntry (entry : FiniteMeasureEntry CanonicalMapAtom) :
    (encodePayload entry.atom.key).length ≤ (encodeMapEntry entry).length ∧
      (encodePayload entry.atom.value).length ≤ (encodeMapEntry entry).length := by
  rw [encodeMapEntry, length_append, length_append]
  omega

theorem count_le_encodePayload (key : CanonicalEqKey) : key.count ≤ key.encodePayload.length := by
  have hlist : ∀ {α : Type} (tag : UInt8) {enc : α → List UInt8} (entries : List α),
      (∀ entry, ∃ key : CanonicalEqKey, key.encodePayload.length ≤ (enc entry).length) →
        entries.length ≤ (tag :: (encodeLen entries.length ++ entries.flatMap enc)).length := by
    intro α tag enc entries h
    have hlen := mul_le_length_flatMap fun entry (_ : entry ∈ entries) =>
      (one_le_encodePayload _).trans (h entry).choose_spec
    rw [length_cons, length_append]
    omega
  cases key with
  | textExact value | textAsciiCaseInsensitive value =>
    rw [count, encodePayload, encodeStringKey, length_cons, length_append]
    omega
  | product fields =>
    rw [count, encodePayload, encodeFields_eq]
    exact hlist 8 fields fun entry => ⟨_, le_encodeField entry⟩
  | seq values =>
    rw [count, encodePayload, encodeValues_eq]
    exact hlist 12 values fun value => ⟨value, le_rfl⟩
  | set entries =>
    rw [count, encodePayload, encodeSet_eq]
    exact hlist 13 entries fun entry => ⟨_, le_encodeSetEntry entry⟩
  | bag entries =>
    rw [count, encodePayload, encodeBag_eq]
    exact hlist 14 entries fun entry => ⟨_, le_encodeBagEntry entry⟩
  | map entries =>
    rw [count, encodePayload, encodeMap_eq]
    exact hlist 15 entries fun entry => ⟨_, (le_encodeMapEntry entry).1⟩
  | _ => exact Nat.zero_le _

theorem encodePayload_child_le {child : CanonicalEqKey} (h : child ∈ key.children) :
    child.encodePayload.length ≤ key.encodePayload.length := by
  have hlist : ∀ {α : Type} (tag : UInt8) (len : List UInt8) {enc : α → List UInt8} {n : ℕ}
      {entry : α} {entries : List α}, entry ∈ entries → n ≤ (enc entry).length →
        n ≤ (tag :: (len ++ entries.flatMap enc)).length := by
    intro α tag len enc n entry entries hentry hle
    have hlen := @length_le_flatMap _ enc _ _ hentry
    rw [length_cons, length_append]
    omega
  cases key with
  | product fields =>
    obtain ⟨entry, hentry, rfl⟩ := mem_map.mp h
    rw [encodePayload, encodeFields_eq]
    exact hlist 8 _ hentry (le_encodeField entry)
  | optionSome value =>
    rw [mem_singleton.mp h]
    exact Nat.le_succ _
  | variant tag value =>
    rw [mem_singleton.mp h, encodePayload, length_cons, length_append]
    omega
  | seq values =>
    rw [encodePayload, encodeValues_eq]
    exact hlist 12 _ h le_rfl
  | set entries =>
    obtain ⟨entry, hentry, rfl⟩ := mem_map.mp h
    rw [encodePayload, encodeSet_eq]
    exact hlist 13 _ hentry (le_encodeSetEntry entry)
  | bag entries =>
    obtain ⟨entry, hentry, rfl⟩ := mem_map.mp h
    rw [encodePayload, encodeBag_eq]
    exact hlist 14 _ hentry (le_encodeBagEntry entry)
  | map entries =>
    obtain ⟨entry, hentry, hchild⟩ := mem_flatMap.mp h
    rw [encodePayload, encodeMap_eq]
    rcases mem_pair.mp hchild with rfl | rfl
    · exact hlist 15 _ hentry (le_encodeMapEntry entry).1
    · exact hlist 15 _ hentry (le_encodeMapEntry entry).2
  | _ => cases h

end CanonicalEqKey

theorem fits_of_nestsWithin {ν : Type}
    {view : ν → Fallible SemanticError (SemanticId × EquivalenceKind ν)} {fuel : ℕ} {node : ν}
    (h : keyWith view fuel node value = .ok result) {levels : ℕ}
    (hnests : value.nestsWithin levels = true) (hlen : (encodePayload result).length < 2 ^ 64) :
    result.Fits (levels + 1) := by
  have hrun := keyWith_induction (P := fun value result => ∀ levels,
    value.nestsWithin levels = true → (encodePayload result).length < 2 ^ 64 →
      result.Fits (levels + 1)) ?_ h
  · exact hrun levels hnests hlen
  intro key node seen value result _ hsilent hkey ih levels hnests hlen
  refine ⟨result.count_le_encodePayload.trans_lt hlen, fun child hchild => ?_⟩
  obtain ⟨inner, part, hpart, heq⟩ := hkey.exists_part hsilent hchild
  cases levels with
  | zero =>
    rw [Value.nestsWithin, List.isEmpty_iff] at hnests
    rw [hnests] at hpart
    cases hpart
  | succ levels =>
    rw [Value.nestsWithin, all_eq_true] at hnests
    exact ih inner part child heq levels (hnests part hpart)
      ((CanonicalEqKey.encodePayload_child_le hchild).trans_lt hlen)

/-! ### Whole keys and tuples -/

theorem decodeHeader_parses {magic : List UInt8} (hmagic : magic.length = 4) :
    Parses (decodeHeader magic) fun _ b => b = encodeHeader magic := by
  have hversion : Parses (do
      let version ← u32
      if version ≠ canonicalEqKeyEncodingVersion then throw (.unsupportedVersion version)
      else pure () : Cursor Unit)
      fun _ b => b = toBeBytes 4 canonicalEqKeyEncodingVersion.toNat := by
    have hcheck : ∀ version, Parses
        (if version ≠ canonicalEqKeyEncodingVersion then throw (.unsupportedVersion version)
          else pure () : Cursor Unit)
        fun _ b => version = canonicalEqKeyEncodingVersion ∧ b = [] := by
      intro version
      rw [ite_not]
      exact (Parses.pure ()).guard.congr fun _ b => and_congr_right fun _ => and_iff_right rfl
    apply (u32_parses.bind hcheck).congr
    intro _ b
    simp
  have hbody : ∀ read : List UInt8, Parses (if read ≠ magic then throw .invalidMagic else do
      let version ← u32
      if version ≠ canonicalEqKeyEncodingVersion then throw (.unsupportedVersion version)
      else pure () : Cursor Unit)
      fun _ b => read = magic ∧ b = toBeBytes 4 canonicalEqKeyEncodingVersion.toNat := by
    intro read
    rw [ite_not]
    exact hversion.guard
  apply ((Parses.take _ 4).bind hbody).congr
  intro _ b
  aesop

theorem requireCanonical_eq_ok :
    requireCanonical key = .ok result ↔ shapeIsCanonical key = true ∧ key = result := by
  unfold requireCanonical
  split
  · rename_i h
    rw [Except.ok.injEq]
    exact (and_iff_right h).symm
  · rename_i h
    exact ⟨nofun, fun hshape => absurd hshape.1 h⟩

theorem decodeCanonicalEqKey_eq_ok {bytes : ByteSlice} :
    decodeCanonicalEqKey bytes = .ok key ↔ (key.Fits (maxCanonicalEqKeyDepth + 1) ∧
      shapeIsCanonical key = true) ∧ bytes.1 = encodeCanonicalEqKey key := by
  have hparses : Parses (do decodeHeader canonicalEqKeyMagic; decodeRoot bytes.1.length)
      fun key b => key.Fits (maxCanonicalEqKeyDepth + 1) ∧ b = encodeCanonicalEqKey key := by
    apply ((decodeHeader_parses rfl).bind fun _ => decodePayload_parses bytes.2 _).congr
    intro key b
    aesop
  unfold decodeCanonicalEqKey
  simp only [bind_eq_ok, hparses.finish, requireCanonical_eq_ok]
  grind

theorem decodeCanonicalEqKeyTuple_eq_ok {bytes : ByteSlice} {keys : List CanonicalEqKey} :
    decodeCanonicalEqKeyTuple bytes = .ok keys ↔ keys.length < 2 ^ 64 ∧
      (∀ key ∈ keys, key.Fits (maxCanonicalEqKeyDepth + 1) ∧ shapeIsCanonical key = true) ∧
        bytes.1 = encodeCanonicalEqKeyTuple keys := by
  have hkey : Parses (do
      let key ← decodeRoot bytes.1.length
      liftM (requireCanonical key) : Cursor CanonicalEqKey)
      fun key b => (key.Fits (maxCanonicalEqKeyDepth + 1) ∧ shapeIsCanonical key = true) ∧
        b = encodePayload key := by
    apply ((decodePayload_parses bytes.2 _).bind fun key =>
      Parses.lift (requireCanonical key)).congr
    intro key b
    simp only [requireCanonical_eq_ok]
    constructor
    · rintro ⟨_, _, _, ⟨hfits, rfl⟩, ⟨⟨hshape, rfl⟩, rfl⟩, rfl⟩
      exact ⟨⟨hfits, hshape⟩, append_nil _⟩
    · rintro ⟨⟨hfits, hshape⟩, rfl⟩
      exact ⟨key, _, [], ⟨hfits, rfl⟩, ⟨⟨hshape, rfl⟩, rfl⟩, (append_nil _).symm⟩
  have hheader : Parses (decodeHeader canonicalEqKeyTupleMagic) _ := decodeHeader_parses rfl
  have hparses := hheader.bind fun _ => counted_parses one_pos one_le_encodePayload hkey
  unfold decodeCanonicalEqKeyTuple
  rw [hparses.finish]
  constructor
  · rintro ⟨_, _, _, rfl, ⟨hlen, hkeys, rfl⟩, heq⟩
    exact ⟨hlen, hkeys, heq⟩
  · rintro ⟨hlen, hkeys, heq⟩
    exact ⟨(), _, _, rfl, ⟨hlen, hkeys, rfl⟩, heq⟩

namespace SemanticRegistry
variable {registry : SemanticRegistry} {context : SemanticContext} {equivalence : SemanticId}

theorem sorted_of_view {seen : SemanticId × EquivalenceKind SemanticId}
    (h : registry.view context equivalence = .ok seen) : seen.2.Sorted := by
  intro fields hfields
  unfold view at h
  split at h
  · obtain ⟨resolved, _, hseen⟩ := bind_eq_ok.mp h
    cases hseen
    cases hfields
  rename_i definition _
  cases h
  cases definition with
  | product children =>
    cases hfields
    exact children.ordered_keys_toList
  | _ => cases hfields

theorem domain_of_canonicalEquivalenceKey
    (h : registry.canonicalEquivalenceKey context equivalence value = .ok key) :
    ∃ domain, registry.equivalenceDomain context equivalence = .ok domain := by
  unfold canonicalEquivalenceKey at h
  cases hdefinition : context.structuralEquivalences[equivalence]? with
  | some definition =>
    rw [hdefinition] at h
    obtain ⟨domain, hdomain, _⟩ := bind_eq_ok.mp h
    exact ⟨domain, hdomain⟩
  | none =>
    rw [hdefinition] at h
    -- a leaf has the domain of its implementation, which the key needs too
    cases himplementation : registry.equivalenceImplementation context equivalence with
    | ok found =>
      refine ⟨found.2.contract.domain, ?_⟩
      rw [equivalenceDomain, definitionFuel, equivalenceDomainInner, hdefinition]
      simp only [himplementation]
      rfl
    | error e =>
      have hresolved : registry.resolvedPrimitive context equivalence = .error e := by
        rw [resolvedPrimitive, resolvePrimitiveEquivalence, hdefinition, himplementation]
        rfl
      have hkey : ∀ fuel, registry.canonicalEquivalenceKeyUnchecked context fuel equivalence value ≠
          .ok key := by
        intro fuel
        cases fuel with
        | zero => rintro ⟨⟩
        | succ fuel =>
          rw [canonicalEquivalenceKeyUnchecked, keyWith, view, hdefinition, hresolved]
          rintro ⟨⟩
      exact absurd h (hkey _)

end SemanticRegistry

/-- A value, an equivalence it is compared under and the key it has there. -/
structure KeyedValue where
  registry : SemanticRegistry
  context : SemanticContext
  equivalence : SemanticId
  value : Value
  ordered : value.Ordered
  nests : value.nestsWithin maxCanonicalEqKeyDepth = true
  key : CanonicalEqKey
  keyed : registry.canonicalEquivalenceKey context equivalence value = .ok key

namespace KeyedValue
variable (entry : KeyedValue)

theorem exists_keyWith : ∃ fuel, keyWith (entry.registry.view entry.context) fuel entry.equivalence
    entry.value = .ok entry.key := by
  obtain ⟨domain, hdomain⟩ := domain_of_canonicalEquivalenceKey entry.keyed
  have hkey := entry.keyed
  rw [canonicalEquivalenceKey_of_domain hdomain] at hkey
  exact ⟨_, hkey⟩

theorem shapeIsCanonical_key : shapeIsCanonical entry.key = true ↔ entry.value.CountsPositive := by
  obtain ⟨fuel, hkey⟩ := entry.exists_keyWith
  exact shapeIsCanonical_iff_countsPositive (fun _ _ => sorted_of_view) hkey entry.ordered

theorem fits_key (hlen : (encodePayload entry.key).length < 2 ^ 64) :
    entry.key.Fits (maxCanonicalEqKeyDepth + 1) := by
  obtain ⟨fuel, hkey⟩ := entry.exists_keyWith
  exact fits_of_nestsWithin hkey entry.nests hlen

theorem fits_tuple {entries : List KeyedValue}
    (hlen : (encodeCanonicalEqKeyTuple (entries.map KeyedValue.key)).length < 2 ^ 64) :
    (entries.map KeyedValue.key).length < 2 ^ 64 ∧
      ∀ key ∈ entries.map KeyedValue.key, key.Fits (maxCanonicalEqKeyDepth + 1) := by
  rw [encodeCanonicalEqKeyTuple, length_append, length_append] at hlen
  have hpayloads := mul_le_length_flatMap fun key (_ : key ∈ entries.map KeyedValue.key) =>
    one_le_encodePayload key
  refine ⟨by omega, forall_mem_map.mpr fun entry hentry => entry.fits_key ?_⟩
  have hpayload := @CanonicalEqKey.length_le_flatMap _ encodePayload _ _
    (mem_map_of_mem (f := KeyedValue.key) hentry)
  omega

section
variable {left right : KeyedValue} {lefts rights : List KeyedValue}

theorem encodeCanonicalEqKey_inj
    (hlen : (encodeCanonicalEqKey left.key).length < 2 ^ 64) :
    encodeCanonicalEqKey left.key = encodeCanonicalEqKey right.key ↔ left.key = right.key := by
  refine ⟨fun h => ?_, fun h => by rw [h]⟩
  have hpayload := append_cancel_left h
  rw [encodeCanonicalEqKey, length_append] at hlen
  have hleft := left.fits_key (by omega)
  have hright := right.fits_key (by rw [← hpayload]; omega)
  exact (decodePayload_parses (Nat.two_pow_pos 64) _).unique ⟨hleft, rfl⟩ ⟨hright, hpayload⟩

theorem encodeCanonicalEqKeyTuple_inj
    (hlen : (encodeCanonicalEqKeyTuple (lefts.map KeyedValue.key)).length < 2 ^ 64) :
    encodeCanonicalEqKeyTuple (lefts.map KeyedValue.key) =
        encodeCanonicalEqKeyTuple (rights.map KeyedValue.key) ↔
      lefts.map KeyedValue.key = rights.map KeyedValue.key := by
  refine ⟨fun h => ?_, fun h => by rw [h]⟩
  obtain ⟨hcount, hfits⟩ := fits_tuple hlen
  obtain ⟨hcount', hfits'⟩ := fits_tuple (h ▸ hlen)
  exact (counted_parses one_pos one_le_encodePayload
    (decodePayload_parses (Nat.two_pow_pos 64) _)).unique ⟨hcount, hfits, rfl⟩
      ⟨hcount', hfits', append_cancel_left h⟩

def Comparable (left right : KeyedValue) : Prop :=
  right.registry = left.registry ∧ right.context = left.context ∧
    right.equivalence = left.equivalence

def Equivalent (left right : KeyedValue) : Prop :=
  left.registry.equivalent left.context left.equivalence left.value right.value = .ok true

theorem Comparable.equivalent_iff (h : left.Comparable right) :
    left.Equivalent right ↔ left.key = right.key := by
  obtain ⟨hregistry, hcontext, hequivalence⟩ := h
  obtain ⟨domain, hdomain⟩ := domain_of_canonicalEquivalenceKey left.keyed
  have hright := right.keyed
  rw [hregistry, hcontext, hequivalence] at hright
  rw [Equivalent, equivalent_of_keys hdomain left.keyed hright, Except.ok.injEq, decide_eq_true_eq]

theorem forall₂_equivalent_iff (h : Forall₂ Comparable lefts rights) :
    Forall₂ Equivalent lefts rights ↔ lefts.map KeyedValue.key = rights.map KeyedValue.key := by
  induction h with
  | nil => simp
  | cons h _ ih => rw [map_cons, map_cons, cons.injEq, forall₂_cons, ih, h.equivalent_iff]

end

end KeyedValue

/-- A decoder reads back the keys of exactly the values that store no count of zero. What it
accepts is what the encoder writes for the keys it returns, so equal encodings are of equivalent
values. -/
theorem keyCodec_exact (bytes : ByteSlice) :
    (∀ entries : List KeyedValue, bytes.1 = encodeCanonicalEqKeyTuple (entries.map KeyedValue.key) →
        (decodeCanonicalEqKeyTuple bytes = .ok (entries.map KeyedValue.key) ↔
          ∀ entry ∈ entries, entry.value.CountsPositive)) ∧
    (∀ entry : KeyedValue, bytes.1 = encodeCanonicalEqKey entry.key →
      (decodeCanonicalEqKey bytes = .ok entry.key ↔ entry.value.CountsPositive)) ∧
    (∀ keys, decodeCanonicalEqKeyTuple bytes = .ok keys →
      encodeCanonicalEqKeyTuple keys = bytes.1) ∧
    (∀ key, decodeCanonicalEqKey bytes = .ok key → encodeCanonicalEqKey key = bytes.1) ∧
    (∀ lefts rights : List KeyedValue, Forall₂ KeyedValue.Comparable lefts rights →
      bytes.1 = encodeCanonicalEqKeyTuple (lefts.map KeyedValue.key) →
        (bytes.1 = encodeCanonicalEqKeyTuple (rights.map KeyedValue.key) ↔
          Forall₂ KeyedValue.Equivalent lefts rights)) ∧
    ∀ left right : KeyedValue, left.Comparable right → bytes.1 = encodeCanonicalEqKey left.key →
      (bytes.1 = encodeCanonicalEqKey right.key ↔ left.Equivalent right) := by
  refine ⟨fun entries hbytes => ?_, fun entry hbytes => ?_,
    fun keys h => (decodeCanonicalEqKeyTuple_eq_ok.mp h).2.2.symm,
    fun key h => (decodeCanonicalEqKey_eq_ok.mp h).2.symm, fun lefts rights h hbytes => ?_,
    fun left right h hbytes => ?_⟩
  · obtain ⟨hcount, hfits⟩ := KeyedValue.fits_tuple (hbytes ▸ bytes.2)
    rw [forall_mem_map] at hfits
    rw [decodeCanonicalEqKeyTuple_eq_ok, forall_mem_map]
    constructor
    · intro h entry hentry
      exact entry.shapeIsCanonical_key.mp (h.2.1 entry hentry).2
    · intro h
      refine ⟨hcount, fun entry hentry => ⟨hfits entry hentry, ?_⟩, hbytes⟩
      exact entry.shapeIsCanonical_key.mpr (h entry hentry)
  · have hlen := bytes.2
    rw [hbytes, encodeCanonicalEqKey, length_append] at hlen
    have hfits := entry.fits_key (by omega)
    rw [decodeCanonicalEqKey_eq_ok, ← entry.shapeIsCanonical_key]
    exact ⟨fun h => h.1.2, fun h => ⟨⟨hfits, h⟩, hbytes⟩⟩
  · rw [hbytes, KeyedValue.encodeCanonicalEqKeyTuple_inj (hbytes ▸ bytes.2),
      KeyedValue.forall₂_equivalent_iff h]
  · rw [hbytes, KeyedValue.encodeCanonicalEqKey_inj (hbytes ▸ bytes.2), h.equivalent_iff]

/-! A bag of one text that is stored this many times. -/

def textBagContext : SemanticContext where
  structuralEquivalences := ExtTreeMap.ofList [(1, .bag 5)] compare
  modules := ExtTreeMap.ofList [(5, textDigest)] compare

def textBag (count : UInt64) : Value := .bag 1 [(.text "Ab", count)]

def textBagKey (count : UInt64) : CanonicalEqKey :=
  .bag [⟨⟨.textAsciiCaseInsensitive "ab", count⟩, 1⟩]

def textBagBytes (count : UInt8) : ByteSlice :=
  ⟨[67, 69, 75, 0, 0, 0, 0, 1, 14, 0, 0, 0, 0, 0, 0, 0, 1, 5, 0, 0, 0, 0, 0, 0, 0, 2, 97, 98,
    0, 0, 0, 0, 0, 0, 0, count, 0, 0, 0, 0, 0, 0, 0, 1], by simp⟩

theorem textBag_ordered (count : UInt64) : (textBag count).Ordered := by
  have htext : (Value.text "Ab").Ordered := .intro trivial nofun
  exact .intro trivial (forall_mem_singleton.mpr htext)

def keyedTextBag (count : UInt64)
    (h : textRegistry.canonicalEquivalenceKey textBagContext 1 (textBag count) =
      .ok (textBagKey count)) : KeyedValue where
  registry := textRegistry
  context := textBagContext
  equivalence := 1
  value := textBag count
  ordered := textBag_ordered count
  nests := rfl
  key := textBagKey count
  keyed := h

theorem keyCodec_exact_of_stored_once :
    ∃ entry : KeyedValue, entry.value = textBag 1 ∧ entry.value.CountsPositive ∧
      (textBagBytes 1).1 = encodeCanonicalEqKey entry.key ∧
      decodeCanonicalEqKey (textBagBytes 1) = .ok entry.key := by
  have hkey : SemanticRegistry.textRegistry.canonicalEquivalenceKey textBagContext 1 (textBag 1) =
      .ok (textBagKey 1) := by
    apply toOption_eq_some.mp
    decide +kernel
  have htext : (Value.text "Ab").CountsPositive := .intro nofun nofun
  have hcounts : (textBag 1).CountsPositive :=
    .intro (forall_mem_singleton.mpr (by decide)) (forall_mem_singleton.mpr htext)
  have hbytes : (textBagBytes 1).1 = encodeCanonicalEqKey (textBagKey 1) := by
    decide +kernel
  exact ⟨keyedTextBag 1 hkey, rfl, hcounts, hbytes,
    ((keyCodec_exact (textBagBytes 1)).2.1 (keyedTextBag 1 hkey) hbytes).mpr hcounts⟩

/-- A count of zero is part of the key, and the decoder refuses it. -/
theorem stored_zero_refused :
    ∃ entry : KeyedValue, (textBagBytes 0).1 = encodeCanonicalEqKey entry.key ∧
      decodeCanonicalEqKey (textBagBytes 0) = .error .nonCanonicalShape := by
  have hkey : SemanticRegistry.textRegistry.canonicalEquivalenceKey textBagContext 1 (textBag 0) =
      .ok (textBagKey 0) := by
    apply toOption_eq_some.mp
    decide +kernel
  refine ⟨keyedTextBag 0 hkey, ?_, ?_⟩
  · show (textBagBytes 0).1 = encodeCanonicalEqKey (textBagKey 0)
    decide +kernel
  · decide +kernel

end Cfmd.Semantics
