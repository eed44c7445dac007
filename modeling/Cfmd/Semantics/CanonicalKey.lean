import Cfmd.Lib.Failure
import Cfmd.Lib.OrderedTree
import Cfmd.Model.Value

/-! Canonical equality keys and finite counting measures. -/

namespace Cfmd.Semantics
open Std Lib Tree

structure FiniteMeasureEntry (α : Type) where
  atom : α
  multiplicity : UInt64
deriving DecidableEq

abbrev FiniteMeasure (α : Type) := List (FiniteMeasureEntry α)

structure BagAtom (κ : Type) where
  value : κ
  storedCount : UInt64
deriving DecidableEq

structure MapAtom (κ : Type) where
  key : κ
  value : κ
deriving DecidableEq

inductive CanonicalEqKey
  | unit
  | bool (value : Bool)
  | i64 (value : Int64)
  | f64Bits (value : UInt64)
  | textExact (value : String)
  | textAsciiCaseInsensitive (value : String)
  | liveEntityId (entityType : SemanticId) (id : EntityId)
  | historicalEntityId (entityType : SemanticId) (id : EntityId)
  | product (fields : List (SemanticId × CanonicalEqKey))
  | optionNone
  | optionSome (value : CanonicalEqKey)
  | variant (tag : SemanticId) (value : CanonicalEqKey)
  | seq (values : List CanonicalEqKey)
  | set (measure : List (FiniteMeasureEntry CanonicalEqKey))
  | bag (measure : List (FiniteMeasureEntry (BagAtom CanonicalEqKey)))
  | map (measure : List (FiniteMeasureEntry (MapAtom CanonicalEqKey)))

abbrev CanonicalBagAtom := BagAtom CanonicalEqKey

abbrev CanonicalMapAtom := MapAtom CanonicalEqKey

/-! ### The derived order -/

def idTree (id : Id128) : Tree := .leaf id.value.toNat

def u64Tree (value : UInt64) : Tree := .leaf value.toNat

def i64Tree (value : Int64) : Tree := .leaf (value.toInt + 2 ^ 63).toNat

def boolTree (value : Bool) : Tree := .leaf value.toNat

def textTree (value : String) : Tree := .list (value.toList.map fun c => .leaf c.toNat)

namespace CanonicalEqKey

mutual

def toTree : CanonicalEqKey → Tree
  | unit => .leaf 0
  | bool value => .node 1 [boolTree value]
  | i64 value => .node 2 [i64Tree value]
  | f64Bits value => .node 3 [u64Tree value]
  | textExact value => .node 4 [textTree value]
  | textAsciiCaseInsensitive value => .node 5 [textTree value]
  | liveEntityId entityType id => .node 6 [idTree entityType, idTree id]
  | historicalEntityId entityType id => .node 7 [idTree entityType, idTree id]
  | product fields => .node 8 [.list (fieldTrees fields)]
  | optionNone => .leaf 9
  | optionSome value => .node 10 [toTree value]
  | variant tag value => .node 11 [idTree tag, toTree value]
  | seq values => .node 12 [.list (valueTrees values)]
  | set measure => .node 13 [.list (setTrees measure)]
  | bag measure => .node 14 [.list (bagTrees measure)]
  | map measure => .node 15 [.list (mapTrees measure)]

def fieldTrees : List (SemanticId × CanonicalEqKey) → List Tree
  | [] => []
  | (field, value) :: rest => .list [idTree field, toTree value] :: fieldTrees rest

def valueTrees : List CanonicalEqKey → List Tree
  | [] => []
  | value :: rest => toTree value :: valueTrees rest

def setTrees : FiniteMeasure CanonicalEqKey → List Tree
  | [] => []
  | ⟨atom, multiplicity⟩ :: rest => .list [toTree atom, u64Tree multiplicity] :: setTrees rest

def bagTrees : FiniteMeasure (BagAtom CanonicalEqKey) → List Tree
  | [] => []
  | ⟨⟨value, storedCount⟩, multiplicity⟩ :: rest =>
    .list [.list [toTree value, u64Tree storedCount], u64Tree multiplicity] :: bagTrees rest

def mapTrees : FiniteMeasure (MapAtom CanonicalEqKey) → List Tree
  | [] => []
  | ⟨⟨key, value⟩, multiplicity⟩ :: rest =>
    .list [.list [toTree key, toTree value], u64Tree multiplicity] :: mapTrees rest

end

theorem idTree_injective {a b : Id128} (h : idTree a = idTree b) : a = b := by
  simp only [idTree, leaf, node.injEq, and_true] at h
  cases a
  cases b
  exact congrArg Id128.mk (BitVec.eq_of_toNat_eq h)

theorem u64Tree_injective {a b : UInt64} (h : u64Tree a = u64Tree b) : a = b := by
  simp only [u64Tree, leaf, node.injEq, and_true] at h
  exact UInt64.toNat_inj.mp h

theorem i64Tree_injective {a b : Int64} (h : i64Tree a = i64Tree b) : a = b := by
  simp only [i64Tree, leaf, node.injEq, and_true] at h
  have ha := Int64.le_toInt a
  have hb := Int64.le_toInt b
  apply Int64.toInt_inj.mp
  omega

theorem boolTree_injective {a b : Bool} (h : boolTree a = boolTree b) : a = b := by
  simp only [boolTree, leaf, node.injEq, and_true] at h
  cases a <;> cases b <;> simp_all

theorem textTree_injective {a b : String} (h : textTree a = textTree b) : a = b := by
  simp only [textTree, list, node.injEq, true_and] at h
  apply String.toList_inj.mp
  refine List.map_injective_iff.mpr ?_ h
  intro c c' hc
  simp only [leaf, node.injEq, and_true] at hc
  exact Char.toNat_inj.mp hc

mutual

theorem toTree_injective : ∀ a b : CanonicalEqKey, toTree a = toTree b → a = b := by
  intro a b h
  cases a <;> cases b <;>
    simp only [toTree, leaf, list, node.injEq, List.cons.injEq, Nat.reduceEqDiff,
      false_and, true_and, and_true, reduceCtorEq] at h
  case unit.unit => rfl
  case bool.bool x y => rw [boolTree_injective h]
  case i64.i64 x y => rw [i64Tree_injective h]
  case f64Bits.f64Bits x y => rw [u64Tree_injective h]
  case textExact.textExact x y => rw [textTree_injective h]
  case textAsciiCaseInsensitive.textAsciiCaseInsensitive x y => rw [textTree_injective h]
  case liveEntityId.liveEntityId t x t' y => rw [idTree_injective h.1, idTree_injective h.2]
  case historicalEntityId.historicalEntityId t x t' y =>
    rw [idTree_injective h.1, idTree_injective h.2]
  case product.product x y => rw [fieldTrees_injective x y h]
  case optionNone.optionNone => rfl
  case optionSome.optionSome x y => rw [toTree_injective x y h]
  case variant.variant t x t' y => rw [idTree_injective h.1, toTree_injective x y h.2]
  case seq.seq x y => rw [valueTrees_injective x y h]
  case set.set x y => rw [setTrees_injective x y h]
  case bag.bag x y => rw [bagTrees_injective x y h]
  case map.map x y => rw [mapTrees_injective x y h]

theorem fieldTrees_injective : ∀ xs ys : List (SemanticId × CanonicalEqKey),
    fieldTrees xs = fieldTrees ys → xs = ys
  | [], [], _ => rfl
  | [], (_, _) :: _, h => by cases h
  | (_, _) :: _, [], h => by cases h
  | (f, x) :: xs, (g, y) :: ys, h => by
    simp only [fieldTrees, list, List.cons.injEq, node.injEq, true_and, and_true] at h
    rw [idTree_injective h.1.1, toTree_injective x y h.1.2, fieldTrees_injective xs ys h.2]

theorem valueTrees_injective : ∀ xs ys : List CanonicalEqKey,
    valueTrees xs = valueTrees ys → xs = ys
  | [], [], _ => rfl
  | [], _ :: _, h => by cases h
  | _ :: _, [], h => by cases h
  | x :: xs, y :: ys, h => by
    simp only [valueTrees, List.cons.injEq] at h
    rw [toTree_injective x y h.1, valueTrees_injective xs ys h.2]

theorem setTrees_injective : ∀ xs ys : FiniteMeasure CanonicalEqKey,
    setTrees xs = setTrees ys → xs = ys
  | [], [], _ => rfl
  | [], ⟨_, _⟩ :: _, h => by cases h
  | ⟨_, _⟩ :: _, [], h => by cases h
  | ⟨x, m⟩ :: xs, ⟨y, n⟩ :: ys, h => by
    simp only [setTrees, list, List.cons.injEq, node.injEq, true_and, and_true] at h
    rw [toTree_injective x y h.1.1, u64Tree_injective h.1.2, setTrees_injective xs ys h.2]

theorem bagTrees_injective : ∀ xs ys : FiniteMeasure (BagAtom CanonicalEqKey),
    bagTrees xs = bagTrees ys → xs = ys
  | [], [], _ => rfl
  | [], ⟨⟨_, _⟩, _⟩ :: _, h => by cases h
  | ⟨⟨_, _⟩, _⟩ :: _, [], h => by cases h
  | ⟨⟨x, c⟩, m⟩ :: xs, ⟨⟨y, d⟩, n⟩ :: ys, h => by
    simp only [bagTrees, list, List.cons.injEq, node.injEq, true_and, and_true] at h
    obtain ⟨⟨⟨hvalue, hcount⟩, hmultiplicity⟩, hrest⟩ := h
    rw [toTree_injective x y hvalue, u64Tree_injective hcount, u64Tree_injective hmultiplicity,
      bagTrees_injective xs ys hrest]

theorem mapTrees_injective : ∀ xs ys : FiniteMeasure (MapAtom CanonicalEqKey),
    mapTrees xs = mapTrees ys → xs = ys
  | [], [], _ => rfl
  | [], ⟨⟨_, _⟩, _⟩ :: _, h => by cases h
  | ⟨⟨_, _⟩, _⟩ :: _, [], h => by cases h
  | ⟨⟨x, v⟩, m⟩ :: xs, ⟨⟨y, w⟩, n⟩ :: ys, h => by
    simp only [mapTrees, list, List.cons.injEq, node.injEq, true_and, and_true] at h
    obtain ⟨⟨⟨hkey, hvalue⟩, hmultiplicity⟩, hrest⟩ := h
    rw [toTree_injective x y hkey, toTree_injective v w hvalue,
      u64Tree_injective hmultiplicity, mapTrees_injective xs ys hrest]

end

instance : Ord CanonicalEqKey := ⟨compareOn toTree⟩

instance : TransOrd CanonicalEqKey := inferInstanceAs (TransCmp (compareOn toTree))

instance : LawfulEqOrd CanonicalEqKey where
  eq_of_compare h := toTree_injective _ _ (LawfulEqOrd.eq_of_compare h)

instance : DecidableEq CanonicalEqKey := fun a b =>
  decidable_of_iff (compare a b = .eq) LawfulEqOrd.compare_eq_iff_eq

end CanonicalEqKey

section
attribute [local instance] lexOrd

def BagAtom.sortKey (atom : CanonicalBagAtom) : CanonicalEqKey × UInt64 :=
  (atom.value, atom.storedCount)

def MapAtom.sortKey (atom : CanonicalMapAtom) : CanonicalEqKey × CanonicalEqKey :=
  (atom.key, atom.value)

theorem BagAtom.sortKey_injective : Function.Injective sortKey := by
  rintro ⟨value, count⟩ ⟨value', count'⟩ h
  simpa [sortKey] using h

theorem MapAtom.sortKey_injective : Function.Injective sortKey := by
  rintro ⟨key, value⟩ ⟨key', value'⟩ h
  simpa [sortKey] using h

instance : Ord CanonicalBagAtom := ⟨compareOn BagAtom.sortKey⟩

instance : TransOrd CanonicalBagAtom := inferInstanceAs (TransCmp (compareOn BagAtom.sortKey))

instance : LawfulEqOrd CanonicalBagAtom where
  eq_of_compare h := BagAtom.sortKey_injective (LawfulEqOrd.eq_of_compare h)

instance : Ord CanonicalMapAtom := ⟨compareOn MapAtom.sortKey⟩

instance : TransOrd CanonicalMapAtom := inferInstanceAs (TransCmp (compareOn MapAtom.sortKey))

instance : LawfulEqOrd CanonicalMapAtom where
  eq_of_compare h := MapAtom.sortKey_injective (LawfulEqOrd.eq_of_compare h)

end

/-! ### Counting measures -/

section
variable {α ε : Type} [Ord α] [TransOrd α]

def countAtom (counts : ExtTreeMap α UInt64) (atom : α) : Fallible ε (ExtTreeMap α UInt64) :=
  if counts[atom]? = some 0xffffffffffffffff then
    .error (.panic "an in-memory collection cannot contain more than u64::MAX entries")
  else .ok (counts.insert atom ((counts[atom]?).getD 0 + 1))

def finiteMeasureFromAtoms (atoms : List α) : Fallible ε (FiniteMeasure α) := do
  let counts ← atoms.foldlM countAtom ∅
  return counts.toList.map fun entry => ⟨entry.1, entry.2⟩

end

end Cfmd.Semantics
