import Mathlib.Algebra.Order.BigOperators.Group.List
import Cfmd.Lib.Decoder
import Cfmd.Types

/-! The values of the kernel. -/

namespace Cfmd
open Lib List Bool

abbrev EntityId := Id128

/-- The fields of a product are a `BTreeMap` in the source: a list of entries
here, in the order of their ids (`Value.Ordered`). -/
inductive Value
  | unit
  | bool (value : Bool)
  | i64 (value : Int64)
  | f64Bits (value : UInt64)
  | text (value : String)
  | liveEntityRef (entityType : SemanticId) (id : EntityId)
  | historicalEntityId (entityType : SemanticId) (id : EntityId)
  | product (fields : List (SemanticId × Value))
  | option (value : Option Value)
  | variant (tag : SemanticId) (value : Value)
  | seq (values : List Value)
  | set (equivalence : SemanticId) (elements : List Value)
  | bag (equivalence : SemanticId) (entries : List (Value × UInt64))
  | map (keyEquivalence : SemanticId) (entries : List (Value × Value))

namespace Value

def fields : Value → List (SemanticId × Value)
  | product fields => fields
  | _ => []

def children : Value → List Value
  | unit | bool _ | i64 _ | f64Bits _ | text _ | liveEntityRef _ _ | historicalEntityId _ _ => []
  | product fields => fields.map Prod.snd
  | option value => value.toList
  | variant _ value => [value]
  | seq values => values
  | set _ elements => elements
  | bag _ entries => entries.map Prod.fst
  | map _ entries => entries.flatMap fun entry => [entry.1, entry.2]

/-- Every product in the value lists its fields in strictly increasing order, as
a `BTreeMap` does. -/
inductive Ordered : Value → Prop
  | intro {value : Value} (fields : Ascending Prod.fst none value.fields)
      (children : ∀ child ∈ value.children, Ordered child) : Ordered value

theorem ordered_iff {value : Value} : value.Ordered ↔
    Ascending Prod.fst none value.fields ∧ ∀ child ∈ value.children, child.Ordered :=
  ⟨fun ⟨fields, children⟩ => ⟨fields, children⟩, fun ⟨fields, children⟩ => ⟨fields, children⟩⟩

def nestsWithin : ℕ → Value → Bool
  | 0, value => value.children.isEmpty
  | levels + 1, value => value.children.all (nestsWithin levels)

mutual

def size : Value → ℕ
  | unit | bool _ | i64 _ | f64Bits _ | text _ | liveEntityRef _ _ | historicalEntityId _ _ => 1
  | product fields => sizeFields fields + 1
  | option value => sizeOption value + 1
  | variant _ value => size value + 1
  | seq values => sizeValues values + 1
  | set _ elements => sizeValues elements + 1
  | bag _ entries => sizeCounted entries + 1
  | map _ entries => sizePairs entries + 1

def sizeFields : List (SemanticId × Value) → ℕ
  | [] => 0
  | (_, value) :: rest => size value + sizeFields rest

def sizeOption : Option Value → ℕ
  | none => 0
  | some value => size value

def sizeValues : List Value → ℕ
  | [] => 0
  | value :: rest => size value + sizeValues rest

def sizeCounted : List (Value × UInt64) → ℕ
  | [] => 0
  | (value, _) :: rest => size value + sizeCounted rest

def sizePairs : List (Value × Value) → ℕ
  | [] => 0
  | (key, value) :: rest => size key + size value + sizePairs rest

end

theorem sizeFields_eq (fields : List (SemanticId × Value)) :
    sizeFields fields = ((fields.map Prod.snd).map size).sum := by
  induction fields with
  | nil => rfl
  | cons field rest ih => rw [sizeFields, ih, map_cons, map_cons, sum_cons]

theorem sizeValues_eq (values : List Value) : sizeValues values = (values.map size).sum := by
  induction values with
  | nil => rfl
  | cons value rest ih => rw [sizeValues, ih, map_cons, sum_cons]

theorem sizeCounted_eq (entries : List (Value × UInt64)) :
    sizeCounted entries = ((entries.map Prod.fst).map size).sum := by
  induction entries with
  | nil => rfl
  | cons entry rest ih => rw [sizeCounted, ih, map_cons, map_cons, sum_cons]

theorem sizePairs_eq (entries : List (Value × Value)) :
    sizePairs entries = ((entries.flatMap fun entry => [entry.1, entry.2]).map size).sum := by
  induction entries with
  | nil => rfl
  | cons entry rest ih =>
    rw [sizePairs, ih, flatMap_cons, map_append, sum_append]
    rfl

theorem size_eq (value : Value) : value.size = (value.children.map size).sum + 1 := by
  cases value with
  | product fields => rw [size, sizeFields_eq, children]
  | option value =>
    cases value with
    | none | some value => rfl
  | seq values | set equivalence elements => rw [size, sizeValues_eq, children]
  | bag equivalence entries => rw [size, sizeCounted_eq, children]
  | map equivalence entries => rw [size, sizePairs_eq, children]
  | variant tag value | _ => rfl

theorem size_lt_of_mem_children {value child : Value} (h : child ∈ value.children) :
    child.size < value.size := by
  rw [size_eq value]
  exact Nat.lt_succ_of_le (le_sum_of_mem (mem_map_of_mem h))

theorem children_induction {P : Value → Prop}
    (h : ∀ value, (∀ child ∈ value.children, P child) → P value) (value : Value) : P value := by
  induction hsize : value.size using Nat.strong_induction_on generalizing value with
  | _ n ih =>
    apply h
    intro child hchild
    exact ih child.size (hsize ▸ size_lt_of_mem_children hchild) child rfl

mutual

def beq : Value → Value → Bool
  | unit, unit => true
  | bool a, bool b => a == b
  | i64 a, i64 b => a == b
  | f64Bits a, f64Bits b => a == b
  | text a, text b => a == b
  | liveEntityRef t a, liveEntityRef u b => t == u && a == b
  | historicalEntityId t a, historicalEntityId u b => t == u && a == b
  | product xs, product ys => beqFields xs ys
  | option a, option b => beqOption a b
  | variant t a, variant u b => t == u && beq a b
  | seq xs, seq ys => beqValues xs ys
  | set e xs, set f ys => e == f && beqValues xs ys
  | bag e xs, bag f ys => e == f && beqCounted xs ys
  | map e xs, map f ys => e == f && beqPairs xs ys
  | _, _ => false

def beqFields : List (SemanticId × Value) → List (SemanticId × Value) → Bool
  | [], [] => true
  | (f, x) :: xs, (g, y) :: ys => f == g && beq x y && beqFields xs ys
  | _, _ => false

def beqOption : Option Value → Option Value → Bool
  | none, none => true
  | some x, some y => beq x y
  | _, _ => false

def beqValues : List Value → List Value → Bool
  | [], [] => true
  | x :: xs, y :: ys => beq x y && beqValues xs ys
  | _, _ => false

def beqCounted : List (Value × UInt64) → List (Value × UInt64) → Bool
  | [], [] => true
  | (x, m) :: xs, (y, n) :: ys => beq x y && m == n && beqCounted xs ys
  | _, _ => false

def beqPairs : List (Value × Value) → List (Value × Value) → Bool
  | [], [] => true
  | (k, x) :: xs, (l, y) :: ys => beq k l && beq x y && beqPairs xs ys
  | _, _ => false

end

mutual

theorem beq_iff : ∀ a b : Value, beq a b ↔ a = b := by
  intro a b
  cases a <;> cases b <;>
    simp only [beq, beq_iff_eq, and_eq_true, false_eq_true, reduceCtorEq,
      product.injEq, option.injEq, variant.injEq, seq.injEq, set.injEq, bag.injEq, map.injEq,
      bool.injEq, i64.injEq, f64Bits.injEq, text.injEq, liveEntityRef.injEq,
      historicalEntityId.injEq]
  case product.product xs ys => exact beqFields_iff xs ys
  case option.option x y => exact beqOption_iff x y
  case variant.variant t x u y => rw [beq_iff x y]
  case seq.seq xs ys => exact beqValues_iff xs ys
  case set.set e xs f ys => rw [beqValues_iff xs ys]
  case bag.bag e xs f ys => rw [beqCounted_iff xs ys]
  case map.map e xs f ys => rw [beqPairs_iff xs ys]

theorem beqFields_iff : ∀ xs ys : List (SemanticId × Value), beqFields xs ys ↔ xs = ys
  | [], [] => by simp [beqFields]
  | [], _ :: _ => by simp [beqFields]
  | _ :: _, [] => by simp [beqFields]
  | (f, x) :: xs, (g, y) :: ys => by
    simp only [beqFields, and_eq_true, beq_iff_eq, List.cons.injEq, Prod.mk.injEq,
      beq_iff x y, beqFields_iff xs ys]

theorem beqOption_iff : ∀ x y : Option Value, beqOption x y ↔ x = y
  | none, none => by simp [beqOption]
  | none, some _ => by simp [beqOption]
  | some _, none => by simp [beqOption]
  | some x, some y => by
    simp only [beqOption, Option.some.injEq, beq_iff x y]

theorem beqValues_iff : ∀ xs ys : List Value, beqValues xs ys ↔ xs = ys
  | [], [] => by simp [beqValues]
  | [], _ :: _ => by simp [beqValues]
  | _ :: _, [] => by simp [beqValues]
  | x :: xs, y :: ys => by
    simp only [beqValues, and_eq_true, List.cons.injEq, beq_iff x y, beqValues_iff xs ys]

theorem beqCounted_iff : ∀ xs ys : List (Value × UInt64), beqCounted xs ys ↔ xs = ys
  | [], [] => by simp [beqCounted]
  | [], _ :: _ => by simp [beqCounted]
  | _ :: _, [] => by simp [beqCounted]
  | (x, m) :: xs, (y, n) :: ys => by
    simp only [beqCounted, and_eq_true, beq_iff_eq, List.cons.injEq, Prod.mk.injEq,
      beq_iff x y, beqCounted_iff xs ys]

theorem beqPairs_iff : ∀ xs ys : List (Value × Value), beqPairs xs ys ↔ xs = ys
  | [], [] => by simp [beqPairs]
  | [], _ :: _ => by simp [beqPairs]
  | _ :: _, [] => by simp [beqPairs]
  | (k, x) :: xs, (l, y) :: ys => by
    simp only [beqPairs, and_eq_true, List.cons.injEq, Prod.mk.injEq, beq_iff k l,
      beq_iff x y, beqPairs_iff xs ys]

end

instance : DecidableEq Value := fun a b => decidable_of_iff (beq a b) (beq_iff a b)

end Value

end Cfmd
