import Mathlib.Tactic.Common
import Std.Data.ExtTreeMap

/-! Trees with a number at each node, in lexicographic order: labels first, then
the lists of children. The order that Rust derives for an enum is this one, with
the index of the variant as the label and the fields as children. -/

namespace Cfmd.Lib
open Std

inductive Tree
  | node (label : ℕ) (children : List Tree)

namespace Tree

def leaf (label : ℕ) : Tree := .node label []

def list (items : List Tree) : Tree := .node 0 items

mutual

def cmp : Tree → Tree → Ordering
  | .node a xs, .node b ys => (compare a b).then (cmpList xs ys)

def cmpList : List Tree → List Tree → Ordering
  | [], [] => .eq
  | [], _ :: _ => .lt
  | _ :: _, [] => .gt
  | x :: xs, y :: ys => (cmp x y).then (cmpList xs ys)

end

/-! The three laws go by structural recursion on the first tree, together for
trees and for lists of trees. -/

mutual

theorem eq_of_cmp : ∀ a b : Tree, cmp a b = .eq → a = b
  | .node a xs, .node b ys, h => by
    rw [cmp, Ordering.then_eq_eq] at h
    have hlabel : a = b := LawfulEqCmp.eq_of_compare h.1
    have hchildren : xs = ys := eq_of_cmpList xs ys h.2
    rw [hlabel, hchildren]

theorem eq_of_cmpList : ∀ xs ys : List Tree, cmpList xs ys = .eq → xs = ys
  | [], [], _ => rfl
  | [], _ :: _, h => by cases h
  | _ :: _, [], h => by cases h
  | x :: xs, y :: ys, h => by
    rw [cmpList, Ordering.then_eq_eq] at h
    rw [eq_of_cmp x y h.1, eq_of_cmpList xs ys h.2]

end

mutual

theorem cmp_swap : ∀ a b : Tree, cmp a b = (cmp b a).swap
  | .node a xs, .node b ys => by
    have hlabel : compare a b = (compare b a).swap := OrientedCmp.eq_swap
    rw [cmp, cmp, Ordering.swap_then, hlabel, cmpList_swap xs ys]

theorem cmpList_swap : ∀ xs ys : List Tree, cmpList xs ys = (cmpList ys xs).swap
  | [], [] => rfl
  | [], _ :: _ => rfl
  | _ :: _, [] => rfl
  | x :: xs, y :: ys => by
    rw [cmpList, cmpList, Ordering.swap_then, cmp_swap x y, cmpList_swap xs ys]

end

theorem then_eq_lt {a b : Ordering} : a.then b = .lt ↔ a = .lt ∨ a = .eq ∧ b = .lt := by
  cases a with
  | lt | eq | gt => simp

mutual

theorem cmp_lt_trans : ∀ a b c : Tree, cmp a b = .lt → cmp b c = .lt → cmp a c = .lt
  | .node a xs, .node b ys, .node c zs, hab, hbc => by
    rw [cmp, then_eq_lt] at hab hbc ⊢
    rcases hab with hab | ⟨hab, hxy⟩
    · rcases hbc with hbc | ⟨hbc, _⟩
      · exact .inl (TransCmp.lt_trans hab hbc)
      · rw [LawfulEqCmp.eq_of_compare hbc] at hab
        exact .inl hab
    · rw [LawfulEqCmp.eq_of_compare hab]
      rcases hbc with hbc | ⟨hbc, hyz⟩
      · exact .inl hbc
      · exact .inr ⟨hbc, cmpList_lt_trans xs ys zs hxy hyz⟩

theorem cmpList_lt_trans : ∀ xs ys zs : List Tree, cmpList xs ys = .lt → cmpList ys zs = .lt →
    cmpList xs zs = .lt
  | [], _, _ :: _, _, _ => rfl
  | _ :: _, [], _, hxy, _ => by cases hxy
  | [], [], [], hxy, _ => by cases hxy
  | _, _ :: _, [], _, hyz => by cases hyz
  | x :: xs, y :: ys, z :: zs, hxy, hyz => by
    rw [cmpList, then_eq_lt] at hxy hyz ⊢
    rcases hxy with hxy | ⟨hxy, htail⟩
    · rcases hyz with hyz | ⟨hyz, _⟩
      · exact .inl (cmp_lt_trans x y z hxy hyz)
      · rw [eq_of_cmp y z hyz] at hxy
        exact .inl hxy
    · rw [eq_of_cmp x y hxy]
      rcases hyz with hyz | ⟨hyz, htail'⟩
      · exact .inl hyz
      · exact .inr ⟨hyz, cmpList_lt_trans xs ys zs htail htail'⟩

end

instance : Ord Tree := ⟨cmp⟩

theorem isLE_trans {a b c : Tree} (hab : (cmp a b).isLE) (hbc : (cmp b c).isLE) :
    (cmp a c).isLE := by
  rw [Ordering.isLE_iff_eq_lt_or_eq_eq] at *
  rcases hab with hab | hab
  · rcases hbc with hbc | hbc
    · exact .inl (cmp_lt_trans a b c hab hbc)
    · rw [← eq_of_cmp b c hbc]
      exact .inl hab
  · rw [eq_of_cmp a b hab]
    exact hbc

instance : TransOrd Tree where
  eq_swap := cmp_swap _ _
  isLE_trans := isLE_trans

instance : LawfulEqOrd Tree where
  eq_of_compare := eq_of_cmp _ _

end Tree

end Cfmd.Lib
