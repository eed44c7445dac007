import Mathlib.Data.Finset.Basic

/-! A map from keys to places in a vector: the index a program keeps beside a
vector it only pushes to. -/

namespace Cfmd.Lib
open Std

theorem getElem?_concat_iff {γ : Type*} {xs : List γ} {a x : γ} {i : ℕ} :
    (xs ++ [a])[i]? = some x ↔ xs[i]? = some x ∨ (i = xs.length ∧ x = a) := by
  rcases Nat.lt_trichotomy i xs.length with hi | hi | hi
  · rw [List.getElem?_append_left hi]
    simp [hi.ne]
  · subst hi
    simp [eq_comm]
  · rw [List.getElem?_eq_none (by simpa using Nat.succ_le_of_lt hi), List.getElem?_eq_none hi.le]
    simp [hi.ne']

theorem mem_concat_of_mem {γ : Type*} {xs : List γ} {a x : γ} (ha : a ∈ xs) :
    x ∈ xs ++ [a] ↔ x ∈ xs := by
  rw [List.mem_append, List.mem_singleton, or_iff_left_of_imp]
  rintro rfl
  exact ha

variable {α γ : Type*} [Ord α] [TransOrd α] {m : ExtTreeMap α ℕ} {xs : List γ} {key : γ → α}

def IndexedBy (m : ExtTreeMap α ℕ) (xs : List γ) (key : γ → α) : Prop :=
  ∀ k i, m[k]? = some i ↔ ∃ x, xs[i]? = some x ∧ key x = k

theorem IndexedBy.empty : IndexedBy (∅ : ExtTreeMap α ℕ) ([] : List γ) key := by
  intro k i
  simp

theorem IndexedBy.of_mem (h : IndexedBy m xs key) {x : γ} (hx : x ∈ xs) :
    ∃ i, xs[i]? = some x ∧ m[key x]? = some i := by
  obtain ⟨i, hi⟩ := List.mem_iff_getElem?.mp hx
  exact ⟨i, hi, (h _ _).mpr ⟨x, hi, rfl⟩⟩

theorem IndexedBy.eq_of_key (h : IndexedBy m xs key) {i j : ℕ} {x y : γ}
    (hx : xs[i]? = some x) (hy : xs[j]? = some y) (hkey : key x = key y) : i = j ∧ x = y := by
  have hi := (h _ _).mpr ⟨x, hx, hkey⟩
  have hj := (h _ _).mpr ⟨y, hy, rfl⟩
  have hij : i = j := Option.some.inj (hi.symm.trans hj)
  subst hij
  exact ⟨rfl, Option.some.inj (hx.symm.trans hy)⟩

theorem IndexedBy.push [LawfulEqOrd α] (h : IndexedBy m xs key) {a : γ} (ha : m[key a]? = none) :
    IndexedBy (m.insert (key a) xs.length) (xs ++ [a]) key := by
  intro k i
  rw [ExtTreeMap.getElem?_insert]
  by_cases heq : key a = k
  · subst heq
    have hnone : ¬ ∃ x, xs[i]? = some x ∧ key x = key a := by
      intro hx
      rw [← h, ha] at hx
      cases hx
    rw [if_pos ReflCmp.compare_self, Option.some.injEq]
    grind
  · rw [if_neg fun hcmp => heq (LawfulEqCmp.compare_eq_iff_eq.mp hcmp), h]
    grind

end Cfmd.Lib
