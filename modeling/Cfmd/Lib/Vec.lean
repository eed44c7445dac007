import Mathlib.Algebra.GroupWithZero.Nat
import Mathlib.Data.List.Basic

/-! Vectors read with a default: what a write, a `resize` and an in-place edit
of one slot leave behind. -/

namespace Cfmd.Lib
open List
variable {α : Type*}

/-- `resize` of a vector: cut or padded to the given length. -/
def resize (xs : List α) (n : ℕ) (pad : α) : List α :=
  (xs ++ replicate (n - xs.length) pad).take n

theorem getD_set (xs : List α) (i j : ℕ) (a d : α) :
    (xs.set i a)[j]?.getD d = if i = j ∧ i < xs.length then a else xs[j]?.getD d := by
  by_cases hij : i = j
  · subst hij
    by_cases hi : i < xs.length
    · simp [hi]
    · simp [hi]
  · simp [hij]

theorem getD_modify (xs : List α) (i j : ℕ) (f : α → α) (d : α) :
    (xs.modify i f)[j]?.getD d =
      if i = j ∧ i < xs.length then f (xs[j]?.getD d) else xs[j]?.getD d := by
  by_cases hij : i = j
  · subst hij
    by_cases hi : i < xs.length
    · simp [hi]
    · simp [hi]
  · simp [hij]

theorem getD_replicate_self (n j : ℕ) (d : α) : (replicate n d)[j]?.getD d = d := by
  rw [getElem?_replicate]
  split <;> rfl

/-- `for i in slots { xs[i] = f(xs[i]) }`. -/
def modifyAll (slots : List ℕ) (f : α → α) (xs : List α) : List α :=
  slots.foldl (fun ys i => ys.modify i f) xs

@[simp] theorem length_modifyAll (slots : List ℕ) (f : α → α) (xs : List α) :
    (modifyAll slots f xs).length = xs.length := by
  unfold modifyAll
  induction slots generalizing xs with
  | nil => rfl
  | cons i slots ih => rw [foldl_cons, ih, length_modify]

theorem getD_modifyAll {slots : List ℕ} (hnd : slots.Nodup) (f : α → α) (xs : List α) (j : ℕ)
    (d : α) : (modifyAll slots f xs)[j]?.getD d =
      if j ∈ slots ∧ j < xs.length then f (xs[j]?.getD d) else xs[j]?.getD d := by
  unfold modifyAll
  induction slots generalizing xs with
  | nil => simp
  | cons i slots ih =>
    rw [nodup_cons] at hnd
    rw [foldl_cons, ih hnd.2, getD_modify]
    by_cases hij : i = j
    · subst hij
      simp [hnd.1]
    · simp [hij, Ne.symm hij]

@[simp] theorem length_resize (xs : List α) (n : ℕ) (pad : α) : (resize xs n pad).length = n := by
  simp only [resize, length_take, length_append, length_replicate]
  omega

theorem getD_resize_of_le {xs : List α} {n : ℕ} (h : xs.length ≤ n) (j : ℕ) (pad : α) :
    (resize xs n pad)[j]?.getD pad = xs[j]?.getD pad := by
  rw [resize, take_of_length_le (by simp; omega), getElem?_append]
  split_ifs with hj
  · rfl
  · rw [getElem?_replicate, getElem?_eq_none (Nat.le_of_not_lt hj)]
    split <;> rfl

theorem lt_length_of_getD_ne {xs : List α} {j : ℕ} {d : α} (h : xs[j]?.getD d ≠ d) :
    j < xs.length := by
  by_contra hj
  exact h (by rw [getElem?_eq_none (Nat.le_of_not_lt hj), Option.getD_none])

theorem lt_length_of_getD_true {xs : List Bool} {j : ℕ} (h : xs[j]?.getD false = true) :
    j < xs.length :=
  lt_length_of_getD_ne (d := false) (by rw [h]; decide)

end Cfmd.Lib
