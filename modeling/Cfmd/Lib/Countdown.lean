import Mathlib.Data.List.Count
import Mathlib.Data.List.Nodup

/-! Premise counters. A counter holds the number of elements of a duplicate-free
list that are still open; closing one of them takes one off. -/

namespace Cfmd.Lib
open List
variable {α : Type*}

theorem countP_congr_mem {p q : α → Bool} {xs : List α} (h : ∀ x ∈ xs, p x = q x) :
    xs.countP p = xs.countP q :=
  countP_congr fun x hx => by rw [h x hx]

theorem countP_close {p q : α → Bool} {xs : List α} {a : α} (hnd : xs.Nodup) (ha : a ∈ xs)
    (hp : p a = true) (hq : q a = false) (hother : ∀ x ∈ xs, x ≠ a → p x = q x) :
    xs.countP q + 1 = xs.countP p := by
  induction xs with
  | nil => exact absurd ha not_mem_nil
  | cons x xs ih =>
    rw [nodup_cons] at hnd
    rw [countP_cons, countP_cons]
    by_cases hx : x = a
    · subst hx
      have hrest : xs.countP p = xs.countP q := countP_congr_mem fun y hy =>
        hother y (mem_cons_of_mem _ hy) fun heq => hnd.1 (heq ▸ hy)
      rw [hp, hq, hrest]
      simp
    · have hmem : a ∈ xs := (mem_cons.mp ha).resolve_left (Ne.symm hx)
      have hrest := ih hnd.2 hmem fun y hy => hother y (mem_cons_of_mem _ hy)
      rw [hother x mem_cons_self hx]
      omega

end Cfmd.Lib
