import Cfmd.Lib.Loop
import Cfmd.Lib.TreeMap

/-! Counts of keys in a map. A tally agrees with a list when it has the count of every key;
withdrawing a tally from a list drops the first elements of each key it counts. -/

namespace Cfmd.Lib
open Std List

variable {α κ : Type} [Ord κ] [TransOrd κ]

abbrev Tally (κ : Type) [Ord κ] := ExtTreeMap κ ℕ

def bump (tally : Tally κ) (k : κ) : Tally κ := tally.insert k (tally.getD k 0 + 1)

def tallyOf (keys : List κ) : Tally κ := keys.foldl bump ∅

/-- One element less for each key that is counted, from the front. -/
def withdraw : Tally κ → List (α × κ) → List (α × κ)
  | _, [] => []
  | tally, entry :: rest =>
    match tally[entry.2]? with
    | some (n + 1) => withdraw (tally.insert entry.2 n) rest
    | _ => entry :: withdraw tally rest

theorem withdraw_sublist (tally : Tally κ) (entries : List (α × κ)) :
    (withdraw tally entries).Sublist entries := by
  induction entries generalizing tally with
  | nil => exact .slnil
  | cons entry rest ih =>
    rw [withdraw]
    split
    · exact (ih _).cons _
    · exact (ih _).cons_cons _

theorem getElem?_eq_some_of_getD {tally : Tally κ} {k : κ} {n : ℕ} (h : tally.getD k 0 = n + 1) :
    tally[k]? = some (n + 1) := by
  rw [ExtTreeMap.getD_eq_getD_getElem?] at h
  cases hk : tally[k]? with
  | none =>
    rw [hk] at h
    cases h
  | some m =>
    rw [hk] at h
    exact congrArg some h

section
variable [LawfulEqOrd κ] [DecidableEq κ]

def Tallies (tally : Tally κ) (keys : List κ) : Prop := ∀ k, tally.getD k 0 = keys.count k

theorem getD_insert (tally : Tally κ) (k k' : κ) (n : ℕ) :
    (tally.insert k n).getD k' 0 = if k = k' then n else tally.getD k' 0 := by
  rw [ExtTreeMap.getD_insert]
  simp only [LawfulEqOrd.compare_eq_iff_eq]

omit [LawfulEqOrd κ] in
theorem Tallies.empty : Tallies (∅ : Tally κ) [] := by
  intro k
  rw [ExtTreeMap.getD_empty, count_nil]

theorem Tallies.bump {tally : Tally κ} {keys : List κ} (h : Tallies tally keys) (k : κ) :
    Tallies (bump tally k) (keys ++ [k]) := by
  intro k'
  rw [Lib.bump, getD_insert, count_append, count_singleton]
  by_cases heq : k = k'
  · subst heq
    rw [if_pos rfl, h k, if_pos (beq_self_eq_true k)]
  · rw [if_neg heq, h k', if_neg (by simpa using heq), Nat.add_zero]

theorem tallies_tallyOf (keys : List κ) : Tallies (tallyOf keys) keys := by
  have hrun : ∀ (keys done : List κ) (tally : Tally κ), Tallies tally done →
      Tallies (keys.foldl Lib.bump tally) (done ++ keys) := by
    intro keys
    induction keys with
    | nil =>
      intro done tally h
      rwa [append_nil]
    | cons k keys ih =>
      intro done tally h
      have hrest := ih (done ++ [k]) _ (h.bump k)
      rwa [append_assoc] at hrest
  exact hrun keys [] ∅ Tallies.empty

theorem count_withdraw (tally : Tally κ) (entries : List (α × κ)) (k : κ) :
    ((withdraw tally entries).map Prod.snd).count k =
      (entries.map Prod.snd).count k - tally.getD k 0 := by
  induction entries generalizing tally with
  | nil => exact (Nat.zero_sub _).symm
  | cons entry rest ih =>
    rw [map_cons, count_cons, withdraw]
    cases hcount : tally.getD entry.2 0 with
    | zero =>
      have hkeep : ∀ n, tally[entry.2]? ≠ some (n + 1) := by
        intro n hn
        rw [ExtTreeMap.getD_eq_getD_getElem?, hn] at hcount
        cases hcount
      split
      · rename_i n hn
        exact absurd hn (hkeep n)
      rw [map_cons, count_cons, ih]
      by_cases heq : entry.2 = k
      · subst heq
        rw [hcount, Nat.sub_zero, Nat.sub_zero]
      · rw [if_neg (by simpa using heq), Nat.add_zero, Nat.add_zero]
    | succ n =>
      rw [getElem?_eq_some_of_getD hcount]
      rw [ih, getD_insert]
      by_cases heq : entry.2 = k
      · subst heq
        rw [if_pos rfl, if_pos (beq_self_eq_true _), hcount, Nat.add_sub_add_right]
      · rw [if_neg heq, if_neg (by simpa using heq), Nat.add_zero]

end

end Cfmd.Lib
