import Mathlib.Data.List.Dedup
import Mathlib.Data.List.Sort
import Cfmd.Lib.Vec

/-! Adjacency lists in a vector of rows: what a list of pushes leaves in each
row, the rows of the reversed graph, and rows without repetitions. -/

namespace Cfmd.Lib
open List

def row (rows : List (List ℕ)) (node : ℕ) : List ℕ := rows[node]?.getD []

/-- `rows[slot].push(value)`. -/
def pushAt (rows : List (List ℕ)) (slot value : ℕ) : List (List ℕ) :=
  rows.modify slot (· ++ [value])

variable {j : ℕ} {rows : List (List ℕ)}

theorem row_of_le (h : rows.length ≤ j) : row rows j = [] := by
  unfold row
  rw [getElem?_eq_none h, Option.getD_none]

theorem lt_of_mem_row {x : ℕ} (h : x ∈ row rows j) : j < rows.length := by
  by_contra hj
  rw [row_of_le (Nat.le_of_not_lt hj)] at h
  exact absurd h not_mem_nil

theorem row_modify (rows : List (List ℕ)) (slot j : ℕ) (f : List ℕ → List ℕ) :
    row (rows.modify slot f) j =
      if slot = j ∧ slot < rows.length then f (row rows j) else row rows j :=
  getD_modify rows slot j f []

@[simp] theorem length_pushAt (rows : List (List ℕ)) (slot value : ℕ) :
    (pushAt rows slot value).length = rows.length := by
  simp [pushAt]

theorem row_pushAt (rows : List (List ℕ)) (slot value j : ℕ) (hj : j < rows.length) :
    row (pushAt rows slot value) j = row rows j ++ if slot = j then [value] else [] := by
  unfold row pushAt
  by_cases h : slot = j
  · subst h
    simp [hj]
  · simp [h]

theorem row_foldl_pushAt (pushes : List (ℕ × ℕ)) (rows : List (List ℕ)) (hj : j < rows.length) :
    row (pushes.foldl (fun rows push => pushAt rows push.1 push.2) rows) j =
      row rows j ++ (pushes.filter fun push => push.1 = j).map Prod.snd := by
  induction pushes generalizing rows with
  | nil => simp
  | cons push pushes ih =>
    rw [foldl_cons, ih _ (by simpa using hj), row_pushAt rows _ _ _ hj]
    by_cases h : push.1 = j
    · simp [h]
    · simp [h]

@[simp] theorem length_foldl_pushAt (pushes : List (ℕ × ℕ)) (rows : List (List ℕ)) :
    (pushes.foldl (fun rows push => pushAt rows push.1 push.2) rows).length = rows.length := by
  induction pushes generalizing rows with
  | nil => rfl
  | cons push pushes ih => rw [foldl_cons, ih, length_pushAt]

theorem row_replicate (n j : ℕ) : row (replicate n []) j = [] := getD_replicate_self n j []

theorem filter_flatMap_pairs (f : ℕ → List ℕ) (hf : ∀ s, (f s).Nodup) (sources : List ℕ) (t : ℕ) :
    ((sources.flatMap fun s => (f s).map fun x => (x, s)).filter fun push => push.1 = t).map
      Prod.snd = sources.filter fun s => t ∈ f s := by
  induction sources with
  | nil => rfl
  | cons s sources ih =>
    have hone : (((f s).map fun x => (x, s)).filter fun push => push.1 = t).map Prod.snd =
        if t ∈ f s then [s] else [] := by
      rw [filter_map]
      have hfilter : (f s).filter ((fun push : ℕ × ℕ => decide (push.1 = t)) ∘ fun x => (x, s)) =
          replicate ((f s).count t) t := filter_eq t
      rw [hfilter]
      by_cases ht : t ∈ f s
      · simp [count_eq_one_of_mem (hf s) ht, ht]
      · simp [count_eq_zero_of_not_mem ht, ht]
    rw [flatMap_cons, filter_append, map_append, ih, hone]
    by_cases ht : t ∈ f s
    · simp [ht]
    · simp [ht]

/-- `values.sort_unstable(); values.dedup()`. -/
def sortDedup (values : List ℕ) : List ℕ := (values.insertionSort (· ≤ ·)).dedup

theorem mem_sortDedup {values : List ℕ} {x : ℕ} : x ∈ sortDedup values ↔ x ∈ values := by
  simp [sortDedup]

theorem sortDedup_pairwise (values : List ℕ) : (sortDedup values).Pairwise (· < ·) := by
  have hle : (sortDedup values).Pairwise (· ≤ ·) :=
    (pairwise_insertionSort (· ≤ ·) values).sublist (dedup_sublist _)
  have hne : (sortDedup values).Pairwise (· ≠ ·) := nodup_dedup _
  exact (hle.and hne).imp fun h => lt_of_le_of_ne h.1 h.2

end Cfmd.Lib
