import Cfmd.Lib.Loop
import Cfmd.Lib.TreeMap

/-! Posting lists: an ordered map from keys to sets, filled one posting at a time. A key
without postings counts as one with the empty set. -/

namespace Cfmd.Lib
open Std

variable {α β : Type} [Ord α] [TransOrd α] [LawfulEqOrd α] [Ord β] [TransOrd β] [LawfulEqOrd β]
  {postings : ExtTreeMap α (ExtTreeSet β)} {k : α} {i : β}

/-- `entry(key).or_default().insert(item)`. -/
def post (postings : ExtTreeMap α (ExtTreeSet β)) (key : α) (item : β) :
    ExtTreeMap α (ExtTreeSet β) :=
  postings.insert key ((postings.getD key ∅).insert item)

theorem mem_post {key : α} {item : β} :
    i ∈ (post postings key item).getD k ∅ ↔ (key = k ∧ item = i) ∨ i ∈ postings.getD k ∅ := by
  unfold post
  rw [ExtTreeMap.getD_insert]
  by_cases h : key = k
  · subst h
    simp [ExtTreeSet.mem_insert]
  · simp [h]

theorem mem_foldl_post {keys : List α} {item : β} :
    i ∈ (keys.foldl (fun postings key => post postings key item) postings).getD k ∅ ↔
      (k ∈ keys ∧ item = i) ∨ i ∈ postings.getD k ∅ := by
  have hadds := foldl_adds (V := fun postings => i ∈ postings.getD k ∅)
    (P := fun key => key = k ∧ item = i) keys (fun _ _ _ => mem_post) postings
  refine hadds.trans (or_congr_left ?_)
  simp

omit [LawfulEqOrd β] in
theorem mem_getD_erase {key : α} :
    i ∈ (postings.erase key).getD k ∅ ↔ key ≠ k ∧ i ∈ postings.getD k ∅ := by
  rw [ExtTreeMap.getD_erase]
  by_cases h : key = k
  · simp [h]
  · simp [h]

omit [LawfulEqOrd α] [LawfulEqOrd β] in
theorem getElem?_of_mem_getD (h : i ∈ postings.getD k ∅) :
    postings[k]? = some (postings.getD k ∅) := by
  rw [ExtTreeMap.getD_eq_getD_getElem?] at h ⊢
  cases hget : postings[k]? with
  | none =>
    rw [hget] at h
    exact absurd h ExtTreeSet.not_mem_empty
  | some items => rfl

end Cfmd.Lib
