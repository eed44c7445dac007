import Mathlib.Data.Finset.Basic

/-! Lists of an ordered map. -/

namespace Cfmd.Lib
open List hiding ext_getElem? getElem?_insert
open Std ExtTreeMap

variable {α γ : Type*} {β : Type*} [Ord α] [TransOrd α] [LawfulEqOrd α] {m : ExtTreeMap α β}
  {k k' : α} {v : β}

theorem getElem?_insert_eq_some {w : β} :
    (m.insert k v)[k']? = some w ↔ (k = k' ∧ v = w) ∨ (k ≠ k' ∧ m[k']? = some w) := by
  rw [getElem?_insert]
  by_cases h : k = k'
  · subst h
    simp
  · simp [h]

theorem getElem?_insertIfNew_eq_some {w : β} (hsame : ∀ u, m[k]? = some u → u = v) :
    (m.insertIfNew k v)[k']? = some w ↔ (k = k' ∧ v = w) ∨ m[k']? = some w := by
  rw [getElem?_insertIfNew]
  by_cases hk : k = k'
  · subst hk
    by_cases hmem : k ∈ m
    · obtain ⟨u, hu⟩ := Option.isSome_iff_exists.mp (isSome_getElem?_iff_mem.mpr hmem)
      rw [← hsame u hu, hu]
      simp
    · simp [hmem]
  · simp [hk]

theorem getElem?_erase_eq_some : (m.erase k)[k']? = some v ↔ k ≠ k' ∧ m[k']? = some v := by
  rw [getElem?_erase]
  by_cases hk : k = k'
  · simp [hk]
  · simp [hk]

theorem getElem?_foldl_erase {ks : List α} :
    (ks.foldl (fun m k => m.erase k) m)[k]? = some v ↔ k ∉ ks ∧ m[k]? = some v := by
  induction ks generalizing m with
  | nil => simp
  | cons k' ks ih =>
    rw [foldl_cons, ih, getElem?_erase_eq_some, mem_cons, not_or, and_left_comm, and_assoc, ne_comm]

theorem nodup_fst_toList (m : ExtTreeMap α β) : (m.toList.map Prod.fst).Nodup := by
  rw [Nodup, pairwise_map]
  apply m.distinct_keys_toList.imp
  intro a b hne heq
  exact hne (LawfulEqCmp.compare_eq_iff_eq.mpr heq)

theorem nodup_toList (m : ExtTreeMap α β) : m.toList.Nodup := (nodup_fst_toList m).of_map Prod.fst

theorem toList_insert_perm (v : β) (h : k ∉ m) :
    (m.insert k v).toList.Perm ((k, v) :: m.toList) := by
  have hnot : (k, v) ∉ m.toList := by
    intro hmem
    rw [mem_toList_iff_getElem?_eq_some] at hmem
    exact h (by rw [← isSome_getElem?_iff_mem, hmem]; rfl)
  refine (perm_ext_iff_of_nodup (nodup_toList _)
    (nodup_cons.mpr ⟨hnot, nodup_toList m⟩)).mpr fun ⟨k', v'⟩ => ?_
  rw [mem_cons, mem_toList_iff_getElem?_eq_some, mem_toList_iff_getElem?_eq_some, getElem?_insert]
  by_cases hk : k = k'
  · subst hk
    have hnone : m[k]? = none := getElem?_eq_none h
    simp [hnone, eq_comm]
  · simp [hk, Ne.symm hk]

omit [TransOrd α] in
theorem compare_lt_irrefl (a : α) : compare a a ≠ .lt := by
  have heq : compare a a = .eq := ReflCmp.compare_self
  rw [heq]
  exact nofun

theorem not_compare_lt_lt {a b : α} (hab : compare a b = .lt) (hba : compare b a = .lt) : False :=
  compare_lt_irrefl a (TransCmp.lt_trans hab hba)

omit [TransOrd α] in
theorem nodup_of_ascending {l : List α} (h : l.Pairwise fun a b => compare a b = .lt) : l.Nodup := by
  apply h.imp
  rintro a _ hlt rfl
  exact compare_lt_irrefl _ hlt

theorem toList_ofList_perm {l : List (α × β)} (h : (l.map Prod.fst).Nodup) :
    (ofList l).toList.Perm l := by
  classical
  have hdistinct : l.Pairwise fun a b => ¬ compare a.1 b.1 = .eq := by
    rw [Nodup, pairwise_map] at h
    apply h.imp
    intro a b hne heq
    exact hne (LawfulEqCmp.compare_eq_iff_eq.mp heq)
  refine (perm_ext_iff_of_nodup (nodup_toList _) (h.of_map Prod.fst)).mpr fun ⟨k, v⟩ => ?_
  rw [mem_toList_iff_getElem?_eq_some]
  constructor
  · intro hget
    have hmem : k ∈ ofList l := by
      rw [← isSome_getElem?_iff_mem, hget]
      rfl
    rw [mem_ofList, List.contains_iff_mem, mem_map] at hmem
    obtain ⟨⟨k', v'⟩, hentry, rfl⟩ := hmem
    have hget' := getElem?_ofList_of_mem ReflCmp.compare_self hdistinct hentry
    rw [hget, Option.some.injEq] at hget'
    rwa [hget']
  · exact getElem?_ofList_of_mem ReflCmp.compare_self hdistinct

theorem toList_ofList {l : List (α × β)} (h : l.Pairwise fun a b => compare a.1 b.1 = .lt) :
    (ofList l).toList = l := by
  have hnodup : (l.map Prod.fst).Nodup := nodup_of_ascending (pairwise_map.mpr h)
  refine (toList_ofList_perm hnodup).eq_of_pairwise ?_ ordered_keys_toList h
  exact fun a b _ _ hab hba => (not_compare_lt_lt hab hba).elim

theorem nodup_keys (m : ExtTreeMap α β) : m.keys.Nodup := by
  rw [← map_fst_toList_eq_keys]
  exact nodup_fst_toList m

theorem fst_toList_eq {m' : ExtTreeMap α γ} (hsize : m.size = m'.size)
    (hsub : ∀ entry ∈ m.toList, entry.1 ∈ m') :
    m.toList.map Prod.fst = m'.toList.map Prod.fst := by
  have hperm : (m.toList.map Prod.fst).Perm (m'.toList.map Prod.fst) := by
    apply (subperm_of_subset (nodup_fst_toList m) _).perm_of_length_le
    · rw [length_map, length_map, length_toList, length_toList]
      exact hsize.ge
    · intro k hk
      obtain ⟨entry, hentry, rfl⟩ := mem_map.mp hk
      rw [map_fst_toList_eq_keys]
      exact mem_keys.mpr (hsub entry hentry)
  have hordered : (m.toList.map Prod.fst).Pairwise fun a b => compare a b = .lt :=
    pairwise_map.mpr m.ordered_keys_toList
  refine hperm.eq_of_pairwise ?_ hordered (pairwise_map.mpr m'.ordered_keys_toList)
  exact fun a b _ _ hab hba => (not_compare_lt_lt hab hba).elim

theorem getElem?_foldl_insert (key : γ → α) (value : γ → β) (xs : List γ)
    (hnodup : (xs.map key).Nodup) :
    (xs.foldl (fun m x => m.insert (key x) (value x)) (∅ : ExtTreeMap α β))[k]? = some v ↔
      ∃ x ∈ xs, key x = k ∧ value x = v := by
  induction xs using reverseRecOn with
  | nil => simp
  | append_singleton xs x ih =>
    rw [map_append, nodup_append] at hnodup
    rw [foldl_append, foldl_cons, foldl_nil, getElem?_insert_eq_some, ih hnodup.1]
    constructor
    · rintro (h | ⟨_, y, hy, h⟩)
      · exact ⟨x, mem_append_right _ (mem_singleton_self x), h⟩
      · exact ⟨y, mem_append_left _ hy, h⟩
    · rintro ⟨y, hy, hkey, hvalue⟩
      rcases mem_append.mp hy with hy | hy
      · refine .inr ⟨?_, y, hy, hkey, hvalue⟩
        intro heq
        exact hnodup.2.2 _ (mem_map_of_mem hy) _ (mem_singleton_self _) (hkey.trans heq.symm)
      · rw [mem_singleton.mp hy] at hkey hvalue
        exact .inl ⟨hkey, hvalue⟩

theorem foldl_insert_back {κ ν : Type*} [Ord κ] [TransOrd κ] [LawfulEqOrd κ] {key : α × β → κ}
    {value : α × β → ν} (entry : κ × ν → α × β) (hnodup : (m.toList.map key).Nodup)
    (hback : ∀ x ∈ m.toList, entry (key x, value x) = x) :
    (m.toList.foldl (fun n x => n.insert (key x) (value x)) (∅ : ExtTreeMap κ ν)).toList.foldl
      (fun m y => m.insert (entry y).1 (entry y).2) ∅ = m := by
  generalize hn : m.toList.foldl (fun n x => n.insert (key x) (value x)) (∅ : ExtTreeMap κ ν) = n
  have hmem : ∀ y ∈ n.toList, entry y ∈ m.toList ∧ (key (entry y), value (entry y)) = y := by
    rintro ⟨k, v⟩ hy
    rw [mem_toList_iff_getElem?_eq_some, ← hn, getElem?_foldl_insert _ _ _ hnodup] at hy
    obtain ⟨x, hx, rfl, rfl⟩ := hy
    rw [hback x hx]
    exact ⟨hx, rfl⟩
  have hnodup' : (n.toList.map fun y => (entry y).1).Nodup := by
    rw [nodup_map_iff_inj_on (nodup_toList n)]
    intro y hy y' hy' heq
    obtain ⟨hx, hkey⟩ := hmem y hy
    obtain ⟨hx', hkey'⟩ := hmem y' hy'
    have hsame := (nodup_map_iff_inj_on (nodup_toList m)).mp (nodup_fst_toList m) _ hx _ hx' heq
    rw [← hkey, ← hkey', hsame]
  apply ext_getElem?
  intro k
  apply Option.ext
  intro v
  rw [getElem?_foldl_insert _ _ _ hnodup', ← mem_toList_iff_getElem?_eq_some]
  constructor
  · rintro ⟨y, hy, rfl, rfl⟩
    exact (hmem y hy).1
  · intro hx
    refine ⟨(key (k, v), value (k, v)), ?_, congrArg Prod.fst (hback _ hx),
      congrArg Prod.snd (hback _ hx)⟩
    rw [mem_toList_iff_getElem?_eq_some, ← hn, getElem?_foldl_insert _ _ _ hnodup]
    exact ⟨_, hx, rfl, rfl⟩

omit [LawfulEqOrd α] in
theorem getElem?_foldl_insert_onto (key : γ → α) (value : γ → β) (xs : List γ)
    (m : ExtTreeMap α β) (k : α) :
    (xs.foldl (fun m x => m.insert (key x) (value x)) m)[k]? =
      (xs.foldl (fun m x => m.insert (key x) (value x)) (∅ : ExtTreeMap α β))[k]?.or m[k]? := by
  induction xs using reverseRecOn with
  | nil => simp
  | append_singleton xs x ih =>
    simp only [foldl_append, foldl_cons, foldl_nil, getElem?_insert]
    split
    · rfl
    · exact ih

theorem nodup_set_toList (t : ExtTreeSet α) : t.toList.Nodup := nodup_of_ascending t.ordered_toList

theorem set_toList_ofList {l : List α} (h : l.Pairwise fun a b => compare a b = .lt) :
    (ExtTreeSet.ofList l).toList = l := by
  classical
  have hperm : (ExtTreeSet.ofList l).toList.Perm l := by
    refine (perm_ext_iff_of_nodup (nodup_set_toList _) (nodup_of_ascending h)).mpr ?_
    intro k
    rw [ExtTreeSet.mem_toList, ExtTreeSet.mem_ofList, List.contains_iff_mem]
  refine hperm.eq_of_pairwise ?_ ExtTreeSet.ordered_toList h
  exact fun a b _ _ hab hba => (not_compare_lt_lt hab hba).elim

end Cfmd.Lib
