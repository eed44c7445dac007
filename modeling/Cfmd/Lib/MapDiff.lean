import Cfmd.Lib.Decoder
import Cfmd.Lib.TreeMap

/-! Differences of sets and of maps, as sorted lists that a codec can carry, and their
application. A difference applied to its source gives the target. -/

namespace Cfmd.Lib
open List hiding contains_iff_mem
open Std ExtTreeSet

variable {α β γ : Type} [Ord α] [TransOrd α] [LawfulEqOrd α]

/-! ### Sets -/

/-- `set.difference(other)`. -/
def difference (set other : ExtTreeSet α) : List α := set.toList.filter fun x => !other.contains x

def editSet (removed inserted : List α) (set : ExtTreeSet α) : ExtTreeSet α :=
  inserted.foldl (fun set x => set.insert x) (removed.foldl (fun set x => set.erase x) set)

variable {source target : ExtTreeSet α} {x : α}

theorem mem_difference : x ∈ difference source target ↔ x ∈ source ∧ x ∉ target := by
  unfold difference
  rw [mem_filter, mem_toList, Bool.not_eq_true', ← Bool.not_eq_true, contains_iff_mem]

omit [LawfulEqOrd α] in
theorem ascending_difference : Ascending id none (difference source target) := by
  rw [ascending_iff_pairwise]
  have hordered := ordered_toList (t := source)
  exact hordered.filter _

theorem mem_foldl_erase {set : ExtTreeSet α} {xs : List α} :
    x ∈ xs.foldl (fun set x => set.erase x) set ↔ x ∉ xs ∧ x ∈ set := by
  induction xs generalizing set with
  | nil => simp
  | cons y xs ih =>
    rw [foldl_cons, ih, mem_erase, mem_cons, not_or,
      LawfulEqCmp.compare_eq_iff_eq.ne, and_left_comm, and_assoc, ne_comm]

theorem mem_foldl_insert {set : ExtTreeSet α} {xs : List α} :
    x ∈ xs.foldl (fun set x => set.insert x) set ↔ x ∈ xs ∨ x ∈ set := by
  have hadds := foldl_adds (V := fun set : ExtTreeSet α => x ∈ set) (P := fun y => y = x)
    (f := fun set y => set.insert y) xs ?_ set
  · refine hadds.trans (or_congr_left ?_)
    simp
  · intro set y _
    rw [mem_insert, LawfulEqCmp.compare_eq_iff_eq]

theorem editSet_difference :
    editSet (difference source target) (difference target source) source = target := by
  apply ext_mem
  intro x
  unfold editSet
  rw [mem_foldl_insert, mem_foldl_erase, mem_difference, mem_difference]
  by_cases hs : x ∈ source
  · simp [hs]
  · simp [hs]

theorem difference_eq_nil :
    difference target source = [] ∧ difference source target = [] ↔ source = target := by
  constructor
  · rintro ⟨hinserted, hremoved⟩
    have hedit : editSet (difference source target) (difference target source) source = target :=
      editSet_difference
    rwa [hinserted, hremoved] at hedit
  · rintro rfl
    have hnil : difference source source = [] := by
      rw [eq_nil_iff_forall_not_mem]
      intro x hx
      rw [mem_difference] at hx
      exact hx.2 hx.1
    exact ⟨hnil, hnil⟩

/-! ### Maps -/

def eitherKeys (source target : ExtTreeMap α β) : List α :=
  (ofList (source.keys ++ target.keys) compare).toList

def diffWith [DecidableEq β] (patch : α → Option β → Option β → γ)
    (source target : ExtTreeMap α β) : List γ :=
  (eitherKeys source target).filterMap fun k =>
    if source[k]? = target[k]? then none else some (patch k source[k]? target[k]?)

section
variable {source target : ExtTreeMap α β} {k : α}

theorem mem_eitherKeys : k ∈ eitherKeys source target ↔ k ∈ source ∨ k ∈ target := by
  classical
  unfold eitherKeys
  rw [mem_toList, mem_ofList, List.contains_iff_mem, mem_append,
    ExtTreeMap.mem_keys, ExtTreeMap.mem_keys]

theorem mem_eitherKeys_of_ne (h : source[k]? ≠ target[k]?) : k ∈ eitherKeys source target := by
  rw [mem_eitherKeys]
  by_contra hnot
  rw [not_or] at hnot
  apply h
  rw [ExtTreeMap.getElem?_eq_none hnot.1, ExtTreeMap.getElem?_eq_none hnot.2]

variable [DecidableEq β] {patch : α → Option β → Option β → γ} {p : γ}

theorem mem_diffWith : p ∈ diffWith patch source target ↔
    ∃ k, source[k]? ≠ target[k]? ∧ patch k source[k]? target[k]? = p := by
  unfold diffWith
  rw [mem_filterMap]
  constructor
  · rintro ⟨k, -, hk⟩
    split_ifs at hk with hsame
    exact ⟨k, hsame, Option.some.inj hk⟩
  · rintro ⟨k, hne, rfl⟩
    exact ⟨k, mem_eitherKeys_of_ne hne, if_neg hne⟩

theorem diffWith_eq_nil : diffWith patch source target = [] ↔ source = target := by
  rw [eq_nil_iff_forall_not_mem]
  constructor
  · intro hnone
    apply ExtTreeMap.ext_getElem?
    intro k
    by_contra hne
    exact hnone _ (mem_diffWith.mpr ⟨k, hne, rfl⟩)
  · rintro rfl p hp
    obtain ⟨k, hne, _⟩ := mem_diffWith.mp hp
    exact hne rfl

omit [LawfulEqOrd α] in
theorem ascending_diffWith {key : γ → α} (hkey : ∀ k a b, key (patch k a b) = k) :
    Ascending key none (diffWith patch source target) := by
  rw [ascending_iff_pairwise]
  apply ordered_toList.filterMap
  intro k k' hlt p hp p' hp'
  split_ifs at hp hp'
  rw [← Option.some.inj hp, ← Option.some.inj hp', hkey, hkey]
  exact hlt

/-- Patches that each change their own key only, to what the target has there. -/
theorem foldl_diffWith {apply : ExtTreeMap α β → γ → ExtTreeMap α β}
    (hself : ∀ (m : ExtTreeMap α β) k b, (apply m (patch k m[k]? b))[k]? = b)
    (hother : ∀ (m : ExtTreeMap α β) k a b k', k ≠ k' → (apply m (patch k a b))[k']? = m[k']?) :
    (diffWith patch source target).foldl apply source = target := by
  -- the keys met so far are as in the target, the others as in the source
  have hloop : ∀ (ks : List α) (m : ExtTreeMap α β), ks.Nodup →
      (∀ k ∈ ks, m[k]? = source[k]?) → (∀ k, k ∉ ks → m[k]? = target[k]?) →
      (ks.filterMap fun k => if source[k]? = target[k]? then none
        else some (patch k source[k]? target[k]?)).foldl apply m = target := by
    intro ks
    induction ks with
    | nil =>
      intro m _ _ htarget
      exact ExtTreeMap.ext_getElem? fun k => htarget k not_mem_nil
    | cons k ks ih =>
      intro m hnodup hsource htarget
      obtain ⟨hk, hnodup⟩ := nodup_cons.mp hnodup
      have hhere := hsource k mem_cons_self
      have hrest : ∀ k' ∈ ks, m[k']? = source[k']? :=
        fun k' hk' => hsource k' (mem_cons_of_mem k hk')
      rw [filterMap_cons]
      by_cases hsame : source[k]? = target[k]?
      · rw [if_pos hsame]
        refine ih m hnodup hrest fun k' hk' => ?_
        by_cases heq : k' = k
        · rw [heq, hhere, hsame]
        · exact htarget k' (not_mem_cons_of_ne_of_not_mem heq hk')
      · rw [if_neg hsame, ← hhere]
        refine ih _ hnodup (fun k' hk' => ?_) fun k' hk' => ?_
        · have hne : k ≠ k' := fun heq => hk (heq ▸ hk')
          rw [hother _ _ _ _ _ hne, hrest k' hk']
        · by_cases heq : k' = k
          · rw [heq, hself]
          · rw [hother _ _ _ _ _ (Ne.symm heq)]
            exact htarget k' (not_mem_cons_of_ne_of_not_mem heq hk')
  refine hloop _ source ?_ (fun _ _ => rfl) fun k hk => ?_
  · apply ordered_toList.imp
    intro a b hlt heq
    rw [heq] at hlt
    exact compare_lt_irrefl b hlt
  · by_contra hne
    exact hk (mem_eitherKeys_of_ne hne)

end

end Cfmd.Lib
