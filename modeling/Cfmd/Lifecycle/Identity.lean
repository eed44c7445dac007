import Cfmd.Lib.Loop
import Cfmd.Lib.TreeMap
import Cfmd.Lib.Vec
import Cfmd.Types

/-! Dense local ids for the entities of a graph, and bit sets over them. -/

namespace Cfmd.Lifecycle
open Std Lib List

abbrev EntityId := Id128

/-- A `u32` position in the sorted list of entities. -/
abbrev LocalEntityId := ℕ

def u32Max : ℕ := 2 ^ 32 - 1

inductive DenseIdentityError
  | capacityExceeded
  deriving DecidableEq

structure DenseEntitySet where
  words : List (BitVec 64)
  deriving DecidableEq

namespace DenseEntitySet

def withCapacity (entityCapacity : ℕ) : DenseEntitySet :=
  ⟨replicate ((entityCapacity + 63) / 64) 0⟩

/-- `1_u64 << bit`. -/
def mask (entity : LocalEntityId) : BitVec 64 := 1#64 <<< (entity % 64)

/-- `word & (1_u64 << bit) != 0`. -/
def hasBit (word : BitVec 64) (bit : ℕ) : Bool := word &&& (1#64 <<< bit) != 0#64

def insert (set : DenseEntitySet) (entity : LocalEntityId) : DenseEntitySet :=
  let words :=
    if entity / 64 ≥ set.words.length then resize set.words (entity / 64 + 1) 0
    else set.words
  ⟨words.modify (entity / 64) (· ||| mask entity)⟩

def remove (set : DenseEntitySet) (entity : LocalEntityId) : DenseEntitySet × Bool :=
  match set.words[entity / 64]? with
  | none => (set, false)
  | some bits =>
    (⟨set.words.set (entity / 64) (bits &&& ~~~ mask entity)⟩, hasBit bits (entity % 64))

def contains (set : DenseEntitySet) (entity : LocalEntityId) : Bool :=
  match set.words[entity / 64]? with
  | none => false
  | some bits => hasBit bits (entity % 64)

def iter (set : DenseEntitySet) : List LocalEntityId :=
  (range set.words.length).flatMap fun word =>
    ((range 64).filter fun bit => hasBit (set.words[word]?.getD 0) bit).map fun bit =>
      word * 64 + bit

theorem getLsbD_mask (entity j : ℕ) : (mask entity).getLsbD j = decide (entity % 64 = j) := by
  rw [mask, ← BitVec.twoPow_eq]
  simp [Nat.mod_lt entity (show 64 > 0 by decide)]

theorem hasBit_eq (word : BitVec 64) {bit : ℕ} (hlt : bit < 64) :
    hasBit word bit = word.getLsbD bit := by
  have hne : BitVec.twoPow 64 bit ≠ 0#64 := by
    intro hzero
    have hself : (BitVec.twoPow 64 bit).getLsbD bit = true := by
      simp [hlt]
    rw [hzero] at hself
    simp at hself
  rw [hasBit, ← BitVec.twoPow_eq, BitVec.and_twoPow]
  split_ifs with hbit
  · simpa [hbit] using hne
  · simpa using hbit

theorem contains_eq (set : DenseEntitySet) (entity : LocalEntityId) :
    set.contains entity = (set.words[entity / 64]?.getD 0).getLsbD (entity % 64) := by
  unfold contains
  cases hword : set.words[entity / 64]? with
  | none => simp
  | some bits => exact hasBit_eq bits (Nat.mod_lt _ (by decide))

theorem contains_withCapacity (n entity : ℕ) : (withCapacity n).contains entity = false := by
  rw [contains_eq, withCapacity, getD_replicate_self]
  simp

theorem eq_iff_word_bit (entity other : LocalEntityId) :
    entity = other ↔ entity / 64 = other / 64 ∧ entity % 64 = other % 64 := by
  constructor
  · rintro rfl
    exact ⟨rfl, rfl⟩
  · rintro ⟨hdiv, hmod⟩
    rw [← Nat.div_add_mod entity 64, hdiv, hmod, Nat.div_add_mod]

section
variable (set : DenseEntitySet)

theorem contains_insert (entity other : LocalEntityId) :
    (set.insert entity).contains other = true ↔ entity = other ∨ set.contains other = true := by
  have hwords : ∃ words : List (BitVec 64), entity / 64 < words.length ∧
      (∀ j : ℕ, words[j]?.getD 0 = set.words[j]?.getD 0) ∧
      set.insert entity = ⟨words.modify (entity / 64) (· ||| mask entity)⟩ := by
    unfold insert
    by_cases hge : entity / 64 ≥ set.words.length
    · refine ⟨resize set.words (entity / 64 + 1) 0, by simp, ?_, by simp [hge]⟩
      exact fun j => getD_resize_of_le (Nat.le_succ_of_le hge) j 0
    · exact ⟨set.words, Nat.lt_of_not_le hge, fun _ => rfl, by simp [hge]⟩
  obtain ⟨words, hlt, hsame, hinsert⟩ := hwords
  rw [hinsert, contains_eq, contains_eq, getD_modify, hsame, eq_iff_word_bit entity other]
  by_cases hword : entity / 64 = other / 64
  · simp only [hword, hword ▸ hlt, and_self, if_true, BitVec.getLsbD_or, getLsbD_mask,
      Bool.or_eq_true, decide_eq_true_eq, true_and]
    exact or_comm
  · simp [hword]

theorem remove_snd (entity : LocalEntityId) : (set.remove entity).2 = set.contains entity := by
  unfold remove contains
  cases set.words[entity / 64]? with
  | none | some bits => rfl

theorem contains_remove (entity other : LocalEntityId) :
    (set.remove entity).1.contains other = true ↔ entity ≠ other ∧ set.contains other = true := by
  unfold remove
  cases hword : set.words[entity / 64]? with
  | none =>
    simp only [iff_and_self]
    rintro hother rfl
    rw [contains, hword] at hother
    cases hother
  | some bits =>
    have hlt : entity / 64 < set.words.length := (List.getElem?_eq_some_iff.mp hword).1
    simp only [contains_eq, getD_set]
    rw [ne_eq, eq_iff_word_bit entity other]
    by_cases hsame : entity / 64 = other / 64
    · have hmod : other % 64 < 64 := Nat.mod_lt _ (by decide)
      have hother : set.words[other / 64]? = some bits := hsame ▸ hword
      rw [if_pos ⟨hsame, hlt⟩, hother, BitVec.getLsbD_and, BitVec.getLsbD_not, getLsbD_mask]
      simp [hmod, hsame, and_comm]
    · simp [hsame]

theorem mem_iter (entity : LocalEntityId) : entity ∈ set.iter ↔ set.contains entity = true := by
  have hbit : ∀ word bit : ℕ, bit < 64 →
      hasBit (set.words[word]?.getD 0) bit = set.contains (word * 64 + bit) := by
    intro word bit hlt
    have hdiv : (word * 64 + bit) / 64 = word := by omega
    have hmod : (word * 64 + bit) % 64 = bit := by omega
    rw [contains_eq, hdiv, hmod, hasBit_eq _ hlt]
  unfold iter
  rw [mem_flatMap]
  constructor
  · rintro ⟨word, _, hmem⟩
    obtain ⟨bit, hfilter, rfl⟩ := mem_map.mp hmem
    obtain ⟨hlt, hset⟩ := mem_filter.mp hfilter
    rwa [hbit word bit (mem_range.mp hlt)] at hset
  · intro hset
    have hmod : entity % 64 < 64 := Nat.mod_lt _ (by decide)
    have hword : entity / 64 < set.words.length := by
      by_contra hge
      rw [contains, getElem?_eq_none (Nat.le_of_not_lt hge)] at hset
      cases hset
    have heq : entity / 64 * 64 + entity % 64 = entity := Nat.div_add_mod' entity 64
    refine ⟨entity / 64, mem_range.mpr hword, mem_map.mpr ⟨entity % 64, ?_, heq⟩⟩
    rw [mem_filter, hbit _ _ hmod, heq]
    exact ⟨mem_range.mpr hmod, hset⟩

end

end DenseEntitySet

structure DenseEntityIds where
  externalByLocal : List EntityId
  localByExternal : ExtTreeMap EntityId LocalEntityId

namespace DenseEntityIds

def compile (entities : ExtTreeSet EntityId) : Except DenseIdentityError DenseEntityIds :=
  if entities.size > u32Max then .error .capacityExceeded
  else do
    let externalByLocal := entities.toList
    let localByExternal ← externalByLocal.zipIdx.foldlM
      (fun locals entry =>
        if entry.2 > u32Max then .error .capacityExceeded
        else .ok (locals.insert entry.1 entry.2))
      (∅ : ExtTreeMap EntityId LocalEntityId)
    return { externalByLocal, localByExternal }

def len (ids : DenseEntityIds) : ℕ := ids.externalByLocal.length

def localOf (ids : DenseEntityIds) (external : EntityId) : Option LocalEntityId :=
  ids.localByExternal[external]?

def externalOf (ids : DenseEntityIds) (entity : LocalEntityId) : Option EntityId :=
  ids.externalByLocal[entity]?

/-- The two directions agree, and local ids follow the order of the entities. -/
structure Coherent (ids : DenseEntityIds) : Prop where
  localOf_iff : ∀ e i, ids.localOf e = some i ↔ ids.externalOf i = some e
  sorted : ids.externalByLocal.Pairwise fun a b => compare a b = .lt

variable {entities : ExtTreeSet EntityId}

theorem exists_compile (h : entities.size ≤ u32Max) : ∃ ids, compile entities = .ok ids := by
  have hfits : ∀ entry ∈ entities.toList.zipIdx, ∀ locals : ExtTreeMap EntityId LocalEntityId,
      (if entry.2 > u32Max then .error .capacityExceeded
        else .ok (locals.insert entry.1 entry.2) :
          Except DenseIdentityError (ExtTreeMap EntityId LocalEntityId)) =
        .ok (locals.insert entry.1 entry.2) := by
    intro entry hentry locals
    have hlt := snd_lt_of_mem_zipIdx hentry
    rw [ExtTreeSet.length_toList] at hlt
    exact if_neg (Nat.not_lt.mpr (hlt.le.trans h))
  have hloop := foldlM_eq_foldl _ hfits ∅
  unfold compile
  rw [if_neg (Nat.not_lt.mpr h)]
  exact ⟨_, bind_eq_ok.mpr ⟨_, hloop, rfl⟩⟩

theorem compile_spec {ids : DenseEntityIds} (h : compile entities = .ok ids) :
    ids.Coherent ∧ ids.externalByLocal = entities.toList := by
  unfold compile at h
  split_ifs at h
  obtain ⟨locals, hlocals, h⟩ := bind_eq_ok.mp h
  cases h
  have hordered : entities.toList.Pairwise fun a b => compare a b = .lt := entities.ordered_toList
  have hnodup : entities.toList.Nodup := by
    apply hordered.imp
    rintro a b hlt rfl
    rw [ReflOrd.compare_self] at hlt
    cases hlt
  -- on distinct keys the map holds exactly the pairs inserted so far
  let I : ExtTreeMap EntityId LocalEntityId → List (EntityId × ℕ) → Prop := fun locals done =>
    (done.map Prod.fst).Nodup → ∀ e i, locals[e]? = some i ↔ (e, i) ∈ done
  have hstart : I ∅ [] := fun _ e i => by simp
  have hloop : I locals ([] ++ entities.toList.zipIdx) := by
    refine foldlM_visited ?_ _ hlocals hstart
    rintro locals done ⟨e', i'⟩ locals' hinv hstep hfresh e i
    split_ifs at hstep
    cases hstep
    rw [map_append, nodup_append] at hfresh
    have hnew : ∀ i, (e', i) ∉ done := fun i hmem =>
      hfresh.2.2 e' (mem_map_of_mem hmem) e' (by simp) rfl
    rw [ExtTreeMap.getElem?_insert, mem_append, mem_singleton, Prod.mk.injEq, ← hinv hfresh.1]
    by_cases he : e' = e
    · subst he
      have hnone : locals[e']? = none := by
        cases hget : locals[e']? with
        | none => rfl
        | some j => exact absurd ((hinv hfresh.1 e' j).mp hget) (hnew j)
      simp [hnone, eq_comm]
    · simp [he, Ne.symm he]
  refine ⟨⟨fun e i => ?_, hordered⟩, rfl⟩
  have hkeys : (([] ++ entities.toList.zipIdx).map Prod.fst).Nodup := by
    rwa [nil_append, zipIdx_map_fst]
  exact (hloop hkeys e i).trans mk_mem_zipIdx_iff_getElem?

end DenseEntityIds

end Cfmd.Lifecycle
