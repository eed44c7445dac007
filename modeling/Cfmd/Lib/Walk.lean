import Cfmd.Lib.Failure
import Cfmd.Lib.Worklist

/-! A depth-first walk over records found by their keys. The walk keeps a stack of
keys and the set of keys taken from it; it fails when a key has no record. -/

namespace Cfmd.Lib
open Std List

section
variable {α β ε : Type} [Ord α] [TransOrd α]

/-- `while let Some(id) = pending.pop()`, with the top of the stack first. -/
def walk (lookup : α → Except ε β) (succ : β → List α) :
    ℕ → List α → ExtTreeSet α → List (α × β) → Fallible ε (List (α × β))
  | 0, _, _, _ => .error (.panic "out of fuel")
  | _ + 1, [], _, visited => .ok visited
  | fuel + 1, id :: pending, seen, visited =>
    if id ∈ seen then walk lookup succ fuel pending seen visited
    else do
      let found ← Fallible.lift (lookup id)
      walk lookup succ fuel ((succ found).reverse ++ pending) (seen.insert id)
        (visited ++ [(id, found)])

end

section
variable {α β ε : Type} {lookup : α → Except ε β} {succ : β → List α} {start : List α}

def Next (lookup : α → Except ε β) (succ : β → List α) (a b : α) : Prop :=
  ∃ found, lookup a = .ok found ∧ b ∈ succ found

abbrev Walked (lookup : α → Except ε β) (succ : β → List α) (start : List α) : α → Prop :=
  Reached (· ∈ start) (Next lookup succ)

def walkWeight (lookup : α → Except ε β) (succ : β → List α) (a : α) : ℕ := match lookup a with
  | .ok found => (succ found).length + 1
  | .error _ => 1

theorem walkWeight_of_ok {a : α} {found : β} (h : lookup a = .ok found) :
    walkWeight lookup succ a = (succ found).length + 1 := by
  rw [walkWeight, h]

variable [Ord α] [TransOrd α] [LawfulEqOrd α] [DecidableEq α]

structure Walking (lookup : α → Except ε β) (succ : β → List α) (start pending : List α)
    (seen : ExtTreeSet α) (visited : List (α × β)) : Prop where
  keys : ∀ v, v ∈ visited.map Prod.fst ↔ v ∈ seen
  nodup : (visited.map Prod.fst).Nodup
  found : ∀ p ∈ visited, lookup p.1 = .ok p.2
  sound : ∀ v, v ∈ seen → Walked lookup succ start v
  queued : ∀ v ∈ pending, Walked lookup succ start v
  base : ∀ v ∈ start, v ∈ seen ∨ v ∈ pending
  closed : ∀ v, v ∈ seen → ∀ u, Next lookup succ v u → u ∈ seen ∨ u ∈ pending

namespace Walking
variable {pending : List α} {seen : ExtTreeSet α} {visited : List (α × β)} {id : α}

omit [LawfulEqOrd α] [DecidableEq α] in
theorem skip (h : Walking lookup succ start (id :: pending) seen visited) (hseen : id ∈ seen) :
    Walking lookup succ start pending seen visited := by
  have hrest : ∀ {v}, v ∈ seen ∨ v ∈ id :: pending → v ∈ seen ∨ v ∈ pending := by
    rintro v (hv | hv)
    · exact .inl hv
    · rcases mem_cons.mp hv with rfl | hv
      · exact .inl hseen
      · exact .inr hv
  exact { h with
    queued := fun v hv => h.queued v (mem_cons_of_mem _ hv)
    base := fun v hv => hrest (h.base v hv)
    closed := fun v hv u hu => hrest (h.closed v hv u hu) }

omit [DecidableEq α] in
theorem visit (h : Walking lookup succ start (id :: pending) seen visited) (hnew : id ∉ seen)
    {record : β} (hrecord : lookup id = .ok record) :
    Walking lookup succ start ((succ record).reverse ++ pending) (seen.insert id)
      (visited ++ [(id, record)]) := by
  have hmem : ∀ {v}, v ∈ seen.insert id ↔ id = v ∨ v ∈ seen := by
    intro v
    rw [ExtTreeSet.mem_insert, LawfulEqCmp.compare_eq_iff_eq]
  have hid : Walked lookup succ start id := h.queued id mem_cons_self
  have hrest : ∀ {v}, v ∈ seen ∨ v ∈ id :: pending →
      v ∈ seen.insert id ∨ v ∈ (succ record).reverse ++ pending := by
    rintro v (hv | hv)
    · exact .inl (hmem.mpr (.inr hv))
    · rcases mem_cons.mp hv with rfl | hv
      · exact .inl (hmem.mpr (.inl rfl))
      · exact .inr (mem_append_right _ hv)
  refine ⟨?_, ?_, ?_, ?_, ?_, fun v hv => hrest (h.base v hv), ?_⟩
  · intro v
    rw [map_append, mem_append, h.keys, hmem, map_singleton, mem_singleton, or_comm, eq_comm]
  · rw [map_append]
    exact h.nodup.append (nodup_singleton _)
      (disjoint_singleton.mpr fun hv => hnew ((h.keys id).mp hv))
  · intro p hp
    rcases mem_append.mp hp with hp | hp
    · exact h.found p hp
    · rw [mem_singleton.mp hp]
      exact hrecord
  · intro v hv
    rcases hmem.mp hv with rfl | hv
    · exact hid
    · exact h.sound v hv
  · intro v hv
    rcases mem_append.mp hv with hv | hv
    · exact .step hid ⟨record, hrecord, mem_reverse.mp hv⟩
    · exact h.queued v (mem_cons_of_mem _ hv)
  · intro v hv u hu
    rcases hmem.mp hv with rfl | hv
    · obtain ⟨record', hrecord', hsucc⟩ := hu
      rw [hrecord, Except.ok.injEq] at hrecord'
      subst hrecord'
      exact .inr (mem_append_left _ (mem_reverse.mpr hsucc))
    · exact hrest (h.closed v hv u hu)

omit [DecidableEq α] [LawfulEqOrd α] in
theorem done (h : Walking lookup succ start [] seen visited) (p : α × β) :
    p ∈ visited ↔ Walked lookup succ start p.1 ∧ lookup p.1 = .ok p.2 := by
  constructor
  · intro hp
    exact ⟨h.sound p.1 ((h.keys p.1).mp (mem_map_of_mem hp)), h.found p hp⟩
  · rintro ⟨hwalked, hlookup⟩
    have hseen : p.1 ∈ seen := by
      apply hwalked.subset (S := (· ∈ seen))
      · exact fun v hv => (h.base v hv).resolve_right not_mem_nil
      · exact fun v u hv hu => (h.closed v hv u hu).resolve_right not_mem_nil
    obtain ⟨q, hq, hkey⟩ := mem_map.mp ((h.keys p.1).mpr hseen)
    have hfound := h.found q hq
    rw [hkey, hlookup, Except.ok.injEq] at hfound
    rwa [show p = q from Prod.ext hkey.symm hfound]

end Walking

variable {U : Finset α} (hU : ∀ v, Walked lookup succ start v → v ∈ U)
  (hfound : ∀ v, Walked lookup succ start v → ∃ record, lookup v = .ok record)
include hU hfound

theorem walk_of_walking (fuel : ℕ) {pending : List α} {seen : ExtTreeSet α}
    {visited : List (α × β)} (h : Walking lookup succ start pending seen visited)
    (hfuel : openWeight ExtTreeSet.contains (walkWeight lookup succ) U seen + pending.length <
      fuel) :
    ∃ seen' visited', walk lookup succ fuel pending seen visited = .ok visited' ∧
      Walking lookup succ start [] seen' visited' := by
  -- every key taken from the stack lowers the open weight plus the stack's height
  induction fuel generalizing pending seen visited with
  | zero => exact absurd hfuel (Nat.not_lt_zero _)
  | succ fuel ih =>
    match pending with
    | [] => exact ⟨seen, visited, rfl, h⟩
    | id :: pending =>
      unfold walk
      rw [length_cons] at hfuel
      split
      · rename_i hseen
        exact ih (h.skip hseen) (by omega)
      rename_i hnew
      have hid := h.queued id mem_cons_self
      obtain ⟨record, hrecord⟩ := hfound id hid
      rw [hrecord]
      have hopen : seen.contains id = false := by
        rw [← Bool.not_eq_true]
        exact hnew
      have hweight := openWeight_add (markSet_treeSet U) (walkWeight lookup succ) trivial
        (hU id hid) hopen
      rw [walkWeight_of_ok hrecord] at hweight
      refine ih (h.visit hnew hrecord) ?_
      rw [length_append, length_reverse]
      omega

theorem walk_spec {fuel : ℕ} (hfuel : ∑ u ∈ U, walkWeight lookup succ u + start.length < fuel) :
    ∃ visited, walk lookup succ fuel start ∅ [] = .ok visited ∧ (visited.map Prod.fst).Nodup ∧
      ∀ p, p ∈ visited ↔ Walked lookup succ start p.1 ∧ lookup p.1 = .ok p.2 := by
  have hstart : Walking lookup succ start start ∅ [] :=
    { keys := fun v => by simp
      nodup := nodup_nil
      found := fun p hp => absurd hp not_mem_nil
      sound := fun v hv => absurd hv ExtTreeSet.not_mem_empty
      queued := fun v hv => .root hv
      base := fun v hv => .inr hv
      closed := fun v hv => absurd hv ExtTreeSet.not_mem_empty }
  have hopen := openWeight_le ExtTreeSet.contains (walkWeight lookup succ) U (∅ : ExtTreeSet α)
  obtain ⟨seen, visited, hwalk, hdone⟩ := walk_of_walking hU hfound fuel hstart (by omega)
  exact ⟨visited, hwalk, hdone.nodup, hdone.done⟩

end

end Cfmd.Lib
