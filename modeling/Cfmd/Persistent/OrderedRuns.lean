import Cfmd.Persistent.OrderedBalance

/-! Runs of the ordered map. Every operation keeps the entries in order and the numbers
of the nodes exact; every operation but a retain that leaves the sides of a kept entry
more than two levels apart keeps the tree balanced. -/

namespace Cfmd.Persistent
open Std Lib MapTree List
variable {K V : Type}

/-! ### Heights -/

theorem MapTree.Balanced.fib_le {tree : MapTree K V} (h : tree.Balanced) :
    Nat.fib (tree.depth + 2) ≤ tree.entries.length + 1 := by
  induction tree with
  | empty => exact le_rfl
  | node key value height subtreeLen left right ihLeft ihRight =>
    obtain ⟨⟨hdiff, hdiff'⟩, hleft, hright⟩ := h
    have hfibLeft := ihLeft hleft
    have hfibRight := ihRight hright
    rw [depth, entries, length_append, length_cons]
    rcases Nat.le_total left.depth right.depth with hle | hle
    · have hfib : Nat.fib (right.depth + 3) = Nat.fib (right.depth + 1) + Nat.fib (right.depth + 2) :=
        Nat.fib_add_two
      have hmono := Nat.fib_mono (show right.depth + 1 ≤ left.depth + 2 by omega)
      rw [max_eq_right hle, show 1 + right.depth + 2 = right.depth + 3 by omega]
      omega
    · have hfib : Nat.fib (left.depth + 3) = Nat.fib (left.depth + 1) + Nat.fib (left.depth + 2) :=
        Nat.fib_add_two
      have hmono := Nat.fib_mono (show left.depth + 1 ≤ right.depth + 2 by omega)
      rw [max_eq_left hle, show 1 + left.depth + 2 = left.depth + 3 by omega]
      omega

/-- The height of a tree whose entries can be counted fits in sixteen bits. -/
theorem MapTree.Balanced.depth_lt {tree : MapTree K V} (h : tree.Balanced)
    (hlen : tree.entries.length < 2 ^ 64) : tree.depth < 2 ^ 16 := by
  have hfib := h.fib_le
  by_contra hdeep
  have hmono : Nat.fib 95 ≤ Nat.fib (tree.depth + 2) := Nat.fib_mono (by omega)
  have hlarge : 2 ^ 64 < Nat.fib 95 := by decide +kernel
  omega

/-! ### States and steps -/

namespace PersistentOrdMap

structure Intact [Ord K] (map : PersistentOrdMap K V) : Prop where
  exact : map.root.Exact
  sorted : map.root.Sorted
  len : map.len = map.root.entries.length

structure WellFormed [Ord K] (map : PersistentOrdMap K V) : Prop extends map.Intact where
  balanced : map.root.Balanced

inductive Operation (K V : Type) : Type 1
  | insert (key : K) (value : V)
  | remove (key : K)
  | retain {σ : Type} (keep : σ → K → V → Bool × σ) (state : σ)
  | getMut (key : K) (write : V → V)

def Operation.Gentle (map : PersistentOrdMap K V) : Operation K V → Prop
  | .retain keep state => Persistent.Gentle keep map.root state
  | .insert _ _ | .remove _ | .getMut _ _ => True

variable [Ord K] {entries : List (K × V)}

def apply (map : PersistentOrdMap K V) : Operation K V → PersistentOrdMap K V
  | .insert key value => (map.insert key value).1
  | .remove key => (map.remove key).1
  | .retain keep state => map.retain keep state
  | .getMut key write => map.getMut key write

def Reachable (allowed : PersistentOrdMap K V → Operation K V → Prop) :
    PersistentOrdMap K V → Prop :=
  Lib.Reached (fun map => map = default ∨ ∃ entries, fromSortedUnique entries = some map)
    fun map next => ∃ operation, allowed map operation ∧ next = map.apply operation

theorem wellFormed_default : (default : PersistentOrdMap K V).WellFormed :=
  ⟨⟨trivial, .nil, rfl⟩, trivial⟩

theorem pairwise_of_not_unsorted [TransOrd K]
    (h : ¬ unsorted entries = true) : entries.Pairwise fun a b => compare a.1 b.1 = .lt := by
  have hchain : entries.IsChain fun a b => compare a.1 b.1 = .lt := by
    fun_induction unsorted entries with
    | case1 a b rest ih =>
      rw [Bool.or_eq_true, not_or] at h
      rw [isChain_cons_cons]
      refine ⟨?_, ih h.2⟩
      cases hcompare : compare a.1 b.1 with
      | lt => rfl
      | eq | gt => exact absurd (by rw [hcompare]; rfl) h.1
    | case2 entries hshort =>
      rcases entries with _ | ⟨a, _ | ⟨b, rest⟩⟩
      · exact .nil
      · exact .singleton a
      · exact (hshort a b rest rfl).elim
  have htrans : IsTrans (K × V) fun a b => compare a.1 b.1 = .lt :=
    ⟨fun a b c hab hbc => TransCmp.lt_trans hab hbc⟩
  exact isChain_iff_pairwise.mp hchain

theorem wellFormed_fromSortedUnique [TransOrd K]
    {map : PersistentOrdMap K V} (h : fromSortedUnique entries = some map) :
    map.WellFormed ∧ map.root.entries = entries := by
  unfold fromSortedUnique at h
  split_ifs at h with hsorted
  obtain ⟨tree, hbuild, hentries, hexact, hbalanced, _⟩ := build_spec entries entries.length le_rfl
  rw [hbuild] at h
  cases h
  rw [take_length] at hentries
  refine ⟨⟨⟨hexact, ?_, ?_⟩, hbalanced⟩, hentries⟩
  · rw [Sorted, hentries]
    exact pairwise_of_not_unsorted hsorted
  · rw [hentries]

section
variable {map : PersistentOrdMap K V}

theorem Intact.retain {σ : Type} (keep : σ → K → V → Bool × σ) (state : σ) (h : map.Intact) :
    (map.retain keep state).Intact := by
  obtain ⟨hretained, hcount⟩ := mapRetain_list keep map.root state
  have hsublist := SortedAssoc.retain_sublist keep map.root.entries state
  rw [← hretained] at hcount hsublist
  unfold PersistentOrdMap.retain
  dsimp only
  split_ifs
  · exact h
  refine ⟨h.exact.mapRetain state, h.sorted.sublist hsublist, ?_⟩
  rw [h.len, ← hcount, Nat.add_sub_cancel]

theorem Intact.getMut (h : map.Intact) (key : K) (write : V → V) : (map.getMut key write).Intact := by
  have hkeys := (@mapGetMut_entries K V _ key write map.root).1
  refine ⟨h.exact.mapGetMut write, ?_, ?_⟩
  · have hsorted : (map.root.entries.map Prod.fst).Pairwise fun a b => compare a b = .lt :=
      pairwise_map.mpr h.sorted
    rw [← hkeys] at hsorted
    exact pairwise_map.mp hsorted
  · have hlen := congrArg List.length hkeys
    rw [length_map, length_map] at hlen
    exact h.len.trans hlen.symm

theorem WellFormed.balanced_apply (h : map.WellFormed) {operation : Operation K V}
    (hgentle : operation.Gentle map) : (map.apply operation).root.Balanced := by
  cases operation with
  | insert key value => exact (mapInsert_grows h.exact h.balanced).1
  | remove key =>
    show (if (mapRemove key map.root).2.isSome then _ else map).root.Balanced
    split_ifs
    · exact (mapRemove_shrinks h.exact h.balanced).1
    · exact h.balanced
  | retain keep state =>
    show (if (mapRetain keep map.root state).1.2 = 0 then map else _).root.Balanced
    split_ifs
    · exact h.balanced
    · exact mapRetain_balanced h.exact h.balanced hgentle
  | getMut key write => exact mapGetMut_balanced write h.balanced

variable [TransOrd K]

theorem Intact.insert (h : map.Intact) (key : K) (value : V) : (map.insert key value).1.Intact := by
  obtain ⟨hentries, hvalue⟩ := mapInsert_list h.sorted key value
  refine ⟨h.exact.mapInsert, ?_, ?_⟩
  · show SortedAssoc.Sorted (mapInsert key value map.root).1.entries
    rw [hentries]
    exact SortedAssoc.Sorted.insert h.sorted value
  · have hlen := SortedAssoc.length_erase h.sorted key
    show (if (mapInsert key value map.root).2.isNone then map.len + 1 else map.len) =
      (mapInsert key value map.root).1.entries.length
    rw [hentries, hvalue, SortedAssoc.length_insert, h.len, ← hlen]
    cases SortedAssoc.lookup key map.root.entries with
    | none | some found => rfl

theorem Intact.remove (h : map.Intact) (key : K) : (map.remove key).1.Intact := by
  obtain ⟨hentries, hvalue⟩ := mapRemove_list h.sorted key
  have hlen := SortedAssoc.length_erase h.sorted key
  unfold PersistentOrdMap.remove
  dsimp only
  split_ifs with hfound
  · refine ⟨h.exact.mapRemove, ?_, ?_⟩
    · show SortedAssoc.Sorted (mapRemove key map.root).1.entries
      rw [hentries]
      exact h.sorted.sublist (SortedAssoc.erase_sublist h.sorted key)
    · rw [hvalue] at hfound
      rw [Option.length_toList, if_pos hfound] at hlen
      rw [hentries, h.len, ← hlen, Nat.add_sub_cancel]
  · exact h

theorem Intact.apply (h : map.Intact) (operation : Operation K V) : (map.apply operation).Intact := by
  cases operation with
  | insert key value => exact h.insert key value
  | remove key => exact h.remove key
  | retain keep state => exact h.retain keep state
  | getMut key write => exact h.getMut key write

end

theorem wellFormed_start [TransOrd K] (map : PersistentOrdMap K V)
    (h : map = default ∨ ∃ entries, fromSortedUnique entries = some map) : map.WellFormed := by
  rcases h with rfl | ⟨entries, hmap⟩
  · exact wellFormed_default
  · exact (wellFormed_fromSortedUnique hmap).1

theorem intact_of_reachable [TransOrd K] {map : PersistentOrdMap K V}
    {allowed : PersistentOrdMap K V → Operation K V → Prop} (h : Reachable allowed map) :
    map.Intact := by
  apply h.subset fun map hstart => (wellFormed_start map hstart).toIntact
  rintro map _ hmap ⟨operation, -, rfl⟩
  exact hmap.apply operation

/-- In every run the numbers of the nodes are exact and the keys in order; in every run whose
retains are gentle, every map is balanced too, and its heights fit. -/
theorem wellFormed_of_gentle [TransOrd K] {map : PersistentOrdMap K V} :
    (Reachable (fun _ _ => True) map → map.Intact) ∧
    (Reachable (fun map operation => operation.Gentle map) map →
      map.WellFormed ∧ (map.len < 2 ^ 64 → map.root.depth < 2 ^ 16)) := by
  refine ⟨intact_of_reachable, fun h => ?_⟩
  have hwellFormed : map.WellFormed := by
    apply h.subset wellFormed_start
    rintro map _ hmap ⟨operation, hgentle, rfl⟩
    exact ⟨hmap.toIntact.apply operation, hmap.balanced_apply hgentle⟩
  refine ⟨hwellFormed, fun hlen => hwellFormed.balanced.depth_lt ?_⟩
  rwa [← hwellFormed.len]

/-! The map of the first numbers, inserted one after the other. -/

def firstNumbers (n : ℕ) : PersistentOrdMap ℕ Unit :=
  (List.range n).foldl (fun map key => map.apply (.insert key ())) default

def keepBelow (bound : ℕ) : Unit → ℕ → Unit → Bool × Unit := fun _ key _ => (key < bound, ())

theorem reachable_firstNumbers (n : ℕ) {allowed : PersistentOrdMap ℕ Unit → Operation ℕ Unit → Prop}
    (hallowed : ∀ map key, allowed map (.insert key ())) : Reachable allowed (firstNumbers n) := by
  induction n with
  | zero => exact .root (.inl rfl)
  | succ n ih =>
    rw [firstNumbers, range_succ, foldl_append]
    exact .step ih ⟨.insert n (), hallowed _ _, rfl⟩

theorem wellFormed_of_gentle_of_seven :
    Gentle (keepBelow 4) (firstNumbers 7).root () ∧
      ((firstNumbers 7).apply (.retain (keepBelow 4) ())).WellFormed := by
  have hgentle : Gentle (keepBelow 4) (firstNumbers 7).root () := by decide +kernel
  refine ⟨hgentle, (wellFormed_of_gentle.2 ?_).1⟩
  exact .step (reachable_firstNumbers 7 fun _ _ => trivial) ⟨.retain (keepBelow 4) (), hgentle, rfl⟩

/-- Fifteen entries fill four levels. The root and its left side are kept, three levels against
none, and one rotation leaves two against none. -/
theorem retain_unbalanced :
    ∃ map : PersistentOrdMap ℕ Unit, Reachable (fun _ _ => True) map ∧ ¬ map.root.Balanced := by
  refine ⟨(firstNumbers 15).apply (.retain (keepBelow 8) ()), ?_, ?_⟩
  · exact .step (reachable_firstNumbers 15 fun _ _ => trivial) ⟨_, trivial, rfl⟩
  · decide +kernel

end PersistentOrdMap

end Cfmd.Persistent
