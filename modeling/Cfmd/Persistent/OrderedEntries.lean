import Cfmd.Lib.SortedAssoc
import Cfmd.Persistent.Ordered

/-! What the operations of the ordered map do to the entries and to the numbers kept with
each node, whatever the shape of the tree. -/

namespace Cfmd.Persistent
open List hiding lookup
open Std Lib Lib.SortedAssoc
variable {K V σ : Type} {tree : MapTree K V}

namespace MapTree

def entries : MapTree K V → List (K × V)
  | empty => []
  | node key value _ _ left right => left.entries ++ (key, value) :: right.entries

def depth : MapTree K V → ℕ
  | empty => 0
  | node _ _ _ _ left right => 1 + max left.depth right.depth

def Exact : MapTree K V → Prop
  | empty => True
  | node key value height subtreeLen left right =>
    (height = (node key value height subtreeLen left right).depth ∧
      subtreeLen = (node key value height subtreeLen left right).entries.length) ∧
        left.Exact ∧ right.Exact

def Sorted [Ord K] (tree : MapTree K V) : Prop :=
  tree.entries.Pairwise fun a b => compare a.1 b.1 = .lt

theorem Sorted.onSides [Ord K] {key : K} {value : V} {height subtreeLen : ℕ} {left right : MapTree K V}
    (h : (node key value height subtreeLen left right).Sorted) : left.Sorted ∧ right.Sorted :=
  (SortedAssoc.Sorted.sides h).1

end MapTree

open MapTree

section
variable {key : K} {value : V} {tree left right : MapTree K V}

theorem MapTree.Exact.mapHeight_eq (h : tree.Exact) : mapHeight tree = tree.depth := by
  cases tree with
  | empty => rfl
  | node => exact h.1.1

theorem MapTree.Exact.mapLen_eq (h : tree.Exact) : mapLen tree = tree.entries.length := by
  cases tree with
  | empty => rfl
  | node => exact h.1.2

@[simp] theorem entries_mapNode :
    (mapNode key value left right).entries = left.entries ++ (key, value) :: right.entries := rfl

@[simp] theorem depth_mapNode :
    (mapNode key value left right).depth = 1 + max left.depth right.depth := rfl

theorem MapTree.Exact.mapNode (hleft : left.Exact) (hright : right.Exact) :
    (mapNode key value left right).Exact := by
  refine ⟨⟨?_, ?_⟩, hleft, hright⟩
  · rw [hleft.mapHeight_eq, hright.mapHeight_eq, depth]
  · rw [hleft.mapLen_eq, hright.mapLen_eq, entries, length_append, length_cons]
    omega

theorem MapTree.Exact.onLeft (h : tree.Exact) : tree.left.Exact := by
  cases tree with
  | empty => trivial
  | node => exact h.2.1

theorem MapTree.Exact.onRight (h : tree.Exact) : tree.right.Exact := by
  cases tree with
  | empty => trivial
  | node => exact h.2.2

/-! ### Rotations -/

@[simp] theorem entries_mapRotateLeft : (mapRotateLeft tree).entries = tree.entries := by
  fun_cases mapRotateLeft tree
  · simp [entries]
  · rfl

@[simp] theorem entries_mapRotateRight : (mapRotateRight tree).entries = tree.entries := by
  fun_cases mapRotateRight tree
  · simp [entries]
  · rfl

@[simp] theorem entries_mapBalance : (mapBalance tree).entries = tree.entries := by
  cases tree with
  | empty => rfl
  | node key value height subtreeLen left right =>
    rw [mapBalance]
    split_ifs <;> simp [entries]

theorem MapTree.Exact.mapRotateLeft (h : tree.Exact) : (mapRotateLeft tree).Exact := by
  unfold Persistent.mapRotateLeft
  split
  · exact (h.onLeft.mapNode h.onRight.onLeft).mapNode h.onRight.onRight
  · exact h

theorem MapTree.Exact.mapRotateRight (h : tree.Exact) : (mapRotateRight tree).Exact := by
  unfold Persistent.mapRotateRight
  split
  · exact h.onLeft.onLeft.mapNode (h.onLeft.onRight.mapNode h.onRight)
  · exact h

theorem MapTree.Exact.mapBalance (h : tree.Exact) : (mapBalance tree).Exact := by
  cases tree with
  | empty => trivial
  | node key value height subtreeLen left right =>
    rw [Persistent.mapBalance]
    split_ifs
    · exact (h.onLeft.mapRotateLeft.mapNode h.onRight).mapRotateRight
    · exact h.mapRotateRight
    · exact (h.onLeft.mapNode h.onRight.mapRotateRight).mapRotateLeft
    · exact h.mapRotateLeft
    · exact h

/-! ### Taking the least entry and joining -/

theorem entries_mapTakeMin :
    (mapNode key value left right).entries =
      ((mapTakeMin key value left right).1, (mapTakeMin key value left right).2.1) ::
        (mapTakeMin key value left right).2.2.entries := by
  induction left generalizing key value right with
  | empty => rfl
  | node leftKey leftValue height subtreeLen leftLeft leftRight ih _ =>
    have htaken : (node leftKey leftValue height subtreeLen leftLeft leftRight).entries = _ :=
      @ih leftKey leftValue leftRight
    rw [entries_mapNode, htaken, mapTakeMin, entries_mapBalance, entries_mapNode, cons_append]

theorem MapTree.Exact.mapTakeMin (hleft : left.Exact) (hright : right.Exact) :
    (mapTakeMin key value left right).2.2.Exact := by
  induction left generalizing key value right with
  | empty => exact hright
  | node leftKey leftValue height subtreeLen leftLeft leftRight ih _ =>
    exact ((ih hleft.onLeft hleft.onRight).mapNode hright).mapBalance

@[simp] theorem entries_mapJoin : (mapJoin left right).entries = left.entries ++ right.entries := by
  fun_induction mapJoin left right with
  | case1 right => rfl
  | case2 => exact (append_nil _).symm
  | case3 _ _ _ _ _ _ _ _ _ _ _ _ _ ih | case4 _ _ _ _ _ _ _ _ _ _ _ _ _ _ ih => simp [ih, entries]
  | case5 _ _ _ _ _ _ rightKey rightValue _ _ rightLeft right =>
    have htaken := @entries_mapTakeMin K V rightKey rightValue rightLeft right
    rw [entries_mapBalance, entries_mapNode, ← htaken]
    rfl

theorem MapTree.Exact.mapJoin (hleft : left.Exact) (hright : right.Exact) :
    (mapJoin left right).Exact := by
  fun_induction Persistent.mapJoin left right with
  | case1 right => exact hright
  | case2 => exact hleft
  | case3 _ _ _ _ _ _ _ _ _ _ _ _ _ ih =>
    exact (hleft.onLeft.mapNode (ih hleft.onRight hright)).mapBalance
  | case4 _ _ _ _ _ _ _ _ _ _ _ _ _ _ ih =>
    exact ((ih hleft hright.onLeft).mapNode hright.onRight).mapBalance
  | case5 => exact (hleft.mapNode (hright.onLeft.mapTakeMin hright.onRight)).mapBalance

end

/-! ### Retaining -/

section
variable {keep : σ → K → V → Bool × σ}

theorem mapRetain_list (keep : σ → K → V → Bool × σ) (tree : MapTree K V) (state : σ) :
    ((mapRetain keep tree state).1.1.entries, (mapRetain keep tree state).2) =
      retain keep tree.entries state ∧
    (retain keep tree.entries state).1.length + (mapRetain keep tree state).1.2 =
      tree.entries.length := by
  induction tree generalizing state with
  | empty => exact ⟨rfl, rfl⟩
  | node key value height subtreeLen left right ihLeft ihRight =>
    obtain ⟨hleft, hcount⟩ := ihLeft state
    obtain ⟨hright, hcount'⟩ := ihRight (keep (mapRetain keep left state).2 key value).2
    have hsublist := retain_sublist keep left.entries state
    have hsublist' := retain_sublist keep right.entries (keep (mapRetain keep left state).2 key value).2
    rw [mapRetain, entries, retain_append, retain]
    rw [← hleft] at hcount hsublist ⊢
    dsimp only at hcount hsublist ⊢
    rw [← hright] at hcount' hsublist' ⊢
    dsimp only at hcount' hsublist' ⊢
    split_ifs with hkept hnone
    · -- nothing is removed below: what is retained there is what was there
      rw [hsublist.eq_of_length (by omega), hsublist'.eq_of_length (by omega)]
      exact ⟨rfl, rfl⟩
    · simp only [entries_mapBalance, entries_mapNode, length_append, length_cons]
      exact ⟨trivial, by omega⟩
    · simp only [entries_mapJoin, length_append, length_cons]
      exact ⟨trivial, by omega⟩

theorem MapTree.Exact.mapRetain (h : tree.Exact) (state : σ) :
    (mapRetain keep tree state).1.1.Exact := by
  induction tree generalizing state with
  | empty => trivial
  | node key value height subtreeLen left right ihLeft ihRight =>
    rw [Persistent.mapRetain]
    split_ifs
    · exact h
    · exact ((ihLeft h.onLeft _).mapNode (ihRight h.onRight _)).mapBalance
    · exact (ihLeft h.onLeft _).mapJoin (ihRight h.onRight _)

end

/-! ### Operations on one key -/

section
variable [Ord K] {key : K} {value : V}

theorem mapGetMut_entries (write : V → V) (tree : MapTree K V) :
    (mapGetMut write key tree).entries.map Prod.fst = tree.entries.map Prod.fst ∧
    (mapGetMut write key tree).depth = tree.depth := by
  induction tree with
  | empty => exact ⟨rfl, rfl⟩
  | node nodeKey value height subtreeLen left right ihLeft ihRight =>
    rw [mapGetMut]
    split
    · simp [entries, depth, ihLeft]
    · simp [entries, depth, ihRight]
    · simp [entries, depth]

section
variable [TransOrd K]

theorem mapRemove_list (h : tree.Sorted) (key : K) :
    (mapRemove key tree).1.entries = erase key tree.entries ∧
      (mapRemove key tree).2 = lookup key tree.entries := by
  fun_induction mapRemove key tree
  case case1 => exact ⟨rfl, rfl⟩
  case case2 nodeKey nodeValue height subtreeLen left right hlt removed hnone ih =>
    have hlookup : lookup key (node nodeKey nodeValue height subtreeLen left right).entries = none := by
      rw [entries, lookup, (parts_of_lt h hlt).2.1]
      exact (ih h.onSides.1).2.symm.trans (Option.isNone_iff_eq_none.mp hnone)
    exact ⟨(erase_of_lookup_eq_none h hlookup).symm, hlookup.symm⟩
  case case3 nodeKey nodeValue height subtreeLen left right hlt removed _ ih =>
    obtain ⟨hbelow, hat, habove⟩ := parts_of_lt h hlt
    obtain ⟨hentries, hvalue⟩ := ih h.onSides.1
    rw [entries_mapBalance, entries_mapNode, hentries, entries, erase, erase, lookup, hbelow, hat,
      habove, append_assoc]
    exact ⟨rfl, hvalue⟩
  case case4 nodeKey nodeValue height subtreeLen left right hgt removed hnone ih =>
    have hlookup : lookup key (node nodeKey nodeValue height subtreeLen left right).entries = none := by
      rw [entries, lookup, (parts_of_gt h hgt).2.1]
      exact (ih h.onSides.2).2.symm.trans (Option.isNone_iff_eq_none.mp hnone)
    exact ⟨(erase_of_lookup_eq_none h hlookup).symm, hlookup.symm⟩
  case case5 nodeKey nodeValue height subtreeLen left right hgt removed _ ih =>
    obtain ⟨hbelow, hat, habove⟩ := parts_of_gt h hgt
    obtain ⟨hentries, hvalue⟩ := ih h.onSides.2
    rw [entries_mapBalance, entries_mapNode, hentries, entries, erase, erase, lookup, hbelow, hat,
      habove, append_assoc]
    exact ⟨rfl, hvalue⟩
  case case6 heq left =>
    obtain ⟨hbelow, hat, habove⟩ := parts_of_eq h heq
    rw [entries, erase, lookup, hbelow, hat, habove]
    exact ⟨(append_nil _).symm, rfl⟩
  case case7 heq right _ =>
    obtain ⟨hbelow, hat, habove⟩ := parts_of_eq h heq
    rw [entries, erase, lookup, hbelow, hat, habove]
    exact ⟨rfl, rfl⟩
  case case8 heq left rightKey rightValue _ _ rightLeft right _ _ =>
    obtain ⟨hbelow, hat, habove⟩ := parts_of_eq h heq
    rw [entries_mapBalance, entries_mapNode, ← entries_mapTakeMin, entries, erase, lookup, hbelow,
      hat, habove]
    exact ⟨rfl, rfl⟩

theorem mapInsert_list (h : tree.Sorted) (key : K) (value : V) :
    (mapInsert key value tree).1.entries = SortedAssoc.insert key value tree.entries ∧
      (mapInsert key value tree).2 = lookup key tree.entries := by
  fun_induction mapInsert key value tree
  case case1 => exact ⟨rfl, rfl⟩
  case case2 nodeKey nodeValue _ _ left right hlt inserted ih =>
    obtain ⟨hbelow, hat, habove⟩ := parts_of_lt h hlt
    obtain ⟨hentries, hvalue⟩ := ih h.onSides.1
    rw [entries_mapBalance, entries_mapNode, hentries, entries, SortedAssoc.insert,
      SortedAssoc.insert, lookup, hbelow, hat, habove, append_assoc]
    exact ⟨rfl, hvalue⟩
  case case3 nodeKey nodeValue _ _ left right hgt inserted ih =>
    obtain ⟨hbelow, hat, habove⟩ := parts_of_gt h hgt
    obtain ⟨hentries, hvalue⟩ := ih h.onSides.2
    rw [entries_mapBalance, entries_mapNode, hentries, entries, SortedAssoc.insert,
      SortedAssoc.insert, lookup, hbelow, hat, habove, append_assoc]
    exact ⟨rfl, hvalue⟩
  case case4 heq =>
    obtain ⟨hbelow, hat, habove⟩ := parts_of_eq h heq
    rw [entries, SortedAssoc.insert, lookup, hbelow, hat, habove]
    exact ⟨rfl, rfl⟩

end

/-! ### Numbers kept with the nodes -/

theorem MapTree.Exact.mapGetMut (h : tree.Exact) (write : V → V) :
    (mapGetMut write key tree).Exact := by
  induction tree with
  | empty => trivial
  | node nodeKey value height subtreeLen left right ihLeft ihRight =>
    have hkept := @mapGetMut_entries K V _ key write (node nodeKey value height subtreeLen left right)
    have hlen := congrArg List.length hkept.1
    rw [length_map, length_map] at hlen
    obtain ⟨⟨hheight, hsubtree⟩, hleft, hright⟩ := h
    rw [← hkept.2] at hheight
    rw [← hlen] at hsubtree
    revert hheight hsubtree
    rw [Persistent.mapGetMut]
    split
    · exact fun hheight hsubtree => ⟨⟨hheight, hsubtree⟩, ihLeft hleft, hright⟩
    · exact fun hheight hsubtree => ⟨⟨hheight, hsubtree⟩, hleft, ihRight hright⟩
    · exact fun hheight hsubtree => ⟨⟨hheight, hsubtree⟩, hleft, hright⟩

theorem MapTree.Exact.mapRemove (h : tree.Exact) : (mapRemove key tree).1.Exact := by
  fun_induction Persistent.mapRemove key tree
  case case1 => trivial
  case case2 => exact h
  case case3 ih => exact ((ih h.onLeft).mapNode h.onRight).mapBalance
  case case4 => exact h
  case case5 ih => exact (h.onLeft.mapNode (ih h.onRight)).mapBalance
  case case6 => exact h.onLeft
  case case7 => exact h.onRight
  case case8 =>
    exact (h.onLeft.mapNode (h.onRight.onLeft.mapTakeMin h.onRight.onRight)).mapBalance

theorem MapTree.Exact.mapInsert (h : tree.Exact) : (mapInsert key value tree).1.Exact := by
  fun_induction Persistent.mapInsert key value tree
  case case1 => exact mapNode trivial trivial
  case case2 ih => exact ((ih h.onLeft).mapNode h.onRight).mapBalance
  case case3 ih => exact (h.onLeft.mapNode (ih h.onRight)).mapBalance
  case case4 => exact h.onLeft.mapNode h.onRight

end

end Cfmd.Persistent
