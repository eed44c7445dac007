import Cfmd.Persistent.OrderedEntries
import Mathlib.Data.Nat.Size

/-! The balance of the ordered map. One rotation at a node repairs sides that are two levels apart,
as an insertion, a removal and a join leave them. A bulk retain can leave the sides of a kept entry
further apart; there it is not enough. -/

namespace Cfmd.Persistent
open MapTree List Nat
variable {K V σ : Type}

def MapTree.Balanced : MapTree K V → Prop
  | empty => True
  | node _ _ _ _ left right =>
    (left.depth ≤ right.depth + 1 ∧ right.depth ≤ left.depth + 1) ∧ left.Balanced ∧ right.Balanced

instance MapTree.decidableBalanced : (tree : MapTree K V) → Decidable tree.Balanced
  | empty => inferInstanceAs (Decidable True)
  | node _ _ _ _ left right =>
    have := left.decidableBalanced
    have := right.decidableBalanced
    inferInstanceAs (Decidable ((left.depth ≤ right.depth + 1 ∧ right.depth ≤ left.depth + 1) ∧
      left.Balanced ∧ right.Balanced))

section
variable {key : K} {value : V} {tree left right : MapTree K V}

theorem MapTree.Balanced.mapNode (hleft : left.Balanced) (hright : right.Balanced)
    (h : left.depth ≤ right.depth + 1) (h' : right.depth ≤ left.depth + 1) :
    (mapNode key value left right).Balanced := ⟨⟨h, h'⟩, hleft, hright⟩

theorem mapBalance_left (key : K) (value : V) (hexact : left.Exact) (hexact' : right.Exact)
    (hleft : left.Balanced) (hright : right.Balanced) (h : left.depth = right.depth + 2) :
    (mapBalance (mapNode key value left right)).Balanced ∧
    left.depth ≤ (mapBalance (mapNode key value left right)).depth ∧
    (mapBalance (mapNode key value left right)).depth ≤ left.depth + 1 := by
  cases left with
  | empty =>
    rw [depth] at h
    omega
  | node leftKey leftValue height subtreeLen leftLeft leftRight =>
    have hlow : mapHeight right + 1 <
        mapHeight (node leftKey leftValue height subtreeLen leftLeft leftRight) := by
      rw [hexact.mapHeight_eq, hexact'.mapHeight_eq]
      omega
    have hinner : mapHeight leftLeft = leftLeft.depth ∧ mapHeight leftRight = leftRight.depth :=
      ⟨hexact.onLeft.mapHeight_eq, hexact.onRight.mapHeight_eq⟩
    obtain ⟨⟨hdiff, hdiff'⟩, hll, hlr⟩ := hleft
    rw [depth] at h
    rw [Persistent.mapNode, mapBalance]
    simp only [MapTree.left, MapTree.right, hinner]
    split_ifs with hdouble
    · cases leftRight with
      | empty =>
        rw [depth] at hdouble
        omega
      | node pivotKey pivotValue _ _ pivotLeft pivotRight =>
        obtain ⟨⟨hpivot, hpivot'⟩, hpl, hpr⟩ := hlr
        simp only [depth] at h hdiff hdiff' hdouble
        simp only [mapRotateLeft, mapRotateRight, Persistent.mapNode, MapTree.Balanced, depth, hll, hpl,
          hpr, hright, and_true]
        omega
    · simp only [mapRotateRight, Persistent.mapNode, MapTree.Balanced, depth, hll, hlr, hright, and_true,
        true_and]
      omega

/-! The right side is treated as the left side of the mirror image. -/

def MapTree.mirror : MapTree K V → MapTree K V
  | empty => empty
  | node key value height subtreeLen left right =>
    node key value height subtreeLen right.mirror left.mirror

@[simp] theorem mapHeight_mirror : mapHeight tree.mirror = mapHeight tree := by
  cases tree <;> rfl

@[simp] theorem mapLen_mirror : mapLen tree.mirror = mapLen tree := by
  cases tree <;> rfl

@[simp] theorem mirror_left : tree.mirror.left = tree.right.mirror := by
  cases tree <;> rfl

@[simp] theorem mirror_right : tree.mirror.right = tree.left.mirror := by
  cases tree <;> rfl

@[simp] theorem depth_mirror : tree.mirror.depth = tree.depth := by
  induction tree with
  | empty => rfl
  | node key value height subtreeLen left right ihLeft ihRight =>
    rw [mirror, depth, depth, ihLeft, ihRight, max_comm]

theorem length_entries_mirror : tree.mirror.entries.length = tree.entries.length := by
  induction tree with
  | empty => rfl
  | node key value height subtreeLen left right ihLeft ihRight =>
    simp only [mirror, entries, length_append, length_cons, ihLeft, ihRight]
    omega

theorem MapTree.Exact.mirror (h : tree.Exact) : tree.mirror.Exact := by
  induction tree with
  | empty => trivial
  | node key value height subtreeLen left right ihLeft ihRight =>
    obtain ⟨⟨hheight, hlen⟩, hleft, hright⟩ := h
    rw [← depth_mirror] at hheight
    rw [← length_entries_mirror] at hlen
    exact ⟨⟨hheight, hlen⟩, ihRight hright, ihLeft hleft⟩

@[simp] theorem balanced_mirror : tree.mirror.Balanced ↔ tree.Balanced := by
  induction tree with
  | empty => exact Iff.rfl
  | node key value height subtreeLen left right ihLeft ihRight =>
    simp only [mirror, MapTree.Balanced, depth_mirror, ihLeft, ihRight]
    tauto

@[simp] theorem mirror_mapNode :
    (mapNode key value left right).mirror = mapNode key value right.mirror left.mirror := by
  simp only [Persistent.mapNode, mirror, mapHeight_mirror, mapLen_mirror, max_comm, add_right_comm]

theorem mirror_mapRotateRight : (mapRotateRight tree).mirror = mapRotateLeft tree.mirror := by
  fun_cases mapRotateRight tree with
  | case1 => simp [mirror, mapRotateLeft]
  | case2 tree hnot =>
    rcases tree with _ | ⟨key, value, height, subtreeLen, _ | _, right⟩
    · rfl
    · rfl
    · exact (hnot _ _ _ _ _ _ _ _ _ _ _ rfl).elim

theorem mirror_mapRotateLeft : (mapRotateLeft tree).mirror = mapRotateRight tree.mirror := by
  fun_cases mapRotateLeft tree with
  | case1 => simp [mirror, mapRotateRight]
  | case2 tree hnot =>
    rcases tree with _ | ⟨key, value, height, subtreeLen, left, _ | _⟩
    · rfl
    · rfl
    · exact (hnot _ _ _ _ _ _ _ _ _ _ _ rfl).elim

theorem mirror_mapBalance : (mapBalance tree).mirror = mapBalance tree.mirror := by
  cases tree with
  | empty => rfl
  | node key value height subtreeLen left right =>
    simp only [mapBalance, mirror, mapHeight_mirror, mirror_left, mirror_right]
    by_cases hleft : mapHeight right + 1 < mapHeight left
    · have hright : ¬ mapHeight left + 1 < mapHeight right := by omega
      split_ifs
      · rw [mirror_mapRotateRight, mirror_mapNode, mirror_mapRotateLeft]
      · exact mirror_mapRotateRight
    · split_ifs
      · rw [mirror_mapRotateLeft, mirror_mapNode, mirror_mapRotateRight]
      · exact mirror_mapRotateLeft
      · rfl

/-- One rotation is enough for sides that are at most two levels apart. -/
theorem mapBalance_balanced (key : K) (value : V) (hexact : left.Exact) (hexact' : right.Exact)
    (hleft : left.Balanced) (hright : right.Balanced) (h : left.depth ≤ right.depth + 2)
    (h' : right.depth ≤ left.depth + 2) :
    (mapBalance (mapNode key value left right)).Balanced ∧
    max left.depth right.depth ≤ (mapBalance (mapNode key value left right)).depth ∧
    (mapBalance (mapNode key value left right)).depth ≤ max left.depth right.depth + 1 ∧
    (left.depth ≤ right.depth + 1 → right.depth ≤ left.depth + 1 →
      (mapBalance (mapNode key value left right)).depth = max left.depth right.depth + 1) := by
  have hheight := hexact.mapHeight_eq
  have hheight' := hexact'.mapHeight_eq
  by_cases hdeep : left.depth = right.depth + 2
  · obtain ⟨hbalanced, hlow, hhigh⟩ := mapBalance_left key value hexact hexact'
      hleft hright hdeep
    exact ⟨hbalanced, by omega, by omega, by omega⟩
  by_cases hdeep' : right.depth = left.depth + 2
  · obtain ⟨hbalanced, hlow, hhigh⟩ := mapBalance_left key value hexact'.mirror
      hexact.mirror (balanced_mirror.mpr hright) (balanced_mirror.mpr hleft) (by simpa using hdeep')
    rw [← mirror_mapNode, ← mirror_mapBalance, balanced_mirror] at hbalanced
    rw [← mirror_mapNode, ← mirror_mapBalance, depth_mirror, depth_mirror] at hlow hhigh
    exact ⟨hbalanced, by omega, by omega, by omega⟩
  · have hsame : mapBalance (mapNode key value left right) = mapNode key value left right := by
      rw [Persistent.mapNode, mapBalance, if_neg (by omega), if_neg (by omega)]
    rw [hsame, depth_mapNode]
    exact ⟨hleft.mapNode hright (by omega) (by omega), by omega, by omega, by omega⟩

/-! ### Operations that change a depth by at most one -/

def Shrinks (depth : ℕ) (tree : MapTree K V) : Prop :=
  tree.Balanced ∧ depth ≤ tree.depth + 1 ∧ tree.depth ≤ depth

def Grows (depth : ℕ) (tree : MapTree K V) : Prop :=
  tree.Balanced ∧ depth ≤ tree.depth ∧ tree.depth ≤ depth + 1

theorem MapTree.Balanced.shrinks (h : tree.Balanced) : Shrinks tree.depth tree :=
  ⟨h, le_succ _, le_rfl⟩

theorem MapTree.Balanced.grows (h : tree.Balanced) : Grows tree.depth tree :=
  ⟨h, le_rfl, le_succ _⟩

theorem Shrinks.mapBalance {a b : ℕ} (hleft : Shrinks a left) (hright : Shrinks b right)
    (hexact : left.Exact) (hexact' : right.Exact) (hdiff : a ≤ b + 1 ∧ b ≤ a + 1) :
    Shrinks (1 + max a b) (mapBalance (mapNode key value left right)) := by
  obtain ⟨hleft, hlow, hhigh⟩ := hleft
  obtain ⟨hright, hlow', hhigh'⟩ := hright
  obtain ⟨hresult, hmin, hmax, hsame⟩ := mapBalance_balanced key value hexact hexact' hleft hright
    (by omega) (by omega)
  exact ⟨hresult, by omega, by omega⟩

theorem Grows.mapBalance {a b : ℕ} (hleft : Grows a left) (hright : Grows b right)
    (hexact : left.Exact) (hexact' : right.Exact) (hdiff : a ≤ b + 1 ∧ b ≤ a + 1) :
    Grows (1 + max a b) (mapBalance (mapNode key value left right)) := by
  obtain ⟨hleft, hlow, hhigh⟩ := hleft
  obtain ⟨hright, hlow', hhigh'⟩ := hright
  obtain ⟨hresult, hmin, hmax, hsame⟩ := mapBalance_balanced key value hexact hexact' hleft hright
    (by omega) (by omega)
  exact ⟨hresult, by omega, by omega⟩

theorem mapTakeMin_shrinks {height subtreeLen : ℕ}
    (hexact : (node key value height subtreeLen left right).Exact)
    (h : (node key value height subtreeLen left right).Balanced) :
    Shrinks (node key value height subtreeLen left right).depth
      (mapTakeMin key value left right).2.2 := by
  induction left generalizing key value height subtreeLen right with
  | empty =>
    obtain ⟨⟨_, hdiff⟩, _, hright⟩ := h
    simp only [Shrinks, mapTakeMin, depth, hright, true_and]
    omega
  | node leftKey leftValue leftHeight leftLen leftLeft leftRight ih _ =>
    obtain ⟨hdiff, hleft, hright⟩ := h
    exact (ih hexact.onLeft hleft).mapBalance hright.shrinks
      (hexact.onLeft.onLeft.mapTakeMin hexact.onLeft.onRight) hexact.onRight hdiff

/-- Two balanced trees of any depths are joined to one that is at most one level deeper
than the deeper of the two. -/
theorem mapJoin_grows (hexact : left.Exact) (hexact' : right.Exact) (hleft : left.Balanced)
    (hright : right.Balanced) : Grows (max left.depth right.depth) (mapJoin left right) := by
  fun_induction mapJoin left right with
  | case1 right =>
    exact hright.grows
  | case2 =>
    rw [depth.eq_1, max_zero]
    exact hleft.grows
  | case3 key value height subtreeLen left leftRight rightKey rightValue rightHeight rightLen
      rightLeft right hdeep ih =>
    have hheight : height = 1 + max left.depth leftRight.depth := hexact.mapHeight_eq
    have hheight' : rightHeight = _ := hexact'.mapHeight_eq
    obtain ⟨hdiff, hll, hlr⟩ := hleft
    have hjoined := ih hexact.onRight hexact' hlr hright
    -- the inner right side is at least as deep as what is joined to it
    rw [max_eq_left (by omega)] at hjoined
    rw [depth.eq_2 _ _ _ _ left, max_eq_left (by omega)]
    exact hll.grows.mapBalance hjoined hexact.onLeft (hexact.onRight.mapJoin hexact') hdiff
  | case4 key value height subtreeLen left leftRight rightKey rightValue rightHeight rightLen
      rightLeft right _ hdeep ih =>
    have hheight : height = _ := hexact.mapHeight_eq
    have hheight' : rightHeight = 1 + max rightLeft.depth right.depth := hexact'.mapHeight_eq
    obtain ⟨hdiff, hrl, hrr⟩ := hright
    have hjoined := ih hexact hexact'.onLeft hleft hrl
    rw [max_eq_right (by omega)] at hjoined
    rw [depth.eq_2 _ _ _ _ rightLeft, max_eq_right (by omega)]
    exact hjoined.mapBalance hrr.grows (hexact.mapJoin hexact'.onLeft) hexact'.onRight hdiff
  | case5 key value height subtreeLen left leftRight rightKey rightValue rightHeight rightLen
      rightLeft right hdeep hdeep' taken =>
    have hheight : height = _ := hexact.mapHeight_eq
    have hheight' : rightHeight = _ := hexact'.mapHeight_eq
    have hrest : taken.2.2.Exact := hexact'.onLeft.mapTakeMin hexact'.onRight
    have hshrinks : Shrinks _ taken.2.2 := mapTakeMin_shrinks hexact' hright
    obtain ⟨htaken, hlow, hhigh⟩ := hshrinks
    obtain ⟨hresult, hmin, hmax, hsame⟩ := mapBalance_balanced taken.1 taken.2.1 hexact hrest hleft
      htaken (by omega) (by omega)
    exact ⟨hresult, by omega, by omega⟩

section
variable [Ord K]

theorem mapInsert_grows (hexact : tree.Exact) (h : tree.Balanced) :
    Grows tree.depth (mapInsert key value tree).1 := by
  fun_induction mapInsert key value tree
  case case1 => exact ⟨⟨⟨zero_le _, zero_le _⟩, trivial, trivial⟩, zero_le _, le_rfl⟩
  case case2 ih =>
    obtain ⟨hdiff, hleft, hright⟩ := h
    exact (ih hexact.onLeft hleft).mapBalance hright.grows hexact.onLeft.mapInsert hexact.onRight
      hdiff
  case case3 ih =>
    obtain ⟨hdiff, hleft, hright⟩ := h
    exact hleft.grows.mapBalance (ih hexact.onRight hright) hexact.onLeft hexact.onRight.mapInsert
      hdiff
  case case4 =>
    obtain ⟨hdiff, hleft, hright⟩ := h
    exact (hleft.mapNode hright hdiff.1 hdiff.2).grows

theorem mapRemove_shrinks (hexact : tree.Exact) (h : tree.Balanced) :
    Shrinks tree.depth (mapRemove key tree).1 := by
  fun_induction mapRemove key tree
  case case1 => exact h.shrinks
  case case2 => exact h.shrinks
  case case3 ih =>
    obtain ⟨hdiff, hleft, hright⟩ := h
    exact (ih hexact.onLeft hleft).mapBalance hright.shrinks hexact.onLeft.mapRemove hexact.onRight
      hdiff
  case case4 => exact h.shrinks
  case case5 ih =>
    obtain ⟨hdiff, hleft, hright⟩ := h
    exact hleft.shrinks.mapBalance (ih hexact.onRight hright) hexact.onLeft
      hexact.onRight.mapRemove hdiff
  case case6 =>
    obtain ⟨hdiff, hleft, _⟩ := h
    simp only [Shrinks, depth, hleft, true_and]
    omega
  case case7 =>
    obtain ⟨hdiff, _, hright⟩ := h
    simp only [Shrinks, depth, hright, true_and]
    omega
  case case8 =>
    obtain ⟨hdiff, hleft, hright⟩ := h
    exact hleft.shrinks.mapBalance (mapTakeMin_shrinks hexact.onRight hright) hexact.onLeft
      (hexact.onRight.onLeft.mapTakeMin hexact.onRight.onRight) hdiff

theorem mapGetMut_balanced (write : V → V) (h : tree.Balanced) :
    (mapGetMut write key tree).Balanced := by
  induction tree with
  | empty => trivial
  | node nodeKey value height subtreeLen left right ihLeft ihRight =>
    obtain ⟨hdiff, hleft, hright⟩ := h
    rw [mapGetMut]
    split
    · refine ⟨?_, ihLeft hleft, hright⟩
      rwa [(mapGetMut_entries write left).2]
    · refine ⟨?_, hleft, ihRight hright⟩
      rwa [(mapGetMut_entries write right).2]
    · exact ⟨hdiff, hleft, hright⟩

end

/-! ### Retaining -/

/-- The branch of a kept entry is not taken with sides whose heights differ by more than
two, at no node. -/
def Gentle (keep : σ → K → V → Bool × σ) : MapTree K V → σ → Prop
  | empty, _ => True
  | node key value _ _ left right, state =>
    let retainedLeft := mapRetain keep left state
    let kept := keep retainedLeft.2 key value
    let retainedRight := mapRetain keep right kept.2
    Gentle keep left state ∧ Gentle keep right kept.2 ∧
      (kept.1 = true → mapHeight retainedLeft.1.1 ≤ mapHeight retainedRight.1.1 + 2 ∧
        mapHeight retainedRight.1.1 ≤ mapHeight retainedLeft.1.1 + 2)

instance decidableGentle (keep : σ → K → V → Bool × σ) :
    (tree : MapTree K V) → (state : σ) → Decidable (Gentle keep tree state)
  | empty, _ => inferInstanceAs (Decidable True)
  | node key value _ _ left right, state =>
    have := decidableGentle keep left state
    have := decidableGentle keep right (keep (mapRetain keep left state).2 key value).2
    inferInstanceAs (Decidable (_ ∧ _ ∧ (_ → _ ∧ _)))

theorem mapRetain_balanced {keep : σ → K → V → Bool × σ} {state : σ} (hexact : tree.Exact)
    (h : tree.Balanced) (hgentle : Gentle keep tree state) :
    (mapRetain keep tree state).1.1.Balanced := by
  induction tree generalizing state with
  | empty => trivial
  | node key value height subtreeLen left right ihLeft ihRight =>
    obtain ⟨hgentleLeft, hgentleRight, hsides⟩ := hgentle
    have hleft := ihLeft hexact.onLeft h.2.1 hgentleLeft
    have hright := ihRight hexact.onRight h.2.2 hgentleRight
    have hexactLeft : (mapRetain keep left state).1.1.Exact := hexact.onLeft.mapRetain state
    have hexactRight : (mapRetain keep right
        (keep (mapRetain keep left state).2 key value).2).1.1.Exact := hexact.onRight.mapRetain _
    rw [mapRetain]
    split_ifs with hkept hnone
    · exact h
    · obtain ⟨hdiff, hdiff'⟩ := hsides hkept
      rw [hexactLeft.mapHeight_eq, hexactRight.mapHeight_eq] at hdiff hdiff'
      exact (mapBalance_balanced key value hexactLeft hexactRight hleft hright hdiff hdiff').1
    · exact (mapJoin_grows hexactLeft hexactRight hleft hright).1

/-! ### Building -/

theorem size_succ_le (n : ℕ) : Nat.size (n + 1) ≤ Nat.size n + 1 := by
  rw [size_le]
  have hlt := lt_size_self n
  omega

theorem size_eq_half {n : ℕ} (h : n ≠ 0) : Nat.size n = Nat.size (n / 2) + 1 := by
  have hbit := bit_bodd_div2 n
  rw [← hbit] at h
  have hsize := size_bit h
  rwa [hbit, div2_val] at hsize

theorem build_spec (entries : List (K × V)) (len : ℕ) (hlen : len ≤ entries.length) :
    ∃ tree, PersistentOrdMap.build entries len = some (tree, entries.drop len) ∧
      tree.entries = entries.take len ∧ tree.Exact ∧ tree.Balanced ∧ tree.depth = Nat.size len := by
  induction len using Nat.strong_induction_on generalizing entries with
  | _ len ih =>
    rw [PersistentOrdMap.build]
    split_ifs with hzero
    · subst hzero
      exact ⟨empty, rfl, rfl, trivial, trivial, rfl⟩
    obtain ⟨left, hleft, hentries, hexact, hbalanced, hdepth⟩ :=
      ih (len / 2) (by omega) entries (by omega)
    have hdrop : ∃ entry rest, entries.drop (len / 2) = entry :: rest :=
      exists_cons_of_length_pos (by rw [length_drop]; omega)
    obtain ⟨entry, rest, hdrop⟩ := hdrop
    have hrest : entries.length = len / 2 + rest.length + 1 := by
      have hlength := congrArg List.length hdrop
      rw [length_drop, length_cons] at hlength
      omega
    obtain ⟨right, hright, hentries', hexact', hbalanced', hdepth'⟩ :=
      ih (len - len / 2 - 1) (by omega) rest (by omega)
    have hsteps : len = len / 2 + (len - len / 2 - 1 + 1) := by omega
    have hskip : entries.drop len = rest.drop (len - len / 2 - 1) := by
      rw [hsteps, ← drop_drop, ← hsteps, hdrop, drop_succ_cons]
    have htake : entries.take len =
        entries.take (len / 2) ++ entry :: rest.take (len - len / 2 - 1) := by
      rw [hsteps, take_add, ← hsteps, hdrop, take_succ_cons]
    -- the two halves differ by at most one entry
    have hhalf := size_eq_half hzero
    have hmono : Nat.size (len - len / 2 - 1) ≤ Nat.size (len / 2) := size_le_size (by omega)
    have hnext : Nat.size (len / 2) ≤ Nat.size (len - len / 2 - 1) + 1 :=
      (size_le_size (by omega)).trans (size_succ_le _)
    refine ⟨mapNode entry.1 entry.2 left right, ?_, ?_, hexact.mapNode hexact', ?_, ?_⟩
    · simp [hleft, hdrop, hright, hskip]
    · rw [entries_mapNode, hentries, hentries', htake]
    · exact hbalanced.mapNode hbalanced' (by omega) (by omega)
    · rw [depth_mapNode]
      omega

end

end Cfmd.Persistent
