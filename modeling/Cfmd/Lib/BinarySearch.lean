import Mathlib.Order.Lattice
import Mathlib.Data.List.Basic

/-! Binary search in a strictly increasing vector, and the two edits made at the
position it returns. -/

namespace Cfmd.Lib
open List
variable {α : Type*} [LinearOrder α]

def bisect (xs : List α) (key : α) : ℕ → ℕ → ℕ → Except ℕ ℕ
  | 0, lo, _ => .error lo
  | fuel + 1, lo, hi =>
    if lo < hi then
      let mid := lo + (hi - lo) / 2
      match xs[mid]? with
      | none => .error lo
      | some x =>
        if x = key then .ok mid
        else if x < key then bisect xs key fuel (mid + 1) hi
        else bisect xs key fuel lo mid
    else .error lo

def binarySearch (xs : List α) (key : α) : Except ℕ ℕ := bisect xs key xs.length 0 xs.length

def Located (xs : List α) (key : α) : Except ℕ ℕ → Prop
  | .ok i => xs[i]? = some key
  | .error i => i ≤ xs.length ∧ (∀ j x, xs[j]? = some x → j < i → x < key) ∧
      ∀ j x, xs[j]? = some x → i ≤ j → key < x

variable {xs : List α} {key : α} {i : ℕ} {x : α}

section
variable (hs : xs.Pairwise (· < ·))
include hs

theorem lt_of_getElem? {j : ℕ} {y : α} (hi : xs[i]? = some x)
    (hj : xs[j]? = some y) (hij : i < j) : x < y := by
  obtain ⟨hil, rfl⟩ := List.getElem?_eq_some_iff.mp hi
  obtain ⟨hjl, rfl⟩ := List.getElem?_eq_some_iff.mp hj
  exact pairwise_iff_getElem.mp hs i j hil hjl hij

theorem bisect_located (fuel : ℕ) {lo hi : ℕ} (hlo : lo ≤ hi)
    (hhi : hi ≤ xs.length) (hfuel : hi - lo ≤ fuel)
    (hbelow : ∀ j x, xs[j]? = some x → j < lo → x < key)
    (habove : ∀ j x, xs[j]? = some x → hi ≤ j → key < x) :
    Located xs key (bisect xs key fuel lo hi) := by
  induction fuel generalizing lo hi with
  | zero =>
    have heq : lo = hi := by omega
    exact ⟨heq ▸ hhi, hbelow, fun j x hj hle => habove j x hj (heq ▸ hle)⟩
  | succ fuel ih =>
    unfold bisect
    split_ifs with hlt
    · have hmid : lo + (hi - lo) / 2 < xs.length := by omega
      simp only [getElem?_eq_getElem hmid]
      have hm : xs[lo + (hi - lo) / 2]? = some (xs[lo + (hi - lo) / 2]) := getElem?_eq_getElem hmid
      split_ifs with heq hless
      · exact hm.trans (congrArg some heq)
      · refine ih (by omega) hhi (by omega) ?_ habove
        intro j x hj hjm
        obtain hjm | rfl := Nat.lt_succ_iff_lt_or_eq.mp hjm
        · exact lt_trans (lt_of_getElem? hs hj hm hjm) hless
        · rw [hm] at hj
          cases hj
          exact hless
      · have hgt := lt_of_le_of_ne (not_lt.mp hless) (Ne.symm heq)
        refine ih (by omega) (by omega) (by omega) hbelow ?_
        intro j x hj hjm
        obtain hjm | rfl := Nat.lt_or_eq_of_le hjm
        · exact lt_trans hgt (lt_of_getElem? hs hm hj hjm)
        · rw [hm] at hj
          cases hj
          exact hgt
    · have heq : lo = hi := by omega
      exact ⟨heq ▸ hhi, hbelow, fun j x hj hle => habove j x hj (heq ▸ hle)⟩

theorem binarySearch_located (key : α) : Located xs key (binarySearch xs key) := by
  apply bisect_located hs _ (Nat.zero_le _) (Nat.le_refl _) (Nat.sub_le _ _)
  · intro j x _ hj
    exact absurd hj (Nat.not_lt_zero j)
  · intro j x hj hle
    rw [getElem?_eq_none hle] at hj
    cases hj

theorem mem_of_binarySearch_ok (h : binarySearch xs key = .ok i) : xs[i]? = some key := by
  have hloc := binarySearch_located hs key
  rwa [h] at hloc

theorem not_mem_of_binarySearch_error (h : binarySearch xs key = .error i) : key ∉ xs := by
  have hloc := binarySearch_located hs key
  rw [h] at hloc
  intro hmem
  obtain ⟨j, hj⟩ := mem_iff_getElem?.mp hmem
  by_cases hji : j < i
  · exact absurd (hloc.2.1 j key hj hji) (lt_irrefl key)
  · exact absurd (hloc.2.2 j key hj (Nat.le_of_not_lt hji)) (lt_irrefl key)

theorem pairwise_insert_of_binarySearch (h : binarySearch xs key = .error i) :
    (xs.take i ++ key :: xs.drop i).Pairwise (· < ·) := by
  have hloc := binarySearch_located hs key
  rw [h] at hloc
  have hbelow : ∀ x ∈ xs.take i, x < key := by
    intro x hx
    obtain ⟨j, hj⟩ := mem_iff_getElem?.mp hx
    rw [getElem?_take] at hj
    split_ifs at hj with hji
    exact hloc.2.1 j x hj hji
  have habove : ∀ x ∈ xs.drop i, key < x := by
    intro x hx
    obtain ⟨j, hj⟩ := mem_iff_getElem?.mp hx
    rw [getElem?_drop] at hj
    exact hloc.2.2 (i + j) x hj (Nat.le_add_right i j)
  rw [pairwise_append, pairwise_cons]
  refine ⟨hs.sublist (take_sublist i xs), ⟨habove, hs.sublist (drop_sublist i xs)⟩, ?_⟩
  intro x hx y hy
  obtain rfl | hy := mem_cons.mp hy
  · exact hbelow x hx
  · exact lt_trans (hbelow x hx) (habove y hy)

end

omit [LinearOrder α] in
theorem mem_insert_at : x ∈ xs.take i ++ key :: xs.drop i ↔ x = key ∨ x ∈ xs := by
  rw [mem_append, mem_cons, or_left_comm, ← mem_append, take_append_drop]

theorem mem_eraseIdx_of_binarySearch (hs : xs.Pairwise (· < ·)) (h : binarySearch xs key = .ok i) :
    x ∈ xs.eraseIdx i ↔ x ∈ xs ∧ x ≠ key := by
  have hkey := mem_of_binarySearch_ok hs h
  rw [mem_eraseIdx_iff_getElem?]
  constructor
  · rintro ⟨j, hji, hj⟩
    refine ⟨mem_of_getElem? hj, ?_⟩
    rintro rfl
    obtain hlt | hlt := Nat.lt_or_gt_of_ne hji
    · exact absurd (lt_of_getElem? hs hj hkey hlt) (lt_irrefl x)
    · exact absurd (lt_of_getElem? hs hkey hj hlt) (lt_irrefl x)
  · rintro ⟨hx, hne⟩
    obtain ⟨j, hj⟩ := mem_iff_getElem?.mp hx
    refine ⟨j, ?_, hj⟩
    rintro rfl
    exact hne (Option.some.inj (hj.symm.trans hkey))

end Cfmd.Lib
