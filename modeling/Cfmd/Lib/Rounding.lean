import Mathlib.Algebra.Order.Group.Abs
import Mathlib.Algebra.Group.Nat.Even

/-! Rounding to the nearest point of an increasing grid, ties to the point with an even
index. Beyond the last point everything is rounded to it. -/

namespace Cfmd.Lib
variable {α : Type*} [AddCommGroup α] [LinearOrder α] [IsOrderedAddMonoid α]

/-- The point with this index is nearer than any other, or as near and even. -/
def NearestEven (grid : ℕ → α) (top : ℕ) (x : α) (index : ℕ) : Prop :=
  index ≤ top ∧ ∀ other ≤ top, other ≠ index →
    |x - grid index| < |x - grid other| ∨ |x - grid index| = |x - grid other| ∧ Even index

namespace NearestEven
variable {grid : ℕ → α} {top index : ℕ} {x : α}

section
variable (hgrid : StrictMono grid) (hindex : index < top) (hlow : grid index ≤ x)
  (hhigh : x ≤ grid (index + 1))
include hgrid hindex hlow hhigh

theorem lower (h : x - grid index < grid (index + 1) - x ∨
      x - grid index = grid (index + 1) - x ∧ Even index) :
    NearestEven grid top x index := by
  refine ⟨hindex.le, fun other _ hne => ?_⟩
  rw [abs_of_nonneg (sub_nonneg.mpr hlow)]
  rcases Nat.lt_or_gt_of_ne hne with hlt | hgt
  · have hother := hgrid hlt
    left
    rw [abs_of_nonneg (sub_nonneg.mpr (hother.le.trans hlow))]
    exact sub_lt_sub_left hother x
  · have hother : grid (index + 1) ≤ grid other := hgrid.monotone hgt
    have hdist : grid (index + 1) - x ≤ |x - grid other| := by
      rw [abs_sub_comm, abs_of_nonneg (sub_nonneg.mpr (hhigh.trans hother))]
      exact sub_le_sub_right hother x
    rcases h with hnear | ⟨htie, heven⟩
    · exact .inl (hnear.trans_le hdist)
    rw [htie]
    rcases hdist.lt_or_eq with hlt | heq
    · exact .inl hlt
    · exact .inr ⟨heq, heven⟩

theorem upper (h : grid (index + 1) - x < x - grid index ∨
      grid (index + 1) - x = x - grid index ∧ Even (index + 1)) :
    NearestEven grid top x (index + 1) := by
  refine ⟨hindex, fun other _ hne => ?_⟩
  rw [abs_sub_comm, abs_of_nonneg (sub_nonneg.mpr hhigh)]
  rcases Nat.lt_or_gt_of_ne hne with hlt | hgt
  · have hother : grid other ≤ grid index := hgrid.monotone (Nat.le_of_lt_succ hlt)
    have hdist : x - grid index ≤ |x - grid other| := by
      rw [abs_of_nonneg (sub_nonneg.mpr (hother.trans hlow))]
      exact sub_le_sub_left hother x
    rcases h with hnear | ⟨htie, heven⟩
    · exact .inl (hnear.trans_le hdist)
    rw [htie]
    rcases hdist.lt_or_eq with hlt | heq
    · exact .inl hlt
    · exact .inr ⟨heq, heven⟩
  · have hother := hgrid hgt
    left
    rw [abs_sub_comm, abs_of_nonneg (sub_nonneg.mpr (hhigh.trans hother.le))]
    exact sub_lt_sub_right hother x

end

section
variable (hgrid : StrictMono grid)
include hgrid

theorem beyond (h : grid top ≤ x) : NearestEven grid top x top := by
  refine ⟨le_rfl, fun other hother hne => .inl ?_⟩
  have hlt := hgrid (Nat.lt_of_le_of_ne hother hne)
  rw [abs_of_nonneg (sub_nonneg.mpr h), abs_of_nonneg (sub_nonneg.mpr (hlt.le.trans h))]
  exact sub_lt_sub_left hlt x

theorem exact (hindex : index ≤ top) (h : grid index = x) : NearestEven grid top x index := by
  refine ⟨hindex, fun other _ hne => .inl ?_⟩
  have hother : x - grid other ≠ 0 := by
    rw [← h, sub_ne_zero]
    exact fun heq => hne (hgrid.injective heq).symm
  rw [h, sub_self, abs_zero]
  exact abs_pos.mpr hother

/-- Of two points as near as each other, with a point between them, neither is nearest. -/
theorem not_tie {index' : ℕ} (h : NearestEven grid top x index)
    (hlt : index + 1 < index') (hle : index' ≤ top)
    (htie : |x - grid index| = |x - grid index'|) : False := by
  have hlow : grid index < grid (index + 1) := hgrid (Nat.lt_succ_self index)
  have hhigh : grid (index + 1) < grid index' := hgrid hlt
  have hmid : x - grid index = grid index' - x := by
    rcases abs_eq_abs.mp htie with heq | heq
    · exact absurd (sub_right_injective heq) (hlow.trans hhigh).ne
    · rw [heq, neg_sub]
  have hpos : 0 ≤ x - grid index := by
    by_contra hneg
    have hbelow : x < grid index := sub_neg.mp (not_le.mp hneg)
    have habove := sub_pos.mpr (hbelow.trans (hlow.trans hhigh))
    rw [← hmid] at habove
    exact hneg habove.le
  have hnear : |x - grid (index + 1)| < |x - grid index| := by
    rw [abs_of_nonneg hpos, abs_lt]
    constructor
    · rw [hmid, neg_sub]
      exact sub_lt_sub_left hhigh x
    · exact sub_lt_sub_left hlow x
  rcases h.2 (index + 1) (hlt.le.trans hle) (Nat.succ_ne_self index) with hless | ⟨heq, _⟩
  · exact absurd hnear hless.not_gt
  · exact absurd heq hnear.ne'

theorem unique {index' : ℕ} (h : NearestEven grid top x index)
    (h' : NearestEven grid top x index') : index = index' := by
  by_contra hne
  have htie : |x - grid index| = |x - grid index'| ∧ Even index ∧ Even index' := by
    rcases h.2 index' h'.1 (Ne.symm hne) with hlt | ⟨heq, heven⟩
    · rcases h'.2 index h.1 hne with hlt' | ⟨heq, _⟩
      · exact absurd hlt hlt'.not_gt
      · exact absurd heq hlt.ne'
    · rcases h'.2 index h.1 hne with hlt' | ⟨_, heven'⟩
      · exact absurd heq hlt'.ne'
      · exact ⟨heq, heven, heven'⟩
  obtain ⟨htie, ⟨m, rfl⟩, ⟨n, rfl⟩⟩ := htie
  rcases Nat.lt_or_gt_of_ne hne with hlt | hgt
  · exact h.not_tie hgrid (by omega) h'.1 htie
  · exact h'.not_tie hgrid (by omega) h.1 htie.symm

end

end NearestEven

end Cfmd.Lib
