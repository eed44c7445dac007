import Mathlib.Algebra.BigOperators.Ring.Finset
import Mathlib.Algebra.Order.BigOperators.Group.Finset
import Mathlib.Data.ENat.Basic
import Cfmd.Lib.FinishOrder
import Cfmd.Lib.Horn

/-! Positive polynomial systems over the naturals with infinity: an unknown is the sum of its seed
and of the terms of its rules, coefficients times products of unknowns. A valuation that is zero
off the support, infinite where a cycle feeds and solves the other equations is the least solution.
-/

namespace Cfmd.Lib
open Relation List

section Product
variable {α : Type*} {x y : α → ℕ∞} {l : List α}

theorem one_le_prod_map (h : ∀ b ∈ l, 1 ≤ x b) : 1 ≤ (l.map x).prod := by
  induction l with
  | nil => simp
  | cons b l ih =>
    rw [forall_mem_cons] at h
    exact one_le_mul h.1 (ih h.2)

theorem le_prod_map (h : ∀ b ∈ l, 1 ≤ x b) {p : α} (hp : p ∈ l) : x p ≤ (l.map x).prod := by
  induction l with
  | nil => exact absurd hp not_mem_nil
  | cons b l ih =>
    rw [forall_mem_cons] at h
    obtain rfl | hp := mem_cons.mp hp
    · exact le_mul_of_one_le_right' (one_le_prod_map h.2)
    · exact (ih h.2 hp).trans (le_mul_of_one_le_left' h.1)

theorem prod_map_mono (h : ∀ b ∈ l, x b ≤ y b) : (l.map x).prod ≤ (l.map y).prod := by
  induction l with
  | nil => exact le_rfl
  | cons b l ih =>
    rw [forall_mem_cons] at h
    exact mul_le_mul' h.1 (ih h.2)

end Product

structure BagSystem (α ι : Type*) where
  seed : α → ℕ
  rules : Finset ι
  body : ι → List α
  head : ι → α
  coefficient : ι → ℕ

namespace BagSystem
variable {α ι : Type*} (S : BagSystem α ι)

def term (x : α → ℕ∞) (i : ι) : ℕ∞ := S.coefficient i * ((S.body i).map x).prod

def Supported : α → Prop :=
  Derivable (fun a => S.seed a ≠ 0) fun body head =>
    ∃ i ∈ S.rules, S.coefficient i ≠ 0 ∧ S.body i = body ∧ S.head i = head

def Active (i : ι) : Prop := i ∈ S.rules ∧ S.coefficient i ≠ 0 ∧ ∀ b ∈ S.body i, S.Supported b

def Feeds (p a : α) : Prop := ∃ i, S.Active i ∧ p ∈ S.body i ∧ S.head i = a

variable {S} {x y : α → ℕ∞} {a p : α} {i : ι}

theorem Active.head_supported (h : S.Active i) : S.Supported (S.head i) :=
  .rule ⟨i, h.1, h.2.1, rfl, rfl⟩ h.2.2

theorem Feeds.supported (h : S.Feeds p a) : S.Supported p ∧ S.Supported a := by
  obtain ⟨i, hi, hp, rfl⟩ := h
  exact ⟨hi.2.2 p hp, hi.head_supported⟩

theorem coefficient_one_le (h : S.coefficient i ≠ 0) : (1 : ℕ∞) ≤ S.coefficient i := by
  exact_mod_cast Nat.one_le_iff_ne_zero.mpr h

theorem term_of_not_active (hi : i ∈ S.rules) (hna : ¬ S.Active i)
    (hdead : ∀ a, ¬ S.Supported a → x a = 0) : S.term x i = 0 := by
  unfold term
  by_cases hc : S.coefficient i = 0
  · simp [hc]
  have hbody : ∃ b ∈ S.body i, ¬ S.Supported b := by
    by_contra hall
    simp only [not_exists, not_and, not_not] at hall
    exact hna ⟨hi, hc, hall⟩
  obtain ⟨b, hb, hbs⟩ := hbody
  have hzero : ((S.body i).map x).prod = 0 := prod_eq_zero (mem_map.mpr ⟨b, hb, hdead b hbs⟩)
  rw [hzero, mul_zero]

variable [DecidableEq α]

def rhs (S : BagSystem α ι) (x : α → ℕ∞) (a : α) : ℕ∞ :=
  S.seed a + ∑ i ∈ S.rules with S.head i = a, S.term x i

def Solutions (S : BagSystem α ι) : Set (α → ℕ∞) := {x | ∀ a, x a = S.rhs x a}

theorem term_le_rhs (hi : i ∈ S.rules) : S.term x i ≤ S.rhs x (S.head i) := by
  have hmem : i ∈ {j ∈ S.rules | S.head j = S.head i} := by simp [hi]
  calc S.term x i ≤ ∑ j ∈ S.rules with S.head j = S.head i, S.term x j :=
        Finset.single_le_sum (fun _ _ => zero_le) hmem
    _ ≤ S.rhs x (S.head i) := le_add_self

theorem seed_add_term_le_rhs (hi : i ∈ S.rules) :
    S.seed (S.head i) + S.term x i ≤ S.rhs x (S.head i) := by
  have hmem : i ∈ {j ∈ S.rules | S.head j = S.head i} := by simp [hi]
  exact add_le_add le_rfl (Finset.single_le_sum (fun _ _ => zero_le) hmem)

theorem term_add_term_le_rhs {j : ι} (hi : i ∈ S.rules) (hj : j ∈ S.rules)
    (hhead : S.head j = S.head i) (hne : i ≠ j) :
    S.term x i + S.term x j ≤ S.rhs x (S.head i) := by
  classical
  have hsub : ({i, j} : Finset ι) ⊆ {k ∈ S.rules | S.head k = S.head i} := by
    intro k hk
    rw [Finset.mem_insert, Finset.mem_singleton] at hk
    obtain rfl | rfl := hk
    · simp [hi]
    · simp [hj, hhead]
  calc S.term x i + S.term x j = ∑ k ∈ {i, j}, S.term x k := (Finset.sum_pair hne).symm
    _ ≤ ∑ k ∈ S.rules with S.head k = S.head i, S.term x k := Finset.sum_le_sum_of_subset hsub
    _ ≤ S.rhs x (S.head i) := le_add_self

section Solution
variable (hy : y ∈ S.Solutions)
include hy

theorem one_le_of_supported (ha : S.Supported a) : 1 ≤ y a := by
  induction ha with
  | @fact a hseed =>
    rw [hy a]
    have hone : (1 : ℕ∞) ≤ S.seed a := by exact_mod_cast Nat.one_le_iff_ne_zero.mpr hseed
    exact hone.trans le_self_add
  | rule hrule _ ih =>
    obtain ⟨i, hi, hc, rfl, rfl⟩ := hrule
    rw [hy (S.head i)]
    exact (one_le_mul (coefficient_one_le hc) (one_le_prod_map ih)).trans (term_le_rhs hi)

theorem le_term_of_active (hi : S.Active i) (hp : p ∈ S.body i) : y p ≤ S.term y i := by
  have hbody : ∀ b ∈ S.body i, 1 ≤ y b := fun b hb => one_le_of_supported hy (hi.2.2 b hb)
  exact (le_prod_map hbody hp).trans (le_mul_of_one_le_left' (coefficient_one_le hi.2.1))

theorem le_of_feeds (h : S.Feeds p a) : y p ≤ y a := by
  obtain ⟨i, hi, hp, rfl⟩ := h
  rw [hy (S.head i)]
  exact (le_term_of_active hy hi hp).trans (term_le_rhs hi.1)

theorem le_of_feeds_star (h : ReflTransGen S.Feeds p a) : y p ≤ y a := by
  induction h with
  | refl => exact le_rfl
  | tail _ hfeeds ih => exact ih.trans (le_of_feeds hy hfeeds)

/-- An unknown on a cycle is infinite: were it finite, all its component would have that value, so
nothing could contribute beside the cycle and none of them could be derived first. -/
theorem top_of_onCycle {c : α} (hc : TransGen S.Feeds c c) : y c = ⊤ := by
  by_contra hfin
  have hconst : ∀ a, ReflTransGen S.Feeds c a → ReflTransGen S.Feeds a c → y a = y c :=
    fun a hca hac => le_antisymm (le_of_feeds_star hy hac) (le_of_feeds_star hy hca)
  have hpred : ∀ a, ReflTransGen S.Feeds c a → ReflTransGen S.Feeds a c → ∃ p, S.Feeds p a ∧
      y p = y c ∧ ReflTransGen S.Feeds c p ∧ ReflTransGen S.Feeds p c := by
    intro a hca hac
    obtain ⟨p, hpa, hap⟩ := exists_pred_of_onCycle ((TransGen.trans_right hac hc).trans_left hca)
    exact ⟨p, hpa, hconst p (hca.trans hap) (.head hpa hac), hca.trans hap, .head hpa hac⟩
  have hsecond : ∀ a, ReflTransGen S.Feeds c a → ReflTransGen S.Feeds a c →
      1 + y c ≤ S.rhs y a → False := by
    intro a hca hac hle
    rw [← hy a, hconst a hca hac] at hle
    obtain ⟨k, hk⟩ := ENat.ne_top_iff_exists.mp hfin
    rw [← hk] at hle
    exact absurd (by exact_mod_cast hle : 1 + k ≤ k) (by omega)
  have hnone : ∀ a, S.Supported a → ReflTransGen S.Feeds c a → ReflTransGen S.Feeds a c →
      False := by
    intro a ha
    induction ha with
    | @fact a hseed =>
      intro hca hac
      obtain ⟨p, ⟨j, hj, hpj, rfl⟩, hyp⟩ := hpred a hca hac
      have hone : (1 : ℕ∞) ≤ S.seed (S.head j) := by
        exact_mod_cast Nat.one_le_iff_ne_zero.mpr hseed
      apply hsecond (S.head j) hca hac
      calc 1 + y c ≤ S.seed (S.head j) + S.term y j :=
            add_le_add hone (hyp.1 ▸ le_term_of_active hy hj hpj)
        _ ≤ S.rhs y (S.head j) := seed_add_term_le_rhs hj.1
    | rule hrule hbody ih =>
      intro hca hac
      obtain ⟨i, hi, hcoef, rfl, rfl⟩ := hrule
      obtain ⟨p, ⟨j, hj, hpj, hhead⟩, hyp⟩ := hpred _ hca hac
      have hij : i ≠ j := by
        rintro rfl
        exact ih p hpj hyp.2.1 hyp.2.2
      have hone : 1 ≤ S.term y i := one_le_mul (coefficient_one_le hcoef)
        (one_le_prod_map fun b hb => one_le_of_supported hy (hbody b hb))
      apply hsecond (S.head i) hca hac
      calc 1 + y c ≤ S.term y i + S.term y j :=
            add_le_add hone (hyp.1 ▸ le_term_of_active hy hj hpj)
        _ ≤ S.rhs y (S.head i) := term_add_term_le_rhs hi hj.1 hhead hij
  obtain ⟨p, hpc, _⟩ := exists_pred_of_onCycle hc
  exact hnone c hpc.supported.2 .refl .refl

theorem top_of_fedByCycle (ha : FedByCycle S.Feeds a) : y a = ⊤ := by
  obtain ⟨c, hc, hca⟩ := ha
  exact top_le_iff.mp (top_of_onCycle hy hc ▸ le_of_feeds_star hy hca)

end Solution

structure Classified (S : BagSystem α ι) (x : α → ℕ∞) : Prop where
  dead : ∀ a, ¬ S.Supported a → x a = 0
  infinite : ∀ a, FedByCycle S.Feeds a → x a = ⊤
  finite : ∀ a, S.Supported a → ¬ FedByCycle S.Feeds a → x a = S.rhs x a

section
variable (h : S.Classified x)
include h

theorem Classified.one_le (ha : S.Supported a) : 1 ≤ x a := by
  induction ha with
  | @fact a hseed =>
    by_cases hfed : FedByCycle S.Feeds a
    · rw [h.infinite a hfed]
      exact le_top
    · rw [h.finite a (.fact hseed) hfed]
      have hone : (1 : ℕ∞) ≤ S.seed a := by exact_mod_cast Nat.one_le_iff_ne_zero.mpr hseed
      exact hone.trans le_self_add
  | rule hrule hbody ih =>
    obtain ⟨i, hi, hc, rfl, rfl⟩ := hrule
    by_cases hfed : FedByCycle S.Feeds (S.head i)
    · rw [h.infinite _ hfed]
      exact le_top
    · rw [h.finite _ (.rule ⟨i, hi, hc, rfl, rfl⟩ hbody) hfed]
      exact (one_le_mul (coefficient_one_le hc) (one_le_prod_map ih)).trans (term_le_rhs hi)

theorem Classified.rhs_of_dead (ha : ¬ S.Supported a) : S.rhs x a = 0 := by
  have hseed : S.seed a = 0 := by
    by_contra hseed
    exact ha (.fact hseed)
  have hterms : ∑ i ∈ S.rules with S.head i = a, S.term x i = 0 := by
    apply Finset.sum_eq_zero
    intro i hmem
    obtain ⟨hi, rfl⟩ := Finset.mem_filter.mp hmem
    exact term_of_not_active hi (fun hactive => ha hactive.head_supported) h.dead
  rw [rhs, hseed, hterms]
  rfl

theorem Classified.rhs_of_fed (ha : FedByCycle S.Feeds a) : S.rhs x a = ⊤ := by
  obtain ⟨p, ⟨i, hi, hp, rfl⟩, hfed⟩ := ha.exists_pred
  have hbody : ∀ b ∈ S.body i, 1 ≤ x b := fun b hb => h.one_le (hi.2.2 b hb)
  have hprod : ((S.body i).map x).prod = ⊤ :=
    top_le_iff.mp (h.infinite p hfed ▸ le_prod_map hbody hp)
  have hterm : S.term x i = ⊤ := by
    unfold term
    rw [hprod]
    exact top_le_iff.mp (le_mul_of_one_le_left' (coefficient_one_le hi.2.1))
  exact top_le_iff.mp (hterm ▸ term_le_rhs hi.1)

theorem Classified.mem_solutions : x ∈ S.Solutions := by
  intro a
  by_cases ha : S.Supported a
  · by_cases hfed : FedByCycle S.Feeds a
    · rw [h.infinite a hfed, h.rhs_of_fed hfed]
    · exact h.finite a ha hfed
  · rw [h.dead a ha, h.rhs_of_dead ha]

section
variable (hwf : WellFounded fun p a => S.Feeds p a ∧ ¬ FedByCycle S.Feeds a)
include hwf

theorem Classified.le (hy : y ∈ S.Solutions) (a : α) : x a ≤ y a := by
  induction a using hwf.induction with
  | _ a ih =>
    by_cases ha : S.Supported a
    · by_cases hfed : FedByCycle S.Feeds a
      · rw [top_of_fedByCycle hy hfed]
        exact le_top
      rw [h.finite a ha hfed, hy a]
      apply add_le_add le_rfl
      apply Finset.sum_le_sum
      intro i hmem
      obtain ⟨hi, rfl⟩ := Finset.mem_filter.mp hmem
      by_cases hactive : S.Active i
      · apply mul_le_mul' le_rfl
        exact prod_map_mono fun b hb => ih b ⟨⟨i, hactive, hb, rfl⟩, hfed⟩
      · rw [term_of_not_active hi hactive h.dead]
        exact zero_le
    · rw [h.dead a ha]
      exact zero_le

theorem Classified.isLeast : IsLeast S.Solutions x :=
  ⟨h.mem_solutions, fun _ hy a => h.le hwf hy a⟩

end

end

end BagSystem

end Cfmd.Lib
