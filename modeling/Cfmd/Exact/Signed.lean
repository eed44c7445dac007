import Cfmd.Exact.Natural

/-! A sign and a magnitude stand for an integer, and for one only if zero has the positive
sign. -/

namespace Cfmd.Exact

def signed (negative : Bool) (n : ℕ) : ℤ := if negative then -n else n

section
variable {s t : Bool} {m n : ℕ}

theorem signed_zero (s : Bool) : signed s 0 = 0 := by cases s <;> rfl

theorem natAbs_signed (s : Bool) (n : ℕ) : (signed s n).natAbs = n := by
  unfold signed
  split_ifs <;> omega

theorem signed_lt_zero (hs : n = 0 → s = false) : s = decide (signed s n < 0) := by
  unfold signed
  cases s with
  | false => simp
  | true =>
    have hne : n ≠ 0 := fun hzero => nomatch hs hzero
    symm
    simp only [if_true, decide_eq_true_eq]
    omega

theorem signed_inj (hs : m = 0 → s = false) (ht : n = 0 → t = false)
    (h : signed s m = signed t n) : s = t ∧ m = n := by
  have hm := natAbs_signed s m
  rw [h, natAbs_signed] at hm
  rw [signed_lt_zero hs, h, ← signed_lt_zero ht]
  exact ⟨rfl, hm.symm⟩

theorem signed_add (s : Bool) (m n : ℕ) : signed s (m + n) = signed s m + signed s n := by
  unfold signed
  split_ifs <;> omega

theorem signed_sub (s : Bool) (h : n ≤ m) : signed s (m - n) = signed s m + signed (!s) n := by
  unfold signed
  cases s <;> simp <;> omega

theorem signed_mul (s t : Bool) (m n : ℕ) : signed (s != t) (m * n) = signed s m * signed t n := by
  unfold signed
  cases s <;> cases t <;> simp

end

/-- Addition: different signs leave the difference, with the sign of the larger magnitude. -/
def addParts (s : Bool) (a : ExactNatural) (t : Bool) (b : ExactNatural) : Bool × ExactNatural :=
  if b.isZero then (s, a)
  else if a.isZero then (t, b)
  else if s = t then (s, a.addAssign b)
  else
    match a.cmp b with
    | .gt => (s, (a.checkedSubAssign b).getD a)
    | .eq => (false, .zero)
    | .lt => (t, (b.checkedSubAssign a).getD b)

theorem addParts_spec {s t : Bool} {a b : ExactNatural} (ha : a.toNat = 0 → s = false) :
    signed (addParts s a t b).1 (addParts s a t b).2.toNat = signed s a.toNat + signed t b.toNat ∧
      ((addParts s a t b).2.toNat = 0 → (addParts s a t b).1 = false) := by
  unfold addParts
  simp only [ExactNatural.isZero_iff]
  split_ifs with hb hzero hsign
  · rw [hb, signed_zero, Int.add_zero]
    exact ⟨rfl, ha⟩
  · rw [hzero, signed_zero, Int.zero_add]
    exact ⟨rfl, fun h => absurd h hb⟩
  · rw [ExactNatural.toNat_addAssign, signed_add, ← hsign]
    exact ⟨rfl, fun h => ha (Nat.add_eq_zero_iff.mp h).1⟩
  · have hnot : s = !t := Bool.eq_not_of_ne hsign
    have hnot' : t = !s := Bool.eq_not_of_ne (Ne.symm hsign)
    rw [ExactNatural.cmp_eq]
    rcases Nat.lt_trichotomy a.toNat b.toNat with hlt | heq | hgt
    · obtain ⟨result, hresult, hvalue⟩ := ExactNatural.checkedSubAssign_eq hlt.le
      rw [Nat.compare_eq_lt.mpr hlt, hresult]
      dsimp only [Option.getD_some]
      rw [hvalue, signed_sub _ hlt.le, ← hnot, Int.add_comm]
      exact ⟨rfl, fun h => by omega⟩
    · have hcancel := signed_sub s (Nat.le_refl b.toNat)
      rw [Nat.sub_self, signed_zero, ← hnot'] at hcancel
      rw [Nat.compare_eq_eq.mpr heq, heq, ← hcancel]
      exact ⟨rfl, fun _ => rfl⟩
    · obtain ⟨result, hresult, hvalue⟩ := ExactNatural.checkedSubAssign_eq hgt.le
      rw [Nat.compare_eq_gt.mpr hgt, hresult]
      dsimp only [Option.getD_some]
      rw [hvalue, signed_sub _ hgt.le, ← hnot']
      exact ⟨rfl, fun h => by omega⟩

end Cfmd.Exact
