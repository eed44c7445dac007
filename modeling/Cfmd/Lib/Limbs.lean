import Mathlib.Data.List.DropRight
import Mathlib.Data.Nat.Bitwise
import Mathlib.Tactic.Ring

/-! Natural numbers as lists of 64-bit limbs, the lowest first. A list without a zero limb
at its end is determined by its number, and longer lists are larger numbers. -/

namespace Cfmd.Lib.Limbs
open List

def toNat : List UInt64 → ℕ
  | [] => 0
  | limb :: limbs => limb.toNat + 2 ^ 64 * toNat limbs

def Normalized (limbs : List UInt64) : Prop := limbs.getLast? ≠ some 0

section
variable {limbs a b : List UInt64}

theorem toNat_eq_head_add_tail (limbs : List UInt64) :
    toNat limbs = (limbs.head?.getD 0).toNat + 2 ^ 64 * toNat limbs.tail := by
  cases limbs with
  | nil | cons limb limbs => rfl

theorem toNat_append (a b : List UInt64) :
    toNat (a ++ b) = toNat a + 2 ^ (64 * a.length) * toNat b := by
  induction a with
  | nil => simp [toNat]
  | cons limb limbs ih =>
    rw [cons_append, toNat, toNat, ih, length_cons]
    ring

theorem toNat_replicate_zero (n : ℕ) : toNat (replicate n 0) = 0 := by
  induction n with
  | zero => rfl
  | succ n ih => rw [replicate_succ, toNat, ih]; rfl

theorem toNat_lt (limbs : List UInt64) : toNat limbs < 2 ^ (64 * limbs.length) := by
  induction limbs with
  | nil => exact Nat.one_pos
  | cons limb limbs ih =>
    have hlimb := limb.toNat_lt
    rw [toNat, length_cons, Nat.mul_succ, Nat.pow_add]
    omega

theorem normalized_nil : Normalized [] := nofun

theorem normalized_concat {limb : UInt64} : Normalized (limbs ++ [limb]) ↔ limb ≠ 0 := by
  rw [Normalized, getLast?_concat, Ne, Option.some.injEq]

theorem Normalized.le_toNat (h : Normalized limbs) (hlimbs : limbs ≠ []) :
    2 ^ (64 * (limbs.length - 1)) ≤ toNat limbs := by
  rcases eq_nil_or_concat' limbs with rfl | ⟨rest, limb, rfl⟩
  · exact absurd rfl hlimbs
  rw [normalized_concat] at h
  have hlimb : limb.toNat ≠ 0 := fun hzero => h (UInt64.toNat_inj.mp hzero)
  rw [length_append, length_singleton, Nat.add_sub_cancel, toNat_append, toNat, toNat,
    Nat.mul_zero, Nat.add_zero]
  have hle := Nat.le_mul_of_pos_right (2 ^ (64 * rest.length)) (Nat.pos_of_ne_zero hlimb)
  omega

theorem normalized_of_le (h : limbs ≠ [] → 2 ^ (64 * (limbs.length - 1)) ≤ toNat limbs) :
    Normalized limbs := by
  rcases eq_nil_or_concat' limbs with rfl | ⟨rest, limb, rfl⟩
  · exact normalized_nil
  rw [normalized_concat]
  rintro rfl
  have hle := h (by simp)
  have hlt := toNat_lt rest
  rw [length_append, length_singleton, Nat.add_sub_cancel, toNat_append] at hle
  have hzero : toNat [0] = 0 := rfl
  rw [hzero] at hle
  omega

/-- As many limbs as this, and perhaps one more that is not zero. -/
def Extends (n : ℕ) (limbs : List UInt64) : Prop :=
  limbs.length = n ∨ ∃ low top, low.length = n ∧ top ≠ 0 ∧ limbs = low ++ [top]

theorem Extends.cons {n : ℕ} (h : Extends n limbs) (limb : UInt64) :
    Extends (n + 1) (limb :: limbs) := by
  rcases h with rfl | ⟨low, top, rfl, htop, rfl⟩
  · exact .inl rfl
  · exact .inr ⟨limb :: low, top, rfl, htop, rfl⟩

theorem Extends.normalized {n : ℕ} (h : Extends n limbs)
    (hle : 0 < n → 2 ^ (64 * (n - 1)) ≤ toNat limbs) : Normalized limbs := by
  rcases h with rfl | ⟨low, top, rfl, htop, rfl⟩
  · exact normalized_of_le fun hne => hle (length_pos_of_ne_nil hne)
  · exact normalized_concat.mpr htop

theorem Normalized.toNat_eq_zero (h : Normalized limbs) : toNat limbs = 0 ↔ limbs = [] := by
  refine ⟨fun hzero => ?_, fun hnil => by rw [hnil]; rfl⟩
  by_contra hlimbs
  have hle := h.le_toNat hlimbs
  have hpos := Nat.two_pow_pos (64 * (limbs.length - 1))
  omega

theorem Normalized.toNat_lt_of_length_lt (hb : Normalized b) (h : a.length < b.length) :
    toNat a < toNat b := by
  have hlt := toNat_lt a
  have hle := hb.le_toNat (ne_nil_of_length_pos (by omega))
  have hpow : 2 ^ (64 * a.length) ≤ 2 ^ (64 * (b.length - 1)) :=
    Nat.pow_le_pow_right (by norm_num) (by omega)
  omega

theorem toNat_inj_of_length (h : a.length = b.length) : toNat a = toNat b ↔ a = b := by
  refine ⟨fun heq => ?_, fun heq => by rw [heq]⟩
  induction a generalizing b with
  | nil => exact (length_eq_zero_iff.mp h.symm).symm
  | cons limb limbs ih =>
    cases b with
    | nil => cases h
    | cons limb' limbs' =>
      have hlimb := limb.toNat_lt
      have hlimb' := limb'.toNat_lt
      rw [toNat, toNat] at heq
      have hhead : limb.toNat = limb'.toNat := by omega
      have htail : toNat limbs = toNat limbs' := by omega
      rw [UInt64.toNat_inj.mp hhead, ih (Nat.succ.inj h) htail]

theorem Normalized.toNat_inj (ha : Normalized a) (hb : Normalized b) :
    toNat a = toNat b ↔ a = b := by
  refine ⟨fun heq => ?_, fun heq => by rw [heq]⟩
  rcases Nat.lt_trichotomy a.length b.length with hlt | hlen | hlt
  · exact absurd heq (Nat.ne_of_lt (hb.toNat_lt_of_length_lt hlt))
  · exact (toNat_inj_of_length hlen).mp heq
  · exact absurd heq (Nat.ne_of_gt (ha.toNat_lt_of_length_lt hlt))

/-! ### Limbs by position -/

section
variable (limbs : List UInt64)

theorem toNat_drop (index : ℕ) : toNat (limbs.drop index) = toNat limbs / 2 ^ (64 * index) := by
  induction index generalizing limbs with
  | zero => simp
  | succ index ih =>
    cases limbs with
    | nil => simp [toNat]
    | cons limb limbs =>
      have hlimb := limb.toNat_lt
      have htail : toNat (limb :: limbs) / 2 ^ 64 = toNat limbs := by
        rw [toNat]
        omega
      rw [drop_succ_cons, ih, Nat.mul_succ, Nat.add_comm, Nat.pow_add,
        ← Nat.div_div_eq_div_mul, htail]

theorem toNat_getElem?_getD (index : ℕ) :
    (limbs[index]?.getD 0).toNat = toNat limbs / 2 ^ (64 * index) % 2 ^ 64 := by
  rw [← toNat_drop, toNat_eq_head_add_tail, head?_drop, Nat.add_mul_mod_self_left,
    Nat.mod_eq_of_lt (UInt64.toNat_lt _)]

theorem toNat_take (n : ℕ) : toNat (limbs.take n) = toNat limbs % 2 ^ (64 * n) := by
  have hsplit := toNat_append (limbs.take n) (limbs.drop n)
  have hlt := toNat_lt (limbs.take n)
  rw [take_append_drop] at hsplit
  rw [length_take] at hsplit hlt
  rcases Nat.le_total n limbs.length with hle | hle
  · rw [Nat.min_eq_left hle] at hsplit hlt
    rw [hsplit, Nat.add_mul_mod_self_left, Nat.mod_eq_of_lt hlt]
  · rw [take_of_length_le hle, Nat.mod_eq_of_lt]
    exact (toNat_lt limbs).trans_le (Nat.pow_le_pow_right (by norm_num) (by omega))

end

theorem toNat_eq_zero_iff : toNat limbs = 0 ↔ ∀ limb ∈ limbs, limb = 0 := by
  induction limbs with
  | nil => exact ⟨fun _ => nofun, fun _ => rfl⟩
  | cons limb limbs ih =>
    rw [toNat, forall_mem_cons, ← ih, Nat.add_eq_zero_iff, ← UInt64.toNat_inj]
    simp

/-! ### Dropping zero limbs at the end -/

theorem toNat_rdropWhile : toNat (limbs.rdropWhile (· == 0)) = toNat limbs := by
  induction limbs using reverseRecOn with
  | nil => rfl
  | append_singleton limbs limb ih =>
    by_cases hzero : limb = 0
    · rw [rdropWhile_concat_pos _ _ _ (by simpa using hzero), ih, toNat_append, hzero]
      simp [toNat]
    · rw [rdropWhile_concat_neg _ _ _ (by simpa using hzero)]

theorem normalized_rdropWhile : Normalized (limbs.rdropWhile (· == 0)) := by
  induction limbs using reverseRecOn with
  | nil => exact normalized_nil
  | append_singleton limbs limb ih =>
    by_cases hzero : limb = 0
    · rwa [rdropWhile_concat_pos _ _ _ (by simpa using hzero)]
    · rw [rdropWhile_concat_neg _ _ _ (by simpa using hzero)]
      exact normalized_concat.mpr hzero

end

end Cfmd.Lib.Limbs
