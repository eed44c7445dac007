import Cfmd.Lib.Limbs

/-! Exact natural numbers: limb vectors without zero limbs at the end. The loops run along the
lists, with the carry or the borrow as an argument, and no `u128` goes out of range. Every
operation is the one of the numbers. -/

namespace Cfmd.Exact
open Lib Limbs List Nat

def lowU64 (value : ℕ) : UInt64 := UInt64.ofNat value

theorem toNat_lowU64 (value : ℕ) : (lowU64 value).toNat = value % 2 ^ 64 := UInt64.toNat_ofNat'

/-! ### Loops over limbs -/

def addLoop : ℕ → List UInt64 → List UInt64 → ℕ → List UInt64
  | 0, _, _, carry => if carry ≠ 0 then [1] else []
  | n + 1, left, right, carry =>
    let sum := (left.head?.getD 0).toNat + (right.head?.getD 0).toNat + carry
    lowU64 sum :: addLoop n left.tail right.tail (sum / 2 ^ 64)

def subLoop : List UInt64 → List UInt64 → ℕ → List UInt64
  | [], _, _ => []
  | left :: rest, other, borrow =>
    let right := (other.head?.getD 0).toNat + borrow
    if right ≤ left.toNat then lowU64 (left.toNat - right) :: subLoop rest other.tail 0
    else lowU64 (2 ^ 64 + left.toNat - right) :: subLoop rest other.tail 1

def pushCarry (carry : ℕ) : List UInt64 :=
  if carry = 0 then [] else lowU64 carry :: pushCarry (carry / 2 ^ 64)

/-- The carry of a row goes into the limbs that follow, and into new ones after those. -/
def carryLoop : List UInt64 → ℕ → List UInt64
  | [], carry => pushCarry carry
  | limb :: result, carry =>
    if carry = 0 then limb :: result
    else
      let sum := limb.toNat + carry
      lowU64 sum :: carryLoop result (sum / 2 ^ 64)

def mulRow (factor : UInt64) : List UInt64 → List UInt64 → ℕ → List UInt64
  | [], result, carry => carryLoop result carry
  | _ :: _, [], _ => []
  | right :: rest, limb :: result, carry =>
    let product := factor.toNat * right.toNat + limb.toNat + carry
    lowU64 product :: mulRow factor rest result (product / 2 ^ 64)

def mulRows (right : List UInt64) : List UInt64 → List UInt64 → List UInt64
  | [], result => result
  | left :: rest, result =>
    match mulRow left right result 0 with
    | [] => []
    | limb :: result => limb :: mulRows right rest result

theorem toNat_lowU64_cons (value : ℕ) (limbs : List UInt64) :
    Limbs.toNat (lowU64 value :: limbs) + 2 ^ 64 * (value / 2 ^ 64) =
      value + 2 ^ 64 * Limbs.toNat limbs := by
  rw [Limbs.toNat, toNat_lowU64]
  omega

theorem toNat_addLoop {n : ℕ} {left right : List UInt64} {carry : ℕ} (hleft : left.length ≤ n)
    (hright : right.length ≤ n) (hcarry : carry ≤ 1) :
    Limbs.toNat (addLoop n left right carry) = Limbs.toNat left + Limbs.toNat right + carry := by
  induction n generalizing left right carry with
  | zero =>
    rw [length_eq_zero_iff.mp (le_zero.mp hleft),
      length_eq_zero_iff.mp (le_zero.mp hright), addLoop]
    split_ifs with hzero
    · have hone : carry = 1 := by omega
      rw [hone]
      rfl
    · rw [not_not.mp hzero]
      rfl
  | succ n ih =>
    have hlt := (left.head?.getD 0).toNat_lt
    have hlt' := (right.head?.getD 0).toNat_lt
    have hrest := @ih left.tail right.tail
      (((left.head?.getD 0).toNat + (right.head?.getD 0).toNat + carry) / 2 ^ 64)
      (by rw [length_tail]; omega) (by rw [length_tail]; omega) (by omega)
    have hstep := toNat_lowU64_cons
      ((left.head?.getD 0).toNat + (right.head?.getD 0).toNat + carry)
      (addLoop n left.tail right.tail
        (((left.head?.getD 0).toNat + (right.head?.getD 0).toNat + carry) / 2 ^ 64))
    rw [addLoop, toNat_eq_head_add_tail left, toNat_eq_head_add_tail right]
    omega

theorem extends_addLoop (n : ℕ) (left right : List UInt64) (carry : ℕ) :
    Extends n (addLoop n left right carry) := by
  induction n generalizing left right carry with
  | zero =>
    rw [addLoop]
    split_ifs
    · exact .inr ⟨[], 1, rfl, by decide, rfl⟩
    · exact .inl rfl
  | succ n ih => exact (ih ..).cons _

theorem toNat_subLoop {left other : List UInt64} {borrow : ℕ} (hlen : other.length ≤ left.length)
    (hborrow : borrow ≤ 1) (hle : Limbs.toNat other + borrow ≤ Limbs.toNat left) :
    Limbs.toNat (subLoop left other borrow) + Limbs.toNat other + borrow = Limbs.toNat left := by
  induction left generalizing other borrow with
  | nil =>
    simp only [Limbs.toNat, subLoop] at hle ⊢
    omega
  | cons limb rest ih =>
    have hlt := limb.toNat_lt
    have hlt' := (other.head?.getD 0).toNat_lt
    have htail : other.tail.length ≤ rest.length := by
      rw [length_tail]
      exact sub_le_of_le_add hlen
    rw [toNat_eq_head_add_tail other, Limbs.toNat] at hle
    rw [toNat_eq_head_add_tail other, subLoop]
    split_ifs with hge
    · have hrest := @ih other.tail 0 htail (zero_le 1) (by omega)
      rw [Limbs.toNat, Limbs.toNat, toNat_lowU64]
      omega
    · have hrest := @ih other.tail 1 htail le_rfl (by omega)
      rw [Limbs.toNat, Limbs.toNat, toNat_lowU64]
      omega

theorem toNat_pushCarry (carry : ℕ) : Limbs.toNat (pushCarry carry) = carry := by
  fun_induction pushCarry carry with
  | case1 => rfl
  | case2 carry _ ih =>
    have hstep := toNat_lowU64_cons carry (pushCarry (carry / 2 ^ 64))
    omega

theorem toNat_carryLoop (result : List UInt64) (carry : ℕ) :
    Limbs.toNat (carryLoop result carry) = Limbs.toNat result + carry := by
  fun_induction carryLoop result carry with
  | case1 carry => exact (toNat_pushCarry carry).trans (zero_add carry).symm
  | case2 => rfl
  | case3 limb result carry _ sum ih =>
    have hstep := toNat_lowU64_cons sum (carryLoop result (sum / 2 ^ 64))
    rw [Limbs.toNat.eq_2 limb]
    omega

theorem toNat_mulRow {factor : UInt64} {right result : List UInt64} {carry : ℕ}
    (hlen : right.length ≤ result.length) :
    Limbs.toNat (mulRow factor right result carry) =
      Limbs.toNat result + factor.toNat * Limbs.toNat right + carry := by
  induction right generalizing result carry with
  | nil => rw [mulRow, toNat_carryLoop, Limbs.toNat.eq_1, mul_zero, add_zero]
  | cons limb rest ih =>
    cases result with
    | nil => exact absurd hlen (not_succ_le_zero _)
    | cons old result =>
      have hrest := @ih result ((factor.toNat * limb.toNat + old.toNat + carry) / 2 ^ 64)
        (le_of_succ_le_succ hlen)
      have hstep := toNat_lowU64_cons (factor.toNat * limb.toNat + old.toNat + carry)
        (mulRow factor rest result ((factor.toNat * limb.toNat + old.toNat + carry) / 2 ^ 64))
      have hproduct : factor.toNat * (limb.toNat + 2 ^ 64 * Limbs.toNat rest) =
          factor.toNat * limb.toNat + 2 ^ 64 * (factor.toNat * Limbs.toNat rest) := by ring
      rw [Limbs.toNat.eq_2 old, Limbs.toNat.eq_2 limb, mulRow]
      omega

theorem length_carryLoop (result : List UInt64) (carry : ℕ) :
    result.length ≤ (carryLoop result carry).length := by
  fun_induction carryLoop result carry with
  | case1 => exact zero_le _
  | case2 => exact le_rfl
  | case3 limb result carry _ sum ih => exact succ_le_succ ih

theorem length_mulRow {factor : UInt64} {right result : List UInt64} {carry : ℕ}
    (hlen : right.length ≤ result.length) :
    result.length ≤ (mulRow factor right result carry).length := by
  induction right generalizing result carry with
  | nil => exact length_carryLoop result carry
  | cons limb rest ih =>
    cases result with
    | nil => exact zero_le _
    | cons old result => exact succ_le_succ (ih (le_of_succ_le_succ hlen))

theorem toNat_mulRows {right left result : List UInt64}
    (hlen : left.length + right.length ≤ result.length) :
    Limbs.toNat (mulRows right left result) =
      Limbs.toNat result + Limbs.toNat left * Limbs.toNat right := by
  induction left generalizing result with
  | nil => rw [mulRows, Limbs.toNat.eq_1, zero_mul, add_zero]
  | cons factor rest ih =>
    rw [length_cons] at hlen
    have hvalue := @toNat_mulRow factor right result 0 (by omega)
    have hlength := @length_mulRow factor right result 0 (by omega)
    rw [mulRows]
    cases hrow : mulRow factor right result 0 with
    | nil =>
      rw [hrow, length_nil] at hlength
      omega
    | cons limb next =>
      rw [hrow, Limbs.toNat] at hvalue
      rw [hrow, length_cons] at hlength
      have hrest := @ih next (by omega)
      have hproduct : (factor.toNat + 2 ^ 64 * Limbs.toNat rest) * Limbs.toNat right =
          factor.toNat * Limbs.toNat right + 2 ^ 64 * (Limbs.toNat rest * Limbs.toNat right) := by ring
      rw [Limbs.toNat.eq_2 limb, Limbs.toNat.eq_2 factor]
      omega

theorem compare_toNat (a b : UInt64) : compare a b = compare a.toNat b.toNat := by
  simp only [compare, compareOfLessAndEq, UInt64.lt_iff_toNat_lt, UInt64.toNat_inj]

theorem compare_cons (a b : UInt64) (as bs : List UInt64) :
    compare (a :: as) (b :: bs) = (compare a b).then (compare as bs) := by
  show List.compareLex _ _ _ = _
  rw [List.compareLex]
  cases compare a b <;> rfl

theorem compare_digit {base x y low low' : ℕ} (hlow : low < base) (hlow' : low' < base) :
    compare (low + base * x) (low' + base * y) = (compare x y).then (compare low low') := by
  rcases lt_trichotomy x y with hlt | rfl | hgt
  · have hmul : base * (x + 1) ≤ base * y := mul_le_mul_left _ hlt
    rw [mul_succ] at hmul
    have hless : low + base * x < low' + base * y := by omega
    rw [Nat.compare_eq_lt.mpr hlt, Nat.compare_eq_lt.mpr hless]
    rfl
  · rw [Nat.compare_eq_eq.mpr (Eq.refl x)]
    show _ = compare low low'
    rcases lt_trichotomy low low' with hlt | rfl | hgt
    · rw [Nat.compare_eq_lt.mpr hlt, Nat.compare_eq_lt.mpr (Nat.add_lt_add_right hlt _)]
    · rw [Nat.compare_eq_eq.mpr rfl, Nat.compare_eq_eq.mpr rfl]
    · rw [Nat.compare_eq_gt.mpr hgt, Nat.compare_eq_gt.mpr (Nat.add_lt_add_right hgt _)]
  · have hmul : base * (y + 1) ≤ base * x := mul_le_mul_left _ hgt
    rw [mul_succ] at hmul
    have hless : low' + base * y < low + base * x := by omega
    rw [Nat.compare_eq_gt.mpr hgt, Nat.compare_eq_gt.mpr hless]
    rfl

theorem compare_reverse {a b : List UInt64} (h : a.length = b.length) :
    compare a.reverse b.reverse = compare (Limbs.toNat a) (Limbs.toNat b) := by
  induction a using reverseRecOn generalizing b with
  | nil =>
    rw [length_eq_zero_iff.mp h.symm]
    rfl
  | append_singleton rest limb ih =>
    rcases eq_nil_or_concat' b with rfl | ⟨rest', limb', rfl⟩
    · rw [length_append] at h
      cases h
    have hlen : rest.length = rest'.length := by
      rw [length_append, length_append] at h
      exact add_right_cancel h
    have hlow := toNat_lt rest
    have hlow' := toNat_lt rest'
    rw [← hlen] at hlow'
    have hlimb : ∀ x : UInt64, Limbs.toNat [x] = x.toNat := fun x => rfl
    rw [reverse_concat, reverse_concat, compare_cons, ih hlen, compare_toNat,
      toNat_append, toNat_append, ← hlen, hlimb, hlimb, compare_digit hlow hlow']

/-! ### Numbers -/

structure ExactNatural where
  limbs : List UInt64
  normalized : Normalized limbs
  deriving DecidableEq

namespace ExactNatural

def toNat (number : ExactNatural) : ℕ := Limbs.toNat number.limbs

theorem toNat_inj {a b : ExactNatural} : a.toNat = b.toNat ↔ a = b := by
  refine ⟨fun h => ?_, fun h => by rw [h]⟩
  have hlimbs := (a.normalized.toNat_inj b.normalized).mp h
  cases a
  cases b
  cases hlimbs
  rfl

def zero : ExactNatural := ⟨[], normalized_nil⟩

def normalize (limbs : List UInt64) : ExactNatural :=
  ⟨limbs.rdropWhile (· == 0), normalized_rdropWhile⟩

@[simp] theorem toNat_normalize (limbs : List UInt64) : (normalize limbs).toNat = Limbs.toNat limbs :=
  toNat_rdropWhile

def fromU64 (value : UInt64) : ExactNatural :=
  if h : value = 0 then zero
  else ⟨[value], fun hlast => h (Option.some.inj hlast)⟩

def fromShiftedU64 (value : UInt64) (shift : ℕ) : ExactNatural :=
  if value = 0 then zero
  else
    let limbShift := shift / 64
    let bitShift := shift % 64
    normalize (replicate limbShift 0 ++ [value <<< UInt64.ofNat bitShift,
      if bitShift ≠ 0 then value >>> UInt64.ofNat (64 - bitShift) else 0])

def isZero (number : ExactNatural) : Bool := number.limbs.isEmpty

theorem isZero_iff {number : ExactNatural} : number.isZero = true ↔ number.toNat = 0 := by
  rw [isZero, List.isEmpty_iff, toNat, number.normalized.toNat_eq_zero]

theorem normalized_addLoop (a b : ExactNatural) :
    Normalized (addLoop (max a.limbs.length b.limbs.length) a.limbs b.limbs 0) := by
  have hvalue := @toNat_addLoop (max a.limbs.length b.limbs.length) a.limbs b.limbs 0
    (le_max_left _ _) (le_max_right _ _) (zero_le 1)
  apply (extends_addLoop ..).normalized
  -- no less than the longer of the two
  intro hpos
  rw [hvalue]
  rcases le_total a.limbs.length b.limbs.length with hle | hle
  · rw [max_eq_right hle] at hpos ⊢
    have htop := b.normalized.le_toNat (ne_nil_of_length_pos hpos)
    omega
  · rw [max_eq_left hle] at hpos ⊢
    have htop := a.normalized.le_toNat (ne_nil_of_length_pos hpos)
    omega

def addAssign (number other : ExactNatural) : ExactNatural :=
  ⟨addLoop (max number.limbs.length other.limbs.length) number.limbs other.limbs 0,
    normalized_addLoop number other⟩

@[simp] theorem toNat_addAssign (a b : ExactNatural) : (a.addAssign b).toNat = a.toNat + b.toNat :=
  toNat_addLoop (le_max_left _ _) (le_max_right _ _) (zero_le 1)

def multiplyAssign (number other : ExactNatural) : ExactNatural :=
  if number.isZero || other.isZero then zero
  else normalize (mulRows other.limbs number.limbs
    (replicate (number.limbs.length + other.limbs.length) 0))

@[simp] theorem toNat_multiplyAssign (a b : ExactNatural) :
    (a.multiplyAssign b).toNat = a.toNat * b.toNat := by
  unfold multiplyAssign
  split_ifs with hzero
  · rw [Bool.or_eq_true, isZero_iff, isZero_iff] at hzero
    exact (Nat.mul_eq_zero.mpr hzero).symm
  · rw [toNat_normalize, toNat_mulRows (by rw [length_replicate]), toNat_replicate_zero,
      zero_add]
    rfl

/-- By length, then from the highest limb down. -/
def cmp (number other : ExactNatural) : Ordering :=
  (compare number.limbs.length other.limbs.length).then
    (compare number.limbs.reverse other.limbs.reverse)

/-- `none` where the subtraction is refused. -/
def checkedSubAssign (number other : ExactNatural) : Option ExactNatural :=
  if number.cmp other = .lt then none
  else some (normalize (subLoop number.limbs other.limbs 0))

theorem cmp_eq (a b : ExactNatural) : a.cmp b = compare a.toNat b.toNat := by
  unfold cmp
  rcases lt_trichotomy a.limbs.length b.limbs.length with hlt | hlen | hgt
  · have hless : a.toNat < b.toNat := b.normalized.toNat_lt_of_length_lt hlt
    rw [Nat.compare_eq_lt.mpr hlt, Nat.compare_eq_lt.mpr hless]
    rfl
  · rw [Nat.compare_eq_eq.mpr hlen, compare_reverse hlen]
    rfl
  · have hless : b.toNat < a.toNat := a.normalized.toNat_lt_of_length_lt hgt
    rw [Nat.compare_eq_gt.mpr hgt, Nat.compare_eq_gt.mpr hless]
    rfl

theorem checkedSubAssign_eq {a b : ExactNatural} (h : b.toNat ≤ a.toNat) :
    ∃ result, a.checkedSubAssign b = some result ∧ result.toNat = a.toNat - b.toNat := by
  have hcmp : a.cmp b ≠ .lt := by
    rw [cmp_eq, Ne, Nat.compare_eq_lt]
    omega
  refine ⟨_, if_neg hcmp, ?_⟩
  have hlen : b.limbs.length ≤ a.limbs.length := by
    by_contra hlong
    have hless : a.toNat < b.toNat := b.normalized.toNat_lt_of_length_lt (by omega)
    omega
  have hvalue := toNat_subLoop hlen (zero_le 1) h
  rw [toNat_normalize]
  show _ = Limbs.toNat a.limbs - Limbs.toNat b.limbs
  omega

end ExactNatural

end Cfmd.Exact
