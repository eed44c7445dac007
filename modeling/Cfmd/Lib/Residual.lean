import Mathlib.Data.List.Perm.Basic

/-! Residual systems: entries are applied one after the other, and each entry
still pending is replaced by its residual after the one just applied. If the
first pending entry can be moved past every other in every context, all orders
end in the same state. -/

namespace Cfmd.Lib.Residual
open List

variable {K R S : Type*} (endpoint : R → S) (after : S → K × R → K × R → R)

/-- The pending entries after one of them was applied. -/
def through (base : S) (x : K × R) (rest : List (K × R)) : List (K × R) :=
  rest.map fun y => (y.1, after base x y)

@[simp] theorem length_through (base : S) (x : K × R) (rest : List (K × R)) :
    (through after base x rest).length = rest.length :=
  length_map _

@[simp] theorem through_cons (base : S) (x y : K × R) (rest : List (K × R)) :
    through after base x (y :: rest) = (y.1, after base x y) :: through after base x rest := rfl

@[simp] theorem through_append (base : S) (x : K × R) (xs ys : List (K × R)) :
    through after base x (xs ++ ys) = through after base x xs ++ through after base x ys :=
  map_append

def runN : ℕ → S → List (K × R) → S
  | 0, base, _ => base
  | _ + 1, base, [] => base
  | n + 1, base, x :: rest => runN n (endpoint x.2) (through after base x rest)

def run (base : S) (order : List (K × R)) : S := runN endpoint after order.length base order

@[simp] theorem run_nil (base : S) : run endpoint after base [] = base := rfl

@[simp] theorem run_cons (base : S) (x : K × R) (rest : List (K × R)) :
    run endpoint after base (x :: rest) =
      run endpoint after (endpoint x.2) (through after base x rest) := by
  simp only [run, length_cons, runN, length_through]

/-! ## Contexts -/

def picks {α : Type*} : List α → List (α × List α)
  | [] => []
  | x :: xs => (x, xs) :: (picks xs).map fun p => (p.1, x :: p.2)

theorem mem_picks {α : Type*} {l rest : List α} {x : α} :
    (x, rest) ∈ picks l ↔ ∃ xs ys, l = xs ++ x :: ys ∧ rest = xs ++ ys := by
  induction l generalizing rest with
  | nil => simp [picks]
  | cons a l ih =>
    simp only [picks, mem_cons, Prod.mk.injEq, mem_map, Prod.exists]
    constructor
    · rintro (⟨rfl, rfl⟩ | ⟨y, ys, hmem, rfl, rfl⟩)
      · exact ⟨[], rest, rfl, rfl⟩
      · obtain ⟨xs, zs, rfl, rfl⟩ := ih.mp hmem
        exact ⟨a :: xs, zs, rfl, rfl⟩
    · rintro ⟨xs, ys, hl, rfl⟩
      cases xs with
      | nil =>
        obtain ⟨rfl, rfl⟩ := List.cons.inj hl
        exact .inl ⟨rfl, rfl⟩
      | cons b xs =>
        obtain ⟨rfl, rfl⟩ := List.cons.inj hl
        exact .inr ⟨x, xs ++ ys, ih.mpr ⟨xs, ys, rfl, rfl⟩, rfl, rfl⟩

theorem all_picks {α : Type*} {l : List α} {f : α → List α → Bool} :
    ((picks l).all fun p => f p.1 p.2) = true ↔
      ∀ xs x ys, l = xs ++ x :: ys → f x (xs ++ ys) = true := by
  rw [all_eq_true]
  constructor
  · intro h xs x ys hl
    exact h (x, xs ++ ys) (mem_picks.mpr ⟨xs, ys, hl, rfl⟩)
  · rintro h ⟨x, rest⟩ hp
    obtain ⟨xs, ys, hl, rfl⟩ := mem_picks.mp hp
    exact h xs x ys hl

/-- The level check passes in every context that some order reaches. -/
def settled (level : S → List (K × R) → Bool) : ℕ → S → List (K × R) → Bool
  | 0, _, _ => true
  | n + 1, base, current => level base current && (picks current).all fun p =>
      settled level n (endpoint p.1.2) (through after base p.1 p.2)

def canonical (level : S → List (K × R) → Bool) : ℕ → S → List (K × R) → Bool
  | 0, _, _ => true
  | _ + 1, _, [] => true
  | n + 1, base, x :: rest => level base (x :: rest) &&
      canonical level n (endpoint x.2) (through after base x rest)

/-- The level check passes in every context that leaves the given order. -/
def offCanonical (level : S → List (K × R) → Bool) : ℕ → S → List (K × R) → Bool
  | 0, _, _ => true
  | _ + 1, _, [] => true
  | n + 1, base, a :: tail =>
      offCanonical level n (endpoint a.2) (through after base a tail) && (picks tail).all fun p =>
        settled endpoint after level n (endpoint p.1.2) (through after base p.1 (a :: p.2))

variable {endpoint after} {level : S → List (K × R) → Bool} {n : ℕ} {base : S}
  {current : List (K × R)}

theorem settled_succ :
    settled endpoint after level (n + 1) base current = true ↔
      level base current = true ∧ ∀ xs x ys, current = xs ++ x :: ys →
        settled endpoint after level n (endpoint x.2) (through after base x (xs ++ ys)) = true := by
  rw [settled, Bool.and_eq_true, all_picks (f := fun x rest =>
    settled endpoint after level n (endpoint x.2) (through after base x rest))]

theorem offCanonical_cons {a : K × R} {tail : List (K × R)} :
    offCanonical endpoint after level (n + 1) base (a :: tail) = true ↔
      offCanonical endpoint after level n (endpoint a.2) (through after base a tail) = true ∧
      ∀ xs x ys, tail = xs ++ x :: ys → settled endpoint after level n (endpoint x.2)
        (through after base x (a :: (xs ++ ys))) = true := by
  rw [offCanonical, Bool.and_eq_true, all_picks (f := fun x rest =>
    settled endpoint after level n (endpoint x.2) (through after base x (a :: rest)))]

theorem settled_of_canonical (hnil : ∀ base, level base [] = true)
    (hc : canonical endpoint after level n base current = true)
    (ho : offCanonical endpoint after level n base current = true) :
    settled endpoint after level n base current = true := by
  induction n generalizing base current with
  | zero => rfl
  | succ n ih =>
    rw [settled_succ]
    cases current with
    | nil => exact ⟨hnil base, fun xs x ys h => by simp at h⟩
    | cons a tail =>
      rw [canonical, Bool.and_eq_true] at hc
      rw [offCanonical_cons] at ho
      refine ⟨hc.1, fun xs x ys h => ?_⟩
      cases xs with
      | nil =>
        obtain ⟨rfl, rfl⟩ := List.cons.inj h
        exact ih hc.2 ho.1
      | cons b xs =>
        obtain ⟨rfl, rfl⟩ := List.cons.inj h
        exact ho.2 xs x ys rfl

/-! ## Moving the first entry -/

variable (endpoint after) in
/-- The first entry can be moved past every other: the two orders end in one state and leave the
same residuals. -/
structure PivotMoves (base : S) (a : K × R) (tail : List (K × R)) : Prop where
  diamond : ∀ x ∈ tail, endpoint (after base a x) = endpoint (after base x a)
  braid : ∀ xs x ys, tail = xs ++ x :: ys → ∀ y ∈ xs ++ ys,
    after (endpoint a.2) (x.1, after base a x) (y.1, after base a y) =
      after (endpoint x.2) (a.1, after base x a) (y.1, after base x y)

theorem PivotMoves.run_swap {a x : K × R} {xs ys : List (K × R)}
    (h : PivotMoves endpoint after base a (xs ++ x :: ys)) :
    run endpoint after base (x :: a :: (xs ++ ys)) =
      run endpoint after base (a :: x :: (xs ++ ys)) := by
  have hpending : through after (endpoint x.2) (a.1, after base x a)
        (through after base x (xs ++ ys)) =
      through after (endpoint a.2) (x.1, after base a x) (through after base a (xs ++ ys)) := by
    simp only [through, map_map]
    apply map_congr_left
    intro y hy
    simp only [Function.comp_apply, h.braid xs x ys rfl y hy]
  have hdiamond := h.diamond x (by simp)
  rw [run_cons, through_cons, run_cons, run_cons, through_cons, run_cons, hpending]
  simp only [hdiamond]

/-- If the first pending entry moves in every context, every order ends where the given one
does. -/
theorem run_perm {I : List (K × R) → Prop}
    (hkeep : ∀ base xs x ys, I (xs ++ x :: ys) → I (through after base x (xs ++ ys)))
    (hmoves : ∀ base a tail, I (a :: tail) → level base (a :: tail) = true →
      PivotMoves endpoint after base a tail) {order : List (K × R)} (hn : current.length ≤ n)
    (hI : I current) (hs : settled endpoint after level n base current = true)
    (hperm : order.Perm current) :
    run endpoint after base order = run endpoint after base current := by
  induction n generalizing base current order with
  | zero =>
    have hnil : current = [] := length_eq_zero_iff.mp (Nat.le_zero.mp hn)
    subst hnil
    rw [hperm.eq_nil]
  | succ n ih =>
    cases current with
    | nil => rw [hperm.eq_nil]
    | cons a tail =>
      obtain ⟨hlevel, hnext⟩ := settled_succ.mp hs
      have hlen : tail.length ≤ n := Nat.le_of_succ_le_succ hn
      -- all orders that start with the pivot agree
      have hpivot : ∀ rest : List (K × R), rest.Perm tail →
          run endpoint after base (a :: rest) = run endpoint after base (a :: tail) := by
        intro rest hrest
        rw [run_cons, run_cons]
        exact ih (by simpa using hlen) (hkeep base [] a tail hI) (hnext [] a tail rfl) (hrest.map _)
      cases order with
      | nil => exact absurd hperm.nil_eq (cons_ne_nil a tail).symm
      | cons x rest =>
        have hmem : x ∈ a :: tail := hperm.subset mem_cons_self
        rcases mem_cons.mp hmem with rfl | hx
        · exact hpivot rest hperm.cons_inv
        obtain ⟨xs, ys, rfl⟩ := append_of_mem hx
        have hrest : rest.Perm (a :: (xs ++ ys)) := by
          apply List.Perm.cons_inv (a := x)
          refine hperm.trans ?_
          refine (List.Perm.cons a perm_middle).trans ?_
          exact List.Perm.swap x a (xs ++ ys)
        have hswap := (hmoves base a (xs ++ x :: ys) hI hlevel).run_swap
        calc run endpoint after base (x :: rest)
            = run endpoint after base (x :: a :: (xs ++ ys)) := by
              rw [run_cons, run_cons endpoint after base x]
              exact ih (by simpa [Nat.add_assoc] using hlen) (hkeep base (a :: xs) x ys hI)
                (hnext (a :: xs) x ys rfl) (hrest.map _)
          _ = run endpoint after base (a :: x :: (xs ++ ys)) := hswap
          _ = run endpoint after base (a :: (xs ++ x :: ys)) := hpivot _ perm_middle.symm

end Cfmd.Lib.Residual
