import Cfmd.Lib.Failure
import Mathlib.Data.Finset.Card

/-! Recursion with fuel. A computation that does not run out of fuel has its answer
with any more of it. Steps that consume nothing form chains; a chain that ends,
ends within the number of nodes that have a next one. -/

namespace Cfmd.Lib
open List
variable {ε α β : Type} {f g : α → Fallible ε β}

/-- A recursion that goes on without end. -/
def outOfFuel : Failure ε := .panic "out of fuel"

def Finishes (x : Fallible ε α) : Prop := x ≠ .error outOfFuel

namespace Finishes

theorem ok (a : α) : Finishes (.ok a : Fallible ε α) := nofun

theorem error (e : ε) : Finishes (.error (.error e) : Fallible ε α) := nofun

theorem lift (x : Except ε α) : Finishes (Fallible.lift x) := Fallible.lift_ne_panic x _

theorem bind {x : Fallible ε α} (hx : Finishes x) (hf : ∀ a, x = .ok a → Finishes (f a)) :
    Finishes (x >>= f) := by
  cases x with
  | error e => exact fun h => hx (congrArg Except.error (Except.error.inj h))
  | ok a => exact hf a rfl

theorem mapM {xs : List α} (h : ∀ x ∈ xs, Finishes (f x)) : Finishes (xs.mapM f) := by
  induction xs with
  | nil => exact ok _
  | cons x xs ih =>
    rw [forall_mem_cons] at h
    rw [mapM_cons]
    exact h.1.bind fun a _ => (ih h.2).bind fun as _ => ok _

end Finishes

/-- A relation of computations that a sequence of steps keeps. -/
structure Congruence (ε : Type) where
  rel : ∀ {α : Type}, Fallible ε α → Fallible ε α → Prop
  refl : ∀ {α : Type} (x : Fallible ε α), rel x x
  bind : ∀ {α β : Type} {x y : Fallible ε α} {f g : α → Fallible ε β}, rel x y →
    (∀ a, rel (f a) (g a)) → rel (x >>= f) (y >>= g)

theorem Congruence.mapM (Q : Congruence ε) {xs : List α} (h : ∀ x ∈ xs, Q.rel (f x) (g x)) :
    Q.rel (xs.mapM f) (xs.mapM g) := by
  induction xs with
  | nil => exact Q.refl _
  | cons x xs ih =>
    rw [forall_mem_cons] at h
    rw [mapM_cons, mapM_cons]
    exact Q.bind h.1 fun a => Q.bind (ih h.2) fun as => Q.refl _

def Congruence.eq (ε : Type) : Congruence ε where
  rel := (· = ·)
  refl := fun _ => rfl
  bind := fun hx hf => by rw [hx, funext hf]

/-- The second computation is the first, unless that ran out of fuel. -/
def Settles (x y : Fallible ε α) : Prop := Finishes x → y = x

theorem Settles.bind {x y : Fallible ε α} (h : Settles x y) (hf : ∀ a, Settles (f a) (g a)) :
    Settles (x >>= f) (y >>= g) := by
  intro hfinishes
  have hx : Finishes x := by
    rintro rfl
    exact hfinishes rfl
  rw [h hx]
  cases x with
  | error e => rfl
  | ok a => exact hf a hfinishes

def Congruence.settles (ε : Type) : Congruence ε where
  rel := Settles
  refl := fun _ _ => rfl
  bind := Settles.bind

section Chains
variable {ν : Type*} {next : ν → Option ν} {n : ℕ} {a : ν}

inductive Ends (next : ν → Option ν) : ℕ → ν → Prop
  | stop {a : ν} : next a = none → Ends next 0 a
  | step {a b : ν} {n : ℕ} : next a = some b → Ends next n b → Ends next (n + 1) a

theorem Ends.unique {m : ℕ} (h : Ends next m a) (h' : Ends next n a) : m = n := by
  induction h generalizing n with
  | stop hnone =>
    cases h' with
    | stop _ => rfl
    | step hsome _ =>
      rw [hnone] at hsome
      cases hsome
  | step hsome _ ih =>
    cases h' with
    | stop hnone =>
      rw [hnone] at hsome
      cases hsome
    | step hsome' hrest =>
      rw [hsome, Option.some.injEq] at hsome'
      subst hsome'
      rw [ih hrest]

/-- The nodes of a chain are distinct, so there are no more steps than nodes. -/
theorem Ends.le_card [DecidableEq ν] {U : Finset ν} (hU : ∀ a b, next a = some b → a ∈ U)
    (h : Ends next n a) : n ≤ U.card := by
  have hnodes : ∃ nodes : Finset ν, nodes ⊆ U ∧ nodes.card = n ∧
      ∀ b ∈ nodes, ∃ m, m ≤ n ∧ Ends next m b := by
    induction h with
    | stop _ => exact ⟨∅, Finset.empty_subset U, rfl, fun b hb => absurd hb (Finset.notMem_empty b)⟩
    | @step a b n hsome hrest ih =>
      obtain ⟨nodes, hsub, hcard, hends⟩ := ih
      -- the longest chain so far has `n` steps, and the one from `a` has one more
      have hnew : a ∉ nodes := by
        intro hmem
        obtain ⟨m, hm, hends'⟩ := hends a hmem
        have heq := hends'.unique (.step hsome hrest)
        omega
      refine ⟨insert a nodes, Finset.insert_subset (hU a b hsome) hsub, ?_, ?_⟩
      · rw [Finset.card_insert_of_notMem hnew, hcard]
      · intro c hc
        rcases Finset.mem_insert.mp hc with rfl | hc
        · exact ⟨n + 1, le_rfl, .step hsome hrest⟩
        · obtain ⟨m, hm, hends'⟩ := hends c hc
          exact ⟨m, hm.trans (Nat.le_succ n), hends'⟩
  obtain ⟨nodes, hsub, rfl, _⟩ := hnodes
  exact Finset.card_le_card hsub

theorem Ends.of_map {μ : Type*} {next' : μ → Option μ} {f : ν → μ} {P : ν → Prop}
    (hnext : ∀ a, P a → next' (f a) = (next a).map f) (hP : ∀ a b, P a → next a = some b → P b)
    (ha : P a) (h : Ends next' n (f a)) : Ends next n a := by
  induction n generalizing a with
  | zero =>
    cases h with
    | stop hnone =>
      rw [hnext a ha, Option.map_eq_none_iff] at hnone
      exact .stop hnone
  | succ n ih =>
    cases h with
    | step hsome hrest =>
      rw [hnext a ha, Option.map_eq_some_iff] at hsome
      obtain ⟨b, hb, rfl⟩ := hsome
      exact .step hb (ih (hP a b ha hb) hrest)

end Chains

end Cfmd.Lib
