import Cfmd.Lib.Loop

/-! Computations that end with a result, a reported error or a panic, and what it
means that one decides a property: it gives a result exactly when the property
holds, and never panics. -/

namespace Cfmd.Lib

inductive Failure (ε : Type)
  | error (e : ε)
  | panic (message : String)
deriving DecidableEq

abbrev Fallible (ε α : Type) := Except (Failure ε) α

variable {ε α β σ : Type} {a : α} {f : α → Fallible ε β}

namespace Fallible

/-- A step that can only fail by an error. -/
def lift : Except ε α → Fallible ε α
  | .ok a => .ok a
  | .error e => .error (.error e)

/-- `expect`, and an index into a vector. -/
def expect (message : String) : Option α → Fallible ε α
  | some a => .ok a
  | none => .error (.panic message)

@[simp] theorem lift_ok (a : α) : lift (.ok a : Except ε α) = .ok a := rfl

@[simp] theorem lift_error (e : ε) : lift (.error e : Except ε α) = .error (.error e) := rfl

@[simp] theorem expect_some (message : String) (a : α) :
    expect (ε := ε) message (some a) = .ok a := rfl

theorem ok_bind : (Except.ok a >>= f) = f a := rfl

theorem bind_eq_error {x : Fallible ε α} {e : Failure ε} :
    (x >>= f) = .error e ↔ x = .error e ∨ ∃ a, x = .ok a ∧ f a = .error e := by
  cases x with
  | error e' | ok a => simp [bind, Except.bind]

theorem lift_ne_panic (x : Except ε α) (message : String) : lift x ≠ .error (.panic message) := by
  cases x with
  | error e | ok a => simp

theorem lift_eq_ok {x : Except ε α} : lift x = .ok a ↔ x = .ok a := by
  cases x with
  | error e | ok b => simp

end Fallible


/-- Gives a result with property `post` when `allowed` holds, and reports an
error when it does not. -/
def Decides (x : Fallible ε α) (allowed : Prop) (post : α → Prop) : Prop := match x with
  | .ok a => allowed ∧ post a
  | .error (.error _) => ¬ allowed
  | .error (.panic _) => False

namespace Decides
variable {x : Fallible ε α} {allowed allowed' : Prop} {post post' : α → Prop}

theorem ok (h : allowed) (ha : post a) : Decides (.ok a : Fallible ε α) allowed post := ⟨h, ha⟩

theorem error {e : ε} (h : ¬ allowed) : Decides (.error (.error e) : Fallible ε α) allowed post := h

section
variable (h : Decides x allowed post)
include h

theorem of_eq_ok (hx : x = .ok a) : allowed ∧ post a := by
  subst hx
  exact h

theorem exists_ok (ha : allowed) : ∃ a, x = .ok a ∧ post a := by
  match x, h with
  | .ok a, h => exact ⟨a, rfl, h.2⟩
  | .error (.error _), h => exact absurd ha h

theorem ne_panic (message : String) : x ≠ .error (.panic message) := by
  rintro rfl
  exact h

theorem congr (hallowed : allowed ↔ allowed')
    (hpost : ∀ a, post a → post' a) : Decides x allowed' post' := by
  match x, h with
  | .ok a, h => exact ⟨hallowed.mp h.1, hpost a h.2⟩
  | .error (.error _), h => exact fun ha => h (hallowed.mpr ha)

end

theorem bind {all : Prop} {out : β → Prop} (h : Decides x allowed post) (hall : all → allowed)
    (hf : ∀ a, allowed → post a → Decides (f a) all out) :
    Decides (x >>= f) all out := by
  match x, h with
  | .ok a, h => exact hf a h.1 h.2
  | .error (.error _), h => exact fun ha => h (hall ha)

theorem lift (x : Except ε α) : Decides (Fallible.lift x) (∃ a, x = .ok a) fun a => x = .ok a := by
  cases x with
  | error e => exact Decides.error (by simp)
  | ok a => exact Decides.ok ⟨a, rfl⟩ rfl

theorem guard {c : Prop} [Decidable c] {e : ε} (hc : allowed → ¬ c)
    (h : ¬ c → Decides x allowed post) :
    Decides (if c then .error (.error e) else x) allowed post := by
  split
  · rename_i hbad
    exact fun ha => hc ha hbad
  · rename_i hgood
    exact h hgood

end Decides

end Cfmd.Lib
