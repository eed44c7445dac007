import Mathlib.Order.Bounds.Basic

/-! Horn rules over an arbitrary type of atoms. `Derivable` is the least set
that holds the facts and is closed under the rules; a ranked set is inside it
and a closed set is above it. -/

namespace Cfmd.Lib
variable {α : Type*}

inductive Derivable (fact : α → Prop) (rule : List α → α → Prop) : α → Prop
  | fact {a : α} : fact a → Derivable fact rule a
  | rule {body : List α} {head : α} :
      rule body head → (∀ b ∈ body, Derivable fact rule b) → Derivable fact rule head

def RuleClosed (fact : α → Prop) (rule : List α → α → Prop) (s : Set α) : Prop :=
  (∀ a, fact a → a ∈ s) ∧ ∀ body head, rule body head → (∀ b ∈ body, b ∈ s) → head ∈ s

/-- Every atom of the set rests on atoms of the set of smaller rank. -/
def RankedBy (fact : α → Prop) (rule : List α → α → Prop) (s : Set α) (rank : α → ℕ) : Prop :=
  ∀ a ∈ s, fact a ∨ ∃ body, rule body a ∧ ∀ b ∈ body, b ∈ s ∧ rank b < rank a

variable {fact : α → Prop} {rule : List α → α → Prop} {s : Set α}

theorem derivable_ruleClosed : RuleClosed fact rule {a | Derivable fact rule a} :=
  ⟨fun _ h => .fact h, fun _ _ h hb => .rule h hb⟩

theorem RuleClosed.derivable_subset (h : RuleClosed fact rule s) {a : α}
    (ha : Derivable fact rule a) : a ∈ s := by
  induction ha with
  | fact hf => exact h.1 _ hf
  | rule hr _ ih => exact h.2 _ _ hr ih

theorem derivable_isLeast : IsLeast {s | RuleClosed fact rule s} {a | Derivable fact rule a} :=
  ⟨derivable_ruleClosed, fun _ h _ ha => RuleClosed.derivable_subset h ha⟩

theorem RankedBy.derivable {rank : α → ℕ} (h : RankedBy fact rule s rank) {a : α}
    (ha : a ∈ s) : Derivable fact rule a := by
  induction hn : rank a using Nat.strong_induction_on generalizing a with
  | _ n ih =>
    obtain hf | ⟨body, hr, hb⟩ := h a ha
    · exact .fact hf
    · exact .rule hr fun b hbm => ih (rank b) (hn ▸ (hb b hbm).2) (hb b hbm).1 rfl

theorem mem_iff_derivable {rank : α → ℕ} (hc : RuleClosed fact rule s)
    (hr : RankedBy fact rule s rank) (a : α) : a ∈ s ↔ Derivable fact rule a :=
  ⟨hr.derivable, hc.derivable_subset⟩

/-! ### The dual -/

/-- A set without facts in which no rule has its head alone: the complement is closed. -/
def Supported (fact : α → Prop) (rule : List α → α → Prop) (s : Set α) : Prop :=
  (∀ a ∈ s, ¬ fact a) ∧ ∀ body head, rule body head → head ∈ s → ∃ b ∈ body, b ∈ s

theorem supported_iff : Supported fact rule s ↔ RuleClosed fact rule sᶜ := by
  unfold Supported RuleClosed
  constructor
  · rintro ⟨hfact, hrule⟩
    refine ⟨fun a hf ha => hfact a ha hf, fun body head hr hbody hhead => ?_⟩
    obtain ⟨b, hb, hbs⟩ := hrule body head hr hhead
    exact hbody b hb hbs
  · rintro ⟨hfact, hrule⟩
    refine ⟨fun a ha hf => hfact a hf ha, fun body head hr hhead => ?_⟩
    by_contra hnone
    push Not at hnone
    exact hrule body head hr hnone hhead

theorem underivable_isGreatest :
    IsGreatest {s | Supported fact rule s} {a | ¬ Derivable fact rule a} := by
  constructor
  · apply supported_iff.mpr
    rw [Set.compl_ofPred]
    simp only [not_not]
    exact derivable_ruleClosed
  · intro s hs a ha hderivable
    exact (supported_iff.mp hs).derivable_subset hderivable ha

end Cfmd.Lib
