import Mathlib.Data.Set.Basic
import Mathlib.Tactic.Common

/-! Nodes reached from a set of roots. Taking roots and edges away costs a recomputation inside the
region below the cuts; adding some costs a search from the new roots and from the ends of the new
edges that leave the reached set. -/

namespace Cfmd.Lib
variable {α : Type*}

inductive Reached (root : α → Prop) (edge : α → α → Prop) : α → Prop
  | root {a : α} : root a → Reached root edge a
  | step {a b : α} : Reached root edge a → edge a b → Reached root edge b

variable {root root' : α → Prop} {edge edge' : α → α → Prop} {a : α}

theorem Reached.mono (hroot : ∀ a, root a → root' a) (hedge : ∀ a b, edge a b → edge' a b)
    (h : Reached root edge a) : Reached root' edge' a := by
  induction h with
  | root hr => exact .root (hroot _ hr)
  | step _ he ih => exact .step ih (hedge _ _ he)

theorem Reached.congr (hroot : ∀ a, root a ↔ root' a) (hedge : ∀ a b, edge a b ↔ edge' a b) :
    Reached root edge a ↔ Reached root' edge' a :=
  ⟨.mono (fun a => (hroot a).mp) fun a b => (hedge a b).mp,
    .mono (fun a => (hroot a).mpr) fun a b => (hedge a b).mpr⟩

theorem Reached.subset {S : α → Prop} (h : Reached root edge a) (hroot : ∀ a, root a → S a)
    (hclosed : ∀ a b, S a → edge a b → S b) : S a := by
  induction h with
  | root hr => exact hroot _ hr
  | step _ he ih => exact hclosed _ _ ih he

section Cut
variable (hroot : ∀ a, root' a → root a) (hedge : ∀ a b, edge' a b → edge a b) {cut : α → Prop}
  (hcutRoot : ∀ a, root a → root' a ∨ cut a)
  (hcutEdge : ∀ a b, edge a b → edge' a b ∨ cut b)
include hcutRoot hcutEdge

theorem reached_outside_region (h : Reached root edge a) (ha : ¬ Reached cut edge' a) :
    Reached root' edge' a := by
  induction h with
  | root hr => exact .root ((hcutRoot _ hr).resolve_right fun hc => ha (.root hc))
  | step _ he ih =>
    have he' := (hcutEdge _ _ he).resolve_right fun hc => ha (.root hc)
    exact .step (ih fun hp => ha (.step hp he')) he'

include hroot hedge

/-- Inside the region a node survives when a root or a reached node outside the
region holds it, directly or through surviving nodes. -/
theorem reached_inside_region (ha : Reached cut edge' a) : Reached root' edge' a ↔
    Reached (fun v => Reached cut edge' v ∧ (root' v ∨
        ∃ p, edge' p v ∧ Reached root edge p ∧ ¬ Reached cut edge' p))
      (fun p v => edge' p v ∧ Reached cut edge' v) a := by
  constructor
  · intro h
    induction h with
    | root hr => exact .root ⟨ha, .inl hr⟩
    | @step p v hp he ih =>
      by_cases hcut : Reached cut edge' p
      · exact .step (ih hcut) ⟨he, ha⟩
      · exact .root ⟨ha, .inr ⟨p, he, hp.mono hroot hedge, hcut⟩⟩
  · intro h
    induction h with
    | root hr =>
      obtain ⟨_, hr | ⟨p, he, hp, hcut⟩⟩ := hr
      · exact .root hr
      · exact .step (reached_outside_region hcutRoot hcutEdge hp hcut) he
    | step hp he ih => exact .step (ih (hp.subset (fun _ h => h.1) fun _ _ _ h => h.2)) he.1

theorem reached_after_cut : Reached root' edge' a ↔ (Reached root edge a ∧ ¬ Reached cut edge' a) ∨
      Reached (fun v => Reached cut edge' v ∧ (root' v ∨
          ∃ p, edge' p v ∧ Reached root edge p ∧ ¬ Reached cut edge' p))
        (fun p v => edge' p v ∧ Reached cut edge' v) a := by
  by_cases ha : Reached cut edge' a
  · rw [← reached_inside_region hroot hedge hcutRoot hcutEdge ha]
    simp [ha]
  constructor
  · exact fun h => .inl ⟨h.mono hroot hedge, ha⟩
  · rintro (⟨h, _⟩ | h)
    · exact reached_outside_region hcutRoot hcutEdge h ha
    · exact absurd (h.subset (fun _ h => h.1) fun _ _ _ h => h.2) ha

end Cut

/-- The reached set after additions: what was reached, and what the search finds
through nodes not reached before. -/
theorem reached_after_growth {start : α → Prop} (hroot : ∀ a, root a → root' a)
    (hedge : ∀ a b, edge a b → edge' a b)
    (hstart : ∀ a, start a → Reached root' edge' a)
    (hnewRoot : ∀ a, root' a → root a ∨ start a)
    (hnewEdge : ∀ a b, edge' a b → Reached root edge a → edge a b ∨ start b) :
    Reached root' edge' a ↔ Reached root edge a ∨ Reached (fun v => start v ∧ ¬ Reached root edge v)
        (fun p v => edge' p v ∧ ¬ Reached root edge v) a := by
  have hmono : ∀ a, Reached root edge a → Reached root' edge' a := fun a h => h.mono hroot hedge
  have hadd : ∀ v, start v → Reached root edge v ∨
      Reached (fun v => start v ∧ ¬ Reached root edge v)
        (fun p v => edge' p v ∧ ¬ Reached root edge v) v := by
    intro v hv
    by_cases hold : Reached root edge v
    · exact .inl hold
    · exact .inr (.root ⟨hv, hold⟩)
  constructor
  · intro h
    induction h with
    | root hr => exact (hnewRoot _ hr).elim (fun hr => .inl (.root hr)) (hadd _)
    | @step p v _ he ih =>
      obtain hp | hp := ih
      · exact (hnewEdge p v he hp).elim (fun he => .inl (.step hp he)) (hadd v)
      · by_cases hold : Reached root edge v
        · exact .inl hold
        · exact .inr (.step hp ⟨he, hold⟩)
  · rintro (h | h)
    · exact hmono a h
    · induction h with
      | root hr => exact hstart _ hr.1
      | step _ he ih => exact .step ih he.1

end Cfmd.Lib
