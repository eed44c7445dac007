import Cfmd.Lib.Loop
import Cfmd.Lib.TreeMap

/-! Greedy minimisation: elements are dropped one after another as long as a monotone
property of the remaining set is kept. -/

namespace Cfmd.Lib
open Std

variable {α ε : Type} [Ord α] [TransOrd α] [LawfulEqOrd α] {P : ExtTreeSet α → Prop}
  {test : ExtTreeSet α → Except ε Bool} {start : ExtTreeSet α}

/-- The set without the element, where the test is passed without it. -/
def dropUnless (test : ExtTreeSet α → Except ε Bool) (basis : ExtTreeSet α) (x : α) :
    Except ε (ExtTreeSet α) := do
  let trial := basis.erase x
  if ← test trial then return trial else return basis

theorem mem_erase_iff {s : ExtTreeSet α} {x y : α} : y ∈ s.erase x ↔ x ≠ y ∧ y ∈ s := by
  rw [ExtTreeSet.mem_erase, ne_eq, LawfulEqOrd.compare_eq_iff_eq]

/-- What is left passes the test, and nothing offered can be dropped any more. -/
theorem foldlM_dropUnless (hmono : ∀ s t, (∀ x ∈ s, x ∈ t) → P s → P t)
    (htest : ∀ s, (∀ x ∈ s, x ∈ start) → ∃ b, test s = .ok b ∧ (b = true ↔ P s))
    (hstart : P start) (xs : List α) :
    ∃ basis, xs.foldlM (dropUnless test) start = .ok basis ∧ (∀ x ∈ basis, x ∈ start) ∧ P basis ∧
      ∀ x ∈ basis, x ∈ xs → ¬ P (basis.erase x) := by
  -- an element is still to be offered, or it was offered and is needed
  obtain ⟨basis, hfold, hsub, hP, hneeded⟩ := foldlM_rest (f := dropUnless test)
    (I := fun basis rest => (∀ x ∈ basis, x ∈ start) ∧ P basis ∧
      ∀ x ∈ basis, x ∈ xs → x ∈ rest ∨ ¬ P (basis.erase x)) (s := start)
    (fun basis x rest ⟨hsub, hP, hneeded⟩ => by
      have htrial : ∀ y ∈ basis.erase x, y ∈ start := fun y hy => hsub y (mem_erase_iff.mp hy).2
      obtain ⟨b, hb, hiff⟩ := htest _ htrial
      have hstep : dropUnless test basis x = .ok (if b then basis.erase x else basis) := by
        rw [dropUnless, hb]
        cases b <;> rfl
      refine ⟨_, hstep, ?_⟩
      cases b with
      | true =>
        refine ⟨htrial, hiff.mp rfl, fun y hy hmem => ?_⟩
        obtain ⟨hne, hy⟩ := mem_erase_iff.mp hy
        rcases hneeded y hy hmem with hrest | hneed
        · exact .inl ((List.mem_cons.mp hrest).resolve_left hne.symm)
        · refine .inr fun hP' => hneed (hmono _ _ (fun z hz => ?_) hP')
          rw [if_pos rfl, mem_erase_iff, mem_erase_iff] at hz
          exact mem_erase_iff.mpr ⟨hz.1, hz.2.2⟩
      | false =>
        refine ⟨hsub, hP, fun y hy hmem => ?_⟩
        rcases hneeded y hy hmem with hrest | hneed
        · rcases List.mem_cons.mp hrest with rfl | hrest
          · exact .inr fun hP' => nomatch hiff.mpr hP'
          · exact .inl hrest
        · exact .inr hneed) xs
    ⟨fun _ h => h, hstart, fun _ _ hmem => .inl hmem⟩
  exact ⟨basis, hfold, hsub, hP, fun x hx hmem => (hneeded x hx hmem).resolve_left nofun⟩

end Cfmd.Lib
