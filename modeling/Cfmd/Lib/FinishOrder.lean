import Mathlib.Data.Fintype.EquivFin

/-! Finishing orders of a depth-first search: a node gets back to every earlier node that reaches
it through nodes finished before it. So the backward search from the last node of the order
collects exactly one strongly connected component. -/

namespace Cfmd.Lib
open Relation List
variable {α : Type*} (R : α → α → Prop)

def Inside (S : α → Prop) : α → α → Prop := ReflTransGen fun x y => S x ∧ R x y

/-- A node outside the finished ones that a finished node reaches through
finished ones gets back to it. -/
def Backed (done : List α) : Prop :=
  ∀ u ∈ done, ∀ g ∉ done, Inside R (· ∈ done) u g → ReflTransGen R g u

def FinishOrder (order : List α) : Prop := ∀ pre r post, order = pre ++ r :: post →
    ∀ u ∈ pre, Inside R (· ∈ pre) u r → ReflTransGen R r u

variable {R} {S T : α → Prop} {order : List α} {u v r g : α}

theorem Inside.mono (h : Inside R S u v) (hST : ∀ x, S x → T x) : Inside R T u v :=
  ReflTransGen.mono (fun _ _ h => ⟨hST _ h.1, h.2⟩) _ _ h

theorem Inside.reaches (h : Inside R S u v) : ReflTransGen R u v :=
  ReflTransGen.mono (fun _ _ h => h.2) _ _ h

theorem Inside.split (h : Inside R (fun x => S x ∨ x = r) u v) :
    Inside R S u v ∨ Inside R S u r := by
  induction h using ReflTransGen.head_induction_on with
  | refl => exact .inl .refl
  | head hxy _ ih =>
    obtain ⟨hx | rfl, hxy⟩ := hxy
    · exact ih.imp (.head ⟨hx, hxy⟩) (.head ⟨hx, hxy⟩)
    · exact .inr .refl

theorem Inside.cut (h : Inside R (fun x => S x ∨ x = r) u r) : Inside R S u r := h.split.elim id id

theorem backed_nil : Backed R [] := fun _ hu => absurd hu not_mem_nil

theorem finishOrder_nil : FinishOrder R [] := by
  intro pre r post h
  exact absurd h.symm (by simp)

theorem Backed.finish (h : Backed R order) (hv : v ∉ order)
    (hleave : ∀ u ∈ order ++ [v], ∀ g ∉ order ++ [v], R u g → ReflTransGen R g v) :
    Backed R (order ++ [v]) := by
  intro u hu g hg hpath
  have hgo : g ∉ order := fun hmem => hg (mem_append_left _ hmem)
  have hback : Inside R (· ∈ order) u v → ReflTransGen R v u := by
    intro hp
    obtain hu | hu := mem_append.mp hu
    · exact h u hu v hv hp
    · rw [mem_singleton.mp hu]
  have hgv : ReflTransGen R g v := by
    obtain rfl | ⟨y, _, hy⟩ := ReflTransGen.cases_tail hpath
    · exact absurd hu hg
    · exact hleave y hy.1 g hg hy.2
  have hsplit : Inside R (fun x => x ∈ order ∨ x = v) u g :=
    hpath.mono fun x hx => by simpa using hx
  obtain hin | hthrough := hsplit.split
  · obtain hu' | hu' := mem_append.mp hu
    · exact h u hu' g hgo hin
    · rw [mem_singleton.mp hu']
      exact hgv
  · exact hgv.trans (hback hthrough)

theorem FinishOrder.finish (h : FinishOrder R order) (hb : Backed R order) (hv : v ∉ order) :
    FinishOrder R (order ++ [v]) := by
  intro pre r post heq u hu hpath
  obtain ⟨rest, hpre, hrest⟩ | ⟨rest, hpre, hrest⟩ := append_eq_append_iff.mp heq
  · cases rest with
    | nil =>
      rw [append_nil] at hpre
      subst hpre
      obtain rfl : v = r := (List.cons.inj hrest).1
      exact hb u hu v hv hpath
    | cons x rest =>
      exact absurd (congrArg List.length hrest) (by simp)
  · cases rest with
    | nil =>
      rw [append_nil] at hpre
      subst hpre
      obtain rfl : r = v := (List.cons.inj hrest).1
      exact hb u hu r hv hpath
    | cons x rest =>
      obtain ⟨rfl, _⟩ := List.cons.inj hrest
      exact h pre r rest hpre u hu hpath

theorem FinishOrder.reaches {pre post : List α} (h : FinishOrder R order)
    (ho : order = pre ++ r :: post) (hu : u ∈ pre ∨ u = r)
    (hpath : Inside R (fun x => x ∈ pre ∨ x = r) u r) : ReflTransGen R r u := by
  obtain hu | rfl := hu
  · exact h pre r post ho u hu hpath.cut
  · exact .refl

theorem TransGen.of_reaches_ne (h : ReflTransGen R u v) (hne : u ≠ v) : TransGen R u v := by
  obtain heq | h := reflTransGen_iff_eq_or_transGen.mp h
  · exact absurd heq.symm hne
  · exact h

theorem onCycle_of_reaches (h : ReflTransGen R u v) (h' : ReflTransGen R v u) (hne : u ≠ v) :
    TransGen R u u :=
  TransGen.trans_left (TransGen.of_reaches_ne h hne) h'

theorem exists_pred_of_onCycle (h : TransGen R u u) : ∃ p, R p u ∧ ReflTransGen R u p := by
  obtain ⟨p, hup, hpu⟩ := TransGen.tail'_iff.mp h
  exact ⟨p, hpu, hup⟩

def FedByCycle (R : α → α → Prop) (v : α) : Prop := ∃ c, TransGen R c c ∧ ReflTransGen R c v

theorem FedByCycle.of_onCycle (h : TransGen R v v) : FedByCycle R v := ⟨v, h, .refl⟩

theorem FedByCycle.step {w : α} (h : FedByCycle R v) (hvw : R v w) : FedByCycle R w := by
  obtain ⟨c, hc, hcv⟩ := h
  exact ⟨c, hc, hcv.tail hvw⟩

theorem FedByCycle.exists_pred (h : FedByCycle R v) : ∃ p, R p v ∧ FedByCycle R p := by
  obtain ⟨c, hc, hcv⟩ := h
  obtain rfl | ⟨p, hcp, hpv⟩ := ReflTransGen.cases_tail hcv
  · obtain ⟨p, hpv, hvp⟩ := exists_pred_of_onCycle hc
    exact ⟨p, hpv, v, hc, hvp⟩
  · exact ⟨p, hpv, c, hc, hcp⟩

theorem acyclic_induction {E : ℕ → ℕ → Prop} {n : ℕ} (hacyclic : ∀ v, ¬ TransGen E v v)
    {P : ℕ → Prop} (hstep : ∀ v < n, (∀ u < n, E u v → P u) → P v) : ∀ v < n, P v := by
  let below : Fin n → Fin n → Prop := fun u v => TransGen E u.1 v.1
  have hirrefl : Std.Irrefl below := ⟨fun v => hacyclic v.1⟩
  have hwf : WellFounded below := Finite.wellFounded_of_trans_of_irrefl below
  intro v hv
  have hall : ∀ x : Fin n, P x.1 := by
    intro x
    induction x using hwf.induction with
    | _ x ih => exact hstep x.1 x.2 fun u hu hux => ih ⟨u, hu⟩ (.single hux)
  exact hall ⟨v, hv⟩

end Cfmd.Lib
