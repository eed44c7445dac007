import Cfmd.Semantics.Checked
import Cfmd.Semantics.RefinedKeys
import Mathlib.Data.List.ProdSigma

/-! Refinement of equivalences. The check walks two definitions together and takes a
pair of binders for granted under them. What it accepts is closed under one level of
both definitions, so it is a refinement of the keys. -/

namespace Cfmd.Semantics
open Std Lib ExtTreeMap List

namespace SemanticRegistry
variable (registry : SemanticRegistry) (context : SemanticContext)

/-! ### The check -/

def equivalenceContract (equivalence : SemanticId) : Except SemanticError EquivalenceModule := do
  let (_, implementation) ← registry.equivalenceImplementation context equivalence
  return implementation.contract

def leafEquivalenceRefines (finer coarser : SemanticId) : Except SemanticError Bool := do
  let finer ← registry.equivalenceContract context finer
  let coarser ← registry.equivalenceContract context coarser
  return contractRefines finer coarser

def keyedEquivalencesRefine (refines : SemanticId → SemanticId → Fallible SemanticError Bool)
    (finer coarser : ExtTreeMap SemanticId SemanticId) : Fallible SemanticError Bool :=
  if finer.size = coarser.size then
    finer.toList.allM fun entry =>
      match coarser[entry.1]? with
      | none => .ok false
      | some coarserChild => refines entry.2 coarserChild
  else .ok false

/-- One level of two definitions. `body` is for the bodies of two `Mu`. -/
def refinesLayer (body child : SemanticId → SemanticId → Fallible SemanticError Bool)
    (recursivePairs : List (SemanticId × SemanticId)) :
    StructuralEquivalenceDef → StructuralEquivalenceDef → Fallible SemanticError Bool
  | .mu finerBody, .mu coarserBody => body finerBody coarserBody
  | .var finerBinder, .var coarserBinder =>
    .ok (recursivePairs.any fun pair => pair = (finerBinder, coarserBinder))
  | .product finer, .product coarser => keyedEquivalencesRefine child finer coarser
  | .sum finer, .sum coarser => keyedEquivalencesRefine child finer coarser
  | .option finer, .option coarser => child finer coarser
  | .set finer, .set coarser => child finer coarser
  | .bag finer, .bag coarser => child finer coarser
  | .seq finer, .seq coarser => child finer coarser
  | .map finerKey finerValue, .map coarserKey coarserValue => do
    if ← child finerKey coarserKey then child finerValue coarserValue else return false
  | _, _ => .ok false

section
attribute [local instance] lexOrd

/-- The stack and the pairs of binders are restored on the way back in the source; here
they are passed down. -/
def equivalenceRefinesInner : ℕ → SemanticId → SemanticId → ExtTreeSet (SemanticId × SemanticId) →
    List (SemanticId × SemanticId) → Fallible SemanticError Bool
  | 0, _, _, _, _ => .error outOfFuel
  | fuel + 1, finer, coarser, stack, recursivePairs =>
    if finer = coarser then .ok true
    else if (finer, coarser) ∈ stack then .error (.error (.cyclicStructuralEquivalence finer))
    else
      match context.structuralEquivalences[finer]?, context.structuralEquivalences[coarser]? with
      | some finerDefinition, some coarserDefinition =>
        refinesLayer
          (fun finerBody coarserBody => equivalenceRefinesInner fuel finerBody coarserBody
            (stack.insert (finer, coarser)) ((finer, coarser) :: recursivePairs))
          (fun finerChild coarserChild => equivalenceRefinesInner fuel finerChild coarserChild
            (stack.insert (finer, coarser)) recursivePairs)
          recursivePairs finerDefinition coarserDefinition
      | none, none => Fallible.lift (registry.leafEquivalenceRefines context finer coarser)
      | _, _ => .ok false

/-- No more levels than pairs of definitions, and one for two leaves. -/
def refinesFuel : ℕ := context.structuralEquivalences.size * context.structuralEquivalences.size + 1

def equivalenceRefines (finer coarser : SemanticId) : Fallible SemanticError Bool := do
  let _ ← registry.equivalenceDomain context finer
  let _ ← registry.equivalenceDomain context coarser
  registry.equivalenceRefinesInner context (refinesFuel context) finer coarser ∅ []

end

end SemanticRegistry

/-! ### What the check accepts -/

theorem allM_eq_true {ε α : Type} {p : α → Except ε Bool} {xs : List α}
    (h : xs.allM p = .ok true) : ∀ x ∈ xs, p x = .ok true := by
  induction xs with
  | nil => exact fun x hx => absurd hx not_mem_nil
  | cons x xs ih =>
    obtain ⟨b, hb, h⟩ := bind_eq_ok.mp h
    cases b with
    | false => cases h
    | true => exact forall_mem_cons.mpr ⟨hb, ih h⟩

namespace SemanticRegistry
variable {registry : SemanticRegistry} {context : SemanticContext} {R : SemanticId → SemanticId → Prop}
  {body child : SemanticId → SemanticId → Fallible SemanticError Bool}
  {recursivePairs : List (SemanticId × SemanticId)} {equivalence finer coarser : SemanticId}

theorem keyed_of_check {refines : SemanticId → SemanticId → Fallible SemanticError Bool}
    {finer coarser : ExtTreeMap SemanticId SemanticId}
    (h : keyedEquivalencesRefine refines finer coarser = .ok true)
    (hR : ∀ a b, refines a b = .ok true → R a b) :
    List.Forall₂ (fun a b => a.1 = b.1 ∧ R a.2 b.2) finer.toList coarser.toList := by
  unfold keyedEquivalencesRefine at h
  split at h
  · rename_i hsize
    have hfound : ∀ entry ∈ finer.toList, ∃ child, coarser[entry.1]? = some child ∧
        R entry.2 child := by
      intro entry hentry
      have hcheck := allM_eq_true h entry hentry
      cases hchild : coarser[entry.1]? with
      | none =>
        rw [hchild] at hcheck
        cases hcheck
      | some child =>
        rw [hchild] at hcheck
        exact ⟨child, rfl, hR _ _ hcheck⟩
    have hkeys : finer.toList.map Prod.fst = coarser.toList.map Prod.fst := by
      apply fst_toList_eq hsize
      intro entry hentry
      obtain ⟨child, hchild, _⟩ := hfound entry hentry
      rw [← isSome_getElem?_iff_mem, hchild]
      rfl
    refine forall₂_imp_mem (map_eq_map_iff_forall₂.mp hkeys) fun a ha b hb heq => ⟨heq, ?_⟩
    obtain ⟨child, hchild, hrefines⟩ := hfound a ha
    rw [heq, mem_toList_iff_getElem?_eq_some.mp hb, Option.some.injEq] at hchild
    exact hchild ▸ hrefines
  · cases h

theorem kindRefines_of_check {finer coarser : StructuralEquivalenceDef}
    (h : refinesLayer body child recursivePairs finer coarser = .ok true)
    (hbody : ∀ a b, finer = .mu a → coarser = .mu b → body a b = .ok true → R a b)
    (hchild : ∀ a b, child a b = .ok true → R a b)
    (hpairs : ∀ a b, (a, b) ∈ recursivePairs → R a b) :
    KindRefines R finer.kind coarser.kind := by
  fun_cases refinesLayer body child recursivePairs finer coarser <;> simp only [refinesLayer] at h
  case case1 => exact .mu (hbody _ _ rfl rfl h)
  case case2 =>
    rw [Except.ok.injEq, any_eq_true] at h
    obtain ⟨pair, hpair, heq⟩ := h
    rw [decide_eq_true_eq] at heq
    exact .var (hpairs _ _ (heq ▸ hpair))
  case case3 => exact .product (keyed_of_check h hchild)
  case case4 => exact .sum (keyed_of_check h hchild)
  case case5 => exact .option (hchild _ _ h)
  case case6 => exact .set (hchild _ _ h)
  case case7 => exact .bag (hchild _ _ h)
  case case8 => exact .seq (hchild _ _ h)
  case case9 =>
    obtain ⟨b, hb, h⟩ := bind_eq_ok.mp h
    cases b with
    | false => cases h
    | true => exact .map (hchild _ _ hb) (hchild _ _ h)
  case case10 => cases h

theorem view_of_contract {contract : EquivalenceModule}
    (hnone : context.structuralEquivalences[equivalence]? = none)
    (h : registry.equivalenceContract context equivalence = .ok contract) :
    ∃ resolved, registry.view context equivalence = .ok (equivalence, .primitive resolved) ∧
      resolved.contract = contract := by
  obtain ⟨⟨digest, implementation⟩, himplementation, heq⟩ := bind_eq_ok.mp h
  cases heq
  refine ⟨⟨equivalence, digest, implementation.contract⟩, ?_, rfl⟩
  rw [view, hnone]
  rw [resolvedPrimitive_eq_ok hnone himplementation]
  rfl

attribute [local instance] lexOrd

inductive Assumed (registry : SemanticRegistry) (context : SemanticContext) :
    List (SemanticId × SemanticId) → Prop
  | nil : Assumed registry context []
  | cons {fuel finer coarser stack recursivePairs} :
      Assumed registry context recursivePairs →
      registry.equivalenceRefinesInner context fuel finer coarser stack recursivePairs = .ok true →
      Assumed registry context ((finer, coarser) :: recursivePairs)

def Accepted (registry : SemanticRegistry) (context : SemanticContext) (finer coarser : SemanticId) :
    Prop :=
  ∃ fuel stack recursivePairs, Assumed registry context recursivePairs ∧
    registry.equivalenceRefinesInner context fuel finer coarser stack recursivePairs = .ok true

theorem Assumed.accepted (h : Assumed registry context recursivePairs)
    (hpair : (finer, coarser) ∈ recursivePairs) : Accepted registry context finer coarser := by
  induction h with
  | nil => cases hpair
  | cons houter hcheck ih =>
    rcases mem_cons.mp hpair with heq | hpair
    · cases heq
      exact ⟨_, _, _, houter, hcheck⟩
    · exact ih hpair

/-- Accepted pairs are closed under one level, with the assumed pairs among them. -/
theorem stable_accepted (registry : SemanticRegistry) (context : SemanticContext) :
    Stable (registry.view context) (Accepted registry context) := by
  rintro finer coarser ⟨fuel, stack, recursivePairs, hassumed, hcheck⟩
  cases fuel with
  | zero => cases hcheck
  | succ fuel =>
    have hself := hcheck
    rw [equivalenceRefinesInner] at hcheck
    split at hcheck
    · rename_i heq
      exact .inl heq
    split_ifs at hcheck
    refine .inr ?_
    split at hcheck
    · rename_i finerDefinition coarserDefinition hfiner hcoarser
      refine ⟨(finer, finerDefinition.kind), (coarser, coarserDefinition.kind), ?_, ?_,
        kindRefines_of_check hcheck ?_ ?_ ?_⟩
      · rw [view, hfiner]
      · rw [view, hcoarser]
      · exact fun a b _ _ h => ⟨_, _, _, hassumed.cons hself, h⟩
      · exact fun a b h => ⟨_, _, _, hassumed, h⟩
      · exact fun a b h => hassumed.accepted h
    · rename_i hfiner hcoarser
      rw [Fallible.lift_eq_ok] at hcheck
      obtain ⟨finerContract, hfinerContract, hcheck⟩ := bind_eq_ok.mp hcheck
      obtain ⟨coarserContract, hcoarserContract, hcheck⟩ := bind_pure_eq_ok.mp hcheck
      obtain ⟨finerResolved, hview, rfl⟩ := view_of_contract hfiner hfinerContract
      obtain ⟨coarserResolved, hview', rfl⟩ := view_of_contract hcoarser hcoarserContract
      exact ⟨_, _, hview, hview', .primitive hcheck⟩
    · cases hcheck

/-! ### The check answers -/

theorem finishes_allM {ε α : Type} {p : α → Fallible ε Bool} {xs : List α}
    (h : ∀ x ∈ xs, Finishes (p x)) : Finishes (xs.allM p) := by
  induction xs with
  | nil => exact .ok _
  | cons x xs ih =>
    rw [forall_mem_cons] at h
    refine h.1.bind fun b _ => ?_
    cases b with
    | false => exact .ok _
    | true => exact ih h.2

theorem finishes_refinesLayer (hbody : ∀ a b, Finishes (body a b))
    (hchild : ∀ a b, Finishes (child a b)) (recursivePairs : List (SemanticId × SemanticId))
    (finer coarser : StructuralEquivalenceDef) :
    Finishes (refinesLayer body child recursivePairs finer coarser) := by
  have hkeyed : ∀ finer coarser, Finishes (keyedEquivalencesRefine child finer coarser) := by
    intro finer coarser
    unfold keyedEquivalencesRefine
    split
    · apply finishes_allM
      intro entry _
      split
      · exact .ok _
      · exact hchild _ _
    · exact .ok _
  fun_cases refinesLayer body child recursivePairs finer coarser
  case case1 => exact hbody _ _
  case case3 => exact hkeyed _ _
  case case4 => exact hkeyed _ _
  case case9 =>
    refine (hchild _ _).bind fun b _ => ?_
    cases b with
    | false => exact .ok _
    | true => exact hchild _ _
  all_goals first
    | exact hchild _ _
    | exact .ok _

/-- The stack holds distinct pairs of definitions. -/
theorem finishes_equivalenceRefinesInner (fuel : ℕ) (finer coarser : SemanticId)
    {stack : ExtTreeSet (SemanticId × SemanticId)} (recursivePairs : List (SemanticId × SemanticId))
    (hstack : ∀ pair : SemanticId × SemanticId, pair ∈ stack → pair.1 ∈ context.structuralEquivalences ∧
      pair.2 ∈ context.structuralEquivalences)
    (hfuel : context.structuralEquivalences.size * context.structuralEquivalences.size <
      fuel + stack.size) :
    Finishes (registry.equivalenceRefinesInner context fuel finer coarser stack
      recursivePairs) := by
  induction fuel generalizing finer coarser stack recursivePairs with
  | zero =>
    have hsize : stack.size ≤
        context.structuralEquivalences.size * context.structuralEquivalences.size := by
      rw [← ExtTreeSet.length_toList, ← length_keys, ← length_product]
      apply (subperm_of_subset (nodup_set_toList stack) _).length_le
      intro pair hpair
      obtain ⟨hfst, hsnd⟩ := hstack pair (ExtTreeSet.mem_toList.mp hpair)
      exact mem_product.mpr ⟨mem_keys.mpr hfst, mem_keys.mpr hsnd⟩
    omega
  | succ fuel ih =>
    rw [equivalenceRefinesInner]
    split
    · exact .ok _
    split
    · exact .error _
    rename_i hnew
    split
    · rename_i hfiner hcoarser
      have hstack' : ∀ pair, pair ∈ stack.insert (finer, coarser) →
          pair.1 ∈ context.structuralEquivalences ∧ pair.2 ∈ context.structuralEquivalences := by
        intro pair hpair
        rcases ExtTreeSet.mem_insert.mp hpair with heq | hpair
        · rw [← LawfulEqCmp.eq_of_compare heq, ← isSome_getElem?_iff_mem, hfiner,
            ← isSome_getElem?_iff_mem, hcoarser]
          exact ⟨rfl, rfl⟩
        · exact hstack pair hpair
      have hsize : (stack.insert (finer, coarser)).size = stack.size + 1 := by
        rw [ExtTreeSet.size_insert]
        exact if_neg hnew
      exact finishes_refinesLayer (fun a b => ih a b _ hstack' (by omega))
        (fun a b => ih a b _ hstack' (by omega)) _ _ _
    · exact .lift _
    · exact .ok _

theorem finishes_equivalenceRefines (registry : SemanticRegistry) (context : SemanticContext)
    (finer coarser : SemanticId) :
    Finishes (registry.equivalenceRefines context finer coarser) := by
  refine (finishes_equivalenceDomain registry context finer).bind fun _ _ => ?_
  refine (finishes_equivalenceDomain registry context coarser).bind fun _ _ => ?_
  apply finishes_equivalenceRefinesInner
  · exact fun pair hpair => absurd hpair ExtTreeSet.not_mem_empty
  · rw [refinesFuel]
    omega

/-! ### The meaning of the check -/

theorem accepted_of_refines (h : registry.equivalenceRefines context finer coarser = .ok true) :
    (∃ domain, registry.equivalenceDomain context finer = .ok domain) ∧
      (∃ domain, registry.equivalenceDomain context coarser = .ok domain) ∧
      Accepted registry context finer coarser := by
  obtain ⟨finerDomain, hfiner, h⟩ := bind_eq_ok.mp h
  obtain ⟨coarserDomain, hcoarser, h⟩ := bind_eq_ok.mp h
  exact ⟨⟨finerDomain, hfiner⟩, ⟨coarserDomain, hcoarser⟩, _, _, _, .nil, h⟩

/-- Two accepted checks in a row: values that agree under the first equivalence agree
under the last one, where both keys are defined. -/
theorem keysRefine_of_chain {middle : SemanticId}
    (h : registry.equivalenceRefines context finer middle = .ok true)
    (h' : registry.equivalenceRefines context middle coarser = .ok true) :
    KeysRefine (registry.canonicalEquivalenceKey context finer)
      (registry.canonicalEquivalenceKey context coarser) := by
  obtain ⟨⟨_, hfiner⟩, _, hacc⟩ := accepted_of_refines h
  obtain ⟨_, ⟨_, hcoarser⟩, hacc'⟩ := accepted_of_refines h'
  intro left right key leftKey rightKey hl hr hl' hr'
  have hstable := stable_accepted registry context
  let fuel := keyFuel context left + keyFuel context right
  have hleft : keyFuel context left ≤ fuel := Nat.le_add_right _ _
  have hright : keyFuel context right ≤ fuel := Nat.le_add_left _ _
  have hl := key_of_domain hfiner hl hleft
  have hr := key_of_domain hfiner hr hright
  have hl' := key_of_domain hcoarser hl' hleft
  have hr' := key_of_domain hcoarser hr' hright
  obtain ⟨leftMiddle, hlm⟩ := hstable.keysBetween fuel hacc hacc' left ⟨_, hl⟩ ⟨_, hl'⟩
  obtain ⟨rightMiddle, hrm⟩ := hstable.keysBetween fuel hacc hacc' right ⟨_, hr⟩ ⟨_, hr'⟩
  -- the two middle keys are equal by the first check, so the second one applies
  have hmiddle := hstable.keysRefine fuel hacc left right key _ _ hl hr hlm hrm
  rw [← hmiddle] at hrm
  exact hstable.keysRefine fuel hacc' left right leftMiddle _ _ hlm hrm hl' hr'

theorem equivalenceRefines_self {domain : EquivalenceDomain}
    (h : registry.equivalenceDomain context equivalence = .ok domain) :
    registry.equivalenceRefines context equivalence equivalence = .ok true := by
  rw [equivalenceRefines, h]
  show registry.equivalenceRefinesInner context _ equivalence equivalence ∅ [] = _
  rw [refinesFuel, equivalenceRefinesInner, if_pos rfl]

/-- An accepted check means refinement of the keys, and accepted checks compose. -/
theorem equivalenceRefines_sound {finer coarser : SemanticId}
    (h : registry.equivalenceRefines context finer coarser = .ok true) :
    KeysRefine (registry.canonicalEquivalenceKey context finer)
        (registry.canonicalEquivalenceKey context coarser) ∧
      ∀ coarsest, registry.equivalenceRefines context coarser coarsest = .ok true →
        KeysRefine (registry.canonicalEquivalenceKey context finer)
          (registry.canonicalEquivalenceKey context coarsest) := by
  constructor
  · obtain ⟨_, ⟨domain, hdomain⟩, _⟩ := accepted_of_refines h
    exact keysRefine_of_chain h (equivalenceRefines_self hdomain)
  · exact fun coarsest h' => keysRefine_of_chain h h'

/-! Lists of texts: compared exactly they are compared without case. -/

def exactDigest : ModuleDigest := ⟨.replicate 32 1⟩

def caselessDigest : ModuleDigest := ⟨.replicate 32 2⟩

def textsRegistry : SemanticRegistry where
  equivalences := ofList
    [(exactDigest, ⟨.textExact, 1⟩), (caselessDigest, ⟨.textAsciiCaseInsensitive, 1⟩)] compare
  tokenizers := ∅
  orderings := ∅

/-- `1` and `21` are lists of the texts `5` and `25`. -/
def textsContext : SemanticContext where
  structuralEquivalences := ofList
    [(1, .mu 2), (2, .option 3), (3, .product (ofList [(10, 5), (11, 4)] compare)),
      (4, .var 1), (21, .mu 22), (22, .option 23),
      (23, .product (ofList [(10, 25), (11, 24)] compare)), (24, .var 21)] compare
  modules := ofList [(5, exactDigest), (25, caselessDigest)] compare

theorem equivalenceRefines_sound_of_texts :
    textsRegistry.equivalenceRefines textsContext 1 21 = .ok true ∧
      KeysRefine (textsRegistry.canonicalEquivalenceKey textsContext 1)
        (textsRegistry.canonicalEquivalenceKey textsContext 21) := by
  have hcheck : textsRegistry.equivalenceRefines textsContext 1 21 = .ok true := by
    decide +kernel
  exact ⟨hcheck, (equivalenceRefines_sound hcheck).1⟩

end SemanticRegistry

end Cfmd.Semantics
