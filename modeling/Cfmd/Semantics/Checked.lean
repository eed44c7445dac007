import Cfmd.Lib.TreeMap
import Cfmd.Semantics.KeyLaws

/-! What the domain check accepts. From an accepted equivalence every chain of `Mu`
and `Var` ends: a `Mu` leads to its body at the same depth, and a guarded `Var`
leads to a binder at a smaller depth. -/

namespace Cfmd.Semantics
open Std Lib List ExtTreeMap

namespace SemanticRegistry
variable {registry : SemanticRegistry} {context : SemanticContext} {equivalence : SemanticId}
  {body child : SemanticId → Fallible SemanticError EquivalenceDomain} {domain : EquivalenceDomain}
  {fuel : ℕ} {stack : ExtTreeSet SemanticId} {binders : List (SemanticId × ℕ)}

/-- An equivalence the domain check accepts at a stack, under binders and at a depth. -/
inductive Checked (registry : SemanticRegistry) (context : SemanticContext) :
    ℕ → SemanticId → ExtTreeSet SemanticId → List (SemanticId × ℕ) → ℕ → Prop
  | primitive {fuel equivalence stack binders depth resolved} :
      context.structuralEquivalences[equivalence]? = none →
      registry.resolvedPrimitive context equivalence = .ok resolved →
      Checked registry context (fuel + 1) equivalence stack binders depth
  | var {fuel equivalence stack binders depth binder found binderDepth} :
      context.structuralEquivalences[equivalence]? = some (.var binder) →
      binders.find? (fun entry => entry.1 = binder) = some (found, binderDepth) →
      binderDepth < depth → Checked registry context (fuel + 1) equivalence stack binders depth
  | mu {fuel equivalence stack binders depth body} :
      context.structuralEquivalences[equivalence]? = some (.mu body) → equivalence ∉ stack →
      Checked registry context fuel body (stack.insert equivalence)
        ((equivalence, depth) :: binders) depth →
      Checked registry context (fuel + 1) equivalence stack binders depth
  | node {fuel equivalence stack binders depth definition} :
      context.structuralEquivalences[equivalence]? = some definition →
      definition.kind.silent = none → equivalence ∉ stack →
      (∀ child ∈ definition.kind.children,
        Checked registry context fuel child (stack.insert equivalence) binders (depth + 1)) →
      Checked registry context (fuel + 1) equivalence stack binders depth

/-! ### From the check -/

theorem find?_fst_zipIdx {α : Type} (p : α → Bool) (xs : List α) :
    (xs.zipIdx.find? fun entry => p entry.1).map Prod.fst = xs.find? p := by
  have hfst : xs.zipIdx.map Prod.fst = xs := zipIdx_map_fst 0 xs
  have hfind : (xs.zipIdx.map Prod.fst).find? p =
      (xs.zipIdx.find? (p ∘ Prod.fst)).map Prod.fst := List.find?_map
  rw [hfst] at hfind
  exact hfind.symm

theorem resolvedPrimitive_eq_ok (hnone : context.structuralEquivalences[equivalence]? = none)
    {digest : ModuleDigest} {implementation : EquivalenceImplementation}
    (h : registry.equivalenceImplementation context equivalence = .ok (digest, implementation)) :
    registry.resolvedPrimitive context equivalence =
      .ok ⟨equivalence, digest, implementation.contract⟩ := by
  unfold resolvedPrimitive resolvePrimitiveEquivalence
  rw [hnone, h]
  rfl

theorem domainLayer_parts {definition : StructuralEquivalenceDef}
    (hshape : definition.kind.silent = none) (h : domainLayer body child definition = .ok domain) :
    ∀ part ∈ definition.kind.children, ∃ domain, child part = .ok domain := by
  have hentries : ∀ {entries : List (SemanticId × SemanticId)} {domains},
      (entries.mapM fun entry => do return (entry.1, ← child entry.2)) = .ok domains →
      ∀ part ∈ entries.map Prod.snd, ∃ domain, child part = .ok domain := by
    intro entries domains hdomains part hpart
    obtain ⟨entry, hentry, rfl⟩ := mem_map.mp hpart
    exact (exists_mapM_pair (fun entry domain => (entry.1, domain)) entries).mp
      ⟨domains, hdomains⟩ entry hentry
  cases definition with
  | mu inner | var binder => cases hshape
  | product fields | sum variants =>
    obtain ⟨domains, hdomains, _⟩ := bind_eq_ok.mp h
    exact hentries hdomains
  | map key value =>
    obtain ⟨keyDomain, hkey, h⟩ := bind_eq_ok.mp h
    obtain ⟨valueDomain, hvalue, _⟩ := bind_eq_ok.mp h
    intro part hpart
    rcases mem_cons.mp hpart with rfl | hpart
    · exact ⟨keyDomain, hkey⟩
    · rw [mem_singleton.mp hpart]
      exact ⟨valueDomain, hvalue⟩
  | _ =>
    obtain ⟨inner, hinner, _⟩ := bind_eq_ok.mp h
    intro part hpart
    rw [mem_singleton.mp hpart]
    exact ⟨inner, hinner⟩

theorem checked_of_domain {depth : ℕ}
    (h : registry.equivalenceDomainInner context fuel equivalence stack binders depth =
      .ok domain) : Checked registry context fuel equivalence stack binders depth := by
  induction fuel generalizing equivalence stack binders depth domain with
  | zero => cases h
  | succ fuel ih =>
    rw [equivalenceDomainInner] at h
    split at h
    · rename_i hnone
      obtain ⟨⟨digest, implementation⟩, himplementation, _⟩ := bind_eq_ok.mp h
      exact .primitive hnone
        (resolvedPrimitive_eq_ok hnone (Fallible.lift_eq_ok.mp himplementation))
    · rename_i binder hdefinition
      split at h
      · cases h
      rename_i found binderDepth distance hfind
      split_ifs at h with hguard
      have hfind' : binders.find? (fun entry => entry.1 = binder) = some (found, binderDepth) := by
        rw [← find?_fst_zipIdx, hfind]
        rfl
      exact .var hdefinition hfind' (Nat.lt_of_not_le hguard)
    · rename_i definition hnotVar hdefinition
      split_ifs at h with hstack
      rcases hshape : definition.kind.silent with _ | part
      · refine .node hdefinition hshape hstack fun child hchild => ?_
        obtain ⟨domain, hdomain⟩ := domainLayer_parts hshape h child hchild
        exact ih hdomain
      -- only `Mu` is left
      cases definition with
      | mu body =>
        obtain ⟨domain, hdomain, _⟩ := bind_eq_ok.mp h
        exact .mu hdefinition hstack (ih hdomain)
      | var binder => exact absurd rfl (hnotVar binder)
      | _ => cases hshape

/-! ### The check answers -/

theorem finishes_domainLayer (hbody : ∀ inner, Finishes (body inner))
    (hchild : ∀ inner, Finishes (child inner)) (definition : StructuralEquivalenceDef) :
    Finishes (domainLayer body child definition) := by
  have hentries : ∀ entries : List (SemanticId × SemanticId),
      Finishes (entries.mapM fun entry => do return (entry.1, ← child entry.2)) :=
    fun entries => .mapM fun entry _ => (hchild entry.2).bind fun domain _ => .ok _
  cases definition with
  | mu inner => exact (hbody inner).bind fun domain _ => .ok _
  | var binder =>
    intro h
    simp [domainLayer, outOfFuel] at h
  | product entries | sum entries => exact (hentries entries.toList).bind fun domains _ => .ok _
  | map key value => exact (hchild key).bind fun _ _ => (hchild value).bind fun _ _ => .ok _
  | option inner | set inner | bag inner | seq inner =>
    exact (hchild inner).bind fun domain _ => .ok _

theorem stack_size_le (h : ∀ id, id ∈ stack → id ∈ context.structuralEquivalences) :
    stack.size ≤ context.structuralEquivalences.size := by
  rw [← ExtTreeSet.length_toList, ← length_keys]
  apply (subperm_of_subset (nodup_set_toList stack) _).length_le
  intro id hid
  exact mem_keys.mpr (h id (ExtTreeSet.mem_toList.mp hid))

/-- The stack holds distinct definitions, so the recursion is no deeper than their
number. -/
theorem finishes_equivalenceDomainInner (fuel : ℕ) (equivalence : SemanticId)
    (binders : List (SemanticId × ℕ)) (depth : ℕ)
    (hstack : ∀ id, id ∈ stack → id ∈ context.structuralEquivalences)
    (hfuel : context.structuralEquivalences.size < fuel + stack.size) :
    Finishes (registry.equivalenceDomainInner context fuel equivalence stack binders depth) := by
  induction fuel generalizing equivalence stack binders depth with
  | zero =>
    have hsize := stack_size_le hstack
    omega
  | succ fuel ih =>
    rw [equivalenceDomainInner]
    split
    · exact (Finishes.lift _).bind fun implementation _ => .ok _
    · split
      · exact .error _
      · split
        · exact .error _
        · exact .ok _
    · rename_i definition _ hdefinition
      split
      · exact .error _
      rename_i hnew
      have hstack' : ∀ id, id ∈ stack.insert equivalence → id ∈ context.structuralEquivalences := by
        intro id hid
        rcases ExtTreeSet.mem_insert.mp hid with heq | hid
        · rw [← LawfulEqCmp.eq_of_compare heq, ← isSome_getElem?_iff_mem, hdefinition]
          rfl
        · exact hstack id hid
      have hsize : (stack.insert equivalence).size = stack.size + 1 := by
        rw [ExtTreeSet.size_insert]
        exact if_neg hnew
      exact finishes_domainLayer (fun inner => ih inner _ _ hstack' (by omega))
        (fun inner => ih inner _ _ hstack' (by omega)) definition

theorem finishes_equivalenceDomain (registry : SemanticRegistry) (context : SemanticContext)
    (equivalence : SemanticId) : Finishes (registry.equivalenceDomain context equivalence) := by
  apply finishes_equivalenceDomainInner
  · exact fun id hid => absurd hid ExtTreeSet.not_mem_empty
  · rw [definitionFuel]
    omega

/-! ### Chains end -/

inductive Bound (registry : SemanticRegistry) (context : SemanticContext) :
    List (SemanticId × ℕ) → Prop
  | nil : Bound registry context []
  | cons {fuel equivalence stack binders depth} :
      Bound registry context binders →
      Checked registry context fuel equivalence stack binders depth →
      Bound registry context ((equivalence, depth) :: binders)

def Good (registry : SemanticRegistry) (context : SemanticContext) (equivalence : SemanticId) :
    Prop :=
  ∃ fuel stack binders depth, Bound registry context binders ∧
    Checked registry context fuel equivalence stack binders depth

theorem Bound.find (h : Bound registry context binders) {binder found : SemanticId}
    {binderDepth : ℕ}
    (hfind : binders.find? (fun entry => entry.1 = binder) = some (found, binderDepth)) :
    ∃ fuel stack outer, Bound registry context outer ∧
      Checked registry context fuel binder stack outer binderDepth := by
  induction h with
  | nil => cases hfind
  | @cons fuel equivalence stack outer depth houter hchecked ih =>
    rw [List.find?_cons] at hfind
    split at hfind
    · rename_i heq
      cases hfind
      rw [decide_eq_true_eq] at heq
      exact ⟨fuel, stack, outer, houter, heq ▸ hchecked⟩
    · exact ih hfind

theorem Good.view_eq (h : Good registry context equivalence) :
    ∃ kind, registry.view context equivalence = .ok (equivalence, kind) ∧
      ∀ child ∈ kind.children, Good registry context child := by
  obtain ⟨fuel, stack, binders, depth, hbound, hchecked⟩ := h
  have hview : ∀ {definition}, context.structuralEquivalences[equivalence]? = some definition →
      registry.view context equivalence = .ok (equivalence, definition.kind) := by
    intro definition hdefinition
    rw [view, hdefinition]
  cases hchecked with
  | @primitive _ _ _ _ _ resolved hnone hresolved =>
    refine ⟨.primitive resolved, ?_, fun child hchild => absurd hchild not_mem_nil⟩
    rw [view, hnone]
    rw [hresolved]
    rfl
  | var hdefinition hfind hguard =>
    refine ⟨_, hview hdefinition, fun child hchild => ?_⟩
    rw [mem_singleton.mp hchild]
    obtain ⟨fuel', stack', outer, houter, hbinder⟩ := hbound.find hfind
    exact ⟨fuel', stack', outer, _, houter, hbinder⟩
  | mu hdefinition hstack hbody =>
    refine ⟨_, hview hdefinition, fun child hchild => ?_⟩
    rw [mem_singleton.mp hchild]
    exact ⟨_, _, _, _, hbound.cons (.mu hdefinition hstack hbody), hbody⟩
  | node hdefinition hshape hstack hchildren =>
    exact ⟨_, hview hdefinition, fun child hchild => ⟨_, _, _, _, hbound, hchildren child hchild⟩⟩

theorem exists_ends_of_checked (depth : ℕ) (hbound : Bound registry context binders)
    (hchecked : Checked registry context fuel equivalence stack binders depth) :
    ∃ steps, Ends (silentNext (registry.view context)) steps equivalence := by
  induction depth using Nat.strong_induction_on generalizing fuel equivalence stack binders with
  | _ depth ihDepth =>
    induction fuel generalizing equivalence stack binders with
    | zero => cases hchecked
    | succ fuel ih =>
      have hnext : ∀ {definition}, context.structuralEquivalences[equivalence]? = some definition →
          silentNext (registry.view context) equivalence = definition.kind.silent := by
        intro definition hdefinition
        have hview : registry.view context equivalence = .ok (equivalence, definition.kind) := by
          rw [view, hdefinition]
        exact silentNext_of_view hview
      cases hchecked with
      | primitive hnone hresolved =>
        refine ⟨0, .stop ?_⟩
        rw [silentNext, view, hnone]
        simp only [hresolved]
        rfl
      | var hdefinition hfind hguard =>
        obtain ⟨fuel', stack', outer, houter, hbinder⟩ := hbound.find hfind
        obtain ⟨steps, hends⟩ := ihDepth _ hguard houter hbinder
        exact ⟨steps + 1, .step (hnext hdefinition) hends⟩
      | mu hdefinition hstack hbody =>
        obtain ⟨steps, hends⟩ := ih (hbound.cons (.mu hdefinition hstack hbody)) hbody
        exact ⟨steps + 1, .step (hnext hdefinition) hends⟩
      | node hdefinition hshape hstack hchildren =>
        exact ⟨0, .stop ((hnext hdefinition).trans hshape)⟩

theorem mem_of_silentNext {next : SemanticId}
    (h : silentNext (registry.view context) equivalence = some next) :
    equivalence ∈ context.structuralEquivalences := by
  rw [← isSome_getElem?_iff_mem]
  unfold silentNext view at h
  cases hdefinition : context.structuralEquivalences[equivalence]? with
  | some definition => rfl
  | none =>
    rw [hdefinition] at h
    cases hresolved : registry.resolvedPrimitive context equivalence with
    | error e | ok resolved =>
      rw [hresolved] at h
      cases h

theorem Good.ends (h : Good registry context equivalence) :
    ∃ steps ≤ context.structuralEquivalences.size,
      Ends (silentNext (registry.view context)) steps equivalence := by
  obtain ⟨fuel, stack, binders, depth, hbound, hchecked⟩ := h
  obtain ⟨steps, hends⟩ := exists_ends_of_checked depth hbound hchecked
  refine ⟨steps, ?_, hends⟩
  have hcard := hends.le_card (U := context.structuralEquivalences.keys.toFinset)
    fun a b hab => mem_toFinset.mpr (mem_keys.mpr (mem_of_silentNext hab))
  rw [← length_keys]
  exact hcard.trans (toFinset_card_le _)

theorem finishes_view (equivalence : SemanticId) :
    Finishes (registry.view context equivalence) := by
  unfold view
  split
  · exact (Finishes.lift _).bind fun resolved _ => .ok _
  · exact .ok _

theorem Good.finishes_key (h : Good registry context equivalence) (value : Value) :
    Finishes (registry.canonicalEquivalenceKeyUnchecked context (keyFuel context value)
      equivalence value) := by
  obtain ⟨steps, hle, hends⟩ := h.ends
  refine finishes_keyWith (P := Good registry context) finishes_view ?_ (fun _ h => h.ends) _ h
    hends ?_
  · intro node equivalence kind hnode hseen
    obtain ⟨kind', hseen', hchildren⟩ := hnode.view_eq
    rw [hseen, Except.ok.injEq, Prod.mk.injEq] at hseen'
    rw [hseen'.2]
    exact hchildren
  · rw [keyFuel, definitionFuel, Value.size_eq, Nat.add_mul]
    omega

/-! ### Accepted equivalences -/

section
variable (h : registry.equivalenceDomain context equivalence = .ok domain)
include h

theorem good_of_domain : Good registry context equivalence :=
  ⟨_, _, _, _, .nil, checked_of_domain h⟩

theorem canonicalEquivalenceKey_of_domain (value : Value) :
    registry.canonicalEquivalenceKey context equivalence value =
      registry.canonicalEquivalenceKeyUnchecked context (keyFuel context value) equivalence
        value := by
  rw [canonicalEquivalenceKey, h]
  split
  · rfl
  · rfl

theorem equivalent_of_domain (left right : Value) :
    registry.equivalent context equivalence left right =
      registry.equivalentUnchecked context (keyFuel context left + keyFuel context right)
        equivalence left right := by
  rw [equivalent, h]
  split
  · rfl
  · rfl

theorem key_of_domain {value : Value} {key : CanonicalEqKey}
    (hkey : registry.canonicalEquivalenceKey context equivalence value = .ok key)
    (hfuel : keyFuel context value ≤ fuel) :
    registry.canonicalEquivalenceKeyUnchecked context fuel equivalence value = .ok key := by
  rw [canonicalEquivalenceKey_of_domain h] at hkey
  have hfinishes := (good_of_domain h).finishes_key value
  exact (keyWith_settles hfuel equivalence value hfinishes).trans hkey

end

end SemanticRegistry

end Cfmd.Semantics
