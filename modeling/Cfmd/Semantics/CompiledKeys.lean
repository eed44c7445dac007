import Cfmd.Semantics.Checked

/-! Compiled equivalences. Compiling a checked equivalence succeeds, and every node
of the graph shows what the definition of its equivalence says. So the graph gives
the keys of the context. -/

namespace Cfmd.Semantics
open List hiding product set sum
open Std Lib EquivalenceKind

namespace SemanticRegistry
variable {registry : SemanticRegistry} {context : SemanticContext} {nodes nodes' : Nodes}
  {index : ℕ} {equivalence : SemanticId} {binders : List (SemanticId × ℕ × ℕ)}

/-! ### Graphs of nodes -/

def idAt (nodes : Nodes) (index : ℕ) : SemanticId := (nodes[index]?.map (·.equivalence)).getD 0

def At (nodes : Nodes) (index : ℕ) (equivalence : SemanticId) : Prop :=
  index < nodes.length ∧ idAt nodes index = equivalence

def Linked (registry : SemanticRegistry) (context : SemanticContext) (nodes : Nodes) (index : ℕ) :
    Prop :=
  ∃ node, nodes[index]? = some node ∧ registry.view context node.equivalence =
      .ok (node.equivalence, node.kind.rename (idAt nodes)) ∧
    ∀ child ∈ node.kind.children, child < nodes.length

theorem rename_congr {ν μ : Type} {f g : ν → μ} {kind : EquivalenceKind ν}
    (h : ∀ child ∈ kind.children, f child = g child) : kind.rename f = kind.rename g := by
  have hentries : ∀ entries : List (SemanticId × ν), (∀ child ∈ entries.map Prod.snd, f child = g child) →
      entries.map (fun entry => (entry.1, f entry.2)) =
        entries.map fun entry => (entry.1, g entry.2) := by
    intro entries hentries
    apply map_congr_left
    intro entry hentry
    rw [hentries entry.2 (mem_map_of_mem hentry)]
  cases kind with
  | primitive resolved => rfl
  | product fields => exact congrArg product (hentries fields h)
  | sum variants => exact congrArg sum (hentries variants h)
  | map key value =>
    show map (f key) (f value) = .map (g key) (g value)
    rw [h key mem_cons_self, h value (mem_cons_of_mem _ (mem_singleton_self _))]
  | mu body => exact congrArg mu (h body (mem_singleton_self _))
  | var binder => exact congrArg var (h binder (mem_singleton_self _))
  | option inner => exact congrArg option (h inner (mem_singleton_self _))
  | set element => exact congrArg set (h element (mem_singleton_self _))
  | bag element => exact congrArg bag (h element (mem_singleton_self _))
  | seq element => exact congrArg seq (h element (mem_singleton_self _))

theorem Linked.mono (h : Linked registry context nodes index)
    (hnode : nodes'[index]? = nodes[index]?) (hlen : nodes.length ≤ nodes'.length)
    (hids : ∀ j < nodes.length, idAt nodes' j = idAt nodes j) :
    Linked registry context nodes' index := by
  obtain ⟨node, hget, hview, hchildren⟩ := h
  refine ⟨node, hnode.trans hget, ?_, fun child hchild => (hchildren child hchild).trans_le hlen⟩
  rw [hview, rename_congr fun child hchild => hids child (hchildren child hchild)]

theorem getElem?_of_start (h : nodes <+: nodes') (hindex : index < nodes.length) :
    nodes'[index]? = nodes[index]? := by
  obtain ⟨rest, rfl⟩ := h
  exact getElem?_append_left hindex

theorem idAt_of_start (h : nodes <+: nodes') (hindex : index < nodes.length) :
    idAt nodes' index = idAt nodes index := by
  rw [idAt, getElem?_of_start h hindex, idAt]

theorem At.mono (h : nodes <+: nodes') (hat : At nodes index equivalence) :
    At nodes' index equivalence :=
  ⟨hat.1.trans_le h.length_le, (idAt_of_start h hat.1).trans hat.2⟩

structure Grows (registry : SemanticRegistry) (context : SemanticContext) (nodes nodes' : Nodes) :
    Prop where
  old : nodes <+: nodes'
  linked : ∀ index, nodes.length ≤ index → index < nodes'.length →
    Linked registry context nodes' index

theorem Grows.refl (nodes : Nodes) : Grows registry context nodes nodes :=
  ⟨prefix_rfl, fun _ hge hlt => absurd hlt (Nat.not_lt.mpr hge)⟩

theorem Grows.trans {nodes'' : Nodes} (h : Grows registry context nodes nodes')
    (h' : Grows registry context nodes' nodes'') : Grows registry context nodes nodes'' := by
  refine ⟨h.old.trans h'.old, fun index hge hlt => ?_⟩
  rcases Nat.lt_or_ge index nodes'.length with hold | hnew
  · exact (h.linked index hge hold).mono (getElem?_of_start h'.old hold) h'.old.length_le
      fun j hj => idAt_of_start h'.old hj
  · exact h'.linked index hnew hlt

theorem Grows.push {node : CompiledEquivalenceNode}
    (hview : registry.view context node.equivalence =
      .ok (node.equivalence, node.kind.rename (idAt nodes)))
    (hchildren : ∀ child ∈ node.kind.children, child < nodes.length) :
    Grows registry context nodes (nodes ++ [node]) := by
  have hstart : nodes <+: nodes ++ [node] := prefix_append nodes [node]
  refine ⟨hstart, fun index hge hlt => ?_⟩
  rw [length_append, length_singleton] at hlt
  obtain rfl : index = nodes.length := by omega
  refine ⟨node, by simp, ?_, fun child hchild => (hchildren child hchild).trans_le hstart.length_le⟩
  rw [hview, rename_congr fun child hchild => idAt_of_start hstart (hchildren child hchild)]

theorem at_push (nodes : Nodes) (node : CompiledEquivalenceNode) :
    At (nodes ++ [node]) nodes.length node.equivalence := by
  constructor
  · simp
  · simp [idAt]

/-! ### Compiling the parts -/

def Compiles (registry : SemanticRegistry) (context : SemanticContext)
    (compile : Nodes → Fallible SemanticError (ℕ × Nodes)) (equivalence : SemanticId)
    (nodes : Nodes) : Prop :=
  ∃ index nodes', compile nodes = .ok (index, nodes') ∧ Grows registry context nodes nodes' ∧
    At nodes' index equivalence

section
variable {child : SemanticId → Nodes → Fallible SemanticError (ℕ × Nodes)} {nodes : Nodes}

theorem compileChildren_spec (entries : List (SemanticId × SemanticId))
    (h : ∀ entry ∈ entries, ∀ nodes', nodes <+: nodes' →
      Compiles registry context (child entry.2) entry.2 nodes') :
    ∃ indices nodes', compileChildren child entries nodes = .ok (indices, nodes') ∧
      Grows registry context nodes nodes' ∧
      indices.map (fun entry => (entry.1, idAt nodes' entry.2)) = entries ∧
      ∀ index ∈ indices.map Prod.snd, index < nodes'.length := by
  induction entries generalizing nodes with
  | nil => exact ⟨[], nodes, rfl, .refl nodes, rfl, fun _ h => absurd h not_mem_nil⟩
  | cons entry rest ih =>
    obtain ⟨name, equivalence⟩ := entry
    rw [forall_mem_cons] at h
    obtain ⟨index, nodes₁, hcompile, hgrows, hat⟩ := h.1 nodes prefix_rfl
    obtain ⟨indices, nodes₂, hrest, hgrows', hids, hlt⟩ := @ih nodes₁
      fun entry hentry nodes' hstart => h.2 entry hentry nodes' (hgrows.old.trans hstart)
    have hat' := hat.mono hgrows'.old
    refine ⟨(name, index) :: indices, nodes₂, ?_, hgrows.trans hgrows', ?_, ?_⟩
    · rw [compileChildren, hcompile]
      show (compileChildren child rest nodes₁ >>= _) = _
      rw [hrest]
      rfl
    · rw [map_cons, hids, hat'.2]
    · rw [map_cons, forall_mem_cons]
      exact ⟨hat'.1, hlt⟩

theorem compileKind_spec {body : SemanticId → Nodes → Fallible SemanticError (ℕ × Nodes)}
    {definition : StructuralEquivalenceDef}
    (hshape : definition.kind.silent = none)
    (h : ∀ part ∈ definition.kind.children, ∀ nodes', nodes <+: nodes' →
      Compiles registry context (child part) part nodes') :
    ∃ kind nodes', compileStructuralEquivalenceKind body child definition nodes =
        .ok (kind, nodes') ∧
      Grows registry context nodes nodes' ∧ kind.rename (idAt nodes') = definition.kind ∧
      ∀ index ∈ kind.children, index < nodes'.length := by
  have hone : ∀ part, Compiles registry context (child part) part nodes →
      ∀ make : ∀ {ν : Type}, ν → EquivalenceKind ν,
      (∀ {ν μ : Type} (f : ν → μ) (x : ν), (make x).rename f = make (f x)) →
      (∀ {ν : Type} (x : ν), (make x).children = [x]) →
      ∃ kind nodes', (child part nodes >>= fun out => pure (make out.1, out.2)) =
          .ok (kind, nodes') ∧
        Grows registry context nodes nodes' ∧ kind.rename (idAt nodes') = make part ∧
        ∀ index ∈ kind.children, index < nodes'.length := by
    intro part hpart make hrename hchildren
    obtain ⟨index, nodes', hcompile, hgrows, hat⟩ := hpart
    refine ⟨make index, nodes', ?_, hgrows, ?_, ?_⟩
    · rw [hcompile]
      rfl
    · rw [hrename, hat.2]
    · rw [hchildren]
      intro j hj
      rw [mem_singleton.mp hj]
      exact hat.1
  have hentries : ∀ entries : List (SemanticId × SemanticId),
      (∀ part ∈ entries.map Prod.snd, ∀ nodes', nodes <+: nodes' →
        Compiles registry context (child part) part nodes') →
      ∀ entry ∈ entries, ∀ nodes', nodes <+: nodes' →
        Compiles registry context (child entry.2) entry.2 nodes' :=
    fun entries hparts entry hentry => hparts entry.2 (mem_map_of_mem hentry)
  cases definition with
  | mu inner | var binder => cases hshape
  | product fields =>
    obtain ⟨indices, nodes', hcompile, hgrows, hids, hlt⟩ :=
      compileChildren_spec fields.toList (hentries _ h)
    refine ⟨.product indices, nodes', ?_, hgrows, congrArg product hids, hlt⟩
    rw [compileStructuralEquivalenceKind, hcompile]
    rfl
  | sum variants =>
    obtain ⟨indices, nodes', hcompile, hgrows, hids, hlt⟩ :=
      compileChildren_spec variants.toList (hentries _ h)
    refine ⟨.sum indices, nodes', ?_, hgrows, congrArg sum hids, hlt⟩
    rw [compileStructuralEquivalenceKind, hcompile]
    rfl
  | map key value =>
    obtain ⟨keyIndex, nodes₁, hkey, hgrows, hat⟩ := h key mem_cons_self nodes prefix_rfl
    obtain ⟨valueIndex, nodes₂, hvalue, hgrows', hat'⟩ :=
      h value (mem_cons_of_mem _ (mem_singleton_self _)) nodes₁ hgrows.old
    have hatKey := hat.mono hgrows'.old
    refine ⟨.map keyIndex valueIndex, nodes₂, ?_, hgrows.trans hgrows', ?_, ?_⟩
    · rw [compileStructuralEquivalenceKind, hkey]
      show (child value nodes₁ >>= _) = _
      rw [hvalue]
      rfl
    · show map (idAt nodes₂ keyIndex) (idAt nodes₂ valueIndex) = .map key value
      rw [hatKey.2, hat'.2]
    · show ∀ index ∈ [keyIndex, valueIndex], index < nodes₂.length
      simpa using ⟨hatKey.1, hat'.1⟩
  | option inner | set inner | bag inner | seq inner =>
    exact hone inner (h inner (mem_singleton_self _) nodes prefix_rfl) _
      (fun _ _ => rfl) fun _ => rfl

end

/-! ### Compiling an equivalence -/

def depths (binders : List (SemanticId × ℕ × ℕ)) : List (SemanticId × ℕ) :=
  binders.map fun entry => (entry.1, entry.2.2)

def BindersAt (nodes : Nodes) (binders : List (SemanticId × ℕ × ℕ)) : Prop :=
  ∀ entry ∈ binders, At nodes entry.2.1 entry.1

theorem BindersAt.mono (h : BindersAt nodes binders) (hstart : nodes <+: nodes') :
    BindersAt nodes' binders :=
  fun entry hentry => (h entry hentry).mono hstart

theorem find?_depths {binder found : SemanticId} {binderDepth : ℕ}
    (h : (depths binders).find? (fun entry => entry.1 = binder) = some (found, binderDepth)) :
    ∃ node, binders.find? (fun entry => entry.1 = binder) = some (binder, node, binderDepth) := by
  rw [depths, find?_map, Option.map_eq_some_iff] at h
  obtain ⟨⟨found', node, depth⟩, hfind, heq⟩ := h
  cases heq
  have hbinder : found' = binder := by simpa using find?_some hfind
  subst hbinder
  exact ⟨node, hfind⟩

theorem Grows.fill {reserved kind : EquivalenceKind ℕ}
    (h : Grows registry context (nodes ++ [⟨equivalence, reserved⟩]) nodes')
    (hview : registry.view context equivalence = .ok (equivalence, kind.rename (idAt nodes')))
    (hchildren : ∀ child ∈ kind.children, child < nodes'.length) :
    Grows registry context nodes (nodes'.set nodes.length ⟨equivalence, kind⟩) ∧
      At (nodes'.set nodes.length ⟨equivalence, kind⟩) nodes.length equivalence := by
  have hreserved := getElem?_of_start h.old (at_push nodes ⟨equivalence, reserved⟩).1
  have hlt : nodes.length < nodes'.length := (at_push nodes _).1.trans_le h.old.length_le
  have hids : ∀ j, idAt (nodes'.set nodes.length ⟨equivalence, kind⟩) j = idAt nodes' j := by
    intro j
    rw [idAt, idAt, getElem?_set]
    split
    · rename_i heq
      subst heq
      rw [hreserved]
      simp
    · rfl
  have hself : (nodes'.set nodes.length ⟨equivalence, kind⟩)[nodes.length]? =
      some ⟨equivalence, kind⟩ := getElem?_set_self hlt
  refine ⟨⟨?_, fun index hge hindex => ?_⟩, ?_⟩
  · -- the old nodes come before the reserved one
    obtain ⟨rest, rfl⟩ := h.old
    rw [append_assoc, set_append_right _ _ le_rfl]
    exact prefix_append _ _
  · rw [length_set] at hindex
    rcases Nat.lt_or_ge nodes.length index with hnew | hold
    · have hlinked := h.linked index (by rw [length_append, length_singleton]; omega) hindex
      refine hlinked.mono ?_ (by rw [length_set]) fun j _ => hids j
      rw [getElem?_set_ne (Nat.ne_of_lt hnew)]
    obtain rfl : index = nodes.length := by omega
    refine ⟨⟨equivalence, kind⟩, hself, ?_, ?_⟩
    · rw [hview, rename_congr fun child _ => hids child]
    · rw [length_set]
      exact hchildren
  · refine ⟨by rwa [length_set], ?_⟩
    rw [idAt, hself]
    rfl

section
variable {fuel depth : ℕ} {equivalence : SemanticId} {stack : ExtTreeSet SemanticId}
  {binders : List (SemanticId × ℕ × ℕ)} {nodes : Nodes} {definition : StructuralEquivalenceDef}

section
variable (hdefinition : context.structuralEquivalences[equivalence]? = some definition)
  (hnotVar : ∀ binder, definition ≠ .var binder) (hstack : equivalence ∉ stack)
include hdefinition hnotVar hstack

theorem compileEquivalenceNode_structural :
    registry.compileEquivalenceNode context (fuel + 1) equivalence stack binders depth nodes =
      (compileStructuralEquivalenceKind
          (fun inner nodes' => registry.compileEquivalenceNode context fuel inner
            (stack.insert equivalence) ((equivalence, nodes.length, depth) :: binders) depth nodes')
          (fun inner nodes' => registry.compileEquivalenceNode context fuel inner
            (stack.insert equivalence) binders (depth + 1) nodes')
          definition (nodes ++ [⟨equivalence, .mu (2 ^ 64 - 1)⟩]) >>= fun out =>
        pure (nodes.length, out.2.set nodes.length ⟨equivalence, out.1⟩)) := by
  rw [compileEquivalenceNode, hdefinition]
  cases definition with
  | var binder => exact absurd rfl (hnotVar binder)
  | _ =>
    simp only [if_neg hstack]
    rfl

theorem compiles_structural (hkind : ∃ kind nodes', compileStructuralEquivalenceKind
          (fun inner nodes' => registry.compileEquivalenceNode context fuel inner
            (stack.insert equivalence) ((equivalence, nodes.length, depth) :: binders) depth nodes')
          (fun inner nodes' => registry.compileEquivalenceNode context fuel inner
            (stack.insert equivalence) binders (depth + 1) nodes')
          definition (nodes ++ [⟨equivalence, .mu (2 ^ 64 - 1)⟩]) = .ok (kind, nodes') ∧
        Grows registry context (nodes ++ [⟨equivalence, .mu (2 ^ 64 - 1)⟩]) nodes' ∧
        kind.rename (idAt nodes') = definition.kind ∧
        ∀ index ∈ kind.children, index < nodes'.length) :
    Compiles registry context
      (registry.compileEquivalenceNode context (fuel + 1) equivalence stack binders depth)
      equivalence nodes := by
  obtain ⟨kind, nodes', hcompile, hgrows, hids, hlt⟩ := hkind
  have hview : registry.view context equivalence =
      .ok (equivalence, kind.rename (idAt nodes')) := by
    rw [view, hdefinition, hids]
  obtain ⟨hfilled, hat⟩ := hgrows.fill hview hlt
  refine ⟨nodes.length, nodes'.set nodes.length ⟨equivalence, kind⟩, ?_, hfilled, hat⟩
  rw [compileEquivalenceNode_structural hdefinition hnotVar hstack, hcompile]
  rfl

end

theorem compiles_of_checked
    (hchecked : Checked registry context fuel equivalence stack (depths binders) depth)
    (hbinders : BindersAt nodes binders) :
    Compiles registry context
      (registry.compileEquivalenceNode context fuel equivalence stack binders depth) equivalence
      nodes := by
  induction fuel generalizing equivalence stack depth binders nodes with
  | zero => cases hchecked
  | succ fuel ih =>
    cases hchecked with
    | @primitive _ _ _ _ _ resolved hnone hresolved =>
      refine ⟨nodes.length, nodes ++ [⟨equivalence, .primitive resolved⟩], ?_, .push ?_ ?_,
        at_push nodes _⟩
      · rw [compileEquivalenceNode, hnone]
        simp only [hresolved]
        rfl
      · rw [view, hnone]
        simp only [hresolved]
        rfl
      · exact fun child hchild => absurd hchild not_mem_nil
    | @var _ _ _ _ _ binder found binderDepth hdefinition hfind hguard =>
      obtain ⟨node, hfind'⟩ := find?_depths hfind
      have hat : At nodes node binder := hbinders _ (mem_of_find?_eq_some hfind')
      refine ⟨nodes.length, nodes ++ [⟨equivalence, .var node⟩], ?_, .push ?_ ?_, at_push nodes _⟩
      · rw [compileEquivalenceNode, hdefinition]
        simp only [hfind', if_neg (Nat.not_le.mpr hguard)]
        rfl
      · rw [view, hdefinition]
        show Except.ok (equivalence, var binder) = .ok (equivalence, .var (idAt nodes node))
        rw [hat.2]
      · intro child hchild
        rw [mem_singleton.mp hchild]
        exact hat.1
    | @mu _ _ _ _ _ body hdefinition hstack hbody =>
      have hbinders' : BindersAt (nodes ++ [⟨equivalence, .mu (2 ^ 64 - 1)⟩])
          ((equivalence, nodes.length, depth) :: binders) := by
        intro entry hentry
        rcases mem_cons.mp hentry with rfl | hentry
        · exact at_push nodes _
        · exact (hbinders entry hentry).mono (prefix_append _ _)
      obtain ⟨index, nodes', hcompile, hgrows, hat⟩ := ih hbody hbinders'
      refine compiles_structural hdefinition (by simp) hstack
        ⟨.mu index, nodes', ?_, hgrows, ?_, ?_⟩
      · rw [compileStructuralEquivalenceKind, hcompile]
        rfl
      · exact congrArg mu hat.2
      · intro child hchild
        rw [mem_singleton.mp hchild]
        exact hat.1
    | node hdefinition hshape hstack hchildren =>
      apply compiles_structural hdefinition _ hstack
      · refine compileKind_spec hshape fun part hpart nodes' hstart => ?_
        refine ih (hchildren part hpart) (hbinders.mono ?_)
        exact (prefix_append _ _).trans hstart
      · rintro binder rfl
        cases hshape

end

/-! ### Keys of the graph -/

def Closed (registry : SemanticRegistry) (context : SemanticContext) (nodes : Nodes) : Prop :=
  ∀ index < nodes.length, Linked registry context nodes index

section
variable (h : Closed registry context nodes) (hindex : index < nodes.length)
include h hindex

theorem Closed.view_eq :
    ∃ kind, CompiledEquivalence.view nodes index = .ok (idAt nodes index, kind) ∧
      registry.view context (idAt nodes index) = .ok (idAt nodes index, kind.rename (idAt nodes)) ∧
      ∀ child ∈ kind.children, child < nodes.length := by
  obtain ⟨node, hnode, hview, hchildren⟩ := h index hindex
  have hid : idAt nodes index = node.equivalence := by
    rw [idAt, hnode]
    rfl
  refine ⟨node.kind, ?_, ?_, hchildren⟩
  · rw [CompiledEquivalence.view, hnode, hid]
    rfl
  · rw [hid, hview]

theorem Closed.keyWith_eq (fuel : ℕ) (value : Value) :
    keyWith (CompiledEquivalence.view nodes) fuel index value =
      registry.canonicalEquivalenceKeyUnchecked context fuel (idAt nodes index) value := by
  refine keyWith_rename (idAt nodes) (· < nodes.length) (fun node hnode => ?_) fuel hindex value
  obtain ⟨kind, hseen, hseen', hchildren⟩ := h.view_eq hnode
  exact ⟨idAt nodes node, kind, hseen, hseen', hchildren⟩

theorem Closed.silentNext_eq :
    silentNext (registry.view context) (idAt nodes index) =
      (silentNext (CompiledEquivalence.view nodes) index).map (idAt nodes) := by
  obtain ⟨kind, hseen, hseen', _⟩ := h.view_eq hindex
  rw [silentNext_of_view hseen, silentNext_of_view hseen', silent_rename]

end

theorem Closed.lt_of_silentNext (h : Closed registry context nodes) {next : ℕ}
    (hindex : index < nodes.length)
    (hnext : silentNext (CompiledEquivalence.view nodes) index = some next) :
    next < nodes.length := by
  obtain ⟨kind, hseen, _, hchildren⟩ := h.view_eq hindex
  rw [silentNext_of_view hseen] at hnext
  exact hchildren next (mem_children_of_silent hnext)

theorem finishes_compiledView (nodes : Nodes) (index : ℕ) :
    Finishes (CompiledEquivalence.view nodes index) := by
  unfold CompiledEquivalence.view
  cases nodes[index]? with
  | none =>
    intro h
    simp [Fallible.expect, outOfFuel, bind, Except.bind] at h
  | some node => exact .ok _

theorem lt_of_compiledView {seen : SemanticId × EquivalenceKind ℕ}
    (h : CompiledEquivalence.view nodes index = .ok seen) : index < nodes.length := by
  unfold CompiledEquivalence.view at h
  by_contra hge
  rw [getElem?_eq_none (Nat.not_lt.mp hge)] at h
  cases h

section
variable (h : Closed registry context nodes) (hindex : index < nodes.length)
  (hgood : Good registry context (idAt nodes index))
include h hindex hgood

theorem Closed.ends :
    ∃ steps ≤ nodes.length, Ends (silentNext (CompiledEquivalence.view nodes)) steps index := by
  obtain ⟨steps, _, hends⟩ := hgood.ends
  have hends' : Ends (silentNext (CompiledEquivalence.view nodes)) steps index := by
    refine Ends.of_map (P := (· < nodes.length)) (fun a ha => h.silentNext_eq ha) ?_ hindex hends
    exact fun a b ha hb => h.lt_of_silentNext ha hb
  refine ⟨steps, ?_, hends'⟩
  have hnodes : ∀ a b, silentNext (CompiledEquivalence.view nodes) a = some b →
      a ∈ Finset.range nodes.length := by
    intro a b hab
    rw [Finset.mem_range]
    unfold silentNext at hab
    split at hab
    · rename_i hseen
      exact lt_of_compiledView hseen
    · cases hab
  have hcard := hends'.le_card hnodes
  rwa [Finset.card_range] at hcard

theorem Closed.finishes_key (value : Value) :
    Finishes (keyWith (CompiledEquivalence.view nodes) (value.size * (nodes.length + 1)) index
      value) := by
  obtain ⟨steps, hle, hends⟩ := h.ends hindex hgood
  refine finishes_keyWith
    (P := fun node => node < nodes.length ∧ Good registry context (idAt nodes node))
    (finishes_compiledView nodes) ?_ (fun node hnode => h.ends hnode.1 hnode.2) _
    ⟨hindex, hgood⟩ hends ?_
  · -- the parts of a node are nodes, and their equivalences are parts of its equivalence
    intro node equivalence kind hnode hseen child hchild
    obtain ⟨kind', hseen', hview, hchildren⟩ := h.view_eq hnode.1
    rw [hseen, Except.ok.injEq, Prod.mk.injEq] at hseen'
    rw [hseen'.2] at hchild
    refine ⟨hchildren child hchild, ?_⟩
    obtain ⟨kind'', hview', hparts⟩ := hnode.2.view_eq
    rw [hview, Except.ok.injEq, Prod.mk.injEq] at hview'
    apply hparts
    rw [← hview'.2, children_rename]
    exact mem_map_of_mem hchild
  · rw [Value.size_eq, Nat.add_mul]
    omega

end

/-! ### An accepted equivalence -/

/-- Compiling an accepted equivalence gives a graph with the same keys. -/
theorem compileEquivalence_of_domain {domain : EquivalenceDomain}
    (h : registry.equivalenceDomain context equivalence = .ok domain) :
    ∃ compiled, registry.compileEquivalence context equivalence = .ok compiled ∧
      ∀ value, compiled.canonicalKey value =
        registry.canonicalEquivalenceKey context equivalence value := by
  have hchecked : Checked registry context (definitionFuel context) equivalence ∅ (depths []) 0 :=
    checked_of_domain h
  have hbinders : BindersAt [] [] := fun entry hentry => absurd hentry not_mem_nil
  obtain ⟨root, nodes, hcompile, hgrows, hroot⟩ := compiles_of_checked hchecked hbinders
  have hclosed : Closed registry context nodes := fun index hindex =>
    hgrows.linked index (Nat.zero_le index) hindex
  refine ⟨⟨equivalence, domain, root, nodes⟩, ?_, fun value => ?_⟩
  · rw [compileEquivalence, h]
    rw [hcompile]
    rfl
  · rw [canonicalEquivalenceKey_of_domain h]
    have hgood := good_of_domain h
    -- both keys settle, so they are compared at a common fuel
    let fuel := max (value.size * (nodes.length + 1)) (keyFuel context value)
    have hcompiled := hclosed.finishes_key hroot.1 (hroot.2 ▸ hgood) value
    have hkey := hclosed.keyWith_eq hroot.1 fuel value
    rw [hroot.2] at hkey
    have hleft := keyWith_settles (le_max_left _ (keyFuel context value)) root value hcompiled
    have hright := keyWith_settles (le_max_right (value.size * (nodes.length + 1)) _) equivalence
      value (hgood.finishes_key value)
    exact hleft.symm.trans (hkey.trans hright)

section
variable {equivalence : SemanticId} {domain : EquivalenceDomain} {left right : Value}
  {leftKey rightKey : CanonicalEqKey}

theorem equivalent_of_keys (h : registry.equivalenceDomain context equivalence = .ok domain)
    (hleft : registry.canonicalEquivalenceKey context equivalence left = .ok leftKey)
    (hright : registry.canonicalEquivalenceKey context equivalence right = .ok rightKey) :
    registry.equivalent context equivalence left right = .ok (decide (leftKey = rightKey)) := by
  rw [equivalent_of_domain h]
  exact equivalentUnchecked_of_keys _ (key_of_domain h hleft (Nat.le_add_right _ _))
    (key_of_domain h hright (Nat.le_add_left _ _))

theorem compiled_equivalent_of_keys {compiled : CompiledEquivalence}
    (hleft : compiled.canonicalKey left = .ok leftKey)
    (hright : compiled.canonicalKey right = .ok rightKey) :
    compiled.equivalent left right = .ok (decide (leftKey = rightKey)) := by
  rw [CompiledEquivalence.equivalent, hleft, hright]
  rfl

end

def Keyed (registry : SemanticRegistry) (context : SemanticContext) (equivalence : SemanticId) :
    Type :=
  {value : Value // ∃ key, registry.canonicalEquivalenceKey context equivalence value = .ok key}

/-- On an accepted equivalence the two evaluators of keys agree and both comparisons decide
equality of keys, which name the classes of an equivalence relation. -/
theorem keys_decide_equivalence {equivalence : SemanticId} {domain : EquivalenceDomain}
    (h : registry.equivalenceDomain context equivalence = .ok domain) :
    (∃ compiled, registry.compileEquivalence context equivalence = .ok compiled ∧ (∀ value,
        compiled.canonicalKey value = registry.canonicalEquivalenceKey context equivalence value ∧
        Finishes (registry.canonicalEquivalenceKey context equivalence value)) ∧
      ∀ left right leftKey rightKey,
        registry.canonicalEquivalenceKey context equivalence left = .ok leftKey →
        registry.canonicalEquivalenceKey context equivalence right = .ok rightKey →
        registry.equivalent context equivalence left right = .ok (decide (leftKey = rightKey)) ∧
        compiled.equivalent left right = .ok (decide (leftKey = rightKey))) ∧
    Equivalence fun left right : Keyed registry context equivalence =>
      registry.equivalent context equivalence left.1 right.1 = .ok true := by
  constructor
  · obtain ⟨compiled, hcompile, hkeys⟩ := compileEquivalence_of_domain h
    refine ⟨compiled, hcompile, fun value => ⟨hkeys value, ?_⟩, ?_⟩
    · rw [canonicalEquivalenceKey_of_domain h]
      exact (good_of_domain h).finishes_key value
    · intro left right leftKey rightKey hleft hright
      refine ⟨equivalent_of_keys h hleft hright, compiled_equivalent_of_keys ?_ ?_⟩
      · exact (hkeys left).trans hleft
      · exact (hkeys right).trans hright
  · -- the relation is equality of the keys
    have hiff : ∀ left right : Keyed registry context equivalence,
        registry.equivalent context equivalence left.1 right.1 = .ok true ↔
          registry.canonicalEquivalenceKey context equivalence left.1 =
            registry.canonicalEquivalenceKey context equivalence right.1 := by
      rintro ⟨left, leftKey, hleft⟩ ⟨right, rightKey, hright⟩
      rw [equivalent_of_keys h hleft hright, hleft, hright, Except.ok.injEq, Except.ok.injEq,
        decide_eq_true_eq]
    refine ⟨fun value => ?_, fun {a b} hab => ?_, fun {a b c} hab hbc => ?_⟩
    · exact (hiff value value).mpr rfl
    · exact (hiff b a).mpr ((hiff a b).mp hab).symm
    · exact (hiff a c).mpr (((hiff a b).mp hab).trans ((hiff b c).mp hbc))

/-! A recursive definition: texts in a list, compared without case. -/

def textDigest : ModuleDigest := ⟨.replicate 32 7⟩

def textRegistry : SemanticRegistry where
  equivalences := ExtTreeMap.ofList [(textDigest, ⟨.textAsciiCaseInsensitive, 1⟩)] compare
  tokenizers := ∅
  orderings := ∅

/-- `1` is the list, `3` a cell of text `5` and rest `4`. -/
def listContext : SemanticContext where
  structuralEquivalences := ExtTreeMap.ofList [(1, .mu 2), (2, .option 3),
    (3, .product (ExtTreeMap.ofList [(10, 5), (11, 4)] compare)), (4, .var 1)] compare
  modules := ExtTreeMap.ofList [(5, textDigest)] compare

def listValue : List String → Value
  | [] => .option none
  | text :: rest => .option (some (.product [(10, .text text), (11, listValue rest)]))

theorem keys_decide_equivalence_of_list :
    (∃ domain, textRegistry.equivalenceDomain listContext 1 = .ok domain) ∧
    textRegistry.equivalent listContext 1 (listValue ["Ab", "c"]) (listValue ["aB", "C"]) =
      .ok true := by
  have hdomain : ∃ domain, textRegistry.equivalenceDomain listContext 1 = .ok domain :=
    exists_ok_of_isSome (by decide +kernel)
  refine ⟨hdomain, ?_⟩
  obtain ⟨domain, hdomain⟩ := hdomain
  have hkey : ∀ texts ∈ [["Ab", "c"], ["aB", "C"]],
      (textRegistry.canonicalEquivalenceKey listContext 1 (listValue texts)).toOption =
        (textRegistry.canonicalEquivalenceKey listContext 1 (listValue ["ab", "c"])).toOption ∧
      (textRegistry.canonicalEquivalenceKey listContext 1 (listValue texts)).toOption.isSome := by
    decide +kernel
  obtain ⟨hleft, hsome⟩ := hkey ["Ab", "c"] (by decide)
  obtain ⟨hright, _⟩ := hkey ["aB", "C"] (by decide)
  obtain ⟨key, hsome⟩ := Option.isSome_iff_exists.mp hsome
  rw [hsome] at hleft
  rw [← hleft] at hright
  obtain ⟨⟨compiled, _, _, hdecide⟩, _⟩ := keys_decide_equivalence hdomain
  have hequivalent := (hdecide _ _ key key (toOption_eq_some.mp hsome)
    (toOption_eq_some.mp hright)).1
  rwa [decide_eq_true rfl] at hequivalent

end SemanticRegistry

end Cfmd.Semantics
