import Cfmd.Lib.Fuel
import Cfmd.Semantics.CanonicalKey

/-! Equivalences of a semantic context: primitive modules, and structural definitions that name
each other by id. A definition compares two values, gives a value its canonical key, and is
compiled to a graph of nodes that gives keys without the context. -/

namespace Cfmd.Semantics
open Std Lib

structure ModuleDigest where
  bytes : Vector UInt8 32
deriving DecidableEq

instance : Ord ModuleDigest := ⟨compareOn ModuleDigest.bytes⟩

instance : TransOrd ModuleDigest := inferInstanceAs (TransCmp (compareOn ModuleDigest.bytes))

instance : LawfulEqOrd ModuleDigest where
  eq_of_compare {a b} h := by
    have hbytes : a.bytes = b.bytes := LawfulEqOrd.eq_of_compare h
    cases a
    cases b
    exact congrArg ModuleDigest.mk hbytes

inductive SemanticError
  | moduleUnavailable (digest : ModuleDigest)
  | wrongModuleKind (equivalence : SemanticId)
  | typeMismatch (equivalence : SemanticId)
  | cyclicStructuralEquivalence (equivalence : SemanticId)
  | freeStructuralRecursion (binder : SemanticId)
  | unguardedStructuralRecursion (binder : SemanticId)
deriving DecidableEq

/-- The fields of a product and the variants of a sum are in the order of their ids. -/
inductive EquivalenceDomain
  | unit
  | bool
  | i64
  | f64
  | text
  | liveEntityRef (entityType : SemanticId)
  | historicalEntityId (entityType : SemanticId)
  | product (fields : List (SemanticId × EquivalenceDomain))
  | option (inner : EquivalenceDomain)
  | sum (variants : List (SemanticId × EquivalenceDomain))
  | set (element : EquivalenceDomain)
  | bag (element : EquivalenceDomain)
  | seq (element : EquivalenceDomain)
  | map (key value : EquivalenceDomain)
  | mu (body : EquivalenceDomain)
  | var (distance : ℕ)

/-! ### Primitive modules -/

inductive EquivalenceModule
  | unitExact
  | boolExact
  | i64Exact
  | f64Bitwise
  | textExact
  | textAsciiCaseInsensitive
  | liveEntityIdExact (entityType : SemanticId)
  | historicalEntityIdExact (entityType : SemanticId)
deriving DecidableEq

def toAsciiLowercase (text : String) : String := text.map Char.toLower

/-- Character by character; only ASCII letters have another case. -/
def eqIgnoreAsciiCase (left right : String) : Bool := left.toList.length = right.toList.length ∧
    (left.toList.zip right.toList).all fun pair => pair.1.toLower = pair.2.toLower

namespace EquivalenceModule

def domain : EquivalenceModule → EquivalenceDomain
  | unitExact => .unit
  | boolExact => .bool
  | i64Exact => .i64
  | f64Bitwise => .f64
  | textExact | textAsciiCaseInsensitive => .text
  | liveEntityIdExact entityType => .liveEntityRef entityType
  | historicalEntityIdExact entityType => .historicalEntityId entityType

def equivalent (self : EquivalenceModule) (left right : Value) (equivalence : SemanticId) :
    Except SemanticError Bool :=
  match self, left, right with
  | unitExact, .unit, .unit => .ok true
  | boolExact, .bool left, .bool right => .ok (left = right)
  | i64Exact, .i64 left, .i64 right => .ok (left = right)
  | f64Bitwise, .f64Bits left, .f64Bits right => .ok (left = right)
  | textExact, .text left, .text right => .ok (left = right)
  | textAsciiCaseInsensitive, .text left, .text right => .ok (eqIgnoreAsciiCase left right)
  | liveEntityIdExact expected, .liveEntityRef leftType left, .liveEntityRef rightType right =>
    if leftType = expected ∧ rightType = expected then .ok (left = right)
    else .error (.typeMismatch equivalence)
  | historicalEntityIdExact expected, .historicalEntityId leftType left,
      .historicalEntityId rightType right =>
    if leftType = expected ∧ rightType = expected then .ok (left = right)
    else .error (.typeMismatch equivalence)
  | _, _, _ => .error (.typeMismatch equivalence)

end EquivalenceModule

structure ResolvedPrimitiveEquivalence where
  equivalence : SemanticId
  moduleDigest : ModuleDigest
  contract : EquivalenceModule
deriving DecidableEq

def ResolvedPrimitiveEquivalence.canonicalKey (self : ResolvedPrimitiveEquivalence)
    (value : Value) : Except SemanticError CanonicalEqKey :=
  match self.contract, value with
  | .unitExact, .unit => .ok .unit
  | .boolExact, .bool value => .ok (.bool value)
  | .i64Exact, .i64 value => .ok (.i64 value)
  | .f64Bitwise, .f64Bits value => .ok (.f64Bits value)
  | .textExact, .text value => .ok (.textExact value)
  | .textAsciiCaseInsensitive, .text value =>
    .ok (.textAsciiCaseInsensitive (toAsciiLowercase value))
  | .liveEntityIdExact entityType, .liveEntityRef actual id =>
    if actual = entityType then .ok (.liveEntityId entityType id)
    else .error (.typeMismatch self.equivalence)
  | .historicalEntityIdExact entityType, .historicalEntityId actual id =>
    if actual = entityType then .ok (.historicalEntityId entityType id)
    else .error (.typeMismatch self.equivalence)
  | _, _ => .error (.typeMismatch self.equivalence)

/-! ### Contexts -/

inductive StructuralEquivalenceDef
  | mu (body : SemanticId)
  | var (binder : SemanticId)
  | product (fields : ExtTreeMap SemanticId SemanticId)
  | option (inner : SemanticId)
  | sum (variants : ExtTreeMap SemanticId SemanticId)
  | set (element : SemanticId)
  | bag (element : SemanticId)
  | seq (element : SemanticId)
  | map (key value : SemanticId)
deriving DecidableEq

/-- The structural equivalences of the schema and the modules of the environment. -/
structure SemanticContext where
  structuralEquivalences : ExtTreeMap SemanticId StructuralEquivalenceDef
  modules : ExtTreeMap SemanticId ModuleDigest

structure EquivalenceImplementation where
  contract : EquivalenceModule
  implementationRevision : UInt64
deriving DecidableEq

/-- Of the other kinds of module only the digests matter here. -/
structure SemanticRegistry where
  equivalences : ExtTreeMap ModuleDigest EquivalenceImplementation
  tokenizers : ExtTreeSet ModuleDigest
  orderings : ExtTreeSet ModuleDigest

/-- What a definition or a compiled node is made of, over the names of its parts. -/
inductive EquivalenceKind (ν : Type)
  | primitive (resolved : ResolvedPrimitiveEquivalence)
  | mu (body : ν)
  | var (binder : ν)
  | product (fields : List (SemanticId × ν))
  | option (inner : ν)
  | sum (variants : List (SemanticId × ν))
  | set (element : ν)
  | bag (element : ν)
  | seq (element : ν)
  | map (key value : ν)
deriving DecidableEq

def StructuralEquivalenceDef.kind : StructuralEquivalenceDef → EquivalenceKind SemanticId
  | mu body => .mu body
  | var binder => .var binder
  | product fields => .product fields.toList
  | option inner => .option inner
  | sum variants => .sum variants.toList
  | set element => .set element
  | bag element => .bag element
  | seq element => .seq element
  | map key value => .map key value

/-! ### Keys -/

section
variable {ν : Type}

def fieldValue (equivalence : SemanticId) (values : List (SemanticId × Value)) (field : SemanticId) :
    Fallible SemanticError Value :=
  match values.lookup field with
  | some value => .ok value
  | none => .error (.error (.typeMismatch equivalence))

def measureOf {α β : Type} [Ord β] [TransOrd β] (atom : α → Fallible SemanticError β)
    (entries : List α) : Fallible SemanticError (FiniteMeasure β) := do
  finiteMeasureFromAtoms (← entries.mapM atom)

def bagAtom (key : Value → Fallible SemanticError CanonicalEqKey) (entry : Value × UInt64) :
    Fallible SemanticError CanonicalBagAtom := do
  return { value := ← key entry.1, storedCount := entry.2 }

def mapAtom (key value : Value → Fallible SemanticError CanonicalEqKey) (entry : Value × Value) :
    Fallible SemanticError CanonicalMapAtom := do
  return { key := ← key entry.1, value := ← value entry.2 }

def keyLayer (key : ν → Value → Fallible SemanticError CanonicalEqKey) (equivalence : SemanticId)
    (kind : EquivalenceKind ν) (value : Value) : Fallible SemanticError CanonicalEqKey :=
  match kind, value with
  | .primitive resolved, value => Fallible.lift (resolved.canonicalKey value)
  | .mu body, value => key body value
  | .var binder, value => key binder value
  | .product fields, .product values =>
    if fields.length ≠ values.length then .error (.error (.typeMismatch equivalence))
    else do
      let keys ← fields.mapM fun entry => do
        let child ← fieldValue equivalence values entry.1
        return (entry.1, ← key entry.2 child)
      return .product keys
  | .option _, .option none => .ok .optionNone
  | .option inner, .option (some value) => do return .optionSome (← key inner value)
  | .sum variants, .variant tag value =>
    match variants.lookup tag with
    | none => .error (.error (.typeMismatch equivalence))
    | some child => do return .variant tag (← key child value)
  | .seq element, .seq values => do return .seq (← values.mapM (key element))
  | .set element, .set _ elements => do return .set (← measureOf (key element) elements)
  | .bag element, .bag _ entries => do return .bag (← measureOf (bagAtom (key element)) entries)
  | .map keyEquivalence valueEquivalence, .map _ entries => do
    return .map (← measureOf (mapAtom (key keyEquivalence) (key valueEquivalence)) entries)
  | _, _ => .error (.error (.typeMismatch equivalence))

/-- Keys over a graph, from what is seen at each of its nodes. -/
def keyWith (view : ν → Fallible SemanticError (SemanticId × EquivalenceKind ν)) :
    ℕ → ν → Value → Fallible SemanticError CanonicalEqKey
  | 0, _, _ => .error outOfFuel
  | fuel + 1, node, value => do
    let (equivalence, kind) ← view node
    keyLayer (keyWith view fuel) equivalence kind value

end

namespace SemanticRegistry
variable (registry : SemanticRegistry) (context : SemanticContext)

def moduleAvailable (digest : ModuleDigest) : Bool :=
  digest ∈ registry.equivalences ∨ digest ∈ registry.tokenizers ∨ digest ∈ registry.orderings

def equivalenceImplementation (equivalence : SemanticId) :
    Except SemanticError (ModuleDigest × EquivalenceImplementation) :=
  match context.modules[equivalence]? with
  | none => .error (.wrongModuleKind equivalence)
  | some digest =>
    match registry.equivalences[digest]? with
    | some implementation => .ok (digest, implementation)
    | none =>
      if registry.moduleAvailable digest then .error (.wrongModuleKind equivalence)
      else .error (.moduleUnavailable digest)

def resolvePrimitiveEquivalence (equivalence : SemanticId) :
    Except SemanticError (Option ResolvedPrimitiveEquivalence) :=
  if context.structuralEquivalences[equivalence]?.isSome then .ok none
  else do
    let (digest, implementation) ← registry.equivalenceImplementation context equivalence
    return some ⟨equivalence, digest, implementation.contract⟩

/-- `resolve_primitive_equivalence` and `ok_or`. -/
def resolvedPrimitive (equivalence : SemanticId) :
    Except SemanticError ResolvedPrimitiveEquivalence := do
  match ← registry.resolvePrimitiveEquivalence context equivalence with
  | some resolved => return resolved
  | none => .error (.wrongModuleKind equivalence)

def view (equivalence : SemanticId) :
    Fallible SemanticError (SemanticId × EquivalenceKind SemanticId) :=
  match context.structuralEquivalences[equivalence]? with
  | none => do
    return (equivalence, .primitive (← Fallible.lift (registry.resolvedPrimitive context equivalence)))
  | some definition => .ok (equivalence, definition.kind)

def canonicalEquivalenceKeyUnchecked (fuel : ℕ) (equivalence : SemanticId) (value : Value) :
    Fallible SemanticError CanonicalEqKey :=
  keyWith (registry.view context) fuel equivalence value

/-! ### The domain check -/

/-- One level of a definition that is not `Var`. `body` is for the body of a `Mu`. -/
def domainLayer (body child : SemanticId → Fallible SemanticError EquivalenceDomain) :
    StructuralEquivalenceDef → Fallible SemanticError EquivalenceDomain
  | .mu inner => do return .mu (← body inner)
  | .var _ => .error (.panic "internal error: entered unreachable code")
  | .product fields => do
    return .product (← fields.toList.mapM fun entry => do return (entry.1, ← child entry.2))
  | .option inner => do return .option (← child inner)
  | .sum variants => do
    return .sum (← variants.toList.mapM fun entry => do return (entry.1, ← child entry.2))
  | .set element => do return .set (← child element)
  | .bag element => do return .bag (← child element)
  | .seq element => do return .seq (← child element)
  | .map key value => do return .map (← child key) (← child value)

/-- `stack` and `binders` are restored on the way back in the source; here they are
passed down. The innermost binder is first. -/
def equivalenceDomainInner : ℕ → SemanticId → ExtTreeSet SemanticId → List (SemanticId × ℕ) → ℕ →
    Fallible SemanticError EquivalenceDomain
  | 0, _, _, _, _ => .error outOfFuel
  | fuel + 1, equivalence, stack, binders, constructorDepth =>
    match context.structuralEquivalences[equivalence]? with
    | none => do
      let (_, implementation) ←
        Fallible.lift (registry.equivalenceImplementation context equivalence)
      return implementation.contract.domain
    | some (.var binder) =>
      match binders.zipIdx.find? fun entry => entry.1.1 = binder with
      | none => .error (.error (.freeStructuralRecursion binder))
      | some ((_, binderDepth), distance) =>
        if constructorDepth ≤ binderDepth then
          .error (.error (.unguardedStructuralRecursion binder))
        else .ok (.var distance)
    | some definition =>
      if equivalence ∈ stack then .error (.error (.cyclicStructuralEquivalence equivalence))
      else
        domainLayer
          (fun inner => equivalenceDomainInner fuel inner (stack.insert equivalence)
            ((equivalence, constructorDepth) :: binders) constructorDepth)
          (fun inner => equivalenceDomainInner fuel inner (stack.insert equivalence) binders
            (constructorDepth + 1))
          definition

/-- No more levels than definitions, and one for a leaf. -/
def definitionFuel : ℕ := context.structuralEquivalences.size + 1

def equivalenceDomain (equivalence : SemanticId) : Fallible SemanticError EquivalenceDomain :=
  registry.equivalenceDomainInner context (definitionFuel context) equivalence ∅ [] 0

/-- For each value in the value, a chain of `Mu` and `Var` and one constructor. -/
def keyFuel (value : Value) : ℕ := value.size * definitionFuel context

def canonicalEquivalenceKey (equivalence : SemanticId) (value : Value) :
    Fallible SemanticError CanonicalEqKey := do
  if context.structuralEquivalences[equivalence]?.isSome then
    let _ ← registry.equivalenceDomain context equivalence
  registry.canonicalEquivalenceKeyUnchecked context (keyFuel context value) equivalence value

/-! ### Comparison -/

def equivalentLayer (key : SemanticId → Value → Fallible SemanticError CanonicalEqKey)
    (equivalent : SemanticId → Value → Value → Fallible SemanticError Bool)
    (equivalence : SemanticId) (kind : EquivalenceKind SemanticId) (left right : Value) :
    Fallible SemanticError Bool :=
  match kind, left, right with
  | .primitive resolved, left, right =>
    Fallible.lift (resolved.contract.equivalent left right equivalence)
  | .mu body, left, right => equivalent body left right
  | .var binder, left, right => equivalent binder left right
  | .product fields, .product left, .product right =>
    if left.length ≠ fields.length ∨ right.length ≠ fields.length then .ok false
    else fields.allM fun entry =>
      match left.lookup entry.1, right.lookup entry.1 with
      | some left, some right => equivalent entry.2 left right
      | _, _ => .ok false
  | .option _, .option none, .option none => .ok true
  | .option inner, .option (some left), .option (some right) => equivalent inner left right
  | .option _, .option _, .option _ => .ok false
  | .sum variants, .variant leftTag left, .variant rightTag right =>
    if leftTag ≠ rightTag then .ok false
    else
      match variants.lookup leftTag with
      | none => .error (.error (.typeMismatch equivalence))
      | some child => equivalent child left right
  | .seq element, .seq left, .seq right =>
    if left.length ≠ right.length then .ok false
    else (left.zip right).allM fun pair => equivalent element pair.1 pair.2
  | .set element, .set _ left, .set _ right => do
    let canonicalize := measureOf (key element)
    return (← canonicalize left) = (← canonicalize right)
  | .bag element, .bag _ left, .bag _ right => do
    let canonicalize := measureOf (bagAtom (key element))
    return (← canonicalize left) = (← canonicalize right)
  | .map keyEquivalence valueEquivalence, .map _ left, .map _ right => do
    let canonicalize := measureOf (mapAtom (key keyEquivalence) (key valueEquivalence))
    return (← canonicalize left) = (← canonicalize right)
  | _, _, _ => .error (.error (.typeMismatch equivalence))

def equivalentUnchecked : ℕ → SemanticId → Value → Value → Fallible SemanticError Bool
  | 0, _, _, _ => .error outOfFuel
  | fuel + 1, equivalence, left, right => do
    let (_, kind) ← registry.view context equivalence
    equivalentLayer (registry.canonicalEquivalenceKeyUnchecked context fuel)
      (equivalentUnchecked fuel) equivalence kind left right

def equivalent (equivalence : SemanticId) (left right : Value) : Fallible SemanticError Bool := do
  if context.structuralEquivalences[equivalence]?.isSome then
    let _ ← registry.equivalenceDomain context equivalence
  registry.equivalentUnchecked context (keyFuel context left + keyFuel context right) equivalence
    left right

end SemanticRegistry

/-! ### Compiled equivalences -/

structure CompiledEquivalenceNode where
  equivalence : SemanticId
  kind : EquivalenceKind ℕ
deriving DecidableEq

structure CompiledEquivalence where
  equivalence : SemanticId
  domain : EquivalenceDomain
  root : ℕ
  nodes : List CompiledEquivalenceNode

namespace CompiledEquivalence

def view (nodes : List CompiledEquivalenceNode) (index : ℕ) :
    Fallible SemanticError (SemanticId × EquivalenceKind ℕ) := do
  let node ← Fallible.expect "index out of bounds" nodes[index]?
  return (node.equivalence, node.kind)

def canonicalKeyAt (compiled : CompiledEquivalence) (fuel index : ℕ) (value : Value) :
    Fallible SemanticError CanonicalEqKey :=
  keyWith (view compiled.nodes) fuel index value

def canonicalKey (compiled : CompiledEquivalence) (value : Value) :
    Fallible SemanticError CanonicalEqKey :=
  compiled.canonicalKeyAt (value.size * (compiled.nodes.length + 1)) compiled.root value

def equivalent (compiled : CompiledEquivalence) (left right : Value) :
    Fallible SemanticError Bool := do
  return (← compiled.canonicalKey left) = (← compiled.canonicalKey right)

end CompiledEquivalence

abbrev Nodes := List CompiledEquivalenceNode

namespace SemanticRegistry
variable (registry : SemanticRegistry) (context : SemanticContext)

def pushNode (nodes : Nodes) (node : CompiledEquivalenceNode) :
    ℕ × Nodes := (nodes.length, nodes ++ [node])

/-- `compile_named_children` and `compile_tagged_children`. -/
def compileChildren (compile : SemanticId → Nodes → Fallible SemanticError (ℕ × Nodes)) :
    List (SemanticId × SemanticId) → Nodes → Fallible SemanticError (List (SemanticId × ℕ) × Nodes)
  | [], nodes => .ok ([], nodes)
  | (name, child) :: rest, nodes => do
    let (index, nodes) ← compile child nodes
    let (indices, nodes) ← compileChildren compile rest nodes
    return ((name, index) :: indices, nodes)

/-- `body` compiles the body of a `Mu`, `child` the parts of a constructor. -/
def compileStructuralEquivalenceKind
    (body child : SemanticId → Nodes → Fallible SemanticError (ℕ × Nodes))
    (definition : StructuralEquivalenceDef) (nodes : Nodes) :
    Fallible SemanticError (EquivalenceKind ℕ × Nodes) :=
  match definition with
  | .mu inner => do
    let (index, nodes) ← body inner nodes
    return (.mu index, nodes)
  | .var _ => .error (.panic "internal error: entered unreachable code")
  | .product fields => do
    let (indices, nodes) ← compileChildren child fields.toList nodes
    return (.product indices, nodes)
  | .option inner => do
    let (index, nodes) ← child inner nodes
    return (.option index, nodes)
  | .sum variants => do
    let (indices, nodes) ← compileChildren child variants.toList nodes
    return (.sum indices, nodes)
  | .set element => do
    let (index, nodes) ← child element nodes
    return (.set index, nodes)
  | .bag element => do
    let (index, nodes) ← child element nodes
    return (.bag index, nodes)
  | .seq element => do
    let (index, nodes) ← child element nodes
    return (.seq index, nodes)
  | .map key value => do
    let (keyIndex, nodes) ← child key nodes
    let (valueIndex, nodes) ← child value nodes
    return (.map keyIndex valueIndex, nodes)

/-- A binder is its id, its node and its depth; the innermost is first. -/
def compileEquivalenceNode : ℕ → SemanticId → ExtTreeSet SemanticId → List (SemanticId × ℕ × ℕ) → ℕ →
    Nodes → Fallible SemanticError (ℕ × Nodes)
  | 0, _, _, _, _, _ => .error outOfFuel
  | fuel + 1, equivalence, stack, binders, constructorDepth, nodes =>
    match context.structuralEquivalences[equivalence]? with
    | none => do
      let resolved ← Fallible.lift (registry.resolvedPrimitive context equivalence)
      return pushNode nodes ⟨equivalence, .primitive resolved⟩
    | some (.var binder) =>
      match binders.find? fun entry => entry.1 = binder with
      | none => .error (.error (.freeStructuralRecursion binder))
      | some (_, binderNode, binderDepth) =>
        if constructorDepth ≤ binderDepth then
          .error (.error (.unguardedStructuralRecursion binder))
        else .ok (pushNode nodes ⟨equivalence, .var binderNode⟩)
    | some definition =>
      if equivalence ∈ stack then .error (.error (.cyclicStructuralEquivalence equivalence))
      else do
        -- the node is filled in when its parts are there
        let (index, nodes) := pushNode nodes ⟨equivalence, .mu (2 ^ 64 - 1)⟩
        let (kind, nodes) ← compileStructuralEquivalenceKind
          (fun inner nodes => compileEquivalenceNode fuel inner (stack.insert equivalence)
            ((equivalence, index, constructorDepth) :: binders) constructorDepth nodes)
          (fun inner nodes => compileEquivalenceNode fuel inner (stack.insert equivalence) binders
            (constructorDepth + 1) nodes)
          definition nodes
        return (index, nodes.set index ⟨equivalence, kind⟩)

def compileEquivalence (equivalence : SemanticId) : Fallible SemanticError CompiledEquivalence := do
  let domain ← registry.equivalenceDomain context equivalence
  let (root, nodes) ←
    registry.compileEquivalenceNode context (definitionFuel context) equivalence ∅ [] 0 []
  return { equivalence, domain, root, nodes }

end SemanticRegistry

end Cfmd.Semantics
