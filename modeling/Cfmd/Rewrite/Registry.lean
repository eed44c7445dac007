import Mathlib.Data.Finset.Basic
import Cfmd.Lib.Loop
import Cfmd.Types

/-! Prepared rewrites and the two family registries. A registry certifies
residual diamonds, braid cubes and sequential compositions of rewrites whose
families are registered. -/

namespace Cfmd.Rewrite
open Lib Std

abbrev RewriteSpecId := SemanticId
abbrev RewriteLawSetId := SemanticId

inductive FineChangeKind where
  | scalar | product | sum | option | set | bag | seq | map | relation | recursive
  | other (id : SemanticId)
deriving DecidableEq, Repr

inductive RewriteEffect (T : Type) where
  | fine (kind : FineChangeKind) (endpoint : T)
  | replace (next : T)
deriving DecidableEq, Repr

def RewriteEffect.endpoint {T : Type} : RewriteEffect T → T
  | fine _ endpoint => endpoint
  | replace next => next

structure PreparedRewrite (T I : Type) where
  spec : RewriteSpecId
  explicitInputs : List I
  effect : RewriteEffect T
  lawSet : RewriteLawSetId
deriving DecidableEq, Repr

structure RewriteFamilyIdentity where
  spec : RewriteSpecId
  lawSet : RewriteLawSetId
deriving DecidableEq, Repr

namespace PreparedRewrite
variable {T I : Type}

def endpoint (rewrite : PreparedRewrite T I) : T := rewrite.effect.endpoint

def family (rewrite : PreparedRewrite T I) : RewriteFamilyIdentity := ⟨rewrite.spec, rewrite.lawSet⟩

end PreparedRewrite

/-- The two families of a registered pair: left and right of a residual family, first and second
of a sequential one. -/
structure FamilyPair where
  fst : RewriteFamilyIdentity
  snd : RewriteFamilyIdentity
deriving DecidableEq, Repr

namespace FamilyPair

def sortKey (key : FamilyPair) : SemanticId × SemanticId × SemanticId × SemanticId :=
  (key.fst.spec, key.fst.lawSet, key.snd.spec, key.snd.lawSet)

theorem sortKey_injective : Function.Injective sortKey := by
  rintro ⟨⟨s, l⟩, ⟨s', l'⟩⟩ ⟨⟨t, m⟩, ⟨t', m'⟩⟩ h
  obtain ⟨rfl, rfl, rfl, rfl⟩ := h
  rfl

attribute [local instance] lexOrd

instance : Ord FamilyPair := ⟨compareOn sortKey⟩

instance : TransOrd FamilyPair := inferInstanceAs (TransCmp (compareOn sortKey))

instance : LawfulEqOrd FamilyPair where
  eq_of_compare h := sortKey_injective (LawfulEqOrd.eq_of_compare h)

end FamilyPair

/-! ## Residual families -/

structure RewriteResidualFamilySpec where
  id : SemanticId
  key : FamilyPair
  rightAfterLeft : RewriteFamilyIdentity
  leftAfterRight : RewriteFamilyIdentity
deriving DecidableEq, Repr

structure RewriteResidualFamilyRegistry where
  byPair : ExtTreeMap FamilyPair RewriteResidualFamilySpec := ∅
  byId : ExtTreeMap SemanticId FamilyPair := ∅

inductive RewriteCoherenceError where
  | diamondEndpointMismatch
  | cubeResidualIntentMismatch
  | cubeEndpointMismatch
  | braidResidualTupleMismatch
deriving DecidableEq, Repr

inductive RewriteResidualRegistryError where
  | familyIdConflict
  | pairAlreadyRegistered
  | familyNotRegistered
  | inputIdentityMismatch
  | residualIdentityMismatch
  | coherence (error : RewriteCoherenceError)
deriving DecidableEq, Repr

structure RewriteResidualDiamond (T I : Type) where
  rightAfterLeft : PreparedRewrite T I
  leftAfterRight : PreparedRewrite T I
deriving DecidableEq, Repr

def RewriteResidualDiamond.commonEndpoint {T I : Type} (diamond : RewriteResidualDiamond T I) : T :=
  diamond.rightAfterLeft.endpoint

structure RewriteResidualCubeWitness (T I : Type) where
  bAfterA : PreparedRewrite T I
  aAfterB : PreparedRewrite T I
  cAfterA : PreparedRewrite T I
  aAfterC : PreparedRewrite T I
  cAfterB : PreparedRewrite T I
  bAfterC : PreparedRewrite T I
  cAfterAb : PreparedRewrite T I
  bAfterAc : PreparedRewrite T I
  cAfterBa : PreparedRewrite T I
  aAfterBc : PreparedRewrite T I
  bAfterCa : PreparedRewrite T I
  aAfterCb : PreparedRewrite T I

structure RewriteResidualCubeCertificate (T I : Type) where
  ab : RewriteResidualDiamond T I
  ac : RewriteResidualDiamond T I
  bc : RewriteResidualDiamond T I
  afterA : RewriteResidualDiamond T I
  afterB : RewriteResidualDiamond T I
  afterC : RewriteResidualDiamond T I
  coherentFamily : RewriteFamilyIdentity
deriving DecidableEq, Repr

section Certify
variable {T I : Type} [DecidableEq T] [DecidableEq I] {registry : RewriteResidualFamilyRegistry}

def certifySharedResidualDiamond (rightAfterLeft leftAfterRight : PreparedRewrite T I) :
    Except RewriteCoherenceError (RewriteResidualDiamond T I) :=
  if rightAfterLeft.endpoint ≠ leftAfterRight.endpoint then .error .diamondEndpointMismatch
  else .ok ⟨rightAfterLeft, leftAfterRight⟩

def certifyCubeCoherence (throughLeftThenRight throughRightThenLeft : PreparedRewrite T I) :
    Except RewriteCoherenceError RewriteFamilyIdentity :=
  if throughLeftThenRight ≠ throughRightThenLeft then .error .cubeResidualIntentMismatch
  else .ok throughLeftThenRight.family

namespace RewriteResidualFamilyRegistry

def register (registry : RewriteResidualFamilyRegistry) (spec : RewriteResidualFamilySpec) :
    Except RewriteResidualRegistryError RewriteResidualFamilyRegistry :=
  match registry.byId[spec.id]? with
  | some existingKey =>
    if existingKey = spec.key ∧ registry.byPair[spec.key]? = some spec then .ok registry
    else .error .familyIdConflict
  | none =>
    if registry.byPair.contains spec.key then .error .pairAlreadyRegistered
    else .ok ⟨registry.byPair.insert spec.key spec, registry.byId.insert spec.id spec.key⟩

def certifyShared (registry : RewriteResidualFamilyRegistry)
    (left right rightAfterLeft leftAfterRight : PreparedRewrite T I) :
    Except RewriteResidualRegistryError (RewriteResidualDiamond T I) :=
  match registry.byPair[(⟨left.family, right.family⟩ : FamilyPair)]? with
  | none => .error .familyNotRegistered
  | some family =>
    if left.family ≠ family.key.fst ∨ right.family ≠ family.key.snd then
      .error .inputIdentityMismatch
    else if rightAfterLeft.family ≠ family.rightAfterLeft ∨
        leftAfterRight.family ≠ family.leftAfterRight then .error .residualIdentityMismatch
    else (certifySharedResidualDiamond rightAfterLeft leftAfterRight).mapError .coherence

def certifyCube (registry : RewriteResidualFamilyRegistry) (a b c : PreparedRewrite T I)
    (witness : RewriteResidualCubeWitness T I) :
    Except RewriteResidualRegistryError (RewriteResidualCubeCertificate T I) := do
  let cube ← (certifyCubeCoherence witness.cAfterAb witness.cAfterBa).mapError .coherence
  let afterA ← registry.certifyShared witness.bAfterA witness.cAfterA witness.cAfterAb
    witness.bAfterAc
  let afterB ← registry.certifyShared witness.aAfterB witness.cAfterB witness.cAfterBa
    witness.aAfterBc
  let afterC ← registry.certifyShared witness.aAfterC witness.bAfterC witness.bAfterCa
    witness.aAfterCb
  if afterA.commonEndpoint ≠ afterB.commonEndpoint ∨
      afterA.commonEndpoint ≠ afterC.commonEndpoint then
    .error (.coherence .cubeEndpointMismatch)
  else do
    let ab ← registry.certifyShared a b witness.bAfterA witness.aAfterB
    let ac ← registry.certifyShared a c witness.cAfterA witness.aAfterC
    let bc ← registry.certifyShared b c witness.cAfterB witness.bAfterC
    return ⟨ab, ac, bc, afterA, afterB, afterC, cube⟩

def certifyBraidCube (registry : RewriteResidualFamilyRegistry) (a b c : PreparedRewrite T I)
    (witness : RewriteResidualCubeWitness T I) :
    Except RewriteResidualRegistryError (RewriteResidualCubeCertificate T I) := do
  let cube ← registry.certifyCube a b c witness
  if cube.afterA.leftAfterRight ≠ cube.afterC.rightAfterLeft ∨
      cube.afterB.leftAfterRight ≠ cube.afterC.leftAfterRight then
    .error (.coherence .braidResidualTupleMismatch)
  else .ok cube

end RewriteResidualFamilyRegistry

/-! ## Sequential families -/

structure RewriteSequentialFamilySpec where
  id : SemanticId
  key : FamilyPair
  composite : RewriteFamilyIdentity
deriving DecidableEq, Repr

structure RewriteSequentialFamilyRegistry where
  byPair : ExtTreeMap FamilyPair RewriteSequentialFamilySpec := ∅
  byId : ExtTreeMap SemanticId FamilyPair := ∅

inductive RewriteSequentialRegistryError where
  | familyIdConflict
  | pairAlreadyRegistered
  | familyNotRegistered
  | inputIdentityMismatch
  | compositeIdentityMismatch
  | compositeEndpointMismatch
deriving DecidableEq, Repr

structure RewriteSequentialComposition (T I : Type) where
  first : PreparedRewrite T I
  second : PreparedRewrite T I
  composite : PreparedRewrite T I
deriving DecidableEq, Repr

namespace RewriteSequentialFamilyRegistry

def register (registry : RewriteSequentialFamilyRegistry) (spec : RewriteSequentialFamilySpec) :
    Except RewriteSequentialRegistryError RewriteSequentialFamilyRegistry :=
  match registry.byId[spec.id]? with
  | some existingKey =>
    if existingKey = spec.key ∧ registry.byPair[spec.key]? = some spec then .ok registry
    else .error .familyIdConflict
  | none =>
    if registry.byPair.contains spec.key then .error .pairAlreadyRegistered
    else .ok ⟨registry.byPair.insert spec.key spec, registry.byId.insert spec.id spec.key⟩

def certifyShared (registry : RewriteSequentialFamilyRegistry)
    (first second composite : PreparedRewrite T I) :
    Except RewriteSequentialRegistryError (RewriteSequentialComposition T I) :=
  match registry.byPair[(⟨first.family, second.family⟩ : FamilyPair)]? with
  | none => .error .familyNotRegistered
  | some family =>
    if first.family ≠ family.key.fst ∨ second.family ≠ family.key.snd then
      .error .inputIdentityMismatch
    else if composite.family ≠ family.composite then .error .compositeIdentityMismatch
    else if composite.endpoint ≠ second.endpoint then .error .compositeEndpointMismatch
    else .ok ⟨first, second, composite⟩

end RewriteSequentialFamilyRegistry

/-! ## What a certificate says -/

omit [DecidableEq I] in
theorem certifyShared_eq_ok {left right rightAfterLeft leftAfterRight : PreparedRewrite T I}
    {diamond : RewriteResidualDiamond T I}
    (h : registry.certifyShared left right rightAfterLeft leftAfterRight = .ok diamond) :
    diamond = ⟨rightAfterLeft, leftAfterRight⟩ ∧
      rightAfterLeft.endpoint = leftAfterRight.endpoint := by
  unfold RewriteResidualFamilyRegistry.certifyShared at h
  split at h
  · cases h
  split_ifs at h
  rw [mapError_eq_ok, certifySharedResidualDiamond] at h
  split_ifs at h with hend
  cases h
  exact ⟨rfl, not_not.mp hend⟩

theorem certifyBraidCube_eq_ok {a b c : PreparedRewrite T I}
    {witness : RewriteResidualCubeWitness T I} {cube : RewriteResidualCubeCertificate T I}
    (h : registry.certifyBraidCube a b c witness = .ok cube) :
    witness.cAfterAb = witness.cAfterBa ∧ witness.bAfterAc = witness.bAfterCa ∧
      witness.aAfterBc = witness.aAfterCb := by
  obtain ⟨cube', hcube, h⟩ := bind_eq_ok.mp h
  split_ifs at h with hbraid
  simp only [RewriteResidualFamilyRegistry.certifyCube, bind_eq_ok, mapError_eq_ok] at hcube
  obtain ⟨family, hfamily, afterA, hA, afterB, hB, afterC, hC, hcube⟩ := hcube
  split_ifs at hcube
  simp only [bind_eq_ok] at hcube
  obtain ⟨_, _, _, _, _, _, hcube⟩ := hcube
  cases hcube
  obtain ⟨rfl, _⟩ := certifyShared_eq_ok hA
  obtain ⟨rfl, _⟩ := certifyShared_eq_ok hB
  obtain ⟨rfl, _⟩ := certifyShared_eq_ok hC
  unfold certifyCubeCoherence at hfamily
  split_ifs at hfamily with htop
  simp only [ne_eq, not_or, not_not] at hbraid htop
  exact ⟨htop, hbraid.1, hbraid.2⟩

omit [DecidableEq I] in
theorem sequential_certifyShared_eq_ok {registry : RewriteSequentialFamilyRegistry}
    {first second composite : PreparedRewrite T I}
    {composition : RewriteSequentialComposition T I}
    (h : registry.certifyShared first second composite = .ok composition) :
    composition = ⟨first, second, composite⟩ ∧ composite.endpoint = second.endpoint := by
  unfold RewriteSequentialFamilyRegistry.certifyShared at h
  split at h
  · cases h
  · split_ifs at h with _ _ hend
    cases h
    exact ⟨rfl, not_not.mp hend⟩

end Certify

end Cfmd.Rewrite
