import Cfmd.Lib.Residual
import Cfmd.Lib.TreeMap
import Cfmd.Rewrite.Registry

/-! The finite concurrent normalizer: a family of keyed rewrites is certified by
fixing the smallest key as pivot, certifying its pair diamonds and braids, and
going on with the residuals of the tail. -/

namespace Cfmd.Rewrite
open Lib Std Residual List

inductive RewriteResidualResolutionError where
  | emptyFrontier
  | duplicateKey
  | residual (error : RewriteResidualRegistryError)
  | sequential (error : RewriteSequentialRegistryError)
deriving DecidableEq, Repr

/-- The two registries and the two candidate resolvers, which are deterministic functions. -/
structure RewriteResidualResolutionAuthority (T I : Type) where
  residualRegistry : RewriteResidualFamilyRegistry
  sequentialRegistry : RewriteSequentialFamilyRegistry
  residualResolver : T → PreparedRewrite T I → PreparedRewrite T I →
    PreparedRewrite T I × PreparedRewrite T I
  sequentialResolver : T → PreparedRewrite T I → PreparedRewrite T I → PreparedRewrite T I

structure RewriteConcurrentNormalizationLevelCertificate (K T I : Type) where
  pivot : K
  pairDiamonds : List ((K × K) × RewriteResidualDiamond T I)
  pivotBraids : List ((K × K) × RewriteResidualCubeCertificate T I)
  composition : Option (RewriteSequentialComposition T I)
deriving DecidableEq, Repr

structure RewriteConcurrentNormalizationCertificate (K T I : Type) where
  canonicalOrder : List K
  canonicalPath : List (PreparedRewrite T I)
  levels : List (RewriteConcurrentNormalizationLevelCertificate K T I)
  composite : PreparedRewrite T I
deriving DecidableEq, Repr

def RewriteConcurrentNormalizationCertificate.commonEndpoint {K T I : Type}
    (certificate : RewriteConcurrentNormalizationCertificate K T I) : T :=
  certificate.composite.endpoint

def orderedPairs {α : Type} : List α → List (α × α)
  | [] => []
  | x :: xs => xs.map (fun y => (x, y)) ++ orderedPairs xs

theorem mem_orderedPairs {α : Type} (xs : List α) {ys : List α} {x y : α} (hy : y ∈ ys) :
    (x, y) ∈ orderedPairs (xs ++ x :: ys) := by
  induction xs with
  | nil => simp [orderedPairs, hy]
  | cons z xs ih => exact mem_append_right _ ih

namespace RewriteResidualResolutionAuthority
variable {K T I : Type} [DecidableEq T] [DecidableEq I]
  (authority : RewriteResidualResolutionAuthority T I)

def resolve (base : T) (left right : PreparedRewrite T I) :
    Except RewriteResidualResolutionError (RewriteResidualDiamond T I) :=
  let candidates := authority.residualResolver base left right
  (authority.residualRegistry.certifyShared left right candidates.1 candidates.2).mapError .residual

def compose (base : T) (first second : PreparedRewrite T I) :
    Except RewriteResidualResolutionError (RewriteSequentialComposition T I) :=
  (authority.sequentialRegistry.certifyShared first second
    (authority.sequentialResolver base first second)).mapError .sequential

def certifyBraidFromLower (a b c : PreparedRewrite T I) (ab ac bc : RewriteResidualDiamond T I) :
    Except RewriteResidualResolutionError (RewriteResidualCubeCertificate T I) := do
  let afterA ← authority.resolve a.endpoint ab.rightAfterLeft ac.rightAfterLeft
  let afterB ← authority.resolve b.endpoint ab.leftAfterRight bc.rightAfterLeft
  let afterC ← authority.resolve c.endpoint ac.leftAfterRight bc.leftAfterRight
  (authority.residualRegistry.certifyBraidCube a b c
    { bAfterA := ab.rightAfterLeft
      aAfterB := ab.leftAfterRight
      cAfterA := ac.rightAfterLeft
      aAfterC := ac.leftAfterRight
      cAfterB := bc.rightAfterLeft
      bAfterC := bc.leftAfterRight
      cAfterAb := afterA.rightAfterLeft
      bAfterAc := afterA.leftAfterRight
      cAfterBa := afterB.rightAfterLeft
      aAfterBc := afterB.leftAfterRight
      bAfterCa := afterC.rightAfterLeft
      aAfterCb := afterC.leftAfterRight }).mapError .residual

def certifyBraid (base : T) (a b c : PreparedRewrite T I) :
    Except RewriteResidualResolutionError (RewriteResidualCubeCertificate T I) := do
  let ab ← authority.resolve base a b
  let ac ← authority.resolve base a c
  let bc ← authority.resolve base b c
  authority.certifyBraidFromLower a b c ab ac bc

/-- The pair diamonds and the pivot braids of one level. A braid reads its three lower faces from
the map of pair diamonds, as `resolve` returned them. -/
def certifyLevel (base : T) (pivot : K × PreparedRewrite T I)
    (tail : List (K × PreparedRewrite T I)) :
    Except RewriteResidualResolutionError
      (RewriteConcurrentNormalizationLevelCertificate K T I) := do
  let pairDiamonds ← (orderedPairs (pivot :: tail)).mapM fun pair => do
    let diamond ← authority.resolve base pair.1.2 pair.2.2
    return ((pair.1.1, pair.2.1), diamond)
  let pivotBraids ← (orderedPairs tail).mapM fun pair => do
    let braid ← authority.certifyBraid base pivot.2 pair.1.2 pair.2.2
    return ((pair.1.1, pair.2.1), braid)
  return ⟨pivot.1, pairDiamonds, pivotBraids, none⟩

/-- `certify_ordered_prefix`, one level of recursion for each rewrite; it is entered non-empty. -/
def certifyOrderedPrefixN : ℕ → T → List (K × PreparedRewrite T I) →
    Except RewriteResidualResolutionError (RewriteConcurrentNormalizationCertificate K T I)
  | _, _, [] => .error .emptyFrontier
  | 0, _, _ => .error .emptyFrontier
  | n + 1, base, pivot :: tail =>
    if tail.isEmpty then .ok ⟨[pivot.1], [pivot.2], [⟨pivot.1, [], [], none⟩], pivot.2⟩
    else do
      let level ← authority.certifyLevel base pivot tail
      let residualTail ← tail.mapM fun entry => do
        let diamond ← authority.resolve base pivot.2 entry.2
        return (entry.1, diamond.rightAfterLeft)
      let rest ← certifyOrderedPrefixN n pivot.2.endpoint residualTail
      let composition ← authority.compose base pivot.2 rest.composite
      return { canonicalOrder := pivot.1 :: rest.canonicalOrder
               canonicalPath := pivot.2 :: rest.canonicalPath
               levels := { level with composition := some composition } :: rest.levels
               composite := composition.composite }

def collectRewrites [Ord K] [TransOrd K] (rewrites : List (K × PreparedRewrite T I)) :
    Except RewriteResidualResolutionError (ExtTreeMap K (PreparedRewrite T I)) :=
  rewrites.foldlM
    (fun ordered entry =>
      if ordered.contains entry.1 then .error .duplicateKey
      else .ok (ordered.insert entry.1 entry.2)) ∅

def certifyFiniteConcurrent [Ord K] [TransOrd K] (base : T)
    (rewrites : List (K × PreparedRewrite T I)) :
    Except RewriteResidualResolutionError (RewriteConcurrentNormalizationCertificate K T I) := do
  let ordered ← collectRewrites rewrites
  if ordered.isEmpty then .error .emptyFrontier
  else authority.certifyOrderedPrefixN ordered.toList.length base ordered.toList

end RewriteResidualResolutionAuthority

/-! ## Orders of a family -/

namespace RewriteResidualResolutionAuthority
section Orders
variable {K T I : Type} [DecidableEq T] [DecidableEq I] [Ord K]
  (authority : RewriteResidualResolutionAuthority T I)

/-- The residual of `y` after `x`; the resolver is asked with the smaller key on the left, as the
normalizer does. -/
def residualAfter (base : T) (x y : K × PreparedRewrite T I) : PreparedRewrite T I :=
  if compare x.1 y.1 = .lt then (authority.residualResolver base x.2 y.2).1
  else (authority.residualResolver base y.2 x.2).2

def applyInOrder (base : T) (order : List (K × PreparedRewrite T I)) : T :=
  run PreparedRewrite.endpoint authority.residualAfter base order

omit [Ord K] in
def levelOk (base : T) : List (K × PreparedRewrite T I) → Bool
  | [] => true
  | pivot :: tail => (authority.certifyLevel base pivot tail).isOk

end Orders

section Level
variable {K T I : Type} [DecidableEq T] [DecidableEq I]
  {authority : RewriteResidualResolutionAuthority T I} {base : T}

omit [DecidableEq I] in
theorem resolve_eq_ok {left right : PreparedRewrite T I} {diamond : RewriteResidualDiamond T I}
    (h : authority.resolve base left right = .ok diamond) :
    diamond = ⟨(authority.residualResolver base left right).1,
      (authority.residualResolver base left right).2⟩ ∧
    (authority.residualResolver base left right).1.endpoint =
      (authority.residualResolver base left right).2.endpoint := by
  unfold resolve at h
  rw [mapError_eq_ok] at h
  exact certifyShared_eq_ok h

/-- A certified braid: its upper faces resolve, and the residuals of all three rewrites agree on
the two ways to them. -/
theorem certifyBraid_eq_ok {a b c : PreparedRewrite T I} {cube : RewriteResidualCubeCertificate T I}
    (h : authority.certifyBraid base a b c = .ok cube) :
    let ρ := authority.residualResolver
    ((ρ a.endpoint (ρ base a b).1 (ρ base a c).1).1 =
        (ρ b.endpoint (ρ base a b).2 (ρ base b c).1).1 ∧
      (ρ a.endpoint (ρ base a b).1 (ρ base a c).1).2 =
        (ρ c.endpoint (ρ base a c).2 (ρ base b c).2).1) ∧
    (∃ d, authority.resolve b.endpoint (ρ base a b).2 (ρ base b c).1 = .ok d) ∧
    ∃ d, authority.resolve c.endpoint (ρ base a c).2 (ρ base b c).2 = .ok d := by
  simp only [certifyBraid, certifyBraidFromLower, bind_eq_ok, mapError_eq_ok] at h
  obtain ⟨ab, hab, ac, hac, bc, hbc, afterA, hA, afterB, hB, afterC, hC, hcube⟩ := h
  obtain ⟨rfl, _⟩ := resolve_eq_ok hab
  obtain ⟨rfl, _⟩ := resolve_eq_ok hac
  obtain ⟨rfl, _⟩ := resolve_eq_ok hbc
  obtain ⟨htop, hmiddle, _⟩ := certifyBraidCube_eq_ok hcube
  have hA' := (resolve_eq_ok hA).1
  have hB' := (resolve_eq_ok hB).1
  have hC' := (resolve_eq_ok hC).1
  subst hA' hB' hC'
  exact ⟨⟨htop, hmiddle⟩, ⟨_, hB⟩, _, hC⟩

theorem levelOk_cons {pivot : K × PreparedRewrite T I} {tail : List (K × PreparedRewrite T I)} :
    authority.levelOk base (pivot :: tail) = true ↔ (∀ pair ∈ orderedPairs (pivot :: tail),
        ∃ d, authority.resolve base pair.1.2 pair.2.2 = .ok d) ∧
      ∀ pair ∈ orderedPairs tail,
        ∃ cube, authority.certifyBraid base pivot.2 pair.1.2 pair.2.2 = .ok cube := by
  have hok : authority.levelOk base (pivot :: tail) = true ↔
      ∃ level, authority.certifyLevel base pivot tail = .ok level := by
    rw [levelOk]
    cases authority.certifyLevel base pivot tail <;> simp [Except.isOk, Except.toBool]
  rw [hok]
  unfold certifyLevel
  simp only [bind_eq_ok]
  constructor
  · rintro ⟨level, diamonds, hd, braids, hb, _⟩
    exact ⟨(exists_mapM_pair _ _).mp ⟨_, hd⟩, (exists_mapM_pair _ _).mp ⟨_, hb⟩⟩
  · rintro ⟨hd, hb⟩
    obtain ⟨diamonds, hdiamonds⟩ := (exists_mapM_pair
      (fun pair diamond => ((pair.1.1, pair.2.1), diamond)) _).mpr hd
    obtain ⟨braids, hbraids⟩ := (exists_mapM_pair
      (fun pair braid => ((pair.1.1, pair.2.1), braid)) _).mpr hb
    exact ⟨_, diamonds, hdiamonds, braids, hbraids, rfl⟩

end Level

section Ascending
variable {K T I : Type} [Ord K] {authority : RewriteResidualResolutionAuthority T I} {base : T}

def Ascending (current : List (K × PreparedRewrite T I)) : Prop :=
  current.Pairwise fun x y => compare x.1 y.1 = .lt

theorem Ascending.through {xs ys : List (K × PreparedRewrite T I)} {x : K × PreparedRewrite T I}
    (h : Ascending (xs ++ x :: ys)) (base : T) :
    Ascending (through authority.residualAfter base x (xs ++ ys)) := by
  have hsub : Ascending (xs ++ ys) :=
    h.sublist (List.Sublist.append_left (sublist_cons_self x ys) xs)
  exact pairwise_map.mpr hsub

section
variable {k k' : K} (h : compare k k' = .lt) (r r' : PreparedRewrite T I)
include h

theorem residualAfter_lt :
    authority.residualAfter base (k, r) (k', r') = (authority.residualResolver base r r').1 :=
  if_pos h

theorem residualAfter_gt [OrientedOrd K] :
    authority.residualAfter base (k', r') (k, r) = (authority.residualResolver base r r').2 := by
  have hgt : compare k' k ≠ .lt := by
    rw [OrientedOrd.eq_swap, h]
    decide
  exact if_neg hgt

end

end Ascending

section Moves
variable {K T I : Type} [DecidableEq T] [DecidableEq I] [Ord K] [OrientedOrd K]
  {authority : RewriteResidualResolutionAuthority T I} {base : T}

theorem pivotMoves_of_levelOk {a : K × PreparedRewrite T I} {tail : List (K × PreparedRewrite T I)}
    (hasc : Ascending (a :: tail)) (hlevel : authority.levelOk base (a :: tail) = true) :
    Residual.PivotMoves PreparedRewrite.endpoint authority.residualAfter base a tail := by
  obtain ⟨hpairs, hbraids⟩ := levelOk_cons.mp hlevel
  obtain ⟨hfirst, htail⟩ := pairwise_cons.mp hasc
  refine ⟨fun x hx => ?_, fun xs x ys htl y hy => ?_⟩
  · obtain ⟨d, hd⟩ := hpairs (a, x) (mem_orderedPairs [] hx)
    exact (residualAfter_lt (hfirst x hx) a.2 x.2 ▸ residualAfter_gt (hfirst x hx) a.2 x.2 ▸
      (resolve_eq_ok hd).2)
  · subst htl
    have hax := hfirst x (by simp)
    have hay := hfirst y (by
      rcases mem_append.mp hy with hy | hy <;> simp [hy])
    obtain ⟨kx, x⟩ := x
    obtain ⟨ky, y⟩ := y
    rw [residualAfter_lt hax, residualAfter_lt hay, residualAfter_gt hax, residualAfter_lt hay]
    rcases mem_append.mp hy with hy | hy
    · -- `y` comes before `x`: the braid of the pivot with `y` and `x`
      have hyx : compare ky kx = .lt := (pairwise_append.mp htail).2.2 _ hy (kx, x) mem_cons_self
      obtain ⟨xs, zs, rfl⟩ := append_of_mem hy
      have hmem : ((ky, y), (kx, x)) ∈ orderedPairs (xs ++ (ky, y) :: (zs ++ (kx, x) :: ys)) :=
        mem_orderedPairs xs (by simp)
      obtain ⟨cube, hcube⟩ := hbraids ((ky, y), (kx, x)) (by simpa using hmem)
      obtain ⟨⟨_, hmiddle⟩, _⟩ := certifyBraid_eq_ok hcube
      rw [residualAfter_gt hyx, residualAfter_gt hyx]
      exact hmiddle
    · -- `y` comes after `x`: the braid of the pivot with `x` and `y`
      have hxy : compare kx ky = .lt := rel_of_pairwise_cons (pairwise_append.mp htail).2.1 hy
      obtain ⟨cube, hcube⟩ := hbraids ((kx, x), (ky, y)) (mem_orderedPairs xs hy)
      obtain ⟨⟨htop, _⟩, _⟩ := certifyBraid_eq_ok hcube
      rw [residualAfter_lt hxy, residualAfter_lt hxy]
      exact htop

omit [OrientedOrd K] in
theorem certifyOrderedPrefixN_spec {n : ℕ} {current : List (K × PreparedRewrite T I)}
    {certificate : RewriteConcurrentNormalizationCertificate K T I} (hasc : Ascending current)
    (h : authority.certifyOrderedPrefixN n base current = .ok certificate) :
    canonical PreparedRewrite.endpoint authority.residualAfter authority.levelOk n base
      current = true ∧
    certificate.commonEndpoint = authority.applyInOrder base current := by
  induction n generalizing base current certificate with
  | zero => cases current <;> cases h
  | succ n ih =>
    cases current with
    | nil => cases h
    | cons pivot tail =>
      rw [certifyOrderedPrefixN] at h
      split_ifs at h with hempty
      · have htail : tail = [] := isEmpty_iff.mp hempty
        subst htail
        cases h
        exact ⟨by cases n <;> rfl, rfl⟩
      · simp only [bind_eq_ok] at h
        obtain ⟨level, hlevel, residualTail, htail, rest, hrest, composition, hcomp, hcert⟩ := h
        cases hcert
        have hfirst := (pairwise_cons.mp hasc).1
        have hthrough : residualTail = through authority.residualAfter base pivot tail := by
          refine mapM_eq_map htail fun entry hentry y hy => ?_
          obtain ⟨d, hd, hy⟩ := bind_eq_ok.mp hy
          cases hy
          rw [(resolve_eq_ok hd).1]
          exact congrArg (Prod.mk entry.1) (residualAfter_lt (hfirst entry hentry) pivot.2 entry.2).symm
        subst hthrough
        have hasc' : Ascending (through authority.residualAfter base pivot ([] ++ tail)) :=
          Ascending.through hasc base
        obtain ⟨hcanon, hend⟩ := ih hasc' hrest
        rw [compose, mapError_eq_ok] at hcomp
        obtain ⟨rfl, hsame⟩ := sequential_certifyShared_eq_ok hcomp
        refine ⟨?_, ?_⟩
        · rw [canonical, levelOk, hlevel]
          exact hcanon
        · rw [applyInOrder, run_cons]
          exact hsame.trans hend

end Moves

/-! ## Families of at most three -/

section Small
variable {K T I : Type} [DecidableEq T] [DecidableEq I] [Ord K]
  {authority : RewriteResidualResolutionAuthority T I} {base : T}

variable (authority) in
/-- Every context that some order reaches passes the level checks. -/
abbrev allLevelsOk (n : ℕ) (base : T) (current : List (K × PreparedRewrite T I)) : Bool :=
  settled PreparedRewrite.endpoint authority.residualAfter authority.levelOk n base current

variable (authority) in
/-- Every context outside the canonical prefixes passes the level checks. -/
abbrev otherLevelsOk (n : ℕ) (base : T) (current : List (K × PreparedRewrite T I)) : Bool :=
  offCanonical PreparedRewrite.endpoint authority.residualAfter authority.levelOk n base current

theorem allLevelsOk_one (n : ℕ) (x : K × PreparedRewrite T I) :
    authority.allLevelsOk n base [x] = true := by
  rcases n with _ | _ | n <;> rfl

theorem allLevelsOk_two (n : ℕ) {x y : K × PreparedRewrite T I}
    (h : ∃ d, authority.resolve base x.2 y.2 = .ok d) :
    authority.allLevelsOk n base [x, y] = true := by
  cases n with
  | zero => rfl
  | succ n =>
    rw [settled_succ, levelOk_cons]
    refine ⟨⟨fun pair hpair => ?_, fun pair hpair => absurd hpair not_mem_nil⟩,
      fun xs z ys hsplit => ?_⟩
    · have hpair' : pair = (x, y) := by simpa [orderedPairs] using hpair
      rw [hpair']
      exact h
    · have hone : (xs ++ ys).length = 1 := by
        have hlen := congrArg List.length hsplit
        simp only [length_cons, length_nil, length_append] at hlen ⊢
        omega
      obtain ⟨w, hw⟩ := length_eq_one_iff.mp hone
      rw [hw]
      exact allLevelsOk_one n _

theorem otherLevelsOk_one (n : ℕ) (current : List (K × PreparedRewrite T I))
    (hlen : current.length ≤ 1) : authority.otherLevelsOk n base current = true := by
  rcases current with _ | ⟨a, _ | ⟨b, tail⟩⟩
  · cases n <;> rfl
  · rcases n with _ | _ | n <;> rfl
  · simp at hlen

theorem otherLevelsOk_two (n : ℕ) (a b : K × PreparedRewrite T I) :
    authority.otherLevelsOk n base [a, b] = true := by
  cases n with
  | zero => rfl
  | succ n =>
    rw [offCanonical_cons]
    refine ⟨otherLevelsOk_one n _ (by simp), fun xs x ys h => ?_⟩
    obtain ⟨rfl, rfl, rfl⟩ : xs = [] ∧ x = b ∧ ys = [] := by
      cases xs <;> simp_all
    exact allLevelsOk_one n _

variable [OrientedOrd K]

/-- With three rewrites the braid of the first level checks the two other contexts too. -/
theorem otherLevelsOk_three (n : ℕ) {a b c : K × PreparedRewrite T I}
    (hasc : Ascending [a, b, c]) (hlevel : authority.levelOk base [a, b, c] = true) :
    authority.otherLevelsOk n base [a, b, c] = true := by
  cases n with
  | zero => rfl
  | succ n =>
    obtain ⟨cube, hcube⟩ := (levelOk_cons.mp hlevel).2 (b, c) (by simp [orderedPairs])
    obtain ⟨_, hb, hc⟩ := certifyBraid_eq_ok hcube
    obtain ⟨hfirst, htail⟩ := pairwise_cons.mp hasc
    have hab := hfirst b (by simp)
    have hac := hfirst c (by simp)
    have hbc : compare b.1 c.1 = .lt := rel_of_pairwise_cons htail (by simp)
    rw [offCanonical_cons]
    refine ⟨otherLevelsOk_two n _ _, fun xs x ys h => ?_⟩
    rcases xs with _ | ⟨y, xs⟩
    · obtain ⟨rfl, rfl⟩ := List.cons.inj h
      apply allLevelsOk_two
      rw [← residualAfter_gt hab a.2 b.2, ← residualAfter_lt hbc b.2 c.2] at hb
      exact hb
    · obtain ⟨rfl, hrest⟩ := List.cons.inj h
      obtain ⟨rfl, rfl, rfl⟩ : xs = [] ∧ x = c ∧ ys = [] := by
        cases xs <;> simp_all
      apply allLevelsOk_two
      rw [← residualAfter_gt hac a.2 x.2, ← residualAfter_gt hbc b.2 x.2] at hc
      exact hc

theorem otherLevelsOk_of_le_three (n : ℕ) {current : List (K × PreparedRewrite T I)}
    (hasc : Ascending current) (hlen : current.length ≤ 3)
    (hlevel : authority.levelOk base current = true) :
    authority.otherLevelsOk n base current = true := by
  rcases current with _ | ⟨a, _ | ⟨b, _ | ⟨c, _ | ⟨d, tail⟩⟩⟩⟩
  · exact otherLevelsOk_one n _ (by simp)
  · exact otherLevelsOk_one n _ (by simp)
  · exact otherLevelsOk_two n a b
  · exact otherLevelsOk_three n hasc hlevel
  · simp only [length_cons] at hlen
    omega

end Small

/-! ## The ordered family -/

section Collect
variable {K T I : Type} [Ord K] [TransOrd K] [LawfulEqOrd K]
  {rewrites : List (K × PreparedRewrite T I)} {ordered : ExtTreeMap K (PreparedRewrite T I)}

theorem collectRewrites_perm (h : collectRewrites rewrites = .ok ordered) :
    ordered.toList.Perm rewrites := by
  refine foldlM_visited (I := fun acc done => acc.toList.Perm done) ?_ rewrites h (List.Perm.refl [])
  intro acc done entry acc' hacc hstep
  split_ifs at hstep with hdup
  cases hstep
  have hnot : entry.1 ∉ acc := fun hmem => hdup (ExtTreeMap.contains_iff_mem.mpr hmem)
  refine (toList_insert_perm entry.2 hnot).trans ?_
  exact (hacc.cons entry).trans (perm_append_singleton entry done).symm

omit [LawfulEqOrd K] in
theorem ascending_toList (ordered : ExtTreeMap K (PreparedRewrite T I)) :
    Ascending ordered.toList :=
  ordered.ordered_keys_toList

end Collect

end RewriteResidualResolutionAuthority

section Certified
variable {K T I : Type} [DecidableEq T] [DecidableEq I] [Ord K] [TransOrd K] [LawfulEqOrd K]

open RewriteResidualResolutionAuthority

/-- A certified family ends at the common endpoint in every order, if the contexts outside the
canonical prefixes pass the checks too. Up to three rewrites this needs no check. -/
theorem certified_applyInOrder {authority : RewriteResidualResolutionAuthority T I} {base : T}
    {rewrites order : List (K × PreparedRewrite T I)} {ordered : ExtTreeMap K (PreparedRewrite T I)}
    {certificate : RewriteConcurrentNormalizationCertificate K T I}
    (hcertify : authority.certifyFiniteConcurrent base rewrites = .ok certificate)
    (hordered : collectRewrites rewrites = .ok ordered)
    (hother : 4 ≤ rewrites.length →
      authority.otherLevelsOk rewrites.length base ordered.toList = true)
    (hperm : order.Perm rewrites) :
    authority.applyInOrder base order = certificate.commonEndpoint := by
  have hsame := collectRewrites_perm hordered
  have hasc := ascending_toList ordered
  unfold certifyFiniteConcurrent at hcertify
  rw [hordered] at hcertify
  change (if ordered.isEmpty = true then _ else _) = _ at hcertify
  split_ifs at hcertify
  obtain ⟨hcanon, hend⟩ := certifyOrderedPrefixN_spec hasc hcertify
  have hlen : ordered.toList.length = rewrites.length := hsame.length_eq
  have hroot : authority.levelOk base ordered.toList = true := by
    generalize ordered.toList = current at hcanon
    cases current with
    | nil => rfl
    | cons pivot tail => exact (Bool.and_eq_true_iff.mp hcanon).1
  have hother' : authority.otherLevelsOk rewrites.length base ordered.toList = true := by
    rcases Nat.lt_or_ge rewrites.length 4 with hsmall | hlarge
    · exact otherLevelsOk_of_le_three _ hasc (hlen ▸ Nat.le_of_lt_succ hsmall) hroot
    · exact hother hlarge
  rw [hlen] at hcanon
  have hsettled := Residual.settled_of_canonical (fun _ => rfl) hcanon hother'
  rw [hend]
  exact Residual.run_perm (I := RewriteResidualResolutionAuthority.Ascending)
    (fun base xs x ys h => h.through base)
    (fun base a tail h hlevel => pivotMoves_of_levelOk h hlevel)
    hlen.le hasc hsettled (hperm.trans hsame.symm)

/-! ## A context that no check sees -/

/-- The additive rewrites of the source's tests: a delta and the endpoint it reaches. -/
def addRewrite (delta endpoint : ℕ) : PreparedRewrite ℕ ℕ := ⟨1, [delta], .replace endpoint, 2⟩

def additiveFamily : RewriteFamilyIdentity := ⟨1, 2⟩

def additiveRegistries :
    RewriteResidualFamilyRegistry × RewriteSequentialFamilyRegistry :=
  (⟨{(⟨additiveFamily, additiveFamily⟩,
      ⟨3, ⟨additiveFamily, additiveFamily⟩, additiveFamily, additiveFamily⟩)},
    {(3, ⟨additiveFamily, additiveFamily⟩)}⟩,
   ⟨{(⟨additiveFamily, additiveFamily⟩, ⟨4, ⟨additiveFamily, additiveFamily⟩, additiveFamily⟩)},
    {(4, ⟨additiveFamily, additiveFamily⟩)}⟩)

def deltaOf (rewrite : PreparedRewrite ℕ ℕ) : ℕ := rewrite.explicitInputs.headD 0

/-- Additive residuals, and `exceptional` at base `2` for the deltas `3` and `4`. -/
def additiveAuthority (exceptional : ℕ) : RewriteResidualResolutionAuthority ℕ ℕ where
  residualRegistry := additiveRegistries.1
  sequentialRegistry := additiveRegistries.2
  residualResolver base left right := let endpoint := base + deltaOf left + deltaOf right
    if base = 2 ∧ deltaOf left = 3 ∧ deltaOf right = 4 then
      (addRewrite exceptional (base + deltaOf left + exceptional), addRewrite 3 endpoint)
    else (addRewrite (deltaOf right) endpoint, addRewrite (deltaOf left) endpoint)
  sequentialResolver base first second :=
    addRewrite (deltaOf first + deltaOf second) (base + deltaOf first + deltaOf second)

def fourRewrites : List (ℕ × PreparedRewrite ℕ ℕ) :=
  [(10, addRewrite 1 1), (20, addRewrite 2 2), (30, addRewrite 3 3), (40, addRewrite 4 4)]

/-- With plain additive residuals all orders of the four rewrites end in `10`. -/
theorem certified_additive_four : ∃ certificate,
    (additiveAuthority 4).certifyFiniteConcurrent 0 fourRewrites = .ok certificate ∧
    certificate.commonEndpoint = 10 ∧
    ∀ order : List (ℕ × PreparedRewrite ℕ ℕ), order.Perm fourRewrites →
      (additiveAuthority 4).applyInOrder 0 order = certificate.commonEndpoint := by
  have hview : ((additiveAuthority 4).certifyFiniteConcurrent 0 fourRewrites).map
      RewriteConcurrentNormalizationCertificate.commonEndpoint = .ok 10 := by decide +kernel
  have hlist : (collectRewrites fourRewrites).map
      ExtTreeMap.toList = .ok fourRewrites := by decide +kernel
  have hother : (additiveAuthority 4).otherLevelsOk 4 0 fourRewrites = true := by decide +kernel
  cases hcertify : (additiveAuthority 4).certifyFiniteConcurrent 0 fourRewrites with
  | error e =>
    rw [hcertify] at hview
    cases hview
  | ok certificate =>
    cases hordered : collectRewrites fourRewrites with
    | error e =>
      rw [hordered] at hlist
      cases hlist
    | ok ordered =>
      rw [hcertify] at hview
      rw [hordered] at hlist
      have hend : certificate.commonEndpoint = 10 := Except.ok.inj hview
      have hsorted : ordered.toList = fourRewrites := Except.ok.inj hlist
      rw [← hsorted] at hother
      exact ⟨certificate, rfl, hend, fun order hperm =>
        certified_applyInOrder hcertify hordered (fun _ => hother) hperm⟩

/-- The common endpoint is `10`, and the order `20, 30, 40, 10` ends in `56`: it asks for the
residuals of `30` and `40` at the endpoint of `20`. -/
theorem certified_order_misses_endpoint :
    ((additiveAuthority 50).certifyFiniteConcurrent 0 fourRewrites).map
        RewriteConcurrentNormalizationCertificate.commonEndpoint = .ok 10 ∧
      [(20, addRewrite 2 2), (30, addRewrite 3 3), (40, addRewrite 4 4),
        (10, addRewrite 1 1)].Perm fourRewrites ∧
      (additiveAuthority 50).applyInOrder 0 [(20, addRewrite 2 2), (30, addRewrite 3 3),
        (40, addRewrite 4 4), (10, addRewrite 1 1)] = 56 := by
  refine ⟨?_, ?_, ?_⟩ <;> decide +kernel

end Certified

end Cfmd.Rewrite
