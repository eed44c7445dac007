import Cfmd.Semantics.KeyLaws
import Cfmd.Semantics.Measure

/-! Keys that tell other keys. One level of a key reads the keys of its parts, so a
relation of nodes that is closed under one level is a refinement of their keys. -/

namespace Cfmd.Semantics
open Std Lib List

def SemanticRegistry.contractRefines (finer coarser : EquivalenceModule) : Bool :=
  finer = coarser ∨ finer = .textExact ∧ coarser = .textAsciiCaseInsensitive

/-! ### Levels of one shape -/

section
variable {ν : Type}

inductive KindRefines (R : ν → ν → Prop) : EquivalenceKind ν → EquivalenceKind ν → Prop
  | primitive {finer coarser : ResolvedPrimitiveEquivalence} :
      SemanticRegistry.contractRefines finer.contract coarser.contract →
      KindRefines R (.primitive finer) (.primitive coarser)
  | mu {finer coarser : ν} : R finer coarser → KindRefines R (.mu finer) (.mu coarser)
  | var {finer coarser : ν} : R finer coarser → KindRefines R (.var finer) (.var coarser)
  | product {finer coarser : List (SemanticId × ν)} :
      Forall₂ (fun a b => a.1 = b.1 ∧ R a.2 b.2) finer coarser →
      KindRefines R (.product finer) (.product coarser)
  | option {finer coarser : ν} : R finer coarser → KindRefines R (.option finer) (.option coarser)
  | sum {finer coarser : List (SemanticId × ν)} :
      Forall₂ (fun a b => a.1 = b.1 ∧ R a.2 b.2) finer coarser →
      KindRefines R (.sum finer) (.sum coarser)
  | set {finer coarser : ν} : R finer coarser → KindRefines R (.set finer) (.set coarser)
  | bag {finer coarser : ν} : R finer coarser → KindRefines R (.bag finer) (.bag coarser)
  | seq {finer coarser : ν} : R finer coarser → KindRefines R (.seq finer) (.seq coarser)
  | map {finerKey coarserKey finerValue coarserValue : ν} : R finerKey coarserKey →
      R finerValue coarserValue →
      KindRefines R (.map finerKey finerValue) (.map coarserKey coarserValue)

end

def KeysRefine {ε α κ : Type} (finer coarser : α → Except ε κ) : Prop :=
  ∀ left right key leftKey rightKey, finer left = .ok key → finer right = .ok key →
    coarser left = .ok leftKey → coarser right = .ok rightKey → leftKey = rightKey

def KeysBetween {ε α κ : Type} (finer middle coarser : α → Except ε κ) : Prop :=
  ∀ value, (∃ key, finer value = .ok key) → (∃ key, coarser value = .ok key) →
    ∃ key, middle value = .ok key

namespace KeysRefine
variable {α κ : Type} {f g : α → Fallible SemanticError κ}

theorem of_eq (f : α → Fallible SemanticError κ) : KeysRefine f f := by
  intro left right key leftKey rightKey hl hr hl' hr'
  rw [hl, Except.ok.injEq] at hl'
  rw [hr, Except.ok.injEq] at hr'
  exact hl'.symm.trans hr'

theorem mapM (h : KeysRefine f g) :
    KeysRefine (fun values : List α => values.mapM f) fun values => values.mapM g := by
  intro left right keys leftKeys rightKeys hl hr hl' hr'
  rw [mapM_eq_ok] at hl hr hl' hr'
  induction hl generalizing right leftKeys rightKeys with
  | nil =>
    match hr, hl', hr' with
    | .nil, .nil, .nil => rfl
  | cons hk _ ih =>
    match hr, hl', hr' with
    | .cons hk' hr, .cons hkl hl', .cons hkr hr' =>
      rw [h _ _ _ _ _ hk hk' hkl hkr, ih _ _ _ hr hl' hr']

theorem exists_pairs {values : List α} {keys keys' : List κ} (hf : values.mapM f = .ok keys)
    (hg : values.mapM g = .ok keys') :
    ∃ pairs : List (κ × κ), pairs.map Prod.fst = keys ∧ pairs.map Prod.snd = keys' ∧
      ∀ pair ∈ pairs, ∃ value ∈ values, f value = .ok pair.1 ∧ g value = .ok pair.2 := by
  rw [mapM_eq_ok] at hf hg
  induction hf generalizing keys' with
  | nil =>
    cases hg
    exact ⟨[], rfl, rfl, fun _ h => absurd h not_mem_nil⟩
  | @cons value key values keys hk _ ih =>
    cases hg with
    | @cons _ key' _ keys' hk' hg =>
      obtain ⟨pairs, rfl, rfl, hpairs⟩ := ih hg
      refine ⟨(key, key') :: pairs, rfl, rfl, forall_mem_cons.mpr ⟨?_, ?_⟩⟩
      · exact ⟨value, mem_cons_self, hk, hk'⟩
      · intro pair hpair
        obtain ⟨value', hmem, hkeys⟩ := hpairs pair hpair
        exact ⟨value', mem_cons_of_mem _ hmem, hkeys⟩

variable [Ord κ] [TransOrd κ] [LawfulEqOrd κ] [DecidableEq κ]

/-- Collections with one measure of finer keys are permutations of each other up to
them, so also up to the coarser ones. -/
theorem measureOf (h : KeysRefine f g) : KeysRefine (measureOf f) (measureOf g) := by
  intro left right measure leftMeasure rightMeasure hl hr hl' hr'
  obtain ⟨lefts, hlefts, hl⟩ := bind_eq_ok.mp hl
  obtain ⟨rights, hrights, hr⟩ := bind_eq_ok.mp hr
  obtain ⟨lefts', hlefts', hl'⟩ := bind_eq_ok.mp hl'
  obtain ⟨rights', hrights', hr'⟩ := bind_eq_ok.mp hr'
  obtain ⟨ps, rfl, rfl, hps⟩ := exists_pairs hlefts hlefts'
  obtain ⟨qs, rfl, rfl, hqs⟩ := exists_pairs hrights hrights'
  rw [measure_eq_iff hl' hr']
  apply perm_map_snd ((measure_eq_iff hl hr).mp rfl)
  intro p hp q hq heq
  obtain ⟨value, _, hfine, hcoarse⟩ := hps p hp
  obtain ⟨value', _, hfine', hcoarse'⟩ := hqs q hq
  rw [← heq] at hfine'
  exact h value value' p.1 p.2 q.2 hfine hfine' hcoarse hcoarse'

end KeysRefine

namespace KeysBetween
variable {α κ : Type} {f g h : α → Fallible SemanticError κ}

theorem mapM (hb : KeysBetween f g h) :
    KeysBetween (fun values : List α => values.mapM f) (fun values => values.mapM g)
      fun values => values.mapM h := by
  intro values hf hh
  rw [exists_mapM] at hf hh ⊢
  exact fun value hvalue => hb value (hf value hvalue) (hh value hvalue)

/-- A class of the middle keys is within one of the coarser keys, so its count fits. -/
theorem measureOf [Ord κ] [TransOrd κ] [LawfulEqOrd κ] [DecidableEq κ] (hb : KeysBetween f g h)
    (hr : KeysRefine g h) :
    KeysBetween (measureOf f) (measureOf g) (measureOf h) := by
  rintro values ⟨measure, hf⟩ ⟨measure', hh⟩
  obtain ⟨fs, hfs, _⟩ := bind_eq_ok.mp hf
  obtain ⟨hs, hhs, hh⟩ := bind_eq_ok.mp hh
  obtain ⟨gs, hgs⟩ := hb.mapM values ⟨fs, hfs⟩ ⟨hs, hhs⟩
  obtain ⟨pairs, rfl, rfl, hpairs⟩ := KeysRefine.exists_pairs hgs hhs
  have hfits : ∀ a, (pairs.map Prod.fst).count a < 2 ^ 64 := by
    apply count_fst_le _ (by norm_num) (exists_measure.mp ⟨measure', hh⟩)
    intro p hp q hq heq
    obtain ⟨value, _, hfine, hcoarse⟩ := hpairs p hp
    obtain ⟨value', _, hfine', hcoarse'⟩ := hpairs q hq
    rw [← heq] at hfine'
    exact hr value value' p.1 p.2 q.2 hfine hfine' hcoarse hcoarse'
  obtain ⟨measure'', hmeasure⟩ := exists_measure.mpr hfits
  exact ⟨measure'', bind_eq_ok.mpr ⟨_, hgs, hmeasure⟩⟩

end KeysBetween

/-! ### Atoms -/

section
variable {f g h f' g' h' : Value → Fallible SemanticError CanonicalEqKey}

theorem KeysRefine.bagAtom (hr : KeysRefine f g) : KeysRefine (bagAtom f) (bagAtom g) := by
  intro left right atom leftAtom rightAtom hl hr' hl' hr''
  rw [bagAtom_eq_ok] at hl hr' hl' hr''
  obtain ⟨leftValue, leftCount⟩ := leftAtom
  obtain ⟨rightValue, rightCount⟩ := rightAtom
  have hvalue := hr _ _ _ _ _ hl.1 hr'.1 hl'.1 hr''.1
  have hcount : leftCount = rightCount := hl'.2.symm.trans (hl.2.trans (hr'.2.symm.trans hr''.2))
  subst hvalue hcount
  rfl

theorem KeysRefine.mapAtom (hr : KeysRefine f g) (hr' : KeysRefine f' g') :
    KeysRefine (mapAtom f f') (mapAtom g g') := by
  intro left right atom leftAtom rightAtom hfl hfr hgl hgr
  rw [mapAtom_eq_ok] at hfl hfr hgl hgr
  obtain ⟨rightKey, rightValue⟩ := rightAtom
  have hkey := hr _ _ _ _ _ hfl.1 hfr.1 hgl.1 hgr.1
  have hvalue := hr' _ _ _ _ _ hfl.2 hfr.2 hgl.2 hgr.2
  subst hkey hvalue
  rfl

theorem KeysBetween.bagAtom (hb : KeysBetween f g h) :
    KeysBetween (bagAtom f) (bagAtom g) (bagAtom h) := by
  rintro entry ⟨atom, hf⟩ ⟨atom', hh⟩
  rw [bagAtom_eq_ok] at hf hh
  obtain ⟨key, hkey⟩ := hb entry.1 ⟨_, hf.1⟩ ⟨_, hh.1⟩
  exact ⟨⟨key, entry.2⟩, bagAtom_eq_ok.mpr ⟨hkey, rfl⟩⟩

theorem KeysBetween.mapAtom (hb : KeysBetween f g h) (hb' : KeysBetween f' g' h') :
    KeysBetween (mapAtom f f') (mapAtom g g') (mapAtom h h') := by
  rintro entry ⟨atom, hf⟩ ⟨atom', hh⟩
  rw [mapAtom_eq_ok] at hf hh
  obtain ⟨key, hkey⟩ := hb entry.1 ⟨_, hf.1⟩ ⟨_, hh.1⟩
  obtain ⟨value, hvalue⟩ := hb' entry.2 ⟨_, hf.2⟩ ⟨_, hh.2⟩
  exact ⟨⟨key, value⟩, mapAtom_eq_ok.mpr ⟨hkey, hvalue⟩⟩

end

/-! ### Levels that refine -/

theorem canonicalKey_of_contractRefines {finer coarser : ResolvedPrimitiveEquivalence}
    (h : SemanticRegistry.contractRefines finer.contract coarser.contract) :
    ∃ coarsen : CanonicalEqKey → CanonicalEqKey, ∀ value key,
      finer.canonicalKey value = .ok key → coarser.canonicalKey value = .ok (coarsen key) := by
  obtain ⟨equivalence, digest, contract⟩ := finer
  obtain ⟨equivalence', digest', contract'⟩ := coarser
  rw [SemanticRegistry.contractRefines, decide_eq_true_eq] at h
  rcases h with h | ⟨h, h'⟩
  · -- only the error names the equivalence
    subst h
    refine ⟨id, fun value key hkey => ?_⟩
    unfold ResolvedPrimitiveEquivalence.canonicalKey at hkey ⊢
    cases contract <;> cases value <;> try cases hkey
    all_goals try rfl
    all_goals
      dsimp only at hkey ⊢
      split at hkey
      · cases hkey
        rename_i heq
        rw [if_pos heq]
        rfl
      · cases hkey
  · subst h h'
    refine ⟨fun key => match key with
      | .textExact text => .textAsciiCaseInsensitive (toAsciiLowercase text)
      | key => key, fun value key hkey => ?_⟩
    cases value <;> try cases hkey
    rfl

section
variable {ν : Type} {R : ν → ν → Prop} {key : ν → Value → Fallible SemanticError CanonicalEqKey}
  {finer coarser : List (SemanticId × ν)}

section
variable (h : Forall₂ (fun a b => a.1 = b.1 ∧ R a.2 b.2) finer coarser) {name : SemanticId}
include h

theorem lookup_of_keyed {child child' : ν} (hfiner : finer.lookup name = some child)
    (hcoarser : coarser.lookup name = some child') : R child child' := by
  induction h with
  | nil => cases hfiner
  | @cons a b _ _ hab _ ih =>
    rw [lookup_cons] at hfiner hcoarser
    rw [← hab.1] at hcoarser
    split at hfiner
    · rename_i heq
      rw [heq] at hcoarser
      cases hfiner
      cases hcoarser
      exact hab.2
    · rename_i heq
      rw [heq] at hcoarser
      exact ih hfiner hcoarser

theorem exists_lookup_of_keyed {child : ν} (hfiner : finer.lookup name = some child) :
    ∃ child', coarser.lookup name = some child' := by
  induction h with
  | nil => cases hfiner
  | @cons a b _ _ hab _ ih =>
    rw [lookup_cons] at hfiner ⊢
    rw [← hab.1]
    split at hfiner
    · exact ⟨_, rfl⟩
    · exact ih hfiner

end

theorem keyed_keys_eq (hparts : ∀ a b, R a b → KeysRefine (key a) (key b))
    {left right : List (SemanticId × Value)}
    {keys leftKeys rightKeys : List (SemanticId × CanonicalEqKey)}
    (h : Forall₂ (fun a b => a.1 = b.1 ∧ R a.2 b.2) finer coarser)
    (hl : Forall₂ (FieldKey key left) finer keys)
    (hr : Forall₂ (FieldKey key right) finer keys)
    (hl' : Forall₂ (FieldKey key left) coarser leftKeys)
    (hr' : Forall₂ (FieldKey key right) coarser rightKeys) : leftKeys = rightKeys := by
  induction h generalizing keys leftKeys rightKeys with
  | nil =>
    cases hl'
    cases hr'
    rfl
  | @cons a b _ _ hab _ ih =>
    match hl, hr, hl', hr' with
    | .cons ⟨_, child, hchild, hk⟩ hl, .cons ⟨_, child₂, hchild₂, hk₂⟩ hr,
      .cons ⟨hname, child', hchild', hk'⟩ hl', .cons ⟨hname₂, child₂', hchild₂', hk₂'⟩ hr' =>
      -- both levels look a field up under one name
      rw [← hab.1, hchild, Option.some.injEq] at hchild'
      rw [← hab.1, hchild₂, Option.some.injEq] at hchild₂'
      subst hchild' hchild₂'
      have hresult := hparts _ _ hab.2 _ _ _ _ _ hk hk₂ hk' hk₂'
      rw [ih hl hr hl' hr', Prod.ext (hname.symm.trans hname₂) hresult]

theorem keyed_keys_between
    (hbetween : ∀ a b d, R a b → R b d → KeysBetween (key a) (key b) (key d))
    {middle : List (SemanticId × ν)} {values : List (SemanticId × Value)}
    {finerKeys coarserKeys : List (SemanticId × CanonicalEqKey)}
    (h : Forall₂ (fun a b => a.1 = b.1 ∧ R a.2 b.2) finer middle)
    (h' : Forall₂ (fun a b => a.1 = b.1 ∧ R a.2 b.2) middle coarser)
    (hf : Forall₂ (FieldKey key values) finer finerKeys)
    (hc : Forall₂ (FieldKey key values) coarser coarserKeys) :
    ∃ keys, Forall₂ (FieldKey key values) middle keys := by
  induction h generalizing coarser finerKeys coarserKeys with
  | nil => exact ⟨[], .nil⟩
  | @cons a b _ _ hab _ ih =>
    match h', hf, hc with
    | .cons hbd h', .cons ⟨_, child, hchild, hk⟩ hf, .cons ⟨_, child', hchild', hk'⟩ hc =>
      obtain ⟨keys, hkeys⟩ := ih h' hf hc
      rw [← hbd.1, ← hab.1, hchild, Option.some.injEq] at hchild'
      subst hchild'
      obtain ⟨result, hresult⟩ := hbetween _ _ _ hab.2 hbd.2 child ⟨_, hk⟩ ⟨_, hk'⟩
      exact ⟨(b.1, result) :: keys, .cons ⟨rfl, child, hab.1 ▸ hchild, hresult⟩ hkeys⟩

theorem KindRefines.keyOf {finer coarser : EquivalenceKind ν} (hkind : KindRefines R finer coarser)
    (hparts : ∀ a b, R a b → KeysRefine (key a) (key b)) {left right : Value}
    {result leftKey rightKey : CanonicalEqKey} (hl : KeyOf key finer left result)
    (hr : KeyOf key finer right result) (hl' : KeyOf key coarser left leftKey)
    (hr' : KeyOf key coarser right rightKey) : leftKey = rightKey := by
  match hkind, hl, hr, hl', hr' with
  | .primitive hcontract, .primitive hl, .primitive hr, .primitive hl', .primitive hr' =>
    obtain ⟨coarsen, hcoarsen⟩ := canonicalKey_of_contractRefines hcontract
    rw [hcoarsen left result hl, Except.ok.injEq] at hl'
    rw [hcoarsen right result hr, Except.ok.injEq] at hr'
    exact hl'.symm.trans hr'
  | .mu hR, .mu hl, .mu hr, .mu hl', .mu hr' => exact hparts _ _ hR _ _ _ _ _ hl hr hl' hr'
  | .var hR, .var hl, .var hr, .var hl', .var hr' => exact hparts _ _ hR _ _ _ _ _ hl hr hl' hr'
  | .product hR, .product _ hl, .product _ hr, .product _ hl', .product _ hr' =>
    rw [keyed_keys_eq hparts hR hl hr hl' hr']
  | .option _, .optionNone, .optionNone, .optionNone, .optionNone => rfl
  | .option hR, .optionSome hl, .optionSome hr, .optionSome hl', .optionSome hr' =>
    rw [hparts _ _ hR _ _ _ _ _ hl hr hl' hr']
  | .sum hR, .sum hfound hl, .sum hfound₂ hr, .sum hfound' hl', .sum hfound₂' hr' =>
    -- equal finer keys carry one tag, which finds one part on each side
    rw [hfound, Option.some.injEq] at hfound₂
    rw [hfound', Option.some.injEq] at hfound₂'
    subst hfound₂ hfound₂'
    have hR' := lookup_of_keyed hR hfound hfound'
    rw [hparts _ _ hR' _ _ _ _ _ hl hr hl' hr']
  | .set hR, .set hl, .set hr, .set hl', .set hr' =>
    rw [(hparts _ _ hR).measureOf _ _ _ _ _ hl hr hl' hr']
  | .bag hR, .bag hl, .bag hr, .bag hl', .bag hr' =>
    rw [(hparts _ _ hR).bagAtom.measureOf _ _ _ _ _ hl hr hl' hr']
  | .seq hR, .seq hl, .seq hr, .seq hl', .seq hr' =>
    rw [(hparts _ _ hR).mapM _ _ _ _ _ hl hr hl' hr']
  | .map hRkey hRvalue, .map hl, .map hr, .map hl', .map hr' =>
    rw [((hparts _ _ hRkey).mapAtom (hparts _ _ hRvalue)).measureOf _ _ _ _ _ hl hr hl' hr']

theorem KindRefines.keyOf_between {finer middle coarser : EquivalenceKind ν}
    (hfiner : KindRefines R finer middle) (hcoarser : KindRefines R middle coarser)
    (hparts : ∀ a b, R a b → KeysRefine (key a) (key b))
    (hbetween : ∀ a b d, R a b → R b d → KeysBetween (key a) (key b) (key d)) {value : Value}
    {finerKey coarserKey : CanonicalEqKey} (hf : KeyOf key finer value finerKey)
    (hc : KeyOf key coarser value coarserKey) : ∃ result, KeyOf key middle value result := by
  match hfiner, hcoarser, hf, hc with
  | .primitive hcontract, _, .primitive hf, _ =>
    obtain ⟨coarsen, hcoarsen⟩ := canonicalKey_of_contractRefines hcontract
    exact ⟨_, .primitive (hcoarsen value finerKey hf)⟩
  | .mu hR, .mu hR', .mu hf, .mu hc =>
    obtain ⟨result, hresult⟩ := hbetween _ _ _ hR hR' value ⟨_, hf⟩ ⟨_, hc⟩
    exact ⟨result, .mu hresult⟩
  | .var hR, .var hR', .var hf, .var hc =>
    obtain ⟨result, hresult⟩ := hbetween _ _ _ hR hR' value ⟨_, hf⟩ ⟨_, hc⟩
    exact ⟨result, .var hresult⟩
  | .product hR, .product hR', .product hlen hf, .product _ hc =>
    obtain ⟨keys, hkeys⟩ := keyed_keys_between hbetween hR hR' hf hc
    exact ⟨.product keys, .product (hR.length_eq.symm.trans hlen) hkeys⟩
  | .option _, .option _, .optionNone, _ => exact ⟨.optionNone, .optionNone⟩
  | .option hR, .option hR', .optionSome hf, .optionSome hc =>
    obtain ⟨result, hresult⟩ := hbetween _ _ _ hR hR' _ ⟨_, hf⟩ ⟨_, hc⟩
    exact ⟨.optionSome result, .optionSome hresult⟩
  | .sum hR, .sum hR', .sum hfound hf, .sum hfound' hc =>
    obtain ⟨child, hchild⟩ := exists_lookup_of_keyed hR hfound
    have hRchild := lookup_of_keyed hR hfound hchild
    have hRchild' := lookup_of_keyed hR' hchild hfound'
    obtain ⟨result, hresult⟩ := hbetween _ _ _ hRchild hRchild' _ ⟨_, hf⟩ ⟨_, hc⟩
    exact ⟨.variant _ result, .sum hchild hresult⟩
  | .set hR, .set hR', .set hf, .set hc =>
    obtain ⟨measure, hmeasure⟩ := (hbetween _ _ _ hR hR').measureOf (hparts _ _ hR') _
      ⟨_, hf⟩ ⟨_, hc⟩
    exact ⟨.set measure, .set hmeasure⟩
  | .bag hR, .bag hR', .bag hf, .bag hc =>
    obtain ⟨measure, hmeasure⟩ := (hbetween _ _ _ hR hR').bagAtom.measureOf (hparts _ _ hR').bagAtom
      _ ⟨_, hf⟩ ⟨_, hc⟩
    exact ⟨.bag measure, .bag hmeasure⟩
  | .seq hR, .seq hR', .seq hf, .seq hc =>
    obtain ⟨keys, hkeys⟩ := (hbetween _ _ _ hR hR').mapM _ ⟨_, hf⟩ ⟨_, hc⟩
    exact ⟨.seq keys, .seq hkeys⟩
  | .map hRkey hRvalue, .map hRkey' hRvalue', .map hf, .map hc =>
    have hkeys := hbetween _ _ _ hRkey hRkey'
    have hvalues := hbetween _ _ _ hRvalue hRvalue'
    obtain ⟨measure, hmeasure⟩ := (hkeys.mapAtom hvalues).measureOf
      ((hparts _ _ hRkey').mapAtom (hparts _ _ hRvalue')) _ ⟨_, hf⟩ ⟨_, hc⟩
    exact ⟨.map measure, .map hmeasure⟩

end

/-! ### Relations closed under one level -/

section
variable {ν : Type} {R : ν → ν → Prop}
  {view : ν → Fallible SemanticError (SemanticId × EquivalenceKind ν)}

/-- Related nodes are the same or show levels of one shape with related parts. -/
def Stable (view : ν → Fallible SemanticError (SemanticId × EquivalenceKind ν))
    (R : ν → ν → Prop) : Prop :=
  ∀ a b, R a b → a = b ∨ ∃ seen seen', view a = .ok seen ∧ view b = .ok seen' ∧
    KindRefines R seen.2 seen'.2

/-- Each level costs one unit of fuel on both sides, also at a binder, so the keys are
compared level by level. -/
theorem Stable.keysRefine (h : Stable view R) (fuel : ℕ) {a b : ν} (hab : R a b) :
    KeysRefine (keyWith view fuel a) (keyWith view fuel b) := by
  induction fuel generalizing a b with
  | zero =>
    intro left right key leftKey rightKey hl
    cases hl
  | succ fuel ih =>
    rcases h a b hab with heq | ⟨seen, seen', hseen, hseen', hkinds⟩
    · rw [heq]
      exact .of_eq _
    intro left right key leftKey rightKey hl hr hl' hr'
    rw [keyWith_eq_ok hseen] at hl hr
    rw [keyWith_eq_ok hseen'] at hl' hr'
    exact hkinds.keyOf (fun a b hab => ih hab) hl hr hl' hr'

theorem Stable.keysBetween (h : Stable view R) (fuel : ℕ) {a b d : ν} (hab : R a b) (hbd : R b d) :
    KeysBetween (keyWith view fuel a) (keyWith view fuel b) (keyWith view fuel d) := by
  induction fuel generalizing a b d with
  | zero =>
    rintro value ⟨key, hkey⟩
    cases hkey
  | succ fuel ih =>
    rintro value ⟨finerKey, hf⟩ ⟨coarserKey, hc⟩
    rcases h a b hab with heq | ⟨seen, seen', hseen, hseen', hkinds⟩
    · exact ⟨finerKey, heq ▸ hf⟩
    rcases h b d hbd with heq | ⟨seen₂, seen'', hseen₂, hseen'', hkinds'⟩
    · exact ⟨coarserKey, heq ▸ hc⟩
    rw [hseen', Except.ok.injEq] at hseen₂
    subst hseen₂
    rw [keyWith_eq_ok hseen] at hf
    rw [keyWith_eq_ok hseen''] at hc
    obtain ⟨result, hresult⟩ := hkinds.keyOf_between hkinds'
      (fun a b hab => h.keysRefine fuel hab) (fun a b d hab hbd => ih hab hbd) hf hc
    exact ⟨result, (keyWith_eq_ok hseen').mpr hresult⟩

end

end Cfmd.Semantics
