import Cfmd.Semantics.Equivalence

/-! Canonical keys over a graph: their fuel, graphs that look alike, and what two
keys say about two values. -/

namespace Cfmd.Semantics
open Std Lib CanonicalEqKey List

namespace EquivalenceKind
variable {ν μ : Type}

def children : EquivalenceKind ν → List ν
  | primitive _ => []
  | mu body => [body]
  | var binder => [binder]
  | product fields => fields.map Prod.snd
  | option inner => [inner]
  | sum variants => variants.map Prod.snd
  | set element => [element]
  | bag element => [element]
  | seq element => [element]
  | map key value => [key, value]

def silent : EquivalenceKind ν → Option ν
  | mu body => some body
  | var binder => some binder
  | _ => none

def rename (f : ν → μ) : EquivalenceKind ν → EquivalenceKind μ
  | primitive resolved => .primitive resolved
  | mu body => .mu (f body)
  | var binder => .var (f binder)
  | product fields => .product (fields.map fun entry => (entry.1, f entry.2))
  | option inner => .option (f inner)
  | sum variants => .sum (variants.map fun entry => (entry.1, f entry.2))
  | set element => .set (f element)
  | bag element => .bag (f element)
  | seq element => .seq (f element)
  | map key value => .map (f key) (f value)

section
variable (f : ν → μ) (kind : EquivalenceKind ν)

theorem silent_rename : (kind.rename f).silent = kind.silent.map f := by
  cases kind <;> rfl

theorem children_rename : (kind.rename f).children = kind.children.map f := by
  cases kind with
  | product fields | sum variants => simp [rename, children, Function.comp_def]
  | _ => rfl

end

theorem mem_children_of_silent {kind : EquivalenceKind ν} {child : ν}
    (h : kind.silent = some child) : child ∈ kind.children := by
  cases kind with
  | mu body | var binder =>
    cases h
    exact mem_singleton_self _
  | _ => cases h

end EquivalenceKind

theorem mem_of_lookup {ν : Type} {entries : List (SemanticId × ν)} {name : SemanticId} {found : ν}
    (h : entries.lookup name = some found) : (name, found) ∈ entries := by
  obtain ⟨before, after, rfl, _⟩ := lookup_eq_some_iff.mp h
  exact mem_append_right _ mem_cons_self

theorem lookup_rename {ν μ : Type} (f : ν → μ) (entries : List (SemanticId × ν))
    (name : SemanticId) :
    (entries.map fun entry => (entry.1, f entry.2)).lookup name = (entries.lookup name).map f := by
  induction entries with
  | nil => rfl
  | cons entry rest ih =>
    rw [map_cons, lookup_cons, lookup_cons, ih]
    split
    · rfl
    · rfl

/-! ### One level -/

section
variable {ν μ : Type} {key key' : ν → Value → Fallible SemanticError CanonicalEqKey}
  {equivalence : SemanticId} {kind : EquivalenceKind ν} {value : Value}
  {values : List (SemanticId × Value)} {f : Value → Fallible SemanticError CanonicalEqKey}
  {result : CanonicalEqKey}

theorem keyLayer_rename (key : μ → Value → Fallible SemanticError CanonicalEqKey) (f : ν → μ)
    (equivalence : SemanticId) (kind : EquivalenceKind ν) (value : Value) :
    keyLayer key equivalence (kind.rename f) value =
      keyLayer (fun child => key (f child)) equivalence kind value := by
  cases kind with
  | product fields =>
    cases value with
    | product values =>
      simp only [EquivalenceKind.rename, keyLayer, length_map, mapM_map, Function.comp_def]
    | _ => rfl
  | sum variants =>
    cases value with
    | variant tag value =>
      simp only [EquivalenceKind.rename, keyLayer, lookup_rename]
      cases variants.lookup tag with
      | none | some child => rfl
    | _ => rfl
  | option inner =>
    cases value with
    | option value => cases value <;> rfl
    | _ => rfl
  | primitive resolved | mu body | var binder => rfl
  | _ => cases value <;> rfl

theorem measureOf_rel {α β : Type} [Ord β] [TransOrd β] (Q : Congruence SemanticError)
    {atom atom' : α → Fallible SemanticError β} {entries : List α}
    (h : ∀ entry ∈ entries, Q.rel (atom entry) (atom' entry)) :
    Q.rel (measureOf atom entries) (measureOf atom' entries) :=
  Q.bind (Q.mapM h) fun _ => Q.refl _

theorem keyLayer_rel (Q : Congruence SemanticError)
    (h : ∀ child ∈ kind.children, ∀ value, Q.rel (key child value) (key' child value)) :
    Q.rel (keyLayer key equivalence kind value) (keyLayer key' equivalence kind value) := by
  fun_cases keyLayer key equivalence kind value <;> simp only [keyLayer]
  case case1 => exact Q.refl _
  case case2 => exact h _ (mem_singleton_self _) _
  case case3 => exact h _ (mem_singleton_self _) _
  case case4 hlen =>
    rw [if_pos hlen]
    exact Q.refl _
  case case5 fields values hlen =>
    rw [if_neg hlen]
    refine Q.bind (Q.mapM fun entry hentry => ?_) fun keys => Q.refl _
    exact Q.bind (Q.refl _) fun child =>
      Q.bind (h _ (mem_map_of_mem hentry) _) fun key => Q.refl _
  case case6 => exact Q.refl _
  case case7 => exact Q.bind (h _ (mem_singleton_self _) _) fun key => Q.refl _
  case case8 hnone =>
    rw [hnone]
    exact Q.refl _
  case case9 variants tag value child hsome =>
    rw [hsome]
    exact Q.bind (h _ (mem_map_of_mem (mem_of_lookup hsome)) _) fun key => Q.refl _
  case case10 =>
    exact Q.bind (Q.mapM fun value _ => h _ (mem_singleton_self _) _) fun keys => Q.refl _
  case case11 =>
    refine Q.bind (measureOf_rel Q fun value _ => ?_) fun measure => Q.refl _
    exact h _ (mem_singleton_self _) _
  case case12 =>
    refine Q.bind (measureOf_rel Q fun entry _ => ?_) fun measure => Q.refl _
    exact Q.bind (h _ (mem_singleton_self _) _) fun key => Q.refl _
  case case13 =>
    refine Q.bind (measureOf_rel Q fun entry _ => ?_) fun measure => Q.refl _
    refine Q.bind (h _ mem_cons_self _) fun key => ?_
    exact Q.bind (h _ (mem_cons_of_mem _ (mem_singleton_self _)) _) fun key' => Q.refl _
  case case14 => exact Q.refl _

theorem finishes_finiteMeasureFromAtoms {α : Type} [Ord α] [TransOrd α] (atoms : List α) :
    Finishes (finiteMeasureFromAtoms (ε := SemanticError) atoms) := by
  refine Finishes.bind ?_ fun counts _ => .ok _
  intro h
  obtain ⟨counts, atom, _, hcount⟩ := foldlM_eq_error h
  unfold countAtom at hcount
  split at hcount
  · simp [outOfFuel] at hcount
  · cases hcount

theorem finishes_measureOf {α β : Type} [Ord β] [TransOrd β]
    {atom : α → Fallible SemanticError β} {entries : List α}
    (h : ∀ entry ∈ entries, Finishes (atom entry)) : Finishes (measureOf atom entries) :=
  (Finishes.mapM h).bind fun atoms _ => finishes_finiteMeasureFromAtoms atoms

theorem finishes_fieldValue (equivalence : SemanticId) (values : List (SemanticId × Value))
    (field : SemanticId) : Finishes (fieldValue equivalence values field) := by
  unfold fieldValue
  split
  · exact .ok _
  · exact .error _

theorem fieldValue_eq_ok {field : SemanticId} {found : Value} :
    fieldValue equivalence values field = .ok found ↔ values.lookup field = some found := by
  unfold fieldValue
  cases values.lookup field with
  | none | some value => simp

theorem mem_of_fieldValue {field : SemanticId} {found : Value}
    (h : fieldValue equivalence values field = .ok found) : found ∈ values.map Prod.snd :=
  mem_map_of_mem (mem_of_lookup (fieldValue_eq_ok.mp h))

theorem bagAtom_eq_ok {entry : Value × UInt64} {atom : CanonicalBagAtom} :
    bagAtom f entry = .ok atom ↔ f entry.1 = .ok atom.value ∧ entry.2 = atom.storedCount := by
  rw [bagAtom, bind_pure_eq_ok]
  constructor
  · rintro ⟨key, hkey, rfl⟩
    exact ⟨hkey, rfl⟩
  · rintro ⟨hkey, hcount⟩
    exact ⟨atom.value, hkey, by rw [hcount]⟩

theorem mapAtom_eq_ok {f' : Value → Fallible SemanticError CanonicalEqKey} {entry : Value × Value}
    {atom : CanonicalMapAtom} :
    mapAtom f f' entry = .ok atom ↔ f entry.1 = .ok atom.key ∧ f' entry.2 = .ok atom.value := by
  rw [mapAtom, bind_eq_ok]
  constructor
  · rintro ⟨key, hkey, hrest⟩
    obtain ⟨value, hvalue, rfl⟩ := bind_pure_eq_ok.mp hrest
    exact ⟨hkey, hvalue⟩
  · rintro ⟨hkey, hvalue⟩
    exact ⟨atom.key, hkey, bind_pure_eq_ok.mpr ⟨atom.value, hvalue, rfl⟩⟩

def FieldKey (key : ν → Value → Fallible SemanticError CanonicalEqKey)
    (values : List (SemanticId × Value)) (entry : SemanticId × ν)
    (result : SemanticId × CanonicalEqKey) : Prop :=
  entry.1 = result.1 ∧
    ∃ child, values.lookup entry.1 = some child ∧ key entry.2 child = .ok result.2

/-- What a level of a key is, by the shape of the level and of the value. -/
inductive KeyOf (key : ν → Value → Fallible SemanticError CanonicalEqKey) :
    EquivalenceKind ν → Value → CanonicalEqKey → Prop
  | primitive {resolved value result} : resolved.canonicalKey value = .ok result →
      KeyOf key (.primitive resolved) value result
  | mu {body value result} : key body value = .ok result → KeyOf key (.mu body) value result
  | var {binder value result} : key binder value = .ok result → KeyOf key (.var binder) value result
  | product {fields values keys} : fields.length = values.length →
      Forall₂ (FieldKey key values) fields keys →
      KeyOf key (.product fields) (.product values) (.product keys)
  | optionNone {inner} : KeyOf key (.option inner) (.option none) .optionNone
  | optionSome {inner value result} : key inner value = .ok result →
      KeyOf key (.option inner) (.option (some value)) (.optionSome result)
  | sum {variants tag child value result} : variants.lookup tag = some child →
      key child value = .ok result →
      KeyOf key (.sum variants) (.variant tag value) (.variant tag result)
  | seq {element values keys} : values.mapM (key element) = .ok keys →
      KeyOf key (.seq element) (.seq values) (.seq keys)
  | set {element equivalence elements measure} :
      measureOf (key element) elements = .ok measure →
      KeyOf key (.set element) (.set equivalence elements) (.set measure)
  | bag {element equivalence entries measure} :
      measureOf (bagAtom (key element)) entries = .ok measure →
      KeyOf key (.bag element) (.bag equivalence entries) (.bag measure)
  | map {keyPart valuePart equivalence entries measure} :
      measureOf (mapAtom (key keyPart) (key valuePart)) entries = .ok measure →
      KeyOf key (.map keyPart valuePart) (.map equivalence entries) (.map measure)

theorem keyLayer_eq_ok :
    keyLayer key equivalence kind value = .ok result ↔ KeyOf key kind value result := by
  constructor
  · intro h
    fun_cases keyLayer key equivalence kind value <;> simp only [keyLayer] at h
    case case1 => exact .primitive (Fallible.lift_eq_ok.mp h)
    case case2 => exact .mu h
    case case3 => exact .var h
    case case4 hlen =>
      rw [if_pos hlen] at h
      cases h
    case case5 fields values hlen =>
      rw [if_neg hlen] at h
      obtain ⟨keys, hkeys, rfl⟩ := bind_pure_eq_ok.mp h
      rw [mapM_eq_ok] at hkeys
      refine .product (not_not.mp hlen) (hkeys.imp ?_)
      intro entry result hentry
      obtain ⟨child, hchild, hentry⟩ := bind_eq_ok.mp hentry
      obtain ⟨part, hpart, rfl⟩ := bind_pure_eq_ok.mp hentry
      exact ⟨rfl, child, fieldValue_eq_ok.mp hchild, hpart⟩
    case case6 =>
      cases h
      exact .optionNone
    case case7 =>
      obtain ⟨part, hpart, rfl⟩ := bind_pure_eq_ok.mp h
      exact .optionSome hpart
    case case8 hnone =>
      rw [hnone] at h
      cases h
    case case9 hsome =>
      rw [hsome] at h
      obtain ⟨part, hpart, rfl⟩ := bind_pure_eq_ok.mp h
      exact .sum hsome hpart
    case case10 =>
      obtain ⟨keys, hkeys, rfl⟩ := bind_pure_eq_ok.mp h
      exact .seq hkeys
    case case11 =>
      obtain ⟨measure, hmeasure, rfl⟩ := bind_pure_eq_ok.mp h
      exact .set hmeasure
    case case12 =>
      obtain ⟨measure, hmeasure, rfl⟩ := bind_pure_eq_ok.mp h
      exact .bag hmeasure
    case case13 =>
      obtain ⟨measure, hmeasure, rfl⟩ := bind_pure_eq_ok.mp h
      exact .map hmeasure
    case case14 => cases h
  · intro h
    cases h with
    | primitive h => exact Fallible.lift_eq_ok.mpr h
    | mu h | var h => exact h
    | product hlen hkeys =>
      rw [keyLayer, if_neg (not_not.mpr hlen)]
      refine bind_pure_eq_ok.mpr ⟨_, (mapM_eq_ok _).mpr (hkeys.imp ?_), rfl⟩
      rintro entry ⟨field, part⟩ ⟨rfl, child, hchild, hpart⟩
      rw [fieldValue_eq_ok.mpr hchild]
      exact bind_pure_eq_ok.mpr ⟨part, hpart, rfl⟩
    | optionNone => rfl
    | optionSome h => exact bind_pure_eq_ok.mpr ⟨_, h, rfl⟩
    | sum hsome h =>
      rw [keyLayer, hsome]
      exact bind_pure_eq_ok.mpr ⟨_, h, rfl⟩
    | seq h | set h => exact bind_pure_eq_ok.mpr ⟨_, h, rfl⟩
    | bag h | map h => exact bind_pure_eq_ok.mpr ⟨_, h, rfl⟩

theorem keyWith_eq_ok {ν : Type} {view : ν → Fallible SemanticError (SemanticId × EquivalenceKind ν)}
    {fuel : ℕ} {node : ν} {value : Value}
    {seen : SemanticId × EquivalenceKind ν} (h : view node = .ok seen) :
    keyWith view (fuel + 1) node value = .ok result ↔
      KeyOf (keyWith view fuel) seen.2 value result := by
  rw [keyWith, h]
  exact keyLayer_eq_ok

theorem finishes_keyLayer
    (hsilent : ∀ child, kind.silent = some child → Finishes (key child value))
    (hparts : kind.silent = none → ∀ child ∈ kind.children, ∀ part ∈ value.children,
      Finishes (key child part)) : Finishes (keyLayer key equivalence kind value) := by
  fun_cases keyLayer key equivalence kind value
  case case1 => exact .lift _
  case case2 => exact hsilent _ rfl
  case case3 => exact hsilent _ rfl
  case case4 => exact .error _
  case case5 fields values hlen =>
    refine Finishes.bind (.mapM fun entry hentry => ?_) fun keys _ => .ok _
    refine Finishes.bind (finishes_fieldValue _ _ _) fun child hchild => ?_
    exact (hparts rfl _ (mem_map_of_mem hentry) _ (mem_of_fieldValue hchild)).bind
      fun key _ => .ok _
  case case6 => exact .ok _
  case case7 =>
    exact (hparts rfl _ (mem_singleton_self _) _ (mem_singleton_self _)).bind fun key _ => .ok _
  case case8 => exact .error _
  case case9 variants tag value child hsome =>
    exact (hparts rfl _ (mem_map_of_mem (mem_of_lookup hsome)) _
      (mem_singleton_self _)).bind fun key _ => .ok _
  case case10 =>
    refine Finishes.bind (.mapM fun value hvalue => ?_) fun keys _ => .ok _
    exact hparts rfl _ (mem_singleton_self _) _ hvalue
  case case11 =>
    refine (finishes_measureOf fun value hvalue => ?_).bind fun measure _ => .ok _
    exact hparts rfl _ (mem_singleton_self _) _ hvalue
  case case12 =>
    refine (finishes_measureOf fun entry hentry => ?_).bind fun measure _ => .ok _
    exact (hparts rfl _ (mem_singleton_self _) _ (mem_map_of_mem hentry)).bind fun key _ => .ok _
  case case13 =>
    refine (finishes_measureOf fun entry hentry => ?_).bind fun measure _ => .ok _
    have hkey := hparts rfl _ mem_cons_self entry.1 (mem_flatMap.mpr ⟨entry, hentry, mem_cons_self⟩)
    have hvalue := hparts rfl _ (mem_cons_of_mem _ (mem_singleton_self _)) entry.2
      (mem_flatMap.mpr ⟨entry, hentry, mem_cons_of_mem _ (mem_singleton_self _)⟩)
    exact hkey.bind fun key _ => hvalue.bind fun value _ => .ok _
  case case14 => exact .error _

end

/-! ### Graphs -/

variable {equivalence : SemanticId} {leftKey rightKey : CanonicalEqKey}

section
variable {ν μ : Type} {view : ν → Fallible SemanticError (SemanticId × EquivalenceKind ν)}
  {node : ν}

theorem keyWith_settles {fuel fuel' : ℕ} (hle : fuel ≤ fuel') (node : ν) (value : Value) :
    Settles (keyWith view fuel node value) (keyWith view fuel' node value) := by
  induction fuel generalizing fuel' node value with
  | zero => exact fun h => absurd rfl h
  | succ fuel ih =>
    obtain ⟨fuel', rfl⟩ := Nat.exists_eq_add_of_lt hle
    let Q := Congruence.settles SemanticError
    refine Q.bind (Q.refl _) fun seen => ?_
    exact keyLayer_rel Q fun child _ value => ih (Nat.le_add_right fuel fuel') child value

/-- Two graphs of which the second shows, at the image of each node, what the first
shows at the node. -/
theorem keyWith_rename {view' : μ → Fallible SemanticError (SemanticId × EquivalenceKind μ)}
    (f : ν → μ) (P : ν → Prop)
    (hview : ∀ node, P node → ∃ equivalence kind, view node = .ok (equivalence, kind) ∧
      view' (f node) = .ok (equivalence, kind.rename f) ∧ ∀ child ∈ kind.children, P child)
    (fuel : ℕ) (hnode : P node) (value : Value) :
    keyWith view fuel node value = keyWith view' fuel (f node) value := by
  induction fuel generalizing node value with
  | zero => rfl
  | succ fuel ih =>
    obtain ⟨equivalence, kind, hseen, hseen', hchildren⟩ := hview node hnode
    rw [keyWith, keyWith, hseen, hseen']
    show keyLayer _ equivalence kind value = keyLayer _ equivalence (kind.rename f) value
    rw [keyLayer_rename]
    exact keyLayer_rel (Congruence.eq SemanticError) fun child hchild value =>
      ih (hchildren child hchild) value

def silentNext (view : ν → Fallible SemanticError (SemanticId × EquivalenceKind ν)) (node : ν) :
    Option ν :=
  match view node with
  | .ok seen => seen.2.silent
  | .error _ => none

theorem silentNext_of_view {kind : EquivalenceKind ν} (h : view node = .ok (equivalence, kind)) :
    silentNext view node = kind.silent := by
  rw [silentNext, h]

/-- Where every chain of silent parts ends within `bound` steps, the fuel for a
value is `bound + 1` for each value in it. -/
theorem finishes_keyWith {P : ν → Prop} {bound : ℕ} (hview : ∀ node, Finishes (view node))
    (hchildren : ∀ node equivalence kind, P node → view node = .ok (equivalence, kind) →
      ∀ child ∈ kind.children, P child)
    (hends : ∀ node, P node → ∃ steps ≤ bound, Ends (silentNext view) steps node) (fuel : ℕ)
    (hnode : P node) {value : Value} {steps : ℕ} (hsteps : Ends (silentNext view) steps node)
    (hfuel : (value.children.map Value.size).sum * (bound + 1) + steps < fuel) :
    Finishes (keyWith view fuel node value) := by
  induction fuel generalizing node value steps with
  | zero => exact absurd hfuel (Nat.not_lt_zero _)
  | succ fuel ih =>
    refine (hview node).bind ?_
    rintro ⟨equivalence, kind⟩ hseen
    have hnext := silentNext_of_view hseen
    apply finishes_keyLayer
    · intro child hchild
      rw [hchild] at hnext
      cases hsteps with
      | stop hnone =>
        rw [hnone] at hnext
        cases hnext
      | step hsome hrest =>
        rw [hsome, Option.some.injEq] at hnext
        subst hnext
        have hP := hchildren node equivalence kind hnode hseen _
          (EquivalenceKind.mem_children_of_silent hchild)
        exact ih hP hrest (by omega)
    · -- a part of the value is smaller, which pays for the chain of its node
      intro _ child hchild part hpart
      have hP := hchildren node equivalence kind hnode hseen child hchild
      obtain ⟨steps', hle, hends'⟩ := hends child hP
      refine ih hP hends' ?_
      have hsize : part.size ≤ (value.children.map Value.size).sum :=
        le_sum_of_mem (mem_map_of_mem hpart)
      rw [Value.size_eq] at hsize
      have hpaid := Nat.mul_le_mul_right (bound + 1) hsize
      rw [Nat.add_mul] at hpaid
      omega

end

/-! ### Two keys and two values -/

theorem eqIgnoreAsciiCase_eq (left right : String) :
    eqIgnoreAsciiCase left right = decide (toAsciiLowercase left = toAsciiLowercase right) := by
  rw [eqIgnoreAsciiCase, decide_eq_decide, toAsciiLowercase, toAsciiLowercase,
    ← String.toList_inj, String.toList_map, String.toList_map, map_eq_map_iff_forall₂,
    forall₂_iff_zip]
  simp only [all_eq_true, decide_eq_true_eq, Prod.forall]

theorem ResolvedPrimitiveEquivalence.equivalent_of_keys {resolved : ResolvedPrimitiveEquivalence}
    {left right : Value} (hleft : resolved.canonicalKey left = .ok leftKey)
    (hright : resolved.canonicalKey right = .ok rightKey) (equivalence : SemanticId) :
    resolved.contract.equivalent left right equivalence = .ok (decide (leftKey = rightKey)) := by
  unfold canonicalKey at hleft hright
  generalize resolved.contract = contract at *
  -- a key is defined on the values of the module's own type only
  cases contract <;> cases left <;> try cases hleft
  all_goals cases right <;> try cases hright
  case textAsciiCaseInsensitive.text.refl.text.refl left right =>
    rw [EquivalenceModule.equivalent, eqIgnoreAsciiCase_eq]
    simp only [textAsciiCaseInsensitive.injEq]
  case liveEntityIdExact.liveEntityRef.liveEntityRef expected leftType left rightType right =>
    dsimp only at hleft hright
    split at hleft
    · split at hright
      · cases hleft
        cases hright
        simp_all [EquivalenceModule.equivalent]
      · cases hright
    · cases hleft
  case historicalEntityIdExact.historicalEntityId.historicalEntityId expected leftType left
      rightType right =>
    dsimp only at hleft hright
    split at hleft
    · split at hright
      · cases hleft
        cases hright
        simp_all [EquivalenceModule.equivalent]
      · cases hright
    · cases hleft
  all_goals simp [EquivalenceModule.equivalent]

/-- A loop that compares element by element decides whether the collected results
are equal. -/
theorem allM_of_forall₂ {ε α κ : Type} [DecidableEq κ] {R S : α → κ → Prop}
    {p : α → Except ε Bool} (hp : ∀ x a b, R x a → S x b → p x = .ok (decide (a = b)))
    {xs : List α} {as bs : List κ} (has : Forall₂ R xs as) (hbs : Forall₂ S xs bs) :
    xs.allM p = .ok (decide (as = bs)) := by
  induction has generalizing bs with
  | nil =>
    cases hbs
    rfl
  | @cons x a xs as ha _ ih =>
    cases hbs with
    | @cons _ b _ bs hb hbs =>
      rw [allM_cons, hp x a b ha hb]
      have hrest := ih hbs
      by_cases hab : a = b
      · simpa [hab, bind, Except.bind] using hrest
      · simp [hab, bind, Except.bind, pure, Except.pure]

theorem toAsciiLowercase_toAsciiLowercase (text : String) :
    toAsciiLowercase (toAsciiLowercase text) = toAsciiLowercase text := by
  rw [← String.toList_inj, toAsciiLowercase, toAsciiLowercase, String.toList_map,
    String.toList_map, map_map]
  apply map_congr_left
  intro char _
  unfold Function.comp Char.toLower
  grind

section
variable {key : SemanticId → Value → Fallible SemanticError CanonicalEqKey}
  {equivalent : SemanticId → Value → Value → Fallible SemanticError Bool}
  {equivalence : SemanticId} {kind : EquivalenceKind SemanticId} {left right : Value}
  {leftKey rightKey : CanonicalEqKey}

theorem SemanticRegistry.equivalentLayer_of_keys
    (h : ∀ child left right leftKey rightKey, key child left = .ok leftKey →
      key child right = .ok rightKey → equivalent child left right = .ok (decide (leftKey = rightKey)))
    (hleft : keyLayer key equivalence kind left = .ok leftKey)
    (hright : keyLayer key equivalence kind right = .ok rightKey) :
    equivalentLayer key equivalent equivalence kind left right =
      .ok (decide (leftKey = rightKey)) := by
  rw [keyLayer_eq_ok] at hleft hright
  match hleft, hright with
  | .primitive hleft, .primitive hright =>
    rw [equivalentLayer, ResolvedPrimitiveEquivalence.equivalent_of_keys hleft hright]
    rfl
  | .mu hleft, .mu hright => exact h _ _ _ _ _ hleft hright
  | .var hleft, .var hright => exact h _ _ _ _ _ hleft hright
  | .product hlenLeft hleft, .product hlenRight hright =>
    rw [equivalentLayer, if_neg (not_or.mpr ⟨not_not.mpr hlenLeft.symm, not_not.mpr hlenRight.symm⟩)]
    simp only [product.injEq]
    refine allM_of_forall₂ ?_ hleft hright
    rintro entry ⟨field, leftPart⟩ ⟨_, rightPart⟩ ⟨rfl, left, hleftValue, hleft⟩
      ⟨rfl, right, hrightValue, hright⟩
    rw [hleftValue, hrightValue]
    simpa only [Prod.mk.injEq, true_and] using h _ _ _ _ _ hleft hright
  | .optionNone, .optionNone => rfl
  | .optionNone, .optionSome _ => simp [equivalentLayer]
  | .optionSome _, .optionNone => simp [equivalentLayer]
  | .optionSome hleft, .optionSome hright =>
    rw [equivalentLayer, h _ _ _ _ _ hleft hright]
    simp only [optionSome.injEq]
  | @KeyOf.sum _ _ variants leftTag _ _ _ hleftChild hleft,
      @KeyOf.sum _ _ _ rightTag _ _ _ hrightChild hright =>
    rw [equivalentLayer]
    by_cases htag : leftTag = rightTag
    · subst htag
      rw [hleftChild, Option.some.injEq] at hrightChild
      subst hrightChild
      rw [if_neg (not_not.mpr rfl), hleftChild]
      simpa only [variant.injEq, true_and] using h _ _ _ _ _ hleft hright
    · simp [htag]
  | @KeyOf.seq _ _ element left leftKeys hleft, @KeyOf.seq _ _ _ right rightKeys hright =>
    rw [equivalentLayer]
    simp only [seq.injEq]
    by_cases hlen : left.length = right.length
    · rw [if_neg (not_not.mpr hlen)]
      have hfst : (left.zip right).mapM (key element ∘ Prod.fst) = .ok leftKeys := by
        rw [← mapM_map, map_fst_zip hlen.le, hleft]
      have hsnd : (left.zip right).mapM (key element ∘ Prod.snd) = .ok rightKeys := by
        rw [← mapM_map, map_snd_zip hlen.ge, hright]
      rw [mapM_eq_ok] at hfst hsnd
      exact allM_of_forall₂ (fun pair a b ha hb => h element pair.1 pair.2 a b ha hb) hfst hsnd
    · have hlenLeft := ((mapM_eq_ok _).mp hleft).length_eq
      have hlenRight := ((mapM_eq_ok _).mp hright).length_eq
      have hne : leftKeys ≠ rightKeys := by
        rintro rfl
        exact hlen (hlenLeft.trans hlenRight.symm)
      rw [if_pos hlen, decide_eq_false hne]
  | .set hleft, .set hright =>
    rw [equivalentLayer, hleft, hright]
    simp only [set.injEq]
    rfl
  | .bag hleft, .bag hright =>
    rw [equivalentLayer, hleft, hright]
    simp only [bag.injEq]
    rfl
  | .map hleft, .map hright =>
    rw [equivalentLayer, hleft, hright]
    simp only [map.injEq]
    rfl

end

namespace SemanticRegistry
variable {registry : SemanticRegistry} {context : SemanticContext}

theorem view_equivalence {equivalence' : SemanticId} {kind : EquivalenceKind SemanticId}
    (h : registry.view context equivalence = .ok (equivalence', kind)) :
    equivalence' = equivalence := by
  unfold view at h
  split at h
  · obtain ⟨resolved, _, h⟩ := bind_eq_ok.mp h
    cases h
    rfl
  · cases h
    rfl

/-- Where both keys are defined, a comparison decides whether they are equal. -/
theorem equivalentUnchecked_of_keys (fuel : ℕ) {left right : Value}
    (hleft : registry.canonicalEquivalenceKeyUnchecked context fuel equivalence left = .ok leftKey)
    (hright : registry.canonicalEquivalenceKeyUnchecked context fuel equivalence right =
      .ok rightKey) :
    registry.equivalentUnchecked context fuel equivalence left right =
      .ok (decide (leftKey = rightKey)) := by
  induction fuel generalizing equivalence left right leftKey rightKey with
  | zero => cases hleft
  | succ fuel ih =>
    obtain ⟨⟨equivalence', kind⟩, hview, hleftKey⟩ := bind_eq_ok.mp hleft
    obtain ⟨seen, hview', hrightKey⟩ := bind_eq_ok.mp hright
    rw [hview, Except.ok.injEq] at hview'
    subst hview'
    rw [equivalentUnchecked, hview]
    have heq := view_equivalence hview
    subst heq
    exact equivalentLayer_of_keys (fun child left right leftKey rightKey hl hr => ih hl hr)
      hleftKey hrightKey

end SemanticRegistry

end Cfmd.Semantics
