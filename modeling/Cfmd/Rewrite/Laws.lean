import Cfmd.Rewrite.StableSeq

/-! Rewrite footprints and the pair classifier. The classifier compares
coordinates by equality, while coverage lets `RelationWhole` stand for every
class and identity of its relation; the two agree when no coarse coordinate of
one footprint meets a fine one of the other. -/

namespace Cfmd.Rewrite
open Std ExtTreeMap

inductive SemanticWriteCoordinate where
  | productField (field : SemanticId)
  | setClass (observable : RevisionObservableId) (cls : EqClassId)
  | bagClass (observable : RevisionObservableId) (cls : EqClassId)
  | mapKeyClass (observable : RevisionObservableId) (cls : EqClassId)
  | relationIdentity (relation identity : SemanticId)
  | relationWhole (relation : SemanticId)
  | relationClass (relation : SemanticId) (canonicalKey : List UInt8)
  | seqAnchor (sequence anchor : SemanticId)
  | seqOccurrence (sequence occurrence : SemanticId)
deriving DecidableEq, Repr

namespace SemanticWriteCoordinate

/-- The variant's place and its fields, compared in this order by the derived `Ord`. -/
def sortKey : SemanticWriteCoordinate → ℕ × SemanticId × SemanticId × List UInt8
  | productField field => (0, field, 0, [])
  | setClass observable cls => (1, observable, cls, [])
  | bagClass observable cls => (2, observable, cls, [])
  | mapKeyClass observable cls => (3, observable, cls, [])
  | relationIdentity relation identity => (4, relation, identity, [])
  | relationWhole relation => (5, relation, 0, [])
  | relationClass relation canonicalKey => (6, relation, 0, canonicalKey)
  | seqAnchor sequence anchor => (7, sequence, anchor, [])
  | seqOccurrence sequence occurrence => (8, sequence, occurrence, [])

theorem sortKey_injective : Function.Injective sortKey := by
  intro c c' h
  cases c <;> cases c' <;> simp_all [sortKey]

attribute [local instance] lexOrd

instance : Ord SemanticWriteCoordinate := ⟨compareOn sortKey⟩

instance : TransOrd SemanticWriteCoordinate := inferInstanceAs (TransCmp (compareOn sortKey))

instance : LawfulEqOrd SemanticWriteCoordinate where
  eq_of_compare h := sortKey_injective (LawfulEqOrd.eq_of_compare h)

end SemanticWriteCoordinate

inductive RewriteActionLaw where
  | idempotentAssign (semanticValue : SemanticId)
  | ensurePresent
  | ensureAbsent
  | commutativeAdd (algebra : SemanticId)
  | opaqueAction
deriving DecidableEq, Repr

structure RewriteFootprint where
  reads : ExtTreeSet SemanticWriteCoordinate := ∅
  writes : ExtTreeMap SemanticWriteCoordinate RewriteActionLaw := ∅
  invariantObligations : ExtTreeSet SemanticId := ∅

def relationWholeCoordinate : SemanticWriteCoordinate → Option SemanticWriteCoordinate
  | .relationClass relation _ => some (.relationWhole relation)
  | .relationIdentity relation _ => some (.relationWhole relation)
  | _ => none

namespace RewriteFootprint

def opaqueRelation (relation : SemanticId) : RewriteFootprint :=
  { writes := {(.relationWhole relation, .opaqueAction)} }

def conservativelyCovers (declared required : RewriteFootprint) : Bool :=
  (required.reads.toList.all fun coordinate =>
    declared.reads.contains coordinate ||
      (relationWholeCoordinate coordinate).any declared.reads.contains) &&
  (required.invariantObligations.toList.all declared.invariantObligations.contains) &&
  required.writes.toList.all fun entry =>
    declared.writes[entry.1]? == some entry.2 ||
      (relationWholeCoordinate entry.1).any fun whole => declared.writes[whole]? == some entry.2

end RewriteFootprint

inductive PairRewriteLaw where
  | strongCommute
  | sameIdempotentIntent
  | definiteIntentConflict
  | unknown
deriving DecidableEq, Repr

inductive PairCoordinationDecision where
  | coordinationFree
  | intentConflict
  | requiresCoordination
deriving DecidableEq, Repr

def coordinationDecision : PairRewriteLaw → PairCoordinationDecision
  | .strongCommute => .coordinationFree
  | .sameIdempotentIntent => .coordinationFree
  | .definiteIntentConflict => .intentConflict
  | .unknown => .requiresCoordination

/-- The two actions of one shared coordinate: whether they are the same idempotent intent, or
the law to return. -/
def pairActions : RewriteActionLaw → RewriteActionLaw → Except PairRewriteLaw Bool
  | .idempotentAssign leftValue, .idempotentAssign rightValue =>
    if leftValue = rightValue then .ok true else .error .definiteIntentConflict
  | .ensurePresent, .ensureAbsent => .error .definiteIntentConflict
  | .ensureAbsent, .ensurePresent => .error .definiteIntentConflict
  | .ensurePresent, .ensurePresent => .ok true
  | .ensureAbsent, .ensureAbsent => .ok true
  | .commutativeAdd leftAlgebra, .commutativeAdd rightAlgebra =>
    if leftAlgebra = rightAlgebra then .ok false else .error .unknown
  | _, _ => .error .unknown

section Infer
variable {K : Type} [Ord K] [TransOrd K]

/-- The loop over the left actions, with its early returns. -/
def inferActions (right : ExtTreeMap K RewriteActionLaw) :
    Bool → List (K × RewriteActionLaw) → Except PairRewriteLaw Bool
  | sawSameIdempotent, [] => .ok sawSameIdempotent
  | sawSameIdempotent, (coordinate, leftAction) :: rest =>
    match right[coordinate]? with
    | none => inferActions right sawSameIdempotent rest
    | some rightAction =>
      match pairActions leftAction rightAction with
      | .error law => .error law
      | .ok same => inferActions right (sawSameIdempotent || same) rest

def inferWriteActionLaw (left right : ExtTreeMap K RewriteActionLaw) : PairRewriteLaw :=
  match inferActions right false left.toList with
  | .error law => law
  | .ok sawSameIdempotent =>
    if sawSameIdempotent && left == right then .sameIdempotentIntent else .strongCommute

end Infer

def inferPairRewriteLaw (left right : RewriteFootprint) : PairRewriteLaw :=
  if !left.invariantObligations.isEmpty || !right.invariantObligations.isEmpty then .unknown
  else if (left.reads.toList.any right.writes.contains) ||
      right.reads.toList.any left.writes.contains then .unknown
  else inferWriteActionLaw left.writes right.writes

/-! ## When a pair is coordination free -/

/-- The classifier goes on past two such actions on one coordinate. -/
def compatible (x y : RewriteActionLaw) : Bool := (pairActions x y).isOk

theorem compatible_comm (x y : RewriteActionLaw) : compatible x y = compatible y x := by
  cases x <;> cases y <;> simp only [compatible, pairActions, eq_comm]

theorem pairActions_comm (x y : RewriteActionLaw) : pairActions y x = pairActions x y := by
  cases x <;> cases y <;> simp only [pairActions, eq_comm]

theorem pairActions_error {x y : RewriteActionLaw} {law : PairRewriteLaw}
    (h : pairActions x y = .error law) : coordinationDecision law ≠ .coordinationFree := by
  unfold pairActions at h
  split at h <;> try split_ifs at h
  all_goals cases h <;> decide

section Infer
variable {K : Type} [Ord K] [TransOrd K] {right : ExtTreeMap K RewriteActionLaw}

theorem inferActions_isOk (saw : Bool) (entries : List (K × RewriteActionLaw)) :
    (∃ saw', inferActions right saw entries = .ok saw') ↔
      ∀ entry ∈ entries, ∀ y, right[entry.1]? = some y → compatible entry.2 y = true := by
  induction entries generalizing saw with
  | nil => simp [inferActions]
  | cons entry rest ih =>
    rw [List.forall_mem_cons, inferActions]
    cases hy : right[entry.1]? with
    | none => simpa [hy] using ih saw
    | some y =>
      cases hpair : pairActions entry.2 y with
      | error law => simp [compatible, hpair, Except.isOk, Except.toBool]
      | ok same => simpa [compatible, hpair, Except.isOk, Except.toBool] using ih (saw || same)

theorem inferActions_error {saw : Bool} {entries : List (K × RewriteActionLaw)}
    {law : PairRewriteLaw} (h : inferActions right saw entries = .error law) :
    coordinationDecision law ≠ .coordinationFree := by
  induction entries generalizing saw with
  | nil => cases h
  | cons entry rest ih =>
    rw [inferActions] at h
    cases hy : right[entry.1]? with
    | none =>
      simp only [hy] at h
      exact ih h
    | some y =>
      simp only [hy] at h
      cases hpair : pairActions entry.2 y with
      | error law' =>
        simp only [hpair] at h
        cases h
        exact pairActions_error hpair
      | ok same =>
        simp only [hpair] at h
        exact ih h

def sharedActions (left right : ExtTreeMap K RewriteActionLaw) :
    ExtTreeMap K (RewriteActionLaw × RewriteActionLaw) :=
  left.filterMap fun coordinate x => right[coordinate]?.map (x, ·)

def pairAll : Bool → List (RewriteActionLaw × RewriteActionLaw) → Except PairRewriteLaw Bool
  | saw, [] => .ok saw
  | saw, actions :: rest =>
    match pairActions actions.1 actions.2 with
    | .error law => .error law
    | .ok same => pairAll (saw || same) rest

theorem inferActions_eq_pairAll (left : ExtTreeMap K RewriteActionLaw) (saw : Bool) :
    inferActions right saw left.toList =
      pairAll saw ((sharedActions left right).toList.map Prod.snd) := by
  unfold sharedActions
  rw [toList_filterMap]
  induction left.toList generalizing saw with
  | nil => rfl
  | cons entry rest ih =>
    rw [inferActions, List.filterMap_cons]
    cases hy : right[entry.1]? with
    | none => exact ih saw
    | some y =>
      simp only [Option.map_some, List.map_cons, pairAll]
      cases pairActions entry.2 y with
      | error law => rfl
      | ok same => exact ih (saw || same)

theorem pairAll_swap (saw : Bool) (actions : List (RewriteActionLaw × RewriteActionLaw)) :
    pairAll saw (actions.map Prod.swap) = pairAll saw actions := by
  induction actions generalizing saw with
  | nil => rfl
  | cons entry rest ih =>
    rw [List.map_cons, pairAll, pairAll, Prod.fst_swap, Prod.snd_swap, pairActions_comm]
    cases pairActions entry.1 entry.2 with
    | error law => rfl
    | ok same => exact ih (saw || same)

section
variable [LawfulEqOrd K] (left right : ExtTreeMap K RewriteActionLaw)

theorem sharedActions_comm :
    sharedActions right left = (sharedActions left right).map fun _ actions => actions.swap := by
  apply ext_getElem?
  intro coordinate
  unfold sharedActions
  rw [getElem?_map, getElem?_filterMap', getElem?_filterMap']
  cases left[coordinate]? <;> cases right[coordinate]? <;> rfl

theorem inferWriteActionLaw_comm :
    inferWriteActionLaw right left = inferWriteActionLaw left right := by
  have hloop : inferActions left false right.toList = inferActions right false left.toList := by
    rw [inferActions_eq_pairAll, inferActions_eq_pairAll, sharedActions_comm, toList_map,
      List.map_map, ← pairAll_swap, List.map_map]
    rfl
  have hbeq : (right == left) = (left == right) := Bool.beq_comm
  unfold inferWriteActionLaw
  rw [hloop, hbeq]

end

theorem inferWriteActionLaw_free [LawfulEqOrd K] (left : ExtTreeMap K RewriteActionLaw) :
    coordinationDecision (inferWriteActionLaw left right) = .coordinationFree ↔
      ∀ (c : K) x y, left[c]? = some x → right[c]? = some y → compatible x y = true := by
  have hall : (∃ saw, inferActions right false left.toList = .ok saw) ↔
      ∀ (c : K) x y, left[c]? = some x → right[c]? = some y → compatible x y = true := by
    rw [inferActions_isOk]
    constructor
    · intro h c x y hx hy
      exact h (c, x) (mem_toList_iff_getElem?_eq_some.mpr hx) y hy
    · intro h entry hentry y hy
      exact h entry.1 entry.2 y (mem_toList_iff_getElem?_eq_some.mp hentry) hy
  rw [← hall]
  unfold inferWriteActionLaw
  cases hloop : inferActions right false left.toList with
  | error law => simpa using inferActions_error hloop
  | ok saw =>
    simp only [Except.ok.injEq, exists_eq', iff_true]
    split_ifs <;> rfl

end Infer

namespace RewriteFootprint

def Free (a b : RewriteFootprint) : Prop :=
  coordinationDecision (inferPairRewriteLaw a b) = .coordinationFree

variable {a b a' b' : RewriteFootprint} {c : SemanticWriteCoordinate}

theorem free_iff : a.Free b ↔ (a.invariantObligations = ∅ ∧ b.invariantObligations = ∅) ∧
    ((∀ c ∈ a.reads, c ∉ b.writes) ∧ ∀ c ∈ b.reads, c ∉ a.writes) ∧
    ∀ (c : SemanticWriteCoordinate) x y, a.writes[c]? = some x → b.writes[c]? = some y →
      compatible x y = true := by
  rw [Free, ← inferWriteActionLaw_free, inferPairRewriteLaw, ← ExtTreeSet.isEmpty_iff,
    ← ExtTreeSet.isEmpty_iff]
  have hreads : ∀ a b : RewriteFootprint, a.reads.toList.any b.writes.contains = false ↔
      ∀ c ∈ a.reads, c ∉ b.writes := by
    intro a b
    simp
  rw [← hreads, ← hreads]
  cases a.invariantObligations.isEmpty <;> cases b.invariantObligations.isEmpty <;>
    cases a.reads.toList.any b.writes.contains <;> cases b.reads.toList.any a.writes.contains <;>
      simp [coordinationDecision]

theorem inferPairRewriteLaw_comm (a b : RewriteFootprint) :
    inferPairRewriteLaw b a = inferPairRewriteLaw a b := by
  unfold inferPairRewriteLaw
  rw [Bool.or_comm, inferWriteActionLaw_comm, Bool.or_comm (b.reads.toList.any a.writes.contains)]

theorem Free.symm (h : a.Free b) : b.Free a := by
  rw [free_iff] at h ⊢
  obtain ⟨hobl, hreads, hwrites⟩ := h
  refine ⟨hobl.symm, hreads.symm, fun c x y hx hy => ?_⟩
  rw [compatible_comm]
  exact hwrites c y x hy hx

theorem covers_iff {declared required : RewriteFootprint} :
    declared.conservativelyCovers required = true ↔
    (∀ c ∈ required.reads, c ∈ declared.reads ∨
      ∃ w, relationWholeCoordinate c = some w ∧ w ∈ declared.reads) ∧
    (∀ o ∈ required.invariantObligations, o ∈ declared.invariantObligations) ∧
    ∀ (c : SemanticWriteCoordinate) x, required.writes[c]? = some x → declared.writes[c]? = some x ∨
        ∃ w, relationWholeCoordinate c = some w ∧ declared.writes[w]? = some x := by
  simp only [conservativelyCovers, Bool.and_eq_true, List.all_eq_true, ExtTreeSet.mem_toList,
    Bool.or_eq_true, Option.any_eq_true, ExtTreeSet.contains_iff_mem, beq_iff_eq, Prod.forall,
    mem_toList_iff_getElem?_eq_some, and_assoc]

/-! ## Coarse against fine coordinates -/

/-- A `RelationWhole` of `coarse` meets a class or identity of its relation in `fine`: one side
reads what the other writes, or both write with incompatible actions. -/
def wholeClash (coarse fine : RewriteFootprint) : Bool :=
  (fine.writes.toList.any fun entry => (relationWholeCoordinate entry.1).any fun whole =>
    coarse.reads.contains whole || coarse.writes[whole]?.any fun x => !compatible x entry.2) ||
  fine.reads.toList.any fun c => (relationWholeCoordinate c).any coarse.writes.contains

theorem wholeClash_iff {coarse fine : RewriteFootprint} :
    wholeClash coarse fine = true ↔ ∃ c w, relationWholeCoordinate c = some w ∧
      ((w ∈ coarse.reads ∧ ∃ y, fine.writes[c]? = some y) ∨
        (∃ x y, coarse.writes[w]? = some x ∧ fine.writes[c]? = some y ∧ compatible x y = false) ∨
        ((∃ x, coarse.writes[w]? = some x) ∧ c ∈ fine.reads)) := by
  simp only [wholeClash, Bool.or_eq_true, List.any_eq_true, Option.any_eq_true, Prod.exists,
    mem_toList_iff_getElem?_eq_some, ExtTreeSet.contains_iff_mem, Bool.not_eq_true',
    ExtTreeSet.mem_toList, contains_iff_mem, ← isSome_getElem?_iff_mem,
    Option.isSome_iff_exists]
  grind

theorem mem_writes : c ∈ a.writes ↔ ∃ x, a.writes[c]? = some x := by
  rw [← isSome_getElem?_iff_mem, Option.isSome_iff_exists]

section
variable (hfree : a'.Free b') (hclash : wholeClash a' b' = false)
  (hclash' : wholeClash b' a' = false) (ha : a'.conservativelyCovers a = true)
  (hb : b'.conservativelyCovers b = true)
include hfree hclash hclash' ha hb

theorem covered_read_notMem (hc : c ∈ a.reads) : c ∉ b.writes := by
  intro hmem
  obtain ⟨y, hy⟩ := mem_writes.mp hmem
  obtain ⟨_, ⟨hreads, _⟩, _⟩ := free_iff.mp hfree
  rw [← Bool.not_eq_true, wholeClash_iff] at hclash hclash'
  rcases (covers_iff.mp ha).1 c hc with hread | ⟨w, hw, hread⟩ <;>
    rcases (covers_iff.mp hb).2.2 c y hy with hwrite | ⟨w', hw', hwrite⟩
  · exact hreads c hread (mem_writes.mpr ⟨y, hwrite⟩)
  · exact hclash' ⟨c, w', hw', .inr (.inr ⟨⟨y, hwrite⟩, hread⟩)⟩
  · exact hclash ⟨c, w, hw, .inl ⟨hread, y, hwrite⟩⟩
  · cases hw.symm.trans hw'
    exact hreads w hread (mem_writes.mpr ⟨y, hwrite⟩)

theorem free_of_covers : a.Free b := by
  obtain ⟨⟨hoa, hob⟩, _, hwrites⟩ := free_iff.mp hfree
  have hempty : ∀ {f f' : RewriteFootprint}, f'.conservativelyCovers f = true →
      f'.invariantObligations = ∅ → f.invariantObligations = ∅ := by
    intro f f' hcover hnone
    rw [ExtTreeSet.eq_empty_iff_forall_not_mem]
    intro o ho
    have hmem := (covers_iff.mp hcover).2.1 o ho
    rw [hnone] at hmem
    exact ExtTreeSet.not_mem_empty hmem
  refine free_iff.mpr ⟨⟨hempty ha hoa, hempty hb hob⟩,
    ⟨fun c hc => covered_read_notMem hfree hclash hclash' ha hb hc,
      fun c hc => covered_read_notMem hfree.symm hclash' hclash hb ha hc⟩, fun c x y hx hy => ?_⟩
  rw [← Bool.not_eq_true, wholeClash_iff] at hclash hclash'
  rcases (covers_iff.mp ha).2.2 c x hx with hx' | ⟨w, hw, hx'⟩ <;>
    rcases (covers_iff.mp hb).2.2 c y hy with hy' | ⟨w', hw', hy'⟩
  · exact hwrites c x y hx' hy'
  · by_contra hbad
    rw [compatible_comm] at hbad
    exact hclash' ⟨c, w', hw', .inr (.inl ⟨y, x, hy', hx', by simpa using hbad⟩)⟩
  · by_contra hbad
    exact hclash ⟨c, w, hw, .inr (.inl ⟨x, y, hx', hy', by simpa using hbad⟩)⟩
  · cases hw.symm.trans hw'
    exact hwrites w x y hx' hy'

end

def readOf (c : SemanticWriteCoordinate) : RewriteFootprint := { reads := {c} }

def writeOf (c : SemanticWriteCoordinate) (x : RewriteActionLaw) : RewriteFootprint :=
  { writes := (∅ : ExtTreeMap SemanticWriteCoordinate RewriteActionLaw).insert c x }

theorem mem_readOf (c : SemanticWriteCoordinate) : c ∈ (readOf c).reads := by
  simp [readOf]

theorem writes_writeOf (c : SemanticWriteCoordinate) (x : RewriteActionLaw) :
    (writeOf c x).writes[c]? = some x :=
  getElem?_insert_self

theorem covers_readOf (h : c ∈ a.reads ∨ ∃ w, relationWholeCoordinate c = some w ∧ w ∈ a.reads) :
    a.conservativelyCovers (readOf c) = true := by
  rw [covers_iff]
  refine ⟨fun d hd => ?_, fun o ho => absurd ho ExtTreeSet.not_mem_empty, fun d x hd => ?_⟩
  · have hcd : c = d := by simpa [readOf] using hd
    rwa [← hcd]
  · simp [readOf] at hd

theorem covers_writeOf {x : RewriteActionLaw}
    (h : a.writes[c]? = some x ∨ ∃ w, relationWholeCoordinate c = some w ∧
      a.writes[w]? = some x) : a.conservativelyCovers (writeOf c x) = true := by
  rw [covers_iff]
  refine ⟨fun d hd => absurd hd ExtTreeSet.not_mem_empty,
    fun o ho => absurd ho ExtTreeSet.not_mem_empty, fun d y hd => ?_⟩
  rw [writeOf] at hd
  by_cases hcd : c = d
  · subst hcd
    have hxy : x = y := by simpa using hd
    rwa [← hxy]
  · simp [hcd] at hd

theorem covered_not_free_of_clash (h : wholeClash a' b' = true) :
    ∃ a b, a'.conservativelyCovers a = true ∧ b'.conservativelyCovers b = true ∧ ¬ a.Free b := by
  obtain ⟨c, w, hw, ⟨hread, y, hy⟩ | ⟨x, y, hx, hy, hbad⟩ | ⟨⟨x, hx⟩, hread⟩⟩ := wholeClash_iff.mp h
  · refine ⟨readOf c, writeOf c y, covers_readOf (.inr ⟨w, hw, hread⟩), covers_writeOf (.inl hy),
      fun hfree => ?_⟩
    exact (free_iff.mp hfree).2.1.1 c (mem_readOf c) (mem_writes.mpr ⟨y, writes_writeOf c y⟩)
  · refine ⟨writeOf c x, writeOf c y, covers_writeOf (.inr ⟨w, hw, hx⟩), covers_writeOf (.inl hy),
      fun hfree => ?_⟩
    have hgood := (free_iff.mp hfree).2.2 c x y (writes_writeOf c x) (writes_writeOf c y)
    rw [hbad] at hgood
    cases hgood
  · refine ⟨writeOf c x, readOf c, covers_writeOf (.inr ⟨w, hw, hx⟩), covers_readOf (.inl hread),
      fun hfree => ?_⟩
    exact (free_iff.mp hfree).2.1.2 c (mem_readOf c) (mem_writes.mpr ⟨x, writes_writeOf c x⟩)

end RewriteFootprint

open RewriteFootprint

/-- A coordination-free answer for two declared footprints carries over to everything they cover
exactly when no `RelationWhole` of one clashes with a class or identity of the other. -/
theorem covered_free_iff {a' b' : RewriteFootprint}
    (hfree : coordinationDecision (inferPairRewriteLaw a' b') = .coordinationFree) :
    (∀ a b : RewriteFootprint, a'.conservativelyCovers a = true → b'.conservativelyCovers b = true →
      coordinationDecision (inferPairRewriteLaw a b) = .coordinationFree) ↔
    wholeClash a' b' = false ∧ wholeClash b' a' = false := by
  constructor
  · intro h
    constructor
    · by_contra hclash
      obtain ⟨a, b, ha, hb, hnot⟩ := covered_not_free_of_clash (by simpa using hclash)
      exact hnot (h a b ha hb)
    · by_contra hclash
      obtain ⟨b, a, hb, ha, hnot⟩ := covered_not_free_of_clash (by simpa using hclash)
      exact hnot (RewriteFootprint.Free.symm (h a b ha hb))
  · rintro ⟨hclash, hclash'⟩ a b ha hb
    exact free_of_covers hfree hclash hclash' ha hb

/-- Whole relations `5` and `6`, declared by two different rewrites. -/
theorem covered_free_distinct_relations :
    coordinationDecision (inferPairRewriteLaw (.opaqueRelation 5) (.opaqueRelation 6)) =
      .coordinationFree ∧
    ∀ a b : RewriteFootprint, (opaqueRelation 5).conservativelyCovers a = true →
      (opaqueRelation 6).conservativelyCovers b = true →
      coordinationDecision (inferPairRewriteLaw a b) = .coordinationFree :=
  ⟨by decide, (covered_free_iff (by decide)).mpr (by decide)⟩

/-- The whole relation `5` and its class `[0]`, both opaque, are coordination free, although the
first covers the second, which needs coordination with itself. -/
theorem whole_against_class_reported_free :
    inferPairRewriteLaw (.opaqueRelation 5) (.writeOf (.relationClass 5 [0]) .opaqueAction) =
      .strongCommute ∧
    (opaqueRelation 5).conservativelyCovers (.writeOf (.relationClass 5 [0]) .opaqueAction) = true ∧
    (writeOf (.relationClass 5 [0]) .opaqueAction).conservativelyCovers
      (.writeOf (.relationClass 5 [0]) .opaqueAction) = true ∧
    inferPairRewriteLaw (.writeOf (.relationClass 5 [0]) .opaqueAction)
      (.writeOf (.relationClass 5 [0]) .opaqueAction) = .unknown := by
  refine ⟨?_, ?_, ?_, ?_⟩ <;> decide

end Cfmd.Rewrite
