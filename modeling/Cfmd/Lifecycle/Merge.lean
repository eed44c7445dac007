import Cfmd.Lifecycle.Graph

/-! Merging intents. A merge is the composition of the two intents in either order unless
they set a fact to different values, and the merged graph is cut down to its live part. -/

namespace Cfmd.Lifecycle
open List hiding ext_getElem? getElem?_insert
open Std Lib ExtTreeMap

structure LifecycleConflict where
  fact : LifecycleFact

namespace LifecycleIntent

/-- `then`: the edits of the next intent replace those of the first. -/
def andThen (intent next : LifecycleIntent) : LifecycleIntent := ⟨intent.edits ∪ next.edits⟩

def mergeEdit (merged : LifecycleIntent) (edit : LifecycleFact × Bool) :
    Except LifecycleConflict LifecycleIntent :=
  match merged.edits[edit.1]? with
  | some existing =>
    if existing ≠ edit.2 then .error ⟨edit.1⟩ else .ok (merged.set edit.1 edit.2)
  | none => .ok (merged.set edit.1 edit.2)

def merge (left right : LifecycleIntent) : Except LifecycleConflict LifecycleIntent :=
  right.edits.toList.foldlM mergeEdit left

def Clashes (left right : LifecycleIntent) (fact : LifecycleFact) : Prop :=
  ∃ present, left.edits[fact]? = some present ∧ right.edits[fact]? = some (!present)

variable {left right : LifecycleIntent}

theorem Clashes.symm {fact : LifecycleFact} (h : left.Clashes right fact) :
    right.Clashes left fact := by
  obtain ⟨present, hleft, hright⟩ := h
  exact ⟨!present, hright, by rw [Bool.not_not, hleft]⟩

theorem mergeEdit_eq (merged : LifecycleIntent) (edit : LifecycleFact × Bool) :
    merged.mergeEdit edit = if merged.edits[edit.1]? = some (!edit.2) then .error ⟨edit.1⟩
      else .ok (merged.set edit.1 edit.2) := by
  unfold mergeEdit
  cases merged.edits[edit.1]? with
  | none => rfl
  | some existing => cases existing <;> cases edit.2 <;> rfl

theorem foldlM_mergeEdit {edits : List (LifecycleFact × Bool)} (hnodup : (edits.map Prod.fst).Nodup)
    {merged : LifecycleIntent} (hsame : ∀ edit ∈ edits, merged.edits[edit.1]? = left.edits[edit.1]?) :
    edits.foldlM mergeEdit merged =
      match edits.find? fun edit => left.edits[edit.1]? = some (!edit.2) with
      | some edit => .error ⟨edit.1⟩
      | none => .ok ⟨edits.foldl (fun m edit => m.insert edit.1 edit.2) merged.edits⟩ := by
  induction edits generalizing merged with
  | nil => rfl
  | cons edit edits ih =>
    rw [map_cons, nodup_cons] at hnodup
    rw [forall_mem_cons] at hsame
    rw [foldlM_cons, mergeEdit_eq, hsame.1, find?_cons]
    by_cases hclash : left.edits[edit.1]? = some (!edit.2)
    · rw [if_pos hclash, decide_eq_true hclash]
      rfl
    · rw [if_neg hclash, decide_eq_false hclash]
      refine ih hnodup.2 fun other hother => ?_
      have hne : edit.1 ≠ other.1 := fun heq => hnodup.1 (heq ▸ mem_map_of_mem hother)
      rw [set, getElem?_insert, if_neg (by simpa using hne), hsame.2 other hother]

theorem foldl_insert_eq_union (left right : ExtTreeMap LifecycleFact Bool) :
    right.toList.foldl (fun m edit => m.insert edit.1 edit.2) left = left ∪ right := by
  apply ext_getElem?
  intro fact
  rw [getElem?_foldl_insert_onto, getElem?_union]
  congr 1
  ext present
  rw [getElem?_foldl_insert _ _ _ (nodup_fst_toList right), ← mem_toList_iff_getElem?_eq_some]
  exact ⟨fun ⟨edit, hmem, hfact, hpresent⟩ => hfact ▸ hpresent ▸ hmem, fun h => ⟨_, h, rfl, rfl⟩⟩

theorem merge_cases (left right : LifecycleIntent) :
    (∃ fact, left.merge right = .error ⟨fact⟩ ∧ left.Clashes right fact ∧
        ∀ other, left.Clashes right other → compare other fact ≠ .lt) ∨
      left.merge right = .ok (left.andThen right) ∧ ∀ fact, ¬ left.Clashes right fact := by
  have hmem : ∀ fact, left.Clashes right fact → ∃ edit ∈ right.edits.toList, edit.1 = fact ∧
      left.edits[edit.1]? = some (!edit.2) := by
    rintro fact ⟨present, hleft, hright⟩
    refine ⟨(fact, !present), mem_toList_iff_getElem?_eq_some.mpr hright, rfl, ?_⟩
    rw [hleft, Bool.not_not]
  rw [merge, foldlM_mergeEdit (nodup_fst_toList right.edits) fun _ _ => rfl, foldl_insert_eq_union]
  cases hfind : right.edits.toList.find? fun edit => left.edits[edit.1]? = some (!edit.2) with
  | none =>
    refine .inr ⟨rfl, fun fact hclash => ?_⟩
    obtain ⟨edit, hedit, _, heq⟩ := hmem fact hclash
    exact find?_eq_none.mp hfind edit hedit (decide_eq_true heq)
  | some first =>
    obtain ⟨hfirst, before, after, hsplit, hbefore⟩ := find?_eq_some_iff_append.mp hfind
    have hright : right.edits[first.1]? = some first.2 :=
      mem_toList_iff_getElem?_eq_some.mp (mem_of_find?_eq_some hfind)
    refine .inl ⟨first.1, rfl, ⟨!first.2, of_decide_eq_true hfirst, by rw [Bool.not_not, hright]⟩,
      fun other hclash hlt => ?_⟩
    have hordered := right.edits.ordered_keys_toList
    rw [hsplit, pairwise_append, pairwise_cons] at hordered
    obtain ⟨edit, hedit, rfl, heq⟩ := hmem other hclash
    rw [hsplit, mem_append, mem_cons] at hedit
    rcases hedit with hedit | rfl | hedit
    · simpa [heq] using hbefore edit hedit
    · exact compare_lt_irrefl _ hlt
    · exact not_compare_lt_lt hlt (hordered.2.1.1 edit hedit)

theorem merge_comm_of_ok (h : ∀ fact, ¬ left.Clashes right fact) :
    left.andThen right = right.andThen left := by
  refine congrArg mk (ext_getElem? fun fact => ?_)
  rw [getElem?_union, getElem?_union]
  cases hleft : left.edits[fact]? with
  | none => exact Option.or_none
  | some present =>
    cases hright : right.edits[fact]? with
    | none => rfl
    | some present' =>
      by_cases heq : present' = present
      · rw [heq]
      · exact absurd ⟨present, hleft, by rw [hright, Bool.eq_not_of_ne heq]⟩ (h fact)

theorem merge_comm (left right : LifecycleIntent) : left.merge right = right.merge left := by
  rcases merge_cases left right with ⟨fact, hmerge, hclash, hleast⟩ | ⟨hmerge, hfree⟩ <;>
    rcases merge_cases right left with ⟨fact', hmerge', hclash', hleast'⟩ | ⟨hmerge', hfree'⟩
  · have heq : compare fact fact' = .eq := by
      have hge := hleast fact' hclash'.symm
      have hle := hleast' fact hclash.symm
      cases hcompare : compare fact fact' with
      | lt => exact absurd hcompare hle
      | eq => rfl
      | gt => exact absurd (OrientedCmp.lt_of_gt hcompare) hge
    rw [hmerge, hmerge', LawfulEqOrd.eq_of_compare heq]
  · exact absurd hclash.symm (hfree' fact)
  · exact absurd hclash'.symm (hfree fact')
  · rw [hmerge, hmerge', merge_comm_of_ok hfree]

end LifecycleIntent

namespace LifecycleGraph

/-- Only live parents with a live child keep a row. -/
def normalize (graph : LifecycleGraph) : LifecycleGraph := let live := graph.liveEntities
  { entities := live
    roots := graph.roots ∩ live
    keepsAlive := graph.keepsAlive.filterMap fun parent children =>
      if !live.contains parent then none
      else if (children ∩ live).isEmpty then none else some (children ∩ live) }

def mergeFromLca (lca : LifecycleGraph) (left right : LifecycleIntent) :
    Except LifecycleConflict LifecycleGraph := do
  let intent ← left.merge right
  return (lca.applyIntent intent).normalize

variable {graph other : LifecycleGraph} {intent : LifecycleIntent} {parent : EntityId}

theorem ext_of_holds (hentities : graph.entities = other.entities)
    (hholds : ∀ fact, graph.Holds fact ↔ other.Holds fact)
    (hrows : ∀ parent : EntityId, graph.keepsAlive[parent]? = other.keepsAlive[parent]? ∨
      graph.keepsAlive[parent]? ≠ some ∅ ∧ other.keepsAlive[parent]? ≠ some ∅) :
    graph = other := by
  have hroots : graph.roots = other.roots := ExtTreeSet.ext_mem fun e => hholds (.root e)
  have hkeepsAlive : graph.keepsAlive = other.keepsAlive := by
    apply ext_getElem?
    intro parent
    rcases hrows parent with heq | ⟨hrow, hrow'⟩
    · exact heq
    · have hsets : graph.keepsAlive[parent]?.getD ∅ = other.keepsAlive[parent]?.getD ∅ :=
        ExtTreeSet.ext_mem fun child => hholds (.keepsAlive parent child)
      cases hget : graph.keepsAlive[parent]? <;> cases hget' : other.keepsAlive[parent]? <;>
        rw [hget'] at hsets <;> simp_all
  cases graph
  cases other
  simp_all

/-! ### Applying intents -/

theorem holds_applyIntent_iff {fact : LifecycleFact} : (graph.applyIntent intent).Holds fact ↔
    intent.edits[fact]? = some true ∨ intent.edits[fact]? = none ∧ graph.Holds fact := by
  rw [holds_applyIntent, mem_toList_iff_getElem?_eq_some, mem_toList_iff_getElem?_eq_some]
  rcases intent.edits[fact]? with _ | _ | _ <;> simp

theorem row_edited (edit : LifecycleFact × Bool) (parent : EntityId) :
    ((∃ child, edit.1 = .keepsAlive parent child) →
        (graph.applyEdit edit).keepsAlive[parent]? ≠ some ∅) ∧
      ((∀ child, edit.1 ≠ .keepsAlive parent child) →
        (graph.applyEdit edit).keepsAlive[parent]? = graph.keepsAlive[parent]?) := by
  obtain ⟨fact, present⟩ := edit
  cases fact with
  | root entity => cases present <;> exact ⟨nofun, fun _ => rfl⟩
  | keepsAlive p child =>
    rw [row_applyEdit]
    constructor
    · rintro ⟨_, heq⟩
      cases heq
      rw [if_neg (not_not.mpr rfl)]
      cases present with
      | true => simp
      | false =>
        intro h
        obtain ⟨children, _, h⟩ := Option.bind_eq_some_iff.mp h
        split_ifs at h with hempty
        exact hempty (ExtTreeSet.isEmpty_iff.mpr (Option.some.inj h))
    · intro hother
      exact if_pos fun heq => hother child (by rw [heq])

def Touches (intent : LifecycleIntent) (parent : EntityId) : Prop :=
  ∃ child, intent.edits[LifecycleFact.keepsAlive parent child]? ≠ none

theorem row_applyIntent (intent : LifecycleIntent) (parent : EntityId) :
    (Touches intent parent → (graph.applyIntent intent).keepsAlive[parent]? ≠ some ∅) ∧
      (¬ Touches intent parent →
        (graph.applyIntent intent).keepsAlive[parent]? = graph.keepsAlive[parent]?) := by
  have hfold : ∀ edits : List (LifecycleFact × Bool),
      ((∃ edit ∈ edits, ∃ child, edit.1 = .keepsAlive parent child) →
          (edits.foldl applyEdit graph).keepsAlive[parent]? ≠ some ∅) ∧
        ((∀ edit ∈ edits, ∀ child, edit.1 ≠ .keepsAlive parent child) →
          (edits.foldl applyEdit graph).keepsAlive[parent]? = graph.keepsAlive[parent]?) := by
    intro edits
    induction edits using reverseRecOn with
    | nil => exact ⟨nofun, fun _ => rfl⟩
    | append_singleton edits edit ih =>
      obtain ⟨htouched, huntouched⟩ := @row_edited (edits.foldl applyEdit graph) edit parent
      rw [foldl_append, foldl_cons, foldl_nil]
      constructor
      · rintro ⟨other, hother, hchild⟩
        by_cases hedit : ∃ child, edit.1 = .keepsAlive parent child
        · exact htouched hedit
        · rw [huntouched fun child heq => hedit ⟨child, heq⟩]
          rcases mem_append.mp hother with hother | hother
          · exact ih.1 ⟨other, hother, hchild⟩
          · exact absurd (mem_singleton.mp hother ▸ hchild) hedit
      · intro hnone
        rw [forall_mem_append, forall_mem_singleton] at hnone
        rw [huntouched hnone.2, ih.2 hnone.1]
  obtain ⟨htouched, huntouched⟩ := hfold intent.edits.toList
  refine ⟨fun ⟨child, hsome⟩ => htouched ?_, fun hnone => huntouched ?_⟩
  · obtain ⟨present, hget⟩ := Option.ne_none_iff_exists'.mp hsome
    exact ⟨_, mem_toList_iff_getElem?_eq_some.mpr hget, child, rfl⟩
  · rintro ⟨fact, present⟩ hmem child rfl
    rw [mem_toList_iff_getElem?_eq_some] at hmem
    exact hnone ⟨child, by rw [hmem]; nofun⟩

theorem applyIntent_andThen (graph : LifecycleGraph) (first next : LifecycleIntent) :
    graph.applyIntent (first.andThen next) = (graph.applyIntent first).applyIntent next := by
  apply ext_of_holds
  · simp only [applyIntent_entities]
  · intro fact
    rw [holds_applyIntent_iff, holds_applyIntent_iff, holds_applyIntent_iff,
      LifecycleIntent.andThen, getElem?_union]
    cases next.edits[fact]? <;> simp
  · intro parent
    have hboth : Touches (first.andThen next) parent ↔ Touches first parent ∨ Touches next parent := by
      simp only [Touches, LifecycleIntent.andThen, getElem?_union, Ne,
        Option.or_eq_none_iff, not_and_or, exists_or]
      exact or_comm
    by_cases hnext : Touches next parent
    · exact .inr ⟨(row_applyIntent _ parent).1 (hboth.mpr (.inr hnext)),
        (row_applyIntent next parent).1 hnext⟩
    · rw [(row_applyIntent next parent).2 hnext]
      by_cases hfirst : Touches first parent
      · exact .inr ⟨(row_applyIntent _ parent).1 (hboth.mpr (.inl hfirst)),
          (row_applyIntent first parent).1 hfirst⟩
      · rw [(row_applyIntent first parent).2 hfirst,
          (row_applyIntent _ parent).2 fun h => (hboth.mp h).elim hfirst hnext]
        exact .inl rfl

/-! ### The live part -/

theorem holds_normalize_root (e : EntityId) :
    graph.normalize.Holds (.root e) ↔ graph.Holds (.root e) ∧ e ∈ graph.liveEntities :=
  ExtTreeSet.mem_inter_iff

theorem row_normalize (parent : EntityId) :
    graph.normalize.keepsAlive[parent]? = graph.keepsAlive[parent]?.bind fun children =>
      if !graph.liveEntities.contains parent then none
      else if (children ∩ graph.liveEntities).isEmpty then none
      else some (children ∩ graph.liveEntities) :=
  getElem?_filterMap'

theorem row_normalize_ne_empty (parent : EntityId) :
    graph.normalize.keepsAlive[parent]? ≠ some ∅ := by
  rw [row_normalize]
  intro h
  obtain ⟨children, _, h⟩ := Option.bind_eq_some_iff.mp h
  split_ifs at h with hlive hempty
  rw [Option.some.inj h] at hempty
  exact hempty ExtTreeSet.isEmpty_empty

theorem holds_normalize_keepsAlive (parent child : EntityId) :
    graph.normalize.Holds (.keepsAlive parent child) ↔ graph.Holds (.keepsAlive parent child) ∧
      parent ∈ graph.liveEntities ∧ child ∈ graph.liveEntities := by
  show child ∈ graph.normalize.keepsAlive[parent]?.getD ∅ ↔
    child ∈ graph.keepsAlive[parent]?.getD ∅ ∧ _
  rw [row_normalize, ← ExtTreeSet.contains_iff_mem (k := parent)]
  cases graph.keepsAlive[parent]? with
  | none => simp
  | some children =>
    rw [Option.bind_some]
    cases graph.liveEntities.contains parent with
    | false => simp
    | true =>
      rw [Bool.not_true, if_neg Bool.false_ne_true, getD_of_nonempty, eq_self, true_and]
      exact ExtTreeSet.mem_inter_iff

theorem liveEntities_normalize (graph : LifecycleGraph) :
    graph.normalize.liveEntities = graph.liveEntities := by
  apply ExtTreeSet.ext_mem
  intro e
  have hinside : ∀ e, e ∈ graph.liveEntities → e ∈ graph.entities := by
    intro e he
    exact (mem_liveEntities e).mp he |>.subset (fun _ h => h.2) fun _ _ _ h => h.2
  constructor
  · intro he
    rw [mem_liveEntities] at he ⊢
    apply he.mono
    · exact fun a ⟨hroot, ha⟩ => ⟨((holds_normalize_root a).mp hroot).1, hinside a ha⟩
    · exact fun a b ⟨hedge, hb⟩ =>
        ⟨((holds_normalize_keepsAlive a b).mp hedge).1, hinside b hb⟩
  · intro he
    rw [mem_liveEntities] at he ⊢
    induction he with
    | root hroot =>
      have hlive := (mem_liveEntities _).mpr (Reached.root hroot)
      exact .root ⟨(holds_normalize_root _).mpr ⟨hroot.1, hlive⟩, hlive⟩
    | step hparent hedge ih =>
      have hlive := (mem_liveEntities _).mpr (hparent.step hedge)
      have hlive' := (mem_liveEntities _).mpr hparent
      exact ih.step ⟨(holds_normalize_keepsAlive _ _).mpr ⟨hedge.1, hlive', hlive⟩, hlive⟩

theorem normalize_normalize (graph : LifecycleGraph) : graph.normalize.normalize = graph.normalize := by
  apply ext_of_holds
  · exact liveEntities_normalize graph
  · intro fact
    cases fact with
    | root e =>
      rw [holds_normalize_root, liveEntities_normalize, holds_normalize_root, and_assoc, and_self_iff]
    | keepsAlive parent child =>
      rw [holds_normalize_keepsAlive, liveEntities_normalize, holds_normalize_keepsAlive, and_assoc,
        and_self_iff]
  · exact fun parent => .inr ⟨row_normalize_ne_empty parent, row_normalize_ne_empty parent⟩

/-- A merge from a common ancestor is the live part of both orders of the two intents, or fails in
both; composed intents apply in turn; the live part is a fixed point that keeps exactly what is
live. -/
theorem mergeFromLca_spec (graph : LifecycleGraph) (a b : LifecycleIntent) :
    (((∃ merged, graph.mergeFromLca a b = .ok merged) ↔ ∀ fact, ¬ a.Clashes b fact) ∧
      graph.mergeFromLca a b = graph.mergeFromLca b a ∧
      ∀ merged, graph.mergeFromLca a b = .ok merged →
        merged = ((graph.applyIntent a).applyIntent b).normalize ∧
        merged = ((graph.applyIntent b).applyIntent a).normalize) ∧
    graph.applyIntent (a.andThen b) = (graph.applyIntent a).applyIntent b ∧
    graph.normalize.normalize = graph.normalize ∧
    (∀ e, e ∈ graph.liveEntities ↔ Live graph.entities graph.Holds e) ∧
    graph.normalize.liveEntities = graph.liveEntities ∧
    graph.normalize.entities = graph.liveEntities ∧
    (∀ e ∈ graph.normalize.roots, e ∈ graph.liveEntities) ∧
    ∀ parent children, graph.normalize.keepsAlive[parent]? = some children →
      parent ∈ graph.liveEntities ∧ ∀ child ∈ children, child ∈ graph.liveEntities := by
  have hmerge : (graph.mergeFromLca a b = .ok ((graph.applyIntent a).applyIntent b).normalize ∧
      ((graph.applyIntent a).applyIntent b).normalize =
        ((graph.applyIntent b).applyIntent a).normalize ∧ ∀ fact, ¬ a.Clashes b fact) ∨
      (∃ conflict, graph.mergeFromLca a b = .error conflict) ∧ ∃ fact, a.Clashes b fact := by
    rcases a.merge_cases b with ⟨fact, hmerge, hclash, _⟩ | ⟨hmerge, hfree⟩
    · exact .inr ⟨⟨⟨fact⟩, by rw [mergeFromLca, hmerge]; rfl⟩, fact, hclash⟩
    · refine .inl ⟨?_, ?_, hfree⟩
      · rw [← applyIntent_andThen, mergeFromLca, hmerge]
        rfl
      · rw [← applyIntent_andThen, ← applyIntent_andThen, LifecycleIntent.merge_comm_of_ok hfree]
  refine ⟨⟨?_, ?_, ?_⟩, applyIntent_andThen graph a b, normalize_normalize graph,
    mem_liveEntities, liveEntities_normalize graph, rfl, fun e he => ((holds_normalize_root e).mp he).2, ?_⟩
  · rcases hmerge with ⟨hok, _, hfree⟩ | ⟨⟨conflict, herror⟩, fact, hclash⟩
    · exact ⟨fun _ => hfree, fun _ => ⟨_, hok⟩⟩
    · rw [herror]
      exact ⟨nofun, fun hfree => absurd hclash (hfree fact)⟩
  · rw [mergeFromLca, LifecycleIntent.merge_comm, mergeFromLca]
  · intro merged h
    rcases hmerge with ⟨hok, heq, _⟩ | ⟨⟨conflict, herror⟩, _⟩
    · rw [hok] at h
      cases h
      exact ⟨rfl, heq⟩
    · rw [herror] at h
      cases h
  · intro parent children hrow
    rw [row_normalize] at hrow
    obtain ⟨_, _, hrow⟩ := Option.bind_eq_some_iff.mp hrow
    split_ifs at hrow with hparent hempty
    cases hrow
    refine ⟨by simpa using hparent, fun child hchild => ?_⟩
    exact (ExtTreeSet.mem_inter_iff.mp hchild).2

end LifecycleGraph

end Cfmd.Lifecycle
