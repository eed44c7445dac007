import Cfmd.Lifecycle.Tracking

/-! The live set is repaired below the cuts and spread from the additions. After any sequence of
intents the live entities are those the graph computes from its roots. -/

namespace Cfmd.Lifecycle
open Std Lib DenseEntitySet DenseLifecycleProjection List

namespace MaintainedDenseLifecycle
variable {m m' : MaintainedDenseLifecycle} {facts facts' : LifecycleFact → Prop}
  {starts : List LocalEntityId}

theorem Tracks.edge_inside (h : m.Tracks facts) {p c : LocalEntityId}
    (hc : c ∈ row m.keepsAlive p) : c ∈ Finset.range m.ids.len :=
  Finset.mem_range.mpr ((h.keeps p c).mp hc).lt.2

theorem sum_sweepFuel (rows : List (List LocalEntityId)) (starts : List LocalEntityId) :
    ∑ u ∈ Finset.range rows.length, ((row rows u).length + 1) + starts.length =
      sweepFuel rows starts := rfl

theorem Tracks.sweep (h : m.Tracks facts) (marked : DenseEntitySet)
    (hstarts : ∀ l ∈ starts, l < m.ids.len) (l : LocalEntityId) :
    (Lib.sweep contains insert (row m.keepsAlive)
        (sweepFuel m.keepsAlive starts) ⟨marked, starts⟩).marked.contains l = true ↔
      marked.contains l = true ∨ Reached (fun v => v ∈ starts ∧ ¬ marked.contains v = true)
          (fun p v => EdgeIn m.ids facts p v ∧ ¬ marked.contains v = true) l := by
  have hfuel := sum_sweepFuel m.keepsAlive starts
  rw [h.length_keepsAlive] at hfuel
  have hqueue : ∀ v ∈ (⟨marked, starts⟩ : Work DenseEntitySet LocalEntityId).queue,
      v ∈ Finset.range m.ids.len := fun v hv => Finset.mem_range.mpr (hstarts v hv)
  rw [sweep_marked (markSet_dense (Finset.range m.ids.len)) trivial
    (fun _ _ _ hv => h.edge_inside hv) hqueue hfuel.le]
  apply or_congr_right
  exact Reached.congr (fun _ => Iff.rfl) fun p v => and_congr_left' (h.keeps p v)

theorem Tracks.mem_candidate (h : m.Tracks facts) (hstarts : ∀ l ∈ starts, l < m.ids.len)
    (l : LocalEntityId) : (m.candidate starts).contains l = true ↔
      Reached (· ∈ starts) (EdgeIn m.ids facts) l := by
  unfold candidate
  rw [h.sweep _ hstarts]
  simp only [contains_withCapacity, Bool.false_eq_true, false_or, not_false_eq_true, and_true]

section
variable (h : m.Tracks facts) (candidate : DenseEntitySet) (l : LocalEntityId)
include h

theorem Tracks.externallySupported_iff : m.externallySupported candidate l = true ↔
      RootIn m.ids facts l ∨ ∃ p, EdgeIn m.ids facts p l ∧ m.live.contains p = true ∧
        ¬ candidate.contains p = true := by
  simp only [externallySupported, Bool.or_eq_true, any_eq_true, Bool.and_eq_true,
    Bool.not_eq_true', Bool.not_eq_true, h.roots, h.kept]

theorem Tracks.mem_surviving : (m.surviving candidate).contains l = true ↔
      Reached (fun v => candidate.contains v = true ∧ (RootIn m.ids facts v ∨
          ∃ p, EdgeIn m.ids facts p v ∧ m.live.contains p = true ∧ ¬ candidate.contains p = true))
        (fun p v => EdgeIn m.ids facts p v ∧ candidate.contains v = true) l := by
  unfold surviving
  generalize hsupported : candidate.iter.filter (m.externallySupported candidate) = supported
  have hmem : ∀ v, v ∈ supported ↔ candidate.contains v = true ∧
      (RootIn m.ids facts v ∨ ∃ p, EdgeIn m.ids facts p v ∧ m.live.contains p = true ∧
        ¬ candidate.contains p = true) := by
    intro v
    rw [← hsupported, mem_filter, mem_iter, h.externallySupported_iff]
  have hqueue : ∀ v, (supported.foldl insert
      (.withCapacity m.ids.len)).contains v = true ↔ v ∈ supported := by
    intro v
    rw [contains_foldl_insert, contains_withCapacity]
    simp
  refine (spread_marked (markSet_dense (Finset.range m.ids.len))
    (w := ⟨supported.foldl insert (.withCapacity m.ids.len), supported⟩) trivial
    (fun _ _ hv _ => h.edge_inside hv) hqueue (by rw [Finset.card_range]) l).trans ?_
  exact Reached.congr hmem fun p v => and_congr_left' (h.keeps p v)

end

def Settled (m : MaintainedDenseLifecycle) (facts : LifecycleFact → Prop) : Prop :=
  ∀ l, m.live.contains l = true ↔ Alive m.ids facts l

theorem recompute_live (l : LocalEntityId) :
    (m.recomputeDecreaseRegion starts).live.contains l = true ↔
      (m.live.contains l = true ∧ ¬ (m.candidate starts).contains l = true) ∨
        (m.surviving (m.candidate starts)).contains l = true := by
  unfold recomputeDecreaseRegion
  rw [contains_foldl_insert, contains_foldl_remove, mem_iter, mem_iter, or_comm, and_comm]

theorem recompute_ids (m : MaintainedDenseLifecycle) (starts : List LocalEntityId) :
    (m.recomputeDecreaseRegion starts).ids = m.ids := by
  rfl

theorem Tracks.recompute (h : m.Tracks facts) (starts : List LocalEntityId) :
    (m.recomputeDecreaseRegion starts).Tracks facts := by
  unfold recomputeDecreaseRegion
  exact ⟨h.coherent, h.length_keepsAlive, h.length_keptBy, h.keepsAlive_sorted, h.keptBy_sorted,
    h.roots, h.keeps, h.kept⟩

theorem Tracks.activate (h : m.Tracks facts) (starts : List LocalEntityId) :
    (m.activateFrom starts).Tracks facts := by
  exact ⟨h.coherent, h.length_keepsAlive, h.length_keptBy, h.keepsAlive_sorted, h.keptBy_sorted,
    h.roots, h.keeps, h.kept⟩

/-- The live set after the cuts: outside the region below them it stays, inside
only what is supported from outside survives. -/
theorem Cut.settled (h : Cut m m' facts facts' starts) (hm : m.Settled facts)
    {reduced : MaintainedDenseLifecycle}
    (hreduced : reduced = if starts.isEmpty then m' else m'.recomputeDecreaseRegion starts) :
    reduced.Tracks facts' ∧ reduced.ids = m.ids ∧ reduced.Settled facts' := by
  have hstarts : ∀ l ∈ starts, l < m'.ids.len := h.ids ▸ h.inside
  have hcut : ∀ l, Alive m.ids facts' l ↔ _ := fun l => reached_after_cut
    (fun _ => RootIn.mono h.fewer) (fun _ _ => EdgeIn.mono h.fewer) h.root h.edge (a := l)
  have hregion : ∀ l, (m'.candidate starts).contains l = true ↔
      Reached (· ∈ starts) (EdgeIn m.ids facts') l := by
    intro l
    rw [h.tracks.mem_candidate hstarts, h.ids]
  have hlive : ∀ l, m'.live.contains l = true ↔ Alive m.ids facts l := by
    intro l
    rw [h.live]
    exact hm l
  by_cases hempty : starts = []
  · -- without cuts the region is empty
    have hnone : ∀ l, ¬ Reached (· ∈ starts) (EdgeIn m.ids facts') l := by
      intro l hl
      exact hl.subset (S := fun _ => False) (fun _ hr => by simp [hempty] at hr) fun _ _ hp _ => hp
    rw [hempty] at hreduced
    subst hreduced
    refine ⟨h.tracks, h.ids, fun l => ?_⟩
    rw [h.ids, hlive, hcut]
    constructor
    · exact fun hl => .inl ⟨hl, hnone l⟩
    · rintro (hl | hl)
      · exact hl.1
      · exact absurd (hl.subset (fun _ hr => hr.1) fun _ _ _ he => he.2) (hnone l)
  · rw [if_neg (by simpa using hempty)] at hreduced
    subst hreduced
    refine ⟨h.tracks.recompute starts, (recompute_ids m' starts).trans h.ids, fun l => ?_⟩
    rw [recompute_live, h.tracks.mem_surviving, recompute_ids, h.ids, hcut]
    simp only [hlive, hregion]
    rfl

theorem Grown.settled (h : Grown m m' facts facts' starts) (hm : m.Settled facts) :
    (m'.activateFrom starts).Settled facts' := by
  have hstarts : ∀ l ∈ starts, l < m'.ids.len := by
    intro l hl
    rw [h.ids]
    obtain hroot | ⟨p, hedge, _⟩ := h.sound l hl
    · exact hroot.lt
    · exact hedge.lt.2
  have hlive : ∀ l, m'.live.contains l = true ↔ Alive m.ids facts l := by
    intro l
    rw [h.live]
    exact hm l
  have hgrown : ∀ l, Alive m.ids facts' l ↔ _ := fun l => reached_after_growth
    (fun _ => RootIn.mono h.more) (fun _ _ => EdgeIn.mono h.more)
    (fun v hv => (h.sound v hv).elim .root fun ⟨p, hedge, hp⟩ =>
      .step (((hm p).mp hp).mono (fun _ => .mono h.more) fun _ _ => .mono h.more) hedge)
    h.root (fun p c hc hp => h.edge p c hc ((hm p).mpr hp)) (a := l)
  intro l
  unfold activateFrom
  rw [h.tracks.sweep _ hstarts, h.ids, hgrown]
  simp only [hlive]
  rfl

theorem applyIntent_spec (h : m.Tracks facts) (hm : m.Settled facts)
    (intent : LifecycleIntent) (hfacts : ∀ f, facts' f ↔
      (facts f ∧ (f, false) ∉ intent.edits.toList) ∨ (f, true) ∈ intent.edits.toList) :
    (m.applyIntent intent).ids = m.ids ∧ (m.applyIntent intent).Tracks facts' ∧
      (m.applyIntent intent).Settled facts' := by
  obtain ⟨hcut, hadditions⟩ := foldl_cutEdit h intent.edits.toList
  obtain ⟨htracks, hids, hsettled⟩ := hcut.settled hm rfl
  have hgrown := foldl_addFact htracks (intent.edits.toList.foldl cutEdit ⟨m, [], []⟩).additions
  have hgrown : Grown _ _ _ facts' _ := hgrown.congr fun f => by rw [hfacts, hadditions]
  exact ⟨hgrown.ids.trans hids, hgrown.tracks.activate _, hgrown.settled hsettled⟩

end MaintainedDenseLifecycle

section Compile
variable {ids : DenseEntityIds} (hids : ids.Coherent)
include hids

theorem localOf_lt {a b : EntityId} {i j : LocalEntityId} (hlt : compare a b = .lt)
    (hi : ids.localOf a = some i) (hj : ids.localOf b = some j) : i < j := by
  obtain ⟨hilen, hi⟩ := List.getElem?_eq_some_iff.mp ((hids.localOf_iff a i).mp hi)
  obtain ⟨hjlen, hj⟩ := List.getElem?_eq_some_iff.mp ((hids.localOf_iff b j).mp hj)
  by_contra hge
  obtain heq | hgt := Nat.eq_or_lt_of_le (Nat.le_of_not_lt hge)
  · subst heq
    rw [hi.symm.trans hj, ReflOrd.compare_self] at hlt
    cases hlt
  have hba := pairwise_iff_getElem.mp hids.sorted j i hjlen hilen hgt
  rw [hi, hj] at hba
  have hgt' := OrientedCmp.gt_of_lt hba
  rw [hlt] at hgt'
  cases hgt'

theorem locals_sorted (set : ExtTreeSet EntityId) :
    (set.toList.filterMap ids.localOf).Pairwise (· < ·) := by
  rw [pairwise_filterMap]
  apply set.ordered_toList.imp
  intro a b hlt i hi j hj
  exact localOf_lt hids hlt hi hj

omit hids in
theorem mem_locals (set : ExtTreeSet EntityId) (l : LocalEntityId) :
    l ∈ set.toList.filterMap ids.localOf ↔ ∃ e ∈ set, ids.localOf e = some l := by
  simp only [mem_filterMap, ExtTreeSet.mem_toList]

theorem keepsAlive_spec (entries : List (EntityId × ExtTreeSet EntityId))
    (hkeys : (entries.map Prod.fst).Nodup) :
    let rows := entries.foldl
      (fun rows entry =>
        match ids.localOf entry.1 with
        | none => rows
        | some parent => rows.modify parent (· ++ entry.2.toList.filterMap ids.localOf))
      (replicate ids.len [])
    rows.length = ids.len ∧ (∀ p, (row rows p).Pairwise (· < ·)) ∧
      ∀ p c, c ∈ row rows p ↔ ∃ entry ∈ entries, ids.localOf entry.1 = some p ∧
        c ∈ entry.2.toList.filterMap ids.localOf := by
  let I : List (List LocalEntityId) → List (EntityId × ExtTreeSet EntityId) → Prop :=
    fun rows done => (done.map Prod.fst).Nodup → rows.length = ids.len ∧
      (∀ p, (row rows p).Pairwise (· < ·)) ∧
      ∀ p c, c ∈ row rows p ↔ ∃ entry ∈ done, ids.localOf entry.1 = some p ∧
        c ∈ entry.2.toList.filterMap ids.localOf
  have hinit : I (replicate ids.len []) [] :=
    fun _ => ⟨length_replicate, by simp [row_replicate], by simp [row_replicate]⟩
  refine foldl_visited (I := I) (fun rows done entry hI hnodup => ?_) entries hinit hkeys
  rw [map_append, nodup_append] at hnodup
  obtain ⟨hlen, hsorted, hmem⟩ := hI hnodup.1
  cases hparent : ids.localOf entry.1 with
  | none =>
    refine ⟨hlen, hsorted, fun p c => ?_⟩
    rw [hmem]
    simp [or_and_right, exists_or, hparent]
  | some parent =>
    have hplen : parent < rows.length := by
      rw [hlen]
      exact DenseEntityIds.lt_of_externalOf ((hids.localOf_iff _ parent).mp hparent)
    -- the keys are distinct, so the row is still empty
    have hempty : row rows parent = [] := by
      rw [eq_nil_iff_forall_not_mem]
      intro c hc
      obtain ⟨other, hother, hlocal, _⟩ := (hmem parent c).mp hc
      have heq : some other.1 = some entry.1 :=
        ((hids.localOf_iff _ parent).mp hlocal).symm.trans ((hids.localOf_iff _ parent).mp hparent)
      exact hnodup.2.2 other.1 (mem_map_of_mem hother) entry.1 (by simp) (Option.some.inj heq)
    have hrow : ∀ p, row (rows.modify parent (· ++ entry.2.toList.filterMap ids.localOf)) p =
        if parent = p then entry.2.toList.filterMap ids.localOf else row rows p := by
      intro p
      rw [row_modify]
      by_cases heq : parent = p
      · subst heq
        simp [hplen, hempty]
      · simp [heq]
    refine ⟨by simpa using hlen, fun p => ?_, fun p c => ?_⟩
    · rw [hrow]
      split
      · exact locals_sorted hids entry.2
      · exact hsorted p
    · rw [hrow]
      by_cases heq : parent = p
      · subst heq
        have hnone : ¬ ∃ entry ∈ done, ids.localOf entry.1 = some parent ∧
            c ∈ entry.2.toList.filterMap ids.localOf := by
          rw [← hmem, hempty]
          exact not_mem_nil
        simp only [if_pos, mem_append, mem_singleton, or_and_right, exists_or,
          exists_eq_left, hparent, true_and, or_iff_right hnone]
      · rw [if_neg heq, hmem]
        simp only [mem_append, mem_singleton, or_and_right, exists_or,
          exists_eq_left, hparent, Option.some_inj, heq, false_and, or_false]

theorem keptBy_spec {keepsAlive : List (List LocalEntityId)} (hlen : keepsAlive.length = ids.len)
    (hinside : ∀ p, ∀ c ∈ row keepsAlive p, c < ids.len) :
    let rows := (range keepsAlive.length).foldl
      (fun rows parentIndex =>
        match (ids.externalOf parentIndex).bind ids.localOf with
        | none => rows
        | some parent => (row keepsAlive parentIndex).foldl
            (fun rows child => pushAt rows child parent) rows)
      (replicate ids.len [])
    rows.length = ids.len ∧ ∀ p c, p ∈ row rows c ↔ c ∈ row keepsAlive p := by
  -- the translation there and back is the identity
  have hback : ∀ i, i < ids.len → (ids.externalOf i).bind ids.localOf = some i := by
    intro i hi
    obtain ⟨e, he⟩ : ∃ e, ids.externalOf i = some e := ⟨_, getElem?_eq_getElem hi⟩
    rw [he]
    exact (hids.localOf_iff e i).mpr he
  have hpushes : (range keepsAlive.length).foldl
      (fun rows parentIndex =>
        match (ids.externalOf parentIndex).bind ids.localOf with
        | none => rows
        | some parent => (row keepsAlive parentIndex).foldl
            (fun rows child => pushAt rows child parent) rows)
      (replicate ids.len []) =
      ((range keepsAlive.length).flatMap fun p => (row keepsAlive p).map fun c =>
        (c, p)).foldl (fun rows push => pushAt rows push.1 push.2)
        (replicate ids.len []) := by
    rw [foldl_flatMap]
    apply foldl_ext
    intro rows i hi
    rw [hlen, mem_range] at hi
    rw [hback i hi, foldl_map]
  intro rows
  have hrows : rows = _ := hpushes
  refine ⟨by rw [hrows, length_foldl_pushAt, length_replicate], fun p c => ?_⟩
  by_cases hc : c < ids.len
  · rw [hrows, row_foldl_pushAt _ _ (by simpa using hc), row_replicate, nil_append]
    rw [mem_map]
    constructor
    · rintro ⟨push, hpush, rfl⟩
      obtain ⟨hpush, hchild⟩ := mem_filter.mp hpush
      obtain ⟨parent, _, hpush⟩ := mem_flatMap.mp hpush
      obtain ⟨child, hmem, rfl⟩ := mem_map.mp hpush
      exact of_decide_eq_true hchild ▸ hmem
    · intro hmem
      refine ⟨(c, p), mem_filter.mpr ⟨mem_flatMap.mpr ⟨p, ?_, ?_⟩, by simp⟩, rfl⟩
      · exact mem_range.mpr (lt_of_mem_row hmem)
      · exact mem_map_of_mem hmem
  · have hempty : row rows c = [] := by
      apply row_of_le
      rw [hrows, length_foldl_pushAt, length_replicate]
      exact Nat.le_of_not_lt hc
    rw [hempty]
    exact ⟨fun hmem => absurd hmem not_mem_nil, fun hmem => absurd (hinside p c hmem) hc⟩

section
variable (graph : LifecycleGraph)

theorem rootIn_compiled (l : LocalEntityId) :
    (compileWithIds graph ids).roots.contains l = true ↔ RootIn ids graph.Holds l := by
  unfold compileWithIds
  rw [contains_foldl_insert, mem_locals, contains_withCapacity]
  simp only [Bool.false_eq_true, or_false, RootIn, LifecycleGraph.Holds, hids.localOf_iff]
  exact exists_congr fun e => and_comm

theorem keepsAlive_compiled :
    let rows := (compileWithIds graph ids).keepsAlive
    rows.length = ids.len ∧ (∀ p, (row rows p).Pairwise (· < ·)) ∧
      ∀ p c, c ∈ row rows p ↔ EdgeIn ids graph.Holds p c := by
  obtain ⟨hlen, hsorted, hmem⟩ := keepsAlive_spec hids graph.keepsAlive.toList
    (nodup_fst_toList graph.keepsAlive)
  refine ⟨hlen, hsorted, fun p c => (hmem p c).trans ?_⟩
  constructor
  · rintro ⟨⟨ep, children⟩, hentry, hp, hc⟩
    obtain ⟨ec, hec, hc⟩ := (mem_locals children c).mp hc
    have hget := ExtTreeMap.mem_toList_iff_getElem?_eq_some.mp hentry
    refine ⟨ep, ec, (hids.localOf_iff ep p).mp hp, (hids.localOf_iff ec c).mp hc, ?_⟩
    show ec ∈ graph.keepsAlive[ep]?.getD ∅
    rw [hget]
    exact hec
  · rintro ⟨ep, ec, hp, hc, hfact⟩
    have hfact : ec ∈ graph.keepsAlive[ep]?.getD ∅ := hfact
    cases hget : graph.keepsAlive[ep]? with
    | none =>
      rw [hget] at hfact
      exact absurd hfact ExtTreeSet.not_mem_empty
    | some children =>
      rw [hget] at hfact
      exact ⟨(ep, children), ExtTreeMap.mem_toList_iff_getElem?_eq_some.mpr hget,
        (hids.localOf_iff ep p).mpr hp,
        (mem_locals children c).mpr ⟨ec, hfact, (hids.localOf_iff ec c).mpr hc⟩⟩

theorem liveSet_compiled (l : LocalEntityId) :
    (compileWithIds graph ids).liveSet.contains l = true ↔ Alive ids graph.Holds l := by
  have hroots := rootIn_compiled hids graph
  obtain ⟨_, _, hedges⟩ := keepsAlive_compiled hids graph
  generalize hprojection : compileWithIds graph ids = projection at hroots hedges ⊢
  have hids' : projection.ids = ids := by
    rw [← hprojection]
    rfl
  have hM := markSet_dense (Finset.range ids.len)
  have hstart := foldl_offer hM (fun _ => true) projection.roots.iter
    (fun v hv _ => Finset.mem_range.mpr ((hroots v).mp ((mem_iter _ v).mp hv)).lt)
    (w := ⟨.withCapacity projection.ids.len, []⟩) trivial
    (fun v => by simp [contains_withCapacity])
  obtain ⟨_, hmarks, hqueue, hlen⟩ := hstart
  have hfuel : (Finset.range ids.len).card + (projection.roots.iter.foldl
      (Work.offer contains insert fun _ => true)
      ⟨.withCapacity projection.ids.len, []⟩).queue.length ≤
        projection.ids.len + projection.roots.iter.length := by
    rw [Finset.card_range, ← hids']
    exact Nat.add_le_add_left (by simpa using hlen) _
  refine (spread_marked hM (w := projection.roots.iter.foldl
    (Work.offer contains insert fun _ => true)
    ⟨.withCapacity projection.ids.len, []⟩) trivial
    (fun p v hv _ => Finset.mem_range.mpr ((hedges p v).mp hv).lt.2) hmarks hfuel l).trans ?_
  apply Reached.congr
  · intro v
    rw [hqueue, mem_iter, hroots]
    simp
  · intro p v
    rw [hedges, and_iff_left rfl]

end

open MaintainedDenseLifecycle in
theorem fromProjection_spec (graph : LifecycleGraph) :
    (fromProjection (.compileWithIds graph ids)).Tracks graph.Holds ∧
      (fromProjection (.compileWithIds graph ids)).Settled graph.Holds := by
  obtain ⟨hlen, hsorted, hkeeps⟩ := keepsAlive_compiled hids graph
  obtain ⟨hlenBy, hkept⟩ := keptBy_spec hids hlen fun p c hc => ((hkeeps p c).mp hc).lt.2
  have hrow : ∀ (rows : List (List LocalEntityId)) c,
      row (rows.map sortDedup) c = sortDedup (row rows c) := by
    intro rows c
    unfold row
    rw [getElem?_map]
    cases rows[c]? with
    | none | some values => rfl
  refine ⟨⟨hids, hlen, ?_, hsorted, ?_, rootIn_compiled hids graph, hkeeps, ?_⟩,
    liveSet_compiled hids graph⟩
  · exact (length_map _).trans hlenBy
  · intro c
    unfold fromProjection
    rw [hrow]
    exact sortDedup_pairwise _
  · intro p c
    unfold fromProjection
    rw [hrow, mem_sortDedup]
    exact (hkept p c).trans (hkeeps p c)

end Compile

variable {ids : DenseEntityIds}

theorem alive_iff_live {entities : ExtTreeSet EntityId}
    {facts : LifecycleFact → Prop}
    (hentities : ∀ e, e ∈ entities ↔ ∃ l, ids.externalOf l = some e) (e : EntityId) :
    (∃ l, ids.externalOf l = some e ∧ Alive ids facts l) ↔
      LifecycleGraph.Live entities facts e := by
  constructor
  · rintro ⟨l, he, hl⟩
    induction hl generalizing e with
    | root hr =>
      obtain ⟨e', he', hfact⟩ := hr
      obtain rfl : e' = e := Option.some.inj (he'.symm.trans he)
      exact .root ⟨hfact, (hentities e').mpr ⟨_, he⟩⟩
    | step _ hedge ih =>
      obtain ⟨ep, ec, hp, hc, hfact⟩ := hedge
      obtain rfl : ec = e := Option.some.inj (hc.symm.trans he)
      exact .step (ih ep hp) ⟨hfact, (hentities ec).mpr ⟨_, hc⟩⟩
  · intro hlive
    induction hlive with
    | root hr =>
      obtain ⟨l, hl⟩ := (hentities _).mp hr.2
      exact ⟨l, hl, .root ⟨_, hl, hr.1⟩⟩
    | step _ hedge ih =>
      obtain ⟨p, hp, halive⟩ := ih
      obtain ⟨c, hc⟩ := (hentities _).mp hedge.2
      exact ⟨c, hc, .step halive ⟨_, _, hp, hc, hedge.1⟩⟩

namespace MaintainedDenseLifecycle

structure Follows (m : MaintainedDenseLifecycle) (graph : LifecycleGraph) : Prop where
  entities : m.ids.externalByLocal = graph.entities.toList
  tracks : m.Tracks graph.Holds
  settled : m.Settled graph.Holds

variable {m : MaintainedDenseLifecycle} {graph : LifecycleGraph}

theorem Follows.applyIntent (h : m.Follows graph) (intent : LifecycleIntent) :
    (m.applyIntent intent).Follows (graph.applyIntent intent) := by
  obtain ⟨hids, htracks, hsettled⟩ := applyIntent_spec h.tracks h.settled intent
    (graph.holds_applyIntent intent)
  refine ⟨?_, htracks, hsettled⟩
  rw [hids, graph.applyIntent_entities]
  exact h.entities

theorem Follows.applyIntents (h : m.Follows graph) (intents : List LifecycleIntent) :
    (intents.foldl MaintainedDenseLifecycle.applyIntent m).Follows
      (intents.foldl LifecycleGraph.applyIntent graph) := by
  induction intents generalizing m graph with
  | nil => exact h
  | cons intent intents ih => exact ih (h.applyIntent intent)

theorem Follows.liveEntities_eq (h : m.Follows graph) : m.liveEntities = graph.liveEntities := by
  have hentities : ∀ e, e ∈ graph.entities ↔ ∃ l, m.ids.externalOf l = some e := by
    intro e
    rw [← ExtTreeSet.mem_toList, ← h.entities]
    exact mem_iff_getElem?
  apply ExtTreeSet.ext_mem
  intro e
  rw [LifecycleGraph.mem_liveEntities, ← alive_iff_live hentities]
  unfold liveEntities
  rw [ExtTreeSet.mem_ofList, contains_iff_mem, mem_filterMap]
  simp only [mem_iter, h.settled _]
  exact exists_congr fun l => and_comm

theorem compile_follows (hids : DenseEntityIds.compile graph.entities = .ok ids) :
    (fromProjection (.compileWithIds graph ids)).Follows graph := by
  obtain ⟨hcoherent, hentities⟩ := DenseEntityIds.compile_spec hids
  obtain ⟨htracks, hsettled⟩ := fromProjection_spec hcoherent graph
  exact ⟨hentities, htracks, hsettled⟩

/-- After any sequence of intents, the lifecycle compiled from a graph has the live entities of the
graph. Compilation only fails when the entities do not fit the local ids. -/
theorem liveEntities_foldl_applyIntent (graph : LifecycleGraph) (intents : List LifecycleIntent) :
    (compile graph).map (fun m => (intents.foldl applyIntent m).liveEntities) =
      if graph.entities.size > u32Max then .error .capacityExceeded
      else .ok (intents.foldl LifecycleGraph.applyIntent graph).liveEntities := by
  by_cases hsize : graph.entities.size > u32Max
  · unfold compile DenseLifecycleProjection.compile DenseEntityIds.compile
    rw [if_pos hsize, if_pos hsize]
    rfl
  obtain ⟨ids, hids⟩ := DenseEntityIds.exists_compile (Nat.le_of_not_lt hsize)
  have hcompile : compile graph = .ok (fromProjection (.compileWithIds graph ids)) := by
    unfold compile DenseLifecycleProjection.compile
    rw [hids]
    rfl
  have hfollows := (compile_follows hids).applyIntents intents
  rw [hcompile, if_neg hsize]
  exact congrArg Except.ok hfollows.liveEntities_eq

end MaintainedDenseLifecycle

end Cfmd.Lifecycle
