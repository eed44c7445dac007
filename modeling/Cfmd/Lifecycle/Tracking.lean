import Cfmd.Lifecycle.Dense

/-! When the dense rows stand for a set of lifecycle facts, and what the cuts and the additions of
an intent make of them: the facts they then stand for, and where liveness can have changed. -/

namespace Cfmd.Lifecycle
open Lib DenseEntityIds DenseEntitySet List

def RootIn (ids : DenseEntityIds) (facts : LifecycleFact → Prop) (l : LocalEntityId) : Prop :=
  ∃ e, ids.externalOf l = some e ∧ facts (.root e)

def EdgeIn (ids : DenseEntityIds) (facts : LifecycleFact → Prop) (p c : LocalEntityId) : Prop :=
  ∃ ep ec, ids.externalOf p = some ep ∧ ids.externalOf c = some ec ∧ facts (.keepsAlive ep ec)

def Alive (ids : DenseEntityIds) (facts : LifecycleFact → Prop) : LocalEntityId → Prop :=
  Reached (RootIn ids facts) (EdgeIn ids facts)

variable {ids : DenseEntityIds} {l : LocalEntityId} {facts : LifecycleFact → Prop}

theorem DenseEntityIds.lt_of_externalOf {e : EntityId} (h : ids.externalOf l = some e) :
    l < ids.len :=
  (List.getElem?_eq_some_iff.mp h).1

theorem RootIn.lt (h : RootIn ids facts l) : l < ids.len := by
  obtain ⟨e, he, _⟩ := h
  exact lt_of_externalOf he

theorem EdgeIn.lt {p c : LocalEntityId} (h : EdgeIn ids facts p c) : p < ids.len ∧ c < ids.len := by
  obtain ⟨ep, ec, hp, hc, _⟩ := h
  exact ⟨lt_of_externalOf hp, lt_of_externalOf hc⟩

section Facts
variable {ids : DenseEntityIds} {facts facts' : LifecycleFact → Prop}

theorem RootIn.mono (hf : ∀ f, facts f → facts' f) (h : RootIn ids facts l) :
    RootIn ids facts' l := by
  obtain ⟨e, he, hfact⟩ := h
  exact ⟨e, he, hf _ hfact⟩

theorem EdgeIn.mono (hf : ∀ f, facts f → facts' f) {p c : LocalEntityId}
    (h : EdgeIn ids facts p c) : EdgeIn ids facts' p c := by
  obtain ⟨ep, ec, hp, hc, hfact⟩ := h
  exact ⟨ep, ec, hp, hc, hf _ hfact⟩

theorem rootIn_congr (hf : ∀ f, facts f ↔ facts' f) (l : LocalEntityId) :
    RootIn ids facts l ↔ RootIn ids facts' l :=
  ⟨.mono fun f => (hf f).mp, .mono fun f => (hf f).mpr⟩

theorem edgeIn_congr (hf : ∀ f, facts f ↔ facts' f) (p c : LocalEntityId) :
    EdgeIn ids facts p c ↔ EdgeIn ids facts' p c :=
  ⟨.mono fun f => (hf f).mp, .mono fun f => (hf f).mpr⟩

def RootAt (ids : DenseEntityIds) (fact : LifecycleFact) (l : LocalEntityId) : Prop :=
  RootIn ids (fun f => f = fact) l

def EdgeAt (ids : DenseEntityIds) (fact : LifecycleFact) (p c : LocalEntityId) : Prop :=
  EdgeIn ids (fun f => f = fact) p c

section
variable (fact : LifecycleFact)

theorem rootIn_without (l : LocalEntityId) :
    RootIn ids (fun f => facts f ∧ f ≠ fact) l ↔ RootIn ids facts l ∧ ¬ RootAt ids fact l := by
  constructor
  · rintro ⟨e, he, hfact, hne⟩
    refine ⟨⟨e, he, hfact⟩, ?_⟩
    rintro ⟨e', he', heq⟩
    have hsame : e = e' := Option.some.inj (he.symm.trans he')
    exact hne (hsame ▸ heq)
  · rintro ⟨⟨e, he, hfact⟩, hnot⟩
    exact ⟨e, he, hfact, fun heq => hnot ⟨e, he, heq⟩⟩

theorem edgeIn_without (p c : LocalEntityId) :
    EdgeIn ids (fun f => facts f ∧ f ≠ fact) p c ↔
      EdgeIn ids facts p c ∧ ¬ EdgeAt ids fact p c := by
  constructor
  · rintro ⟨ep, ec, hp, hc, hfact, hne⟩
    refine ⟨⟨ep, ec, hp, hc, hfact⟩, ?_⟩
    rintro ⟨ep', ec', hp', hc', heq⟩
    have hparent : ep = ep' := Option.some.inj (hp.symm.trans hp')
    have hchild : ec = ec' := Option.some.inj (hc.symm.trans hc')
    exact hne (hparent ▸ hchild ▸ heq)
  · rintro ⟨⟨ep, ec, hp, hc, hfact⟩, hnot⟩
    exact ⟨ep, ec, hp, hc, hfact, fun heq => hnot ⟨ep, ec, hp, hc, heq⟩⟩

theorem rootIn_with (l : LocalEntityId) :
    RootIn ids (fun f => facts f ∨ f = fact) l ↔ RootIn ids facts l ∨ RootAt ids fact l := by
  simp only [RootAt, RootIn, and_or_left, exists_or]

theorem edgeIn_with (p c : LocalEntityId) :
    EdgeIn ids (fun f => facts f ∨ f = fact) p c ↔ EdgeIn ids facts p c ∨ EdgeAt ids fact p c := by
  simp only [EdgeAt, EdgeIn, and_or_left, exists_or]

end

section At
variable (hids : ids.Coherent)
include hids

theorem rootAt_root (e : EntityId) (l : LocalEntityId) :
    RootAt ids (.root e) l ↔ ids.localOf e = some l := by
  rw [hids.localOf_iff]
  simp [RootAt, RootIn]

theorem edgeAt_keepsAlive (parent child : EntityId) (p c : LocalEntityId) :
    EdgeAt ids (.keepsAlive parent child) p c ↔
      ids.localOf parent = some p ∧ ids.localOf child = some c := by
  rw [hids.localOf_iff, hids.localOf_iff]
  simp [EdgeAt, EdgeIn]

end At

theorem not_edgeAt_root (e : EntityId) (p c : LocalEntityId) : ¬ EdgeAt ids (.root e) p c := by
  simp [EdgeAt, EdgeIn]

theorem not_rootAt_keepsAlive (parent child : EntityId) (l : LocalEntityId) :
    ¬ RootAt ids (.keepsAlive parent child) l := by
  simp [RootAt, RootIn]

end Facts

theorem markSet_dense (U : Finset LocalEntityId) : MarkSet contains insert U fun _ => True :=
  ⟨fun _ _ _ _ => trivial, fun s a b _ _ => s.contains_insert a b⟩

section
variable (xs : List LocalEntityId) (set : DenseEntitySet) (l : LocalEntityId)

theorem contains_foldl_insert : (xs.foldl insert set).contains l = true ↔
      l ∈ xs ∨ set.contains l = true := by
  induction xs generalizing set with
  | nil => simp
  | cons x xs ih =>
    rw [foldl_cons, ih, contains_insert, mem_cons, or_left_comm, ← or_assoc, eq_comm]

theorem contains_foldl_remove :
    (xs.foldl (fun set x => (set.remove x).1) set).contains l = true ↔
      l ∉ xs ∧ set.contains l = true := by
  induction xs generalizing set with
  | nil => simp
  | cons x xs ih =>
    rw [foldl_cons, ih, contains_remove, mem_cons, not_or, and_left_comm, and_assoc, ne_comm]

end

section Sorted
variable {values : List LocalEntityId} (hs : values.Pairwise (· < ·)) (value : LocalEntityId)
include hs

theorem removeSorted_spec : (removeSorted values value).1.Pairwise (· < ·) ∧
    (∀ x, x ∈ (removeSorted values value).1 ↔ x ∈ values ∧ ¬ value = x) ∧
    ((removeSorted values value).2 = true ↔ value ∈ values) := by
  unfold removeSorted
  cases hsearch : binarySearch values value with
  | error index =>
    have hnot := not_mem_of_binarySearch_error hs hsearch
    refine ⟨hs, fun x => ?_, by simpa using hnot⟩
    exact ⟨fun hx => ⟨hx, fun heq => hnot (heq ▸ hx)⟩, fun hx => hx.1⟩
  | ok index =>
    refine ⟨hs.sublist (eraseIdx_sublist values index), fun x => ?_, ?_⟩
    · rw [mem_eraseIdx_of_binarySearch hs hsearch, ne_comm]
    simpa using mem_of_getElem? (mem_of_binarySearch_ok hs hsearch)

theorem insertSortedUnique_spec : (insertSortedUnique values value).1.Pairwise (· < ·) ∧
    ∀ x, x ∈ (insertSortedUnique values value).1 ↔ x ∈ values ∨ value = x := by
  unfold insertSortedUnique
  cases hsearch : binarySearch values value with
  | ok index =>
    have hmem := mem_of_getElem? (mem_of_binarySearch_ok hs hsearch)
    refine ⟨hs, fun x => ?_⟩
    exact ⟨.inl, fun hx => hx.elim id fun heq => heq ▸ hmem⟩
  | error index =>
    refine ⟨pairwise_insert_of_binarySearch hs hsearch, fun x => ?_⟩
    rw [mem_insert_at, or_comm, eq_comm]

end Sorted

namespace MaintainedDenseLifecycle

structure Tracks (m : MaintainedDenseLifecycle) (facts : LifecycleFact → Prop) : Prop where
  coherent : m.ids.Coherent
  length_keepsAlive : m.keepsAlive.length = m.ids.len
  length_keptBy : m.keptBy.length = m.ids.len
  keepsAlive_sorted : ∀ p, (row m.keepsAlive p).Pairwise (· < ·)
  keptBy_sorted : ∀ c, (row m.keptBy c).Pairwise (· < ·)
  roots : ∀ l, m.roots.contains l = true ↔ RootIn m.ids facts l
  keeps : ∀ p c, c ∈ row m.keepsAlive p ↔ EdgeIn m.ids facts p c
  kept : ∀ p c, p ∈ row m.keptBy c ↔ EdgeIn m.ids facts p c

variable {m : MaintainedDenseLifecycle} {facts facts' : LifecycleFact → Prop}

theorem Tracks.of_iff (h : m.Tracks facts)
    (hroot : ∀ l, RootIn m.ids facts l ↔ RootIn m.ids facts' l)
    (hedge : ∀ p c, EdgeIn m.ids facts p c ↔ EdgeIn m.ids facts' p c) : m.Tracks facts' :=
  ⟨h.coherent, h.length_keepsAlive, h.length_keptBy, h.keepsAlive_sorted, h.keptBy_sorted,
    fun l => (h.roots l).trans (hroot l), fun p c => (h.keeps p c).trans (hedge p c),
    fun p c => (h.kept p c).trans (hedge p c)⟩

/-- Facts were cleared from `m`, which gave `m'`; every root and edge that is gone
has its end among the starts. -/
structure Cut (m m' : MaintainedDenseLifecycle) (facts facts' : LifecycleFact → Prop)
    (starts : List LocalEntityId) : Prop where
  tracks : m'.Tracks facts'
  ids : m'.ids = m.ids
  live : m'.live = m.live
  fewer : ∀ f, facts' f → facts f
  inside : ∀ l ∈ starts, l < m.ids.len
  root : ∀ l, RootIn m.ids facts l → RootIn m.ids facts' l ∨ l ∈ starts
  edge : ∀ p c, EdgeIn m.ids facts p c → EdgeIn m.ids facts' p c ∨ c ∈ starts

/-- Facts were set in `m`, which gave `m'`; the starts are new roots and the ends
of new edges that leave the live set. -/
structure Grown (m m' : MaintainedDenseLifecycle) (facts facts' : LifecycleFact → Prop)
    (starts : List LocalEntityId) : Prop where
  tracks : m'.Tracks facts'
  ids : m'.ids = m.ids
  live : m'.live = m.live
  more : ∀ f, facts f → facts' f
  sound : ∀ l ∈ starts, RootIn m.ids facts' l ∨
    ∃ p, EdgeIn m.ids facts' p l ∧ m.live.contains p = true
  root : ∀ l, RootIn m.ids facts' l → RootIn m.ids facts l ∨ l ∈ starts
  edge : ∀ p c, EdgeIn m.ids facts' p c → m.live.contains p = true →
    EdgeIn m.ids facts p c ∨ c ∈ starts

variable {m' m'' : MaintainedDenseLifecycle} {facts'' : LifecycleFact → Prop}
  {starts starts' : List LocalEntityId} {rows : List (List LocalEntityId)} {slot : LocalEntityId}
  {fact : LifecycleFact}

theorem Cut.refl (h : m.Tracks facts) : Cut m m facts facts [] :=
  ⟨h, rfl, rfl, fun _ hf => hf, by simp, fun _ => .inl, fun _ _ => .inl⟩

theorem Cut.trans (h : Cut m m' facts facts' starts) (h' : Cut m' m'' facts' facts'' starts') :
    Cut m m'' facts facts'' (starts ++ starts') where
  tracks := h'.tracks
  ids := h'.ids.trans h.ids
  live := h'.live.trans h.live
  fewer f hf := h.fewer f (h'.fewer f hf)
  inside l hl := (mem_append.mp hl).elim (h.inside l) fun hl => h.ids ▸ h'.inside l hl
  root l hl := by
    obtain hl | hl := h.root l hl
    · obtain hl | hl := h'.root l (h.ids ▸ hl)
      · exact .inl (h.ids ▸ hl)
      · exact .inr (mem_append_right _ hl)
    · exact .inr (mem_append_left _ hl)
  edge p c hc := by
    obtain hc | hc := h.edge p c hc
    · obtain hc | hc := h'.edge p c (h.ids ▸ hc)
      · exact .inl (h.ids ▸ hc)
      · exact .inr (mem_append_right _ hc)
    · exact .inr (mem_append_left _ hc)

theorem Cut.congr (h : Cut m m' facts facts' starts) (hf : ∀ f, facts' f ↔ facts'' f) :
    Cut m m' facts facts'' starts where
  tracks := h.tracks.of_iff (rootIn_congr hf) (edgeIn_congr hf)
  ids := h.ids
  live := h.live
  fewer f hf' := h.fewer f ((hf f).mpr hf')
  inside := h.inside
  root l hl := (h.root l hl).imp_left (rootIn_congr hf l).mp
  edge p c hc := (h.edge p c hc).imp_left (edgeIn_congr hf p c).mp

section
variable (h : m.Tracks facts)
include h

theorem Cut.of_nowhere (hroot : ∀ l, ¬ (RootIn m.ids facts l ∧ RootAt m.ids fact l))
    (hedge : ∀ p c, ¬ (EdgeIn m.ids facts p c ∧ EdgeAt m.ids fact p c)) :
    Cut m m facts (fun f => facts f ∧ f ≠ fact) [] := by
  have hroots : ∀ l, RootIn m.ids facts l ↔ RootIn m.ids (fun f => facts f ∧ f ≠ fact) l :=
    fun l => ⟨fun hl => (rootIn_without fact l).mpr ⟨hl, fun hat => hroot l ⟨hl, hat⟩⟩,
      .mono fun _ hf => hf.1⟩
  have hedges : ∀ p c, EdgeIn m.ids facts p c ↔ EdgeIn m.ids (fun f => facts f ∧ f ≠ fact) p c :=
    fun p c => ⟨fun hc => (edgeIn_without fact p c).mpr ⟨hc, fun hat => hedge p c ⟨hc, hat⟩⟩,
      .mono fun _ hf => hf.1⟩
  exact ⟨h.of_iff hroots hedges, rfl, rfl, fun _ hf => hf.1, by simp,
    fun l hl => .inl ((hroots l).mp hl), fun p c hc => .inl ((hedges p c).mp hc)⟩

theorem Tracks.cutRoot (e : EntityId) :
    Cut m (m.cutRoot e).1 facts (fun f => facts f ∧ f ≠ .root e) (m.cutRoot e).2 := by
  have hat := rootAt_root h.coherent e
  have hedge : ∀ p c, EdgeIn m.ids facts p c ↔
      EdgeIn m.ids (fun f => facts f ∧ f ≠ .root e) p c := by
    intro p c
    rw [edgeIn_without, and_iff_left (not_edgeAt_root e p c)]
  unfold MaintainedDenseLifecycle.cutRoot
  cases hslot : m.ids.localOf e with
  | none =>
    apply Cut.of_nowhere h
    · exact fun l hl => by simpa [hslot] using (hat l).mp hl.2
    · exact fun p c hc => not_edgeAt_root e p c hc.2
  | some slot =>
    have hgone : ∀ l, (m.roots.remove slot).1.contains l = true ↔
        RootIn m.ids (fun f => facts f ∧ f ≠ .root e) l := by
      intro l
      rw [contains_remove, h.roots, rootIn_without, hat, hslot, Option.some_inj, and_comm]
    refine ⟨⟨h.coherent, h.length_keepsAlive, h.length_keptBy, h.keepsAlive_sorted,
      h.keptBy_sorted, hgone, fun p c => (h.keeps p c).trans (hedge p c),
      fun p c => (h.kept p c).trans (hedge p c)⟩, rfl, rfl, fun _ hf => hf.1, ?_, ?_,
      fun p c hc => .inl ((hedge p c).mp hc)⟩
    · intro l hl
      have heq : l = slot := by
        have hl : l ∈ if (m.roots.remove slot).2 then [slot] else [] := hl
        split at hl
        · exact mem_singleton.mp hl
        · exact absurd hl not_mem_nil
      exact lt_of_externalOf ((h.coherent.localOf_iff e l).mp (heq ▸ hslot))
    · intro l hl
      by_cases heq : slot = l
      · -- the removed root is a start because the removal reports it
        have hremoved : (m.roots.remove slot).2 = true := by
          rw [remove_snd, heq, h.roots]
          exact hl
        apply Or.inr
        show l ∈ if (m.roots.remove slot).2 then [slot] else []
        rw [if_pos hremoved]
        exact mem_singleton.mpr heq.symm
      · exact .inl ((rootIn_without _ l).mpr ⟨hl, fun hl' => heq
          (Option.some.inj (hslot.symm.trans ((hat l).mp hl')))⟩)

/-- Both adjacency lists are edited for one edge; `J` is what the edit makes of being a
member and being the value. -/
theorem Tracks.editEdge {J : Prop → Prop → Prop} (hJ : ∀ a, J a False ↔ a)
    {edit : List LocalEntityId → LocalEntityId → List LocalEntityId}
    (hedit : ∀ xs value, xs.Pairwise (· < ·) → (edit xs value).Pairwise (· < ·) ∧
      ∀ x, x ∈ edit xs value ↔ J (x ∈ xs) (value = x))
    {p c : LocalEntityId} (hp : p < m.ids.len) (hc : c < m.ids.len)
    (hroot : ∀ l, RootIn m.ids facts l ↔ RootIn m.ids facts' l)
    (hedge : ∀ p' c', EdgeIn m.ids facts' p' c' ↔ J (EdgeIn m.ids facts p' c') (p = p' ∧ c = c')) :
    Tracks { m with keepsAlive := m.keepsAlive.modify p (edit · c),
                    keptBy := m.keptBy.modify c (edit · p) } facts' := by
  have hrows : ∀ (rows : List (List LocalEntityId)) slot value,
      (∀ j, (row rows j).Pairwise (· < ·)) → slot < rows.length → ∀ j,
      (row (rows.modify slot (edit · value)) j).Pairwise (· < ·) ∧
        ∀ x, x ∈ row (rows.modify slot (edit · value)) j ↔
          J (x ∈ row rows j) (slot = j ∧ value = x) := by
    intro rows slot value hsorted hslot j
    rw [row_modify]
    by_cases heq : slot = j
    · rw [if_pos ⟨heq, hslot⟩]
      simpa only [heq, true_and] using hedit _ value (hsorted j)
    · simpa only [heq, false_and, if_false, hJ, iff_self, implies_true, and_true] using hsorted j
  have hkeeps := hrows m.keepsAlive p c h.keepsAlive_sorted (h.length_keepsAlive ▸ hp)
  have hkept := hrows m.keptBy c p h.keptBy_sorted (h.length_keptBy ▸ hc)
  refine ⟨h.coherent, ?_, ?_, fun j => (hkeeps j).1, fun j => (hkept j).1,
    fun l => (h.roots l).trans (hroot l), fun p' c' => ?_, fun p' c' => ?_⟩
  · simpa using h.length_keepsAlive
  · simpa using h.length_keptBy
  · rw [(hkeeps p').2, h.keeps, hedge]
  · rw [(hkept c').2, h.kept, hedge, and_comm (a := c = c')]

theorem Tracks.cutEdge (parent child : EntityId) :
    Cut m (m.cutEdge parent child).1 facts (fun f => facts f ∧ f ≠ .keepsAlive parent child)
      (m.cutEdge parent child).2 := by
  have hat := edgeAt_keepsAlive h.coherent parent child
  have hnoRoot : ∀ l, ¬ RootAt m.ids (.keepsAlive parent child) l :=
    not_rootAt_keepsAlive parent child
  have hroot : ∀ l, RootIn m.ids facts l ↔
      RootIn m.ids (fun f => facts f ∧ f ≠ .keepsAlive parent child) l := by
    intro l
    rw [rootIn_without, and_iff_left (hnoRoot l)]
  unfold MaintainedDenseLifecycle.cutEdge
  split
  · next p c hp hc =>
    have hwhere : ∀ p' c', EdgeAt m.ids (.keepsAlive parent child) p' c' ↔ p = p' ∧ c = c' := by
      intro p' c'
      rw [hat, hp, hc, Option.some_inj, Option.some_inj]
    have hplen := lt_of_externalOf ((h.coherent.localOf_iff parent p).mp hp)
    have hclen := lt_of_externalOf ((h.coherent.localOf_iff child c).mp hc)
    have hfound := (removeSorted_spec (h.keepsAlive_sorted p) c).2.2
    split
    · refine ⟨h.editEdge (J := fun a b => a ∧ ¬ b) (by simp) (fun _ value hs =>
          ⟨(removeSorted_spec hs value).1, (removeSorted_spec hs value).2.1⟩) hplen hclen hroot
          fun p' c' => ?_,
        rfl, rfl, fun _ hf => hf.1, ?_, fun l hl => .inl ((hroot l).mp hl), ?_⟩
      · rw [edgeIn_without, hwhere]
      · exact fun l hl => (mem_singleton.mp hl) ▸ hclen
      · intro p' c' hc'
        by_cases heq : p = p' ∧ c = c'
        · exact .inr (mem_singleton.mpr heq.2.symm)
        · exact .inl ((edgeIn_without _ p' c').mpr ⟨hc', fun hat' => heq ((hwhere p' c').mp hat')⟩)
    · next hmiss =>
      apply Cut.of_nowhere h
      · exact fun l hl => hnoRoot l hl.2
      · rintro p' c' ⟨hedge, hat'⟩
        obtain ⟨rfl, rfl⟩ := (hwhere p' c').mp hat'
        exact hmiss (hfound.mpr ((h.keeps p c).mpr hedge))
  · next hmiss =>
    apply Cut.of_nowhere h
    · exact fun l hl => hnoRoot l hl.2
    · rintro p c ⟨_, hat'⟩
      obtain ⟨hp, hc⟩ := (hat p c).mp hat'
      exact hmiss p c hp hc

end

theorem cutEdit_clear (s : Cutting) (h : s.lifecycle.Tracks facts) (fact : LifecycleFact) :
    ∃ starts, (cutEdit s (fact, false)).decreaseStarts = s.decreaseStarts ++ starts ∧
      (cutEdit s (fact, false)).additions = s.additions ∧
      Cut s.lifecycle (cutEdit s (fact, false)).lifecycle facts (fun f => facts f ∧ f ≠ fact)
        starts := by
  cases fact with
  | root e => exact ⟨_, rfl, rfl, h.cutRoot e⟩
  | keepsAlive parent child => exact ⟨_, rfl, rfl, h.cutEdge parent child⟩

theorem cutEdit_set (s : Cutting) (fact : LifecycleFact) :
    cutEdit s (fact, true) = { s with additions := s.additions ++ [fact] } := by
  cases fact with
  | root e | keepsAlive parent child => rfl

theorem foldl_cutEdit (h : m.Tracks facts) (edits : List (LifecycleFact × Bool)) :
    Cut m (edits.foldl cutEdit ⟨m, [], []⟩).lifecycle facts
        (fun f => facts f ∧ (f, false) ∉ edits) (edits.foldl cutEdit ⟨m, [], []⟩).decreaseStarts ∧
      ∀ f, f ∈ (edits.foldl cutEdit ⟨m, [], []⟩).additions ↔ (f, true) ∈ edits := by
  let I : Cutting → List (LifecycleFact × Bool) → Prop := fun s done =>
    Cut m s.lifecycle facts (fun f => facts f ∧ (f, false) ∉ done) s.decreaseStarts ∧
      ∀ f, f ∈ s.additions ↔ (f, true) ∈ done
  have hinit : I ⟨m, [], []⟩ [] := ⟨(Cut.refl h).congr (by simp), by simp⟩
  have hstep : ∀ s done edit, I s done → I (cutEdit s edit) (done ++ [edit]) := by
    rintro s done ⟨fact, present⟩ ⟨hcut, hadd⟩
    cases present with
    | false =>
      obtain ⟨starts, hstarts, hadditions, hclear⟩ := cutEdit_clear s hcut.tracks fact
      refine ⟨?_, fun f => by simp [hadditions, hadd]⟩
      rw [hstarts]
      refine (hcut.trans hclear).congr fun f => ?_
      simp [not_or, and_assoc]
    | true =>
      rw [cutEdit_set]
      refine ⟨hcut.congr (by simp), fun f => ?_⟩
      simp [hadd]
  exact foldl_visited hstep edits hinit

theorem Grown.refl (h : m.Tracks facts) : Grown m m facts facts [] :=
  ⟨h, rfl, rfl, fun _ hf => hf, by simp, fun _ => .inl, fun _ _ hc _ => .inl hc⟩

theorem Grown.trans (h : Grown m m' facts facts' starts)
    (h' : Grown m' m'' facts' facts'' starts') :
    Grown m m'' facts facts'' (starts ++ starts') where
  tracks := h'.tracks
  ids := h'.ids.trans h.ids
  live := h'.live.trans h.live
  more f hf := h'.more f (h.more f hf)
  sound l hl := by
    obtain hl | hl := mem_append.mp hl
    · obtain hroot | ⟨p, hedge, hp⟩ := h.sound l hl
      · exact .inl (hroot.mono h'.more)
      · exact .inr ⟨p, hedge.mono h'.more, hp⟩
    · have hsound := h'.sound l hl
      rwa [h.ids, h.live] at hsound
  root l hl := by
    obtain hl | hl := h'.root l (h.ids ▸ hl)
    · exact (h.root l (h.ids ▸ hl)).imp_right (mem_append_left _)
    · exact .inr (mem_append_right _ hl)
  edge p c hc hp := by
    obtain hc | hc := h'.edge p c (h.ids ▸ hc) (h.live ▸ hp)
    · exact (h.edge p c (h.ids ▸ hc) hp).imp_right (mem_append_left _)
    · exact .inr (mem_append_right _ hc)

theorem Grown.congr (h : Grown m m' facts facts' starts) (hf : ∀ f, facts' f ↔ facts'' f) :
    Grown m m' facts facts'' starts where
  tracks := h.tracks.of_iff (rootIn_congr hf) (edgeIn_congr hf)
  ids := h.ids
  live := h.live
  more f hf' := (hf f).mp (h.more f hf')
  sound l hl := by
    have hsound := h.sound l hl
    simpa only [rootIn_congr hf, edgeIn_congr hf] using hsound
  root l hl := h.root l ((rootIn_congr hf l).mpr hl)
  edge p c hc := h.edge p c ((edgeIn_congr hf p c).mpr hc)

theorem Grown.of_nowhere (h : m.Tracks facts)
    (hroot : ∀ l, ¬ RootAt m.ids fact l) (hedge : ∀ p c, ¬ EdgeAt m.ids fact p c) :
    Grown m m facts (fun f => facts f ∨ f = fact) [] := by
  have hroots : ∀ l, RootIn m.ids facts l ↔ RootIn m.ids (fun f => facts f ∨ f = fact) l := by
    intro l
    rw [rootIn_with, or_iff_left (hroot l)]
  have hedges : ∀ p c, EdgeIn m.ids facts p c ↔ EdgeIn m.ids (fun f => facts f ∨ f = fact) p c := by
    intro p c
    rw [edgeIn_with, or_iff_left (hedge p c)]
  exact ⟨h.of_iff hroots hedges, rfl, rfl, fun _ hf => .inl hf, by simp,
    fun l hl => .inl ((hroots l).mpr hl), fun p c hc _ => .inl ((hedges p c).mpr hc)⟩

theorem addFact_root (s : Growing) (h : s.lifecycle.Tracks facts) (e : EntityId) :
    ∃ starts, (addFact s (.root e)).increaseStarts = s.increaseStarts ++ starts ∧
      Grown s.lifecycle (addFact s (.root e)).lifecycle facts (fun f => facts f ∨ f = .root e)
        starts := by
  have hat := rootAt_root h.coherent e
  have hedge : ∀ p c, EdgeIn s.lifecycle.ids facts p c ↔
      EdgeIn s.lifecycle.ids (fun f => facts f ∨ f = .root e) p c := by
    intro p c
    rw [edgeIn_with, or_iff_left (not_edgeAt_root e p c)]
  simp only [addFact]
  cases hslot : s.lifecycle.ids.localOf e with
  | none =>
    refine ⟨[], (append_nil _).symm, Grown.of_nowhere h ?_ (not_edgeAt_root e)⟩
    exact fun l hl => by simpa [hslot] using (hat l).mp hl
  | some slot =>
    have hroots : ∀ l, (s.lifecycle.roots.insert slot).contains l = true ↔
        RootIn s.lifecycle.ids (fun f => facts f ∨ f = .root e) l := by
      intro l
      rw [contains_insert, h.roots, rootIn_with, hat, hslot, Option.some_inj, or_comm]
    refine ⟨[slot], rfl, ⟨h.coherent, h.length_keepsAlive, h.length_keptBy, h.keepsAlive_sorted,
      h.keptBy_sorted, hroots, fun p c => (h.keeps p c).trans (hedge p c),
      fun p c => (h.kept p c).trans (hedge p c)⟩, rfl, rfl, fun _ hf => .inl hf, ?_, ?_,
      fun p c hc _ => .inl ((hedge p c).mpr hc)⟩
    · intro l hl
      have heq := mem_singleton.mp hl
      exact .inl ((rootIn_with _ l).mpr (.inr ((hat l).mpr (heq ▸ hslot))))
    · intro l hl
      obtain hl | hl := (rootIn_with _ l).mp hl
      · exact .inl hl
      · have heq : slot = l := Option.some.inj (hslot.symm.trans ((hat l).mp hl))
        exact .inr (mem_singleton.mpr heq.symm)

theorem addFact_keepsAlive (s : Growing) (h : s.lifecycle.Tracks facts)
    (parent child : EntityId) :
    ∃ starts, (addFact s (.keepsAlive parent child)).increaseStarts = s.increaseStarts ++ starts ∧
      Grown s.lifecycle (addFact s (.keepsAlive parent child)).lifecycle facts
        (fun f => facts f ∨ f = .keepsAlive parent child) starts := by
  have hat := edgeAt_keepsAlive h.coherent parent child
  have hnoRoot : ∀ l, ¬ RootAt s.lifecycle.ids (.keepsAlive parent child) l :=
    not_rootAt_keepsAlive parent child
  have hroot : ∀ l, RootIn s.lifecycle.ids facts l ↔
      RootIn s.lifecycle.ids (fun f => facts f ∨ f = .keepsAlive parent child) l := by
    intro l
    rw [rootIn_with, or_iff_left (hnoRoot l)]
  simp only [addFact]
  split
  · next p c hp hc =>
    have hwhere : ∀ p' c', EdgeAt s.lifecycle.ids (.keepsAlive parent child) p' c' ↔
        p = p' ∧ c = c' := by
      intro p' c'
      rw [hat, hp, hc, Option.some_inj, Option.some_inj]
    have hplen := lt_of_externalOf ((h.coherent.localOf_iff parent p).mp hp)
    have hclen := lt_of_externalOf ((h.coherent.localOf_iff child c).mp hc)
    -- a new edge below an entity that is not live starts nothing
    refine ⟨if s.lifecycle.live.contains p then [c] else [], by split <;> simp,
      h.editEdge (J := (· ∨ ·)) (by simp) (fun _ value hs => insertSortedUnique_spec hs value)
        hplen hclen hroot fun p' c' => ?_,
      rfl, rfl, fun _ hf => .inl hf, ?_, fun l hl => .inl ((hroot l).mpr hl), ?_⟩
    · rw [edgeIn_with, hwhere]
    · intro l hl
      split at hl
      · next hlive =>
        have heq := mem_singleton.mp hl
        exact .inr ⟨p, (edgeIn_with _ p l).mpr (.inr ((hwhere p l).mpr ⟨rfl, heq.symm⟩)), hlive⟩
      · exact absurd hl not_mem_nil
    · intro p' c' hc' hlive
      obtain hc' | hc' := (edgeIn_with _ p' c').mp hc'
      · exact .inl hc'
      · obtain ⟨rfl, rfl⟩ := (hwhere p' c').mp hc'
        exact .inr (by simp [hlive])
  · next hmiss =>
    refine ⟨[], (append_nil _).symm, Grown.of_nowhere h hnoRoot ?_⟩
    intro p c hat'
    obtain ⟨hp, hc⟩ := (hat p c).mp hat'
    exact hmiss p c hp hc

theorem foldl_addFact (h : m.Tracks facts) (additions : List LifecycleFact) :
    Grown m (additions.foldl addFact ⟨m, []⟩).lifecycle facts
      (fun f => facts f ∨ f ∈ additions) (additions.foldl addFact ⟨m, []⟩).increaseStarts := by
  let I : Growing → List LifecycleFact → Prop := fun s done =>
    Grown m s.lifecycle facts (fun f => facts f ∨ f ∈ done) s.increaseStarts
  have hinit : I ⟨m, []⟩ [] := (Grown.refl h).congr (by simp)
  have hstep : ∀ s done fact, I s done → I (addFact s fact) (done ++ [fact]) := by
    intro s done fact hs
    have hone : ∃ starts, (addFact s fact).increaseStarts = s.increaseStarts ++ starts ∧
        Grown s.lifecycle (addFact s fact).lifecycle (fun f => facts f ∨ f ∈ done)
          (fun f => (facts f ∨ f ∈ done) ∨ f = fact) starts := by
      cases fact with
      | root e => exact addFact_root s hs.tracks e
      | keepsAlive parent child => exact addFact_keepsAlive s hs.tracks parent child
    obtain ⟨starts, hstarts, hgrown⟩ := hone
    show Grown m _ _ _ (addFact s fact).increaseStarts
    rw [hstarts]
    refine (hs.trans hgrown).congr fun f => ?_
    simp [or_assoc]
  exact foldl_visited hstep additions hinit

end MaintainedDenseLifecycle

end Cfmd.Lifecycle
