import Cfmd.Effect.Ideal

/-! The order of ideals: intersection and union as sets of events under their
ids, and that neither leaves the ideals. -/

namespace Cfmd.Effect
open Std Lib Relation List Set

variable {E : Type} {events a b : Events E} {p : RevisionEffectId × RevisionEffect E}

def pairs (events : Events E) : Set (RevisionEffectId × RevisionEffect E) :=
  {p | events[p.1]? = some p.2}

theorem mem_pairs : p ∈ pairs events ↔ events[p.1]? = some p.2 := Iff.rfl

theorem mem_toList_iff :
    p ∈ events.toList ↔ p ∈ pairs events := ExtTreeMap.mem_toList_iff_getElem?_eq_some

theorem pairs_injective : Function.Injective (pairs (E := E)) := by
  intro a b h
  apply events_ext
  intro id event
  exact Set.ext_iff.mp h (id, event)

theorem pairs_insert (h : ∀ q ∈ pairs events, q.1 = p.1 → q = p) :
    pairs (events.insert p.1 p.2) = insert p (pairs events) := by
  ext ⟨id, event⟩
  rw [mem_pairs, getElem?_insert_eq_some, mem_insert_iff, Prod.ext_iff]
  constructor
  · rintro (⟨hid, hevent⟩ | ⟨_, hget⟩)
    · exact .inl ⟨hid.symm, hevent.symm⟩
    · exact .inr hget
  · rintro (⟨hid, hevent⟩ | hget)
    · exact .inl ⟨hid.symm, hevent.symm⟩
    · by_cases hid : p.1 = id
      · have heq := h (id, event) hget hid.symm
        exact .inl ⟨hid, congrArg Prod.snd heq.symm⟩
      · exact .inr ⟨hid, hget⟩

def Agree (a b : Events E) : Prop := ∀ p ∈ pairs a, ∀ q ∈ pairs b, p.1 = q.1 → p.2 = q.2

theorem Agree.symm (h : Agree a b) : Agree b a := fun p hp q hq hid => (h q hq p hp hid.symm).symm

theorem Agree.refl (a : Events E) : Agree a a := by
  intro p hp q hq hid
  rw [mem_pairs, hid] at hp
  rw [mem_pairs, hp, Option.some.injEq] at hq
  exact hq

theorem Agree.of_subset {a' : Events E} (h : Agree a b) (hsub : pairs a' ⊆ pairs a) :
    Agree a' b := fun p hp => h p (hsub hp)

theorem Agree.of_union {c u : Events E} (ha : Agree a c) (hb : Agree b c)
    (hu : pairs u = pairs a ∪ pairs b) : Agree u c := by
  intro p hp
  rw [hu] at hp
  rcases hp with hp | hp
  · exact ha p hp
  · exact hb p hp

namespace RevisionEffectIdeal
variable [DecidableEq E]

theorem shareEvent_ok {other common common' : Events E} (hsub : pairs common ⊆ pairs other)
    (h : shareEvent other common p = .ok common') :
    (∀ q ∈ pairs other, p.1 = q.1 → p.2 = q.2) ∧
      pairs common' = pairs common ∪ ({p} ∩ pairs other) := by
  unfold shareEvent at h
  split at h
  · rename_i hnone
    cases h
    have hno : ∀ q ∈ pairs other, p.1 ≠ q.1 := by
      intro q hq hid
      rw [mem_pairs, ← hid, hnone] at hq
      cases hq
    have hp : p ∉ pairs other := fun hp => hno p hp rfl
    refine ⟨fun q hq hid => absurd hid (hno q hq), ?_⟩
    rw [singleton_inter_eq_empty.mpr hp, union_empty]
  · rename_i event hevent
    split_ifs at h with hsame
    rw [not_not] at hsame
    cases h
    rw [← hsame] at hevent
    have hother : ∀ q ∈ pairs other, p.1 = q.1 → p.2 = q.2 := by
      intro q hq hid
      rw [mem_pairs, ← hid, hevent, Option.some.injEq] at hq
      exact hq
    have hp : p ∈ pairs other := hevent
    refine ⟨hother, ?_⟩
    rw [pairs_insert, singleton_inter_of_mem hp, union_singleton]
    intro q hq hid
    exact Prod.ext hid (hother q (hsub hq) hid.symm).symm

theorem shareEvent_of_agree {other : Events E} (common : Events E)
    (h : ∀ q ∈ pairs other, p.1 = q.1 → p.2 = q.2) :
    ∃ common', shareEvent other common p = .ok common' := by
  unfold shareEvent
  split
  · exact ⟨common, rfl⟩
  · rename_i event hevent
    rw [if_neg (not_not_intro (h (p.1, event) hevent rfl))]
    exact ⟨_, rfl⟩

theorem joinEvent_ok {union union' : Events E} (h : joinEvent union p = .ok union') :
    (∀ q ∈ pairs union, q.1 = p.1 → q.2 = p.2) ∧ pairs union' = insert p (pairs union) := by
  unfold joinEvent at h
  split at h
  · rename_i existing hexisting
    split_ifs at h with hsame
    rw [not_not] at hsame
    cases h
    rw [hsame] at hexisting
    have hp : p ∈ pairs union := hexisting
    refine ⟨fun q hq hid => Agree.refl union q hq p hp hid, ?_⟩
    rw [insert_eq_of_mem hp]
  · rename_i hnone
    cases h
    have hno : ∀ q ∈ pairs union, q.1 ≠ p.1 := by
      intro q hq hid
      rw [mem_pairs, hid, hnone] at hq
      cases hq
    refine ⟨fun q hq hid => absurd hid (hno q hq), pairs_insert ?_⟩
    exact fun q hq hid => absurd hid (hno q hq)

theorem joinEvent_of_agree {union : Events E} (h : ∀ q ∈ pairs union, q.1 = p.1 → q.2 = p.2) :
    ∃ union', joinEvent union p = .ok union' := by
  unfold joinEvent
  split
  · rename_i existing hexisting
    rw [if_neg (not_not_intro (h (p.1, existing) hexisting rfl))]
    exact ⟨union, rfl⟩
  · exact ⟨_, rfl⟩

variable {a b c : RevisionEffectIdeal E}

theorem pairs_of_commonIdeal (h : a.commonIdeal b = .ok c) :
    Agree a.events b.events ∧ pairs c.events = pairs a.events ∩ pairs b.events := by
  obtain ⟨common, hfold, h⟩ := bind_eq_ok.mp h
  cases h
  let I (common : Events E) (seen : List (RevisionEffectId × RevisionEffect E)) : Prop :=
    (∀ p ∈ seen, ∀ q ∈ pairs b.events, p.1 = q.1 → p.2 = q.2) ∧
      pairs common = {p | p ∈ seen} ∩ pairs b.events
  have hstart : I ∅ [] := ⟨nofun, by ext p; simp [mem_pairs]⟩
  have hend : I common ([] ++ a.events.toList) := by
    refine foldlM_visited (I := I) ?_ _ hfold hstart
    rintro common seen p common' ⟨hagree, hpairs⟩ hstep
    have hsub : pairs common ⊆ pairs b.events := hpairs ▸ inter_subset_right
    obtain ⟨hp, hpairs'⟩ := shareEvent_ok hsub hstep
    refine ⟨?_, ?_⟩
    · intro q hq
      rcases mem_append.mp hq with hq | hq
      · exact hagree q hq
      · rwa [mem_singleton.mp hq]
    · rw [hpairs', hpairs, ← union_inter_distrib_right]
      congr 1
      ext q
      simp [or_comm]
  refine ⟨fun p hp => hend.1 p (mem_toList_iff.mpr hp), ?_⟩
  rw [hend.2]
  congr 1
  ext p
  exact mem_toList_iff

theorem exists_commonIdeal (h : Agree a.events b.events) : ∃ c, a.commonIdeal b = .ok c := by
  obtain ⟨common, hfold, _⟩ := foldlM_rest
    (I := fun (_ : Events E) rest => ∀ p ∈ rest, p ∈ pairs a.events) (f := shareEvent b.events)
    (by
      intro common p rest hrest
      obtain ⟨hp, hrest⟩ := forall_mem_cons.mp hrest
      obtain ⟨common', hshare⟩ := shareEvent_of_agree common (h p hp)
      exact ⟨common', hshare, hrest⟩) a.events.toList (s := ∅) fun p hp => mem_toList_iff.mp hp
  refine ⟨{ events := common }, ?_⟩
  unfold commonIdeal
  rw [hfold]
  rfl

theorem pairs_of_union (h : a.union b = .ok c) :
    Agree a.events b.events ∧ pairs c.events = pairs a.events ∪ pairs b.events := by
  obtain ⟨union, hfold, h⟩ := bind_eq_ok.mp h
  cases h
  let I (union : Events E) (seen : List (RevisionEffectId × RevisionEffect E)) : Prop :=
    (∀ p ∈ seen, ∀ q ∈ pairs a.events, q.1 = p.1 → q.2 = p.2) ∧
      pairs union = pairs a.events ∪ {p | p ∈ seen}
  have hstart : I a.events [] := ⟨nofun, by simp⟩
  have hend : I union ([] ++ b.events.toList) := by
    refine foldlM_visited (I := I) ?_ _ hfold hstart
    rintro union seen p union' ⟨hagree, hpairs⟩ hstep
    obtain ⟨hp, hpairs'⟩ := joinEvent_ok hstep
    refine ⟨?_, ?_⟩
    · intro q hq
      rcases mem_append.mp hq with hq | hq
      · exact hagree q hq
      · rw [mem_singleton.mp hq]
        exact fun r hr => hp r (hpairs ▸ mem_union_left _ hr)
    · rw [hpairs', hpairs, ← union_insert]
      congr 1
      ext q
      simp [or_comm]
  refine ⟨fun p hp q hq => hend.1 q (mem_toList_iff.mpr hq) p hp, ?_⟩
  rw [hend.2]
  congr 1
  ext p
  exact mem_toList_iff

theorem exists_union (h : Agree a.events b.events) : ∃ c, a.union b = .ok c := by
  obtain ⟨union, hfold, _⟩ := foldlM_rest
    (I := fun (union : Events E) rest => (∀ p ∈ rest, p ∈ pairs b.events) ∧
      Agree union b.events) (f := joinEvent)
    (by
      rintro union p rest ⟨hrest, hagree⟩
      obtain ⟨hp, hrest⟩ := forall_mem_cons.mp hrest
      have hjoins : ∀ q ∈ pairs union, q.1 = p.1 → q.2 = p.2 := fun q hq => hagree q hq p hp
      obtain ⟨union', hjoin⟩ := joinEvent_of_agree hjoins
      refine ⟨union', hjoin, hrest, ?_⟩
      intro q hq
      rw [(joinEvent_ok hjoin).2] at hq
      rcases hq with rfl | hq
      · exact Agree.refl b.events _ hp
      · exact hagree q hq) b.events.toList (s := a.events) ⟨fun p hp => mem_toList_iff.mp hp, h⟩
  refine ⟨{ events := union }, ?_⟩
  unfold RevisionEffectIdeal.union
  rw [hfold]
  rfl

theorem commonIdeal_eq_ok :
    a.commonIdeal b = .ok c ↔
      Agree a.events b.events ∧ pairs c.events = pairs a.events ∩ pairs b.events := by
  constructor
  · exact pairs_of_commonIdeal
  · rintro ⟨hagree, hpairs⟩
    obtain ⟨c', hc'⟩ := exists_commonIdeal hagree
    have heq : c'.events = c.events := pairs_injective ((pairs_of_commonIdeal hc').2.trans hpairs.symm)
    rw [hc', show c' = c from congrArg RevisionEffectIdeal.mk heq]

theorem union_eq_ok :
    a.union b = .ok c ↔
      Agree a.events b.events ∧ pairs c.events = pairs a.events ∪ pairs b.events := by
  constructor
  · exact pairs_of_union
  · rintro ⟨hagree, hpairs⟩
    obtain ⟨c', hc'⟩ := exists_union hagree
    have heq : c'.events = c.events := pairs_injective ((pairs_of_union hc').2.trans hpairs.symm)
    rw [hc', show c' = c from congrArg RevisionEffectIdeal.mk heq]

end RevisionEffectIdeal

/-! ### Ideals are closed -/

theorem mem_iff_pairs {id : RevisionEffectId} :
    id ∈ events ↔ ∃ event, (id, event) ∈ pairs events := mem_events

section
variable {a b c : Events E} {S : RevisionEffectId → Prop}

theorem IsIdeal.restrict (ha : IsIdeal a) (hclosed : ∀ d x, S x → Prerequisite a d x → S d)
    (hb : ∀ id event, (id, event) ∈ pairs b ↔ S id ∧ (id, event) ∈ pairs a) : IsIdeal b := by
  have hleft : ∀ {id event}, (id, event) ∈ pairs b → (id, event) ∈ pairs a :=
    fun hget => ((hb _ _).mp hget).2
  refine ⟨fun id event hget => ha.keyed id event (hleft hget), ?_, ?_⟩
  · rintro d x ⟨event, hget, hd⟩
    have hprerequisite : Prerequisite a d x := ⟨event, hleft hget, hd⟩
    obtain ⟨found, hfound⟩ := mem_iff_pairs.mp (ha.downClosed d x hprerequisite)
    have hS := hclosed d x ((hb x event).mp hget).1 hprerequisite
    exact mem_iff_pairs.mpr ⟨found, (hb d found).mpr ⟨hS, hfound⟩⟩
  · intro x hcycle
    have hsub : Prerequisite b ≤ Prerequisite a := by
      rintro d y ⟨event, hget, hd⟩
      exact ⟨event, hleft hget, hd⟩
    exact ha.acyclic x (TransGen.mono hsub x x hcycle)

/-- A closed part whose members are all there is an ideal if none of them comes before
itself. -/
theorem isIdeal_restrict_iff
    (hkeyed : ∀ (id : RevisionEffectId) (event : RevisionEffect E), a[id]? = some event →
      event.id = id) (hclosed : ∀ d x, S x → Prerequisite a d x → S d) (hpresent : ∀ x, S x → x ∈ a)
    (hb : ∀ id event, (id, event) ∈ pairs b ↔ S id ∧ (id, event) ∈ pairs a) :
    IsIdeal b ↔ ∀ x, S x → ¬ TransGen (Prerequisite a) x x := by
  have hedge : ∀ d x, Prerequisite b d x ↔ S x ∧ Prerequisite a d x := by
    intro d x
    constructor
    · rintro ⟨event, hget, hd⟩
      obtain ⟨hS, hget⟩ := (hb x event).mp hget
      exact ⟨hS, event, hget, hd⟩
    · rintro ⟨hS, event, hget, hd⟩
      exact ⟨event, (hb x event).mpr ⟨hS, hget⟩, hd⟩
  constructor
  · intro hideal x hS hcycle
    -- every effect on the way back from `x` is in the part
    have hlift : ∀ d y, TransGen (Prerequisite a) d y → S y → TransGen (Prerequisite b) d y := by
      intro d y hpath
      induction hpath with
      | single hpre => exact fun hy => .single ((hedge _ _).mpr ⟨hy, hpre⟩)
      | tail _ hpre ih => exact fun hy => .tail (ih (hclosed _ _ hy hpre)) ((hedge _ _).mpr ⟨hy, hpre⟩)
    exact hideal.acyclic x (hlift x x hcycle hS)
  · intro hacyclic
    refine ⟨fun id event hget => hkeyed id event ((hb id event).mp hget).2, ?_, ?_⟩
    · intro d x hpre
      obtain ⟨hS, hpre⟩ := (hedge d x).mp hpre
      have hd := hclosed d x hS hpre
      obtain ⟨found, hfound⟩ := mem_iff_pairs.mp (hpresent d hd)
      exact mem_iff_pairs.mpr ⟨found, (hb d found).mpr ⟨hd, hfound⟩⟩
    · intro x hcycle
      obtain ⟨d, _, hlast⟩ := TransGen.tail'_iff.mp hcycle
      have hsub : Prerequisite b ≤ Prerequisite a := fun d y hpre => ((hedge d y).mp hpre).2
      exact hacyclic x ((hedge d x).mp hlast).1 (TransGen.mono hsub x x hcycle)

theorem IsIdeal.inter (ha : IsIdeal a) (hb : IsIdeal b) (hagree : Agree a b)
    (hc : pairs c = pairs a ∩ pairs b) : IsIdeal c := by
  apply ha.restrict (S := (· ∈ b))
  · rintro d x hx ⟨event, hget, hd⟩
    obtain ⟨event', hget'⟩ := mem_iff_pairs.mp hx
    have heq : event = event' := hagree (x, event) hget (x, event') hget' rfl
    exact hb.downClosed d x ⟨event', hget', heq ▸ hd⟩
  · intro id event
    rw [hc]
    constructor
    · exact fun ⟨hleft, hright⟩ => ⟨mem_iff_pairs.mpr ⟨event, hright⟩, hleft⟩
    · rintro ⟨hmem, hleft⟩
      obtain ⟨event', hright⟩ := mem_iff_pairs.mp hmem
      have heq : event = event' := hagree (id, event) hleft (id, event') hright rfl
      exact ⟨hleft, heq ▸ hright⟩

theorem path_stays (ha : IsIdeal a) (hagree : Agree c a) {x y : RevisionEffectId}
    (hpath : TransGen (Prerequisite c) y x) (hx : x ∈ a) : TransGen (Prerequisite a) y x := by
  have hstep : ∀ {d z}, Prerequisite c d z → z ∈ a → Prerequisite a d z := by
    rintro d z ⟨event, hget, hd⟩ hz
    obtain ⟨event', hget'⟩ := mem_iff_pairs.mp hz
    have heq : event = event' := hagree (z, event) hget (z, event') hget' rfl
    exact ⟨event', hget', heq ▸ hd⟩
  induction hpath with
  | single hlast => exact .single (hstep hlast hx)
  | tail _ hlast ih =>
    have hpre := hstep hlast hx
    exact (ih (ha.downClosed _ _ hpre)).tail hpre

theorem IsIdeal.insert (ha : IsIdeal a) {event : RevisionEffect E} (hnew : event.id ∉ a)
    (hpre : ∀ d, d ∈ event.prerequisites → d ∈ a) : IsIdeal (a.insert event.id event) := by
  have hmem : ∀ {id}, id ∈ a → id ∈ a.insert event.id event :=
    fun h => ExtTreeMap.mem_insert.mpr (.inr h)
  have hbelow : ∀ {d x}, Prerequisite (a.insert event.id event) d x → d ∈ a := by
    rintro d x ⟨event', hget, hd⟩
    rcases getElem?_insert_eq_some.mp hget with ⟨_, rfl⟩ | ⟨_, hget⟩
    · exact hpre d hd
    · exact ha.downClosed d x ⟨event', hget, hd⟩
  refine ⟨?_, fun d x h => hmem (hbelow h), ?_⟩
  · intro id event' hget
    rcases getElem?_insert_eq_some.mp hget with ⟨rfl, rfl⟩ | ⟨_, hget⟩
    · rfl
    · exact ha.keyed id event' hget
  · -- nothing waits for the new effect, so a cycle stays among the others
    intro x hcycle
    obtain ⟨_, hfirst, _⟩ := TransGen.head'_iff.mp hcycle
    have hagree : Agree (a.insert event.id event) a := by
      rintro ⟨id, event'⟩ hget ⟨_, old⟩ hold rfl
      rcases getElem?_insert_eq_some.mp hget with ⟨rfl, _⟩ | ⟨_, hget⟩
      · exact absurd (mem_iff_pairs.mpr ⟨old, hold⟩) hnew
      · exact Option.some.inj (hget.symm.trans hold)
    exact ha.acyclic x (path_stays ha hagree hcycle (hbelow hfirst))

theorem IsIdeal.sup (ha : IsIdeal a) (hb : IsIdeal b) (hagree : Agree a b)
    (hc : pairs c = pairs a ∪ pairs b) : IsIdeal c := by
  have hmem : ∀ {id event}, (id, event) ∈ pairs c → (id, event) ∈ pairs a ∨ (id, event) ∈ pairs b := by
    intro id event hget
    rwa [hc] at hget
  have hagreeA : Agree c a := (Agree.refl a).of_union hagree.symm hc
  have hagreeB : Agree c b := hagree.of_union (Agree.refl b) hc
  refine ⟨?_, ?_, ?_⟩
  · intro id event hget
    rcases hmem hget with hget | hget
    · exact ha.keyed id event hget
    · exact hb.keyed id event hget
  · rintro d x ⟨event, hget, hd⟩
    rcases hmem hget with hget | hget
    · obtain ⟨found, hfound⟩ := mem_iff_pairs.mp (ha.downClosed d x ⟨event, hget, hd⟩)
      exact mem_iff_pairs.mpr ⟨found, hc ▸ mem_union_left _ hfound⟩
    · obtain ⟨found, hfound⟩ := mem_iff_pairs.mp (hb.downClosed d x ⟨event, hget, hd⟩)
      exact mem_iff_pairs.mpr ⟨found, hc ▸ mem_union_right _ hfound⟩
  · intro x hcycle
    obtain ⟨_, _, event, hget, _⟩ := TransGen.tail'_iff.mp hcycle
    rcases hmem hget with hget | hget
    · exact ha.acyclic x (path_stays ha hagreeA hcycle (mem_iff_pairs.mpr ⟨event, hget⟩))
    · exact hb.acyclic x (path_stays hb hagreeB hcycle (mem_iff_pairs.mpr ⟨event, hget⟩))

end

end Cfmd.Effect
