import Cfmd.Fixpoint.Search

/-! `cyclic_live_atoms` marks exactly the nodes that lie on a cycle, and
`classify_infinite` exactly the nodes that a cycle reaches. -/

namespace Cfmd.Fixpoint
open Lib Relation PositiveBagIncidence List

variable {n : ℕ} {incidence : PositiveBagIncidence} {live : List Bool}

theorem PredClosed.reaches {graph : List (List ℕ)} {seen : List Bool} {s t : ℕ}
    (h : PredClosed graph seen) (hst : ReflTransGen (Edge graph) s t)
    (ht : isSet seen t = true) : isSet seen s = true := by
  induction hst using ReflTransGen.head_induction_on with
  | refl => exact ht
  | head hxy _ ih => exact h _ _ hxy ih

theorem isSet_foldl_set (members : List ℕ) (flags : List Bool)
    (hlt : ∀ v ∈ members, v < flags.length) (v : ℕ) :
    isSet (members.foldl (fun flags member => flags.set member true) flags) v = true ↔
      v ∈ members ∨ isSet flags v = true := by
  induction members generalizing flags with
  | nil => simp
  | cons m members ih =>
    have hm := hlt m mem_cons_self
    rw [foldl_cons, ih _ fun w hw => by simpa using hlt w (mem_cons_of_mem _ hw),
      isSet_set hm, mem_cons, or_left_comm, ← or_assoc, eq_comm]

@[simp] theorem length_foldl_set (members : List ℕ) (flags : List Bool) :
    (members.foldl (fun flags member => flags.set member true) flags).length = flags.length := by
  induction members generalizing flags with
  | nil => rfl
  | cons m members ih => rw [foldl_cons, ih, length_set]

def isCycle (incidence : PositiveBagIncidence) (search : DfsComponent) (node : ℕ) : Bool :=
  decide (search.out.length > 1) || (row incidence.graph node).contains node

section Component
variable {graph : List (List ℕ)} {seen₀ : List Bool} {r : ℕ} {s : DfsComponent}

theorem onCycle_of_isCycle (hconn : ∀ u ∈ s.out, ReflTransGen (Edge incidence.graph) r u ∧
      ReflTransGen (Edge incidence.graph) u r) (hnodup : s.out.Nodup) (hr : r ∈ s.out)
    (hcycle : isCycle incidence s r = true) {v : ℕ} (hv : v ∈ s.out) :
    TransGen (Edge incidence.graph) v v := by
  by_cases hvr : v = r
  · subst hvr
    by_cases hself : Edge incidence.graph v v
    · exact .single hself
    -- no self loop, so the component has a second node
    have hor : 1 < s.out.length ∨ v ∈ row incidence.graph v := by simpa [isCycle] using hcycle
    have hlen : s.out.length > 1 := hor.resolve_right hself
    obtain ⟨w, hw, hne⟩ : ∃ w ∈ s.out, w ≠ v := by
      by_contra hall
      simp only [not_exists, not_and, not_not] at hall
      have hrep : s.out = replicate s.out.length v := eq_replicate_of_mem hall
      rw [hrep] at hnodup
      exact absurd (nodup_replicate.mp hnodup) (by omega)
    exact onCycle_of_reaches (hconn w hw).1 (hconn w hw).2 (Ne.symm hne)
  · exact onCycle_of_reaches (hconn v hv).2 (hconn v hv).1 hvr

theorem isCycle_of_onCycle (h : Collecting incidence.graph seen₀ r s)
    (hclosed₀ : PredClosed incidence.graph seen₀) (hclosed : PredClosed incidence.graph s.seen)
    (hr : r ∈ s.out) {v : ℕ} (hv : v ∈ s.out) (hcycle : TransGen (Edge incidence.graph) v v) :
    isCycle incidence s r = true := by
  obtain ⟨p, hpv, hvp⟩ := exists_pred_of_onCycle hcycle
  -- the predecessor on the cycle is collected together with `v`
  have hp : p ∈ s.out := by
    have hpseen := hclosed p v hpv ((h.seen_iff v).mpr (.inr hv))
    apply ((h.seen_iff p).mp hpseen).resolve_left
    intro hold
    exact absurd (hclosed₀.reaches hvp hold) (by simp [h.fresh v hv])
  unfold isCycle
  rw [Bool.or_eq_true, decide_eq_true_eq, contains_iff_mem]
  by_cases hlen : s.out.length > 1
  · exact .inl hlen
  obtain ⟨x, hx⟩ := length_eq_one_iff.mp
    (Nat.le_antisymm (Nat.le_of_not_lt hlen) (length_pos_of_mem hr))
  rw [hx, mem_singleton] at hr hv hp
  subst hr hv hp
  exact .inr hpv

end Component

/-- The loop over the reversed finishing order: the nodes visited are collected
and the marks among the collected nodes are right. -/
structure Classified (n : ℕ) (incidence : PositiveBagIncidence) (live : List Bool)
    (s : Components) (rest : List ℕ) : Prop where
  length_seen : s.seen.length = n
  length_cyclic : s.cyclic.length = n
  closed : PredClosed incidence.graph s.seen
  visited : ∃ done, (finishOrder incidence.graph live).reverse = done ++ rest ∧
    ∀ v ∈ done, isSet live v = true → isSet s.seen v = true
  sound : ∀ v, isSet s.cyclic v = true → TransGen (Edge incidence.graph) v v
  complete : ∀ v, isSet s.seen v = true → TransGen (Edge incidence.graph) v v →
    isSet s.cyclic v = true

section
variable (ha : Adjacency n incidence.graph incidence.reverse) (hll : live.length = n)
include ha hll

section
variable (hlive : ∀ s t, Edge incidence.graph s t → isSet live s = true)
include hlive

theorem Classified.collect {s : Components} {r : ℕ}
    {rest : List ℕ} (h : Classified n incidence live s (r :: rest)) :
    Classified n incidence live (Components.collect incidence live s r) rest := by
  obtain ⟨done, horder, hdone⟩ := h.visited
  have hnext : (finishOrder incidence.graph live).reverse = (done ++ [r]) ++ rest := by
    rw [horder, append_assoc]
    rfl
  unfold Components.collect
  by_cases hskip : (isSet s.seen r || !isSet live r) = true
  · rw [if_pos hskip]
    refine ⟨h.length_seen, h.length_cyclic, h.closed, ⟨done ++ [r], hnext, ?_⟩, h.sound, h.complete⟩
    intro v hv hvlive
    obtain hv | hv := mem_append.mp hv
    · exact hdone v hv hvlive
    · rw [mem_singleton.mp hv] at hvlive ⊢
      simpa [hvlive] using hskip
  · rw [if_neg hskip]
    have hr : isSet s.seen r = false ∧ isSet live r = true := by simpa using hskip
    have hrn : r < n := hll ▸ lt_of_isSet hr.2
    obtain ⟨hc, hrout, hclosed⟩ := dfsComponent_spec ha h.length_seen h.closed hrn hr.1
    generalize dfsComponent incidence.reverse s.seen r = component at hc hrout hclosed ⊢
    have hspec := finishOrder_spec live ha.length_graph ha.target_lt
    -- the nodes collected come before `r` in the finishing order, so `r` reaches them
    have hpre : ∀ u ∈ component.out, u ∈ rest.reverse ∨ u = r := by
      intro u hu
      have hulive : isSet live u = true := by
        obtain rfl | ⟨y, hy, _⟩ := ReflTransGen.cases_head (hc.reaches u hu)
        · exact hr.2
        · exact hlive u y hy.2
      have hmem := mem_reverse.mpr (hspec.2 u (hll ▸ lt_of_isSet hulive) hulive)
      rw [horder, mem_append, mem_cons] at hmem
      obtain hu' | rfl | hu' := hmem
      · exact absurd (hdone u hu' hulive) (by simp [hc.fresh u hu])
      · exact .inr rfl
      · exact .inl (mem_reverse.mpr hu')
    have hsplit : finishOrder incidence.graph live = rest.reverse ++ r :: done.reverse := by
      rw [← reverse_reverse (finishOrder incidence.graph live), horder]
      simp
    have hconn : ∀ u ∈ component.out,
        ReflTransGen (Edge incidence.graph) r u ∧ ReflTransGen (Edge incidence.graph) u r :=
      fun u hu => ⟨hspec.1.reaches hsplit (hpre u hu) ((hc.reaches u hu).mono hpre),
        (hc.reaches u hu).reaches⟩
    have houtn : ∀ v ∈ component.out, v < s.cyclic.length := by
      intro v hv
      have hseen := lt_of_isSet ((hc.seen_iff v).mpr (.inr hv))
      rwa [hc.length_seen, ha.length_graph, ← h.length_cyclic] at hseen
    have hmarks : ∀ v, isSet (if isCycle incidence component r
        then component.out.foldl
          (fun cyclic member => cyclic.set member true) s.cyclic else s.cyclic) v = true ↔
        isSet s.cyclic v = true ∨ (v ∈ component.out ∧ isCycle incidence component r = true) := by
      intro v
      split_ifs with hcycle
      · rw [isSet_foldl_set _ _ houtn, or_comm]
        simp [hcycle]
      · simp [hcycle]
    refine ⟨hc.length_seen.trans ha.length_graph, ?_, hclosed, ⟨done ++ [r], hnext, ?_⟩, ?_, ?_⟩
    · simp only [apply_ite List.length, length_foldl_set, ite_self, h.length_cyclic]
    · intro v hv hvlive
      obtain hv | hv := mem_append.mp hv
      · exact (hc.seen_iff v).mpr (.inl (hdone v hv hvlive))
      · rw [mem_singleton.mp hv]
        exact (hc.seen_iff r).mpr (.inr hrout)
    · intro v hv
      obtain hold | ⟨hvout, hcycle⟩ := (hmarks v).mp hv
      · exact h.sound v hold
      · exact onCycle_of_isCycle hconn hc.nodup hrout hcycle hvout
    · intro v hv hvcycle
      apply (hmarks v).mpr
      obtain hold | hvout := (hc.seen_iff v).mp hv
      · exact .inl (h.complete v hold hvcycle)
      · exact .inr ⟨hvout, isCycle_of_onCycle hc h.closed hclosed hrout hvout hvcycle⟩

theorem cyclicLiveAtoms_spec :
    (cyclicLiveAtoms incidence live).length = n ∧
      ∀ v, isSet (cyclicLiveAtoms incidence live) v = true ↔
        TransGen (Edge incidence.graph) v v := by
  have hinit : Classified n incidence live
      { seen := replicate incidence.graph.length false
        cyclic := replicate incidence.graph.length false }
      (finishOrder incidence.graph live).reverse := by
    refine ⟨by simpa using ha.length_graph, by simpa using ha.length_graph, ?_,
      ⟨[], rfl, by simp⟩, ?_, ?_⟩
    · intro s t _ ht
      simp [isSet_replicate] at ht
    · intro v hv
      simp [isSet_replicate] at hv
    · intro v hv
      simp [isSet_replicate] at hv
  have hend := foldl_rest (I := Classified n incidence live)
    (fun s r rest h => h.collect ha hll hlive) _ hinit
  refine ⟨hend.length_cyclic, fun v => ⟨hend.sound v, fun hcycle => ?_⟩⟩
  obtain ⟨done, horder, hdone⟩ := hend.visited
  obtain ⟨w, hvw, _⟩ := TransGen.head'_iff.mp hcycle
  have hvlive := hlive v w hvw
  have hmem := (finishOrder_spec live ha.length_graph ha.target_lt).2 v
    (hll ▸ lt_of_isSet hvlive) hvlive
  rw [← mem_reverse, horder, append_nil] at hmem
  exact hend.complete v (hdone v hmem hvlive) hcycle

end

theorem classifyInfinite_spec
    (hlive : ∀ s t, Edge incidence.graph s t → isSet live s = true ∧ isSet live t = true)
    (v : ℕ) : isSet (classifyInfinite incidence live) v = true ↔
      FedByCycle (Edge incidence.graph) v := by
  obtain ⟨hlen, hcyclic⟩ := cyclicLiveAtoms_spec ha hll fun s t hst => (hlive s t hst).1
  have hqueue : ∀ v, isSet (cyclicLiveAtoms incidence live) v = true ↔
      v ∈ (range (cyclicLiveAtoms incidence live).length).filter fun index =>
        isSet (cyclicLiveAtoms incidence live) index := by
    intro v
    rw [mem_filter, mem_range]
    exact ⟨fun hv => ⟨lt_of_isSet hv, hv⟩, fun hv => hv.2⟩
  have hfuel : (Finset.range n).card + ((range (cyclicLiveAtoms incidence live).length).filter
      fun index => isSet (cyclicLiveAtoms incidence live) index).length ≤
        2 * (cyclicLiveAtoms incidence live).length := by
    have hfilter := length_filter_le
      (fun index => isSet (cyclicLiveAtoms incidence live) index)
      (range (cyclicLiveAtoms incidence live).length)
    rw [length_range] at hfilter
    rw [Finset.card_range]
    omega
  refine (spread_marked (w := ⟨cyclicLiveAtoms incidence live, _⟩) (markSet_flags n) hlen
    (fun p t _ ht => Finset.mem_range.mpr (hll ▸ lt_of_isSet ht)) hqueue hfuel v).trans ?_
  constructor
  · intro h
    induction h with
    | root hr => exact .of_onCycle ((hcyclic _).mp ((hqueue _).mpr hr))
    | step _ he ih => exact ih.step he.1
  · rintro ⟨c, hc, hcv⟩
    induction hcv with
    | refl => exact .root ((hqueue c).mp ((hcyclic c).mpr hc))
    | tail _ hxy ih => exact .step ih ⟨hxy, (hlive _ _ hxy).2⟩

end

end Cfmd.Fixpoint
