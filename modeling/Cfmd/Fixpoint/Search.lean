import Cfmd.Lib.FinishOrder
import Cfmd.Fixpoint.Incidence

/-! The depth-first searches behind the cycle test: `dfs_order` leaves a
finishing order, and `dfs_component` collects the nodes not yet seen that reach
its start. -/

namespace Cfmd.Fixpoint
open Lib Relation PositiveBagIncidence DfsOrder List

def Edge (graph : List (List ℕ)) (s t : ℕ) : Prop := t ∈ row graph s

theorem isSet_set {flags : List Bool} {i : ℕ} (hi : i < flags.length) (j : ℕ) :
    isSet (flags.set i true) j = true ↔ i = j ∨ isSet flags j = true := by
  unfold isSet
  by_cases h : i = j
  · subst h
    simp [hi]
  · simp [h]

theorem lt_of_isSet {flags : List Bool} {i : ℕ} (h : isSet flags i = true) : i < flags.length :=
  lt_length_of_getD_true h

theorem isSet_replicate (n i : ℕ) : isSet (replicate n false) i = false :=
  getD_replicate_self n i false

theorem markSet_flags (n : ℕ) : MarkSet isSet (fun flags node => flags.set node true)
    (Finset.range n) fun flags => flags.length = n where
  add_ok flags node hlen _ := by simpa using hlen
  has_add flags node other hlen hnode := isSet_set (hlen ▸ Finset.mem_range.mp hnode) other

/-- The work a search still owes to the nodes it has not seen. -/
def unseenWork (graph : List (List ℕ)) (seen : List Bool) : ℕ :=
  ∑ node ∈ Finset.range graph.length, if isSet seen node then 0 else (row graph node).length + 2

theorem unseenWork_set {graph : List (List ℕ)} {seen : List Bool} {node : ℕ}
    (hn : node < graph.length) (hlen : seen.length = graph.length)
    (hseen : isSet seen node = false) :
    unseenWork graph (seen.set node true) + ((row graph node).length + 2) = unseenWork graph seen :=
  openWeight_add (markSet_flags graph.length) (fun node => (row graph node).length + 2) hlen
    (Finset.mem_range.mpr hn) hseen

variable {s : DfsOrder} {seen : List Bool} {order : List ℕ} {v : ℕ}

theorem DfsOrder.pop_eq_none (h : s.pop = none) : s.stack = [] := by
  unfold pop at h
  split at h
  · assumption
  · cases h

theorem DfsComponent.pop_eq_none {s : DfsComponent} (h : s.pop = none) : s.stack = [] := by
  unfold pop at h
  split at h
  · assumption
  · cases h

section Order
variable {n : ℕ} {graph : List (List ℕ)} {stack : List (ℕ × Bool)}

theorem foldl_push_unseen (seen : List Bool) (targets : List ℕ) (stack : List (ℕ × Bool)) :
    targets.reverse.foldl
        (fun stack next => if isSet seen next then stack else (next, false) :: stack) stack =
      (targets.filter fun next => !isSet seen next).map (fun next => (next, false)) ++ stack := by
  rw [foldl_reverse]
  induction targets with
  | nil => rfl
  | cons t targets ih =>
    rw [foldr_cons, ih]
    by_cases h : isSet seen t = true
    · simp [h]
    · simp [h]

/-- The state of `dfs_order`. The `true` entries of the stack are the nodes
entered and not finished; each of them reaches everything above it. -/
structure Searching (n : ℕ) (graph : List (List ℕ)) (s : DfsOrder) : Prop where
  length_seen : s.seen.length = n
  seen_iff : ∀ v, isSet s.seen v = true ↔ v ∈ s.order ∨ (v, true) ∈ s.stack
  stack_lt : ∀ entry ∈ s.stack, entry.1 < n
  unfinished : ∀ v, (v, true) ∈ s.stack → v ∉ s.order
  chain : s.stack.Pairwise fun above below => below.2 = true →
    above ≠ below ∧ ReflTransGen (Edge graph) below.1 above.1
  pushed : ∀ v, (v, true) ∈ s.stack → ∀ w, Edge graph v w →
    isSet s.seen w = true ∨ [(w, false), (v, true)].Sublist s.stack
  closed : ∀ v ∈ s.order, ∀ w, Edge graph v w → isSet s.seen w = true
  nodup : s.order.Nodup
  backed : Backed (Edge graph) s.order
  finish : FinishOrder (Edge graph) s.order

theorem Searching.finishNode (h : Searching n graph ⟨seen, order, (v, true) :: stack⟩) :
    Searching n graph ⟨seen, order ++ [v], stack⟩ := by
  have hchain := pairwise_cons.mp h.chain
  have hv : v ∉ order := h.unfinished v mem_cons_self
  have hvs : (v, true) ∉ stack := fun hmem => (hchain.1 (v, true) hmem rfl).1 rfl
  have hsucc : ∀ w, Edge graph v w → isSet seen w = true := by
    intro w hw
    apply (h.pushed v mem_cons_self w hw).resolve_right
    intro hsub
    cases hsub with
    | cons _ hsub => exact hvs (hsub.mem (by simp))
  have hclosed : ∀ u ∈ order ++ [v], ∀ w, Edge graph u w → isSet seen w = true := by
    intro u hu w hw
    obtain hu | hu := mem_append.mp hu
    · exact h.closed u hu w hw
    · exact hsucc w (mem_singleton.mp hu ▸ hw)
  refine ⟨h.length_seen, ?_, ?_, ?_, hchain.2, ?_, hclosed, ?_, ?_, h.finish.finish h.backed hv⟩
  · intro w
    apply (h.seen_iff w).trans
    simp [or_assoc]
  · exact fun entry hentry => h.stack_lt entry (mem_cons_of_mem _ hentry)
  · intro w hw hmem
    obtain hmem | hmem := mem_append.mp hmem
    · exact h.unfinished w (mem_cons_of_mem _ hw) hmem
    · have hne := (hchain.1 (w, true) hw rfl).1
      exact hne (by rw [mem_singleton.mp hmem])
  · intro u hu w hw
    apply (h.pushed u (mem_cons_of_mem _ hu) w hw).imp_right
    intro hsub
    cases hsub with
    | cons _ hsub => exact hsub
  · exact h.nodup.append (nodup_singleton v) (disjoint_singleton.mpr hv)
  · -- an edge that leaves the finished nodes leads to a node still on the stack
    apply h.backed.finish hv
    intro u hu g hg hug
    have hgo : g ∉ order := fun hmem => hg (mem_append_left _ hmem)
    have hgv : g ≠ v := fun heq => hg (by simp [heq])
    have hmem := ((h.seen_iff g).mp (hclosed u hu g hug)).resolve_left hgo
    have hrest := (mem_cons.mp hmem).resolve_left fun heq => hgv (Prod.mk.inj heq).1
    exact (hchain.1 (g, true) hrest rfl).2

theorem Searching.skip (h : Searching n graph ⟨seen, order, (v, false) :: stack⟩)
    (hseen : isSet seen v = true) : Searching n graph ⟨seen, order, stack⟩ := by
  refine ⟨h.length_seen, ?_, ?_, ?_, (pairwise_cons.mp h.chain).2, ?_, h.closed, h.nodup,
    h.backed, h.finish⟩
  · intro w
    apply (h.seen_iff w).trans
    simp
  · exact fun entry hentry => h.stack_lt entry (mem_cons_of_mem _ hentry)
  · exact fun w hw => h.unfinished w (mem_cons_of_mem _ hw)
  · intro u hu w hw
    obtain hold | hsub := h.pushed u (mem_cons_of_mem _ hu) w hw
    · exact .inl hold
    · cases hsub with
      | cons _ hsub => exact .inr hsub
      | cons_cons _ _ => exact .inl hseen

theorem Searching.enter (hlt : ∀ s t, Edge graph s t → t < n)
    (h : Searching n graph ⟨seen, order, (v, false) :: stack⟩) (hunseen : isSet seen v = false) :
    Searching n graph ⟨seen.set v true, order,
      ((row graph v).filter fun next => !isSet (seen.set v true) next).map
        (fun next => (next, false)) ++ (v, true) :: stack⟩ := by
  have hchain := pairwise_cons.mp h.chain
  have hvn : v < n := h.stack_lt (v, false) mem_cons_self
  have hset := isSet_set (show v < seen.length from h.length_seen ▸ hvn)
  have hmono : ∀ w, isSet seen w = true → isSet (seen.set v true) w = true :=
    fun w hw => (hset w).mpr (.inr hw)
  have hvo : v ∉ order := fun hmem =>
    absurd ((h.seen_iff v).mpr (.inl hmem)) (by simp [hunseen])
  have hvs : (v, true) ∉ stack := fun hmem =>
    absurd ((h.seen_iff v).mpr (.inr (mem_cons_of_mem _ hmem))) (by simp [hunseen])
  refine ⟨by simpa using h.length_seen, ?_, ?_, ?_, ?_, ?_, ?_, h.nodup, h.backed, h.finish⟩
  · intro w
    rw [hset, h.seen_iff w]
    simp only [mem_append, mem_cons, mem_map, Prod.mk.injEq]
    grind
  · intro entry hentry
    simp only [mem_append, mem_cons, mem_map, mem_filter] at hentry
    obtain ⟨t, ⟨ht, _⟩, rfl⟩ | rfl | hentry := hentry
    · exact hlt v t ht
    · exact hvn
    · exact h.stack_lt entry (mem_cons_of_mem _ hentry)
  · intro w hw
    simp only [mem_append, mem_cons, mem_map, Prod.mk.injEq] at hw
    obtain ⟨_, _, _, hfalse⟩ | ⟨rfl, _⟩ | hw := hw
    · exact absurd hfalse (by decide)
    · exact hvo
    · exact h.unfinished w (mem_cons_of_mem _ hw)
  · -- the new entries are successors of `v`, which every node below reaches
    rw [pairwise_append, pairwise_cons]
    have hbelow : ∀ entry ∈ stack, entry.2 = true →
        ReflTransGen (Edge graph) entry.1 v := fun entry he ht => (hchain.1 entry he ht).2
    refine ⟨?_, ⟨?_, hchain.2⟩, ?_⟩
    · rw [pairwise_map]
      exact pairwise_of_forall fun _ _ h => absurd h Bool.false_ne_true
    · intro entry he ht
      exact ⟨fun heq => hvs (heq ▸ he), hbelow entry he ht⟩
    · intro new hnew entry he ht
      obtain ⟨t, htmem, rfl⟩ := mem_map.mp hnew
      have hedge : Edge graph v t := (mem_filter.mp htmem).1
      refine ⟨fun heq => absurd (heq ▸ ht) (by simp), ?_⟩
      obtain rfl | he := mem_cons.mp he
      · exact .single hedge
      · exact (hbelow entry he ht).tail hedge
  · intro u hu w hw
    obtain hseen | hunseen' := Bool.eq_false_or_eq_true (isSet (seen.set v true) w)
    · exact .inl hseen
    apply Or.inr
    simp only [mem_append, mem_cons, mem_map, Prod.mk.injEq] at hu
    obtain ⟨_, _, _, hfalse⟩ | ⟨rfl, _⟩ | hu := hu
    · exact absurd hfalse (by decide)
    · have hnew : [(w, false)].Sublist
          (((row graph u).filter fun next => !isSet (seen.set u true) next).map
            fun next => (next, false)) := by
        rw [singleton_sublist]
        exact mem_map_of_mem (mem_filter.mpr ⟨hw, by simp [hunseen']⟩)
      exact hnew.append (singleton_sublist.mpr mem_cons_self)
    · obtain hold | hsub := h.pushed u (mem_cons_of_mem _ hu) w hw
      · exact absurd (hmono w hold) (by simp [hunseen'])
      · cases hsub with
        | cons _ hsub => exact (hsub.cons _).trans (sublist_append_right _ _)
        | cons_cons _ _ => exact absurd ((hset v).mpr (.inl rfl)) (by simp [hunseen'])
  · intro u hu w hw
    exact hmono w (h.closed u hu w hw)

theorem Searching.visit {s' : DfsOrder} {entry : ℕ × Bool} (hg : graph.length = n)
    (hlt : ∀ s t, Edge graph s t → t < n) (h : Searching n graph s)
    (hpop : s.pop = some (entry, s')) :
    Searching n graph (visit graph entry s') ∧
    (∀ v, isSet s.seen v = true → isSet (visit graph entry s').seen v = true) ∧
    (∀ v, (v, false) ∈ s.stack → isSet (visit graph entry s').seen v = true ∨
      (v, false) ∈ (visit graph entry s').stack) ∧
    unseenWork graph (visit graph entry s').seen +
      (visit graph entry s').stack.length < unseenWork graph s.seen + s.stack.length := by
  obtain ⟨seen, order, _ | ⟨⟨v, expanded⟩, stack⟩⟩ := s
  · cases hpop
  cases hpop
  cases expanded with
  | true =>
    refine ⟨h.finishNode, fun _ hw => hw, ?_, Nat.lt_succ_self _⟩
    intro w hw
    have hmem : (w, false) ∈ stack := by simpa using hw
    exact .inr hmem
  | false =>
    by_cases hseen : isSet seen v = true
    · have hvisit : visit graph (v, false) ⟨seen, order, stack⟩ =
          ⟨seen, order, stack⟩ := by simp [visit, hseen]
      rw [hvisit]
      refine ⟨h.skip hseen, fun _ hw => hw, ?_, Nat.lt_succ_self _⟩
      intro w hw
      obtain heq | hw := mem_cons.mp hw
      · rw [(Prod.mk.inj heq).1]
        exact .inl hseen
      · exact .inr hw
    · have hunseen : isSet seen v = false := by simpa using hseen
      have hvisit : visit graph (v, false) ⟨seen, order, stack⟩ = ⟨seen.set v true, order,
          ((row graph v).filter fun next => !isSet (seen.set v true) next).map
            (fun next => (next, false)) ++ (v, true) :: stack⟩ := by
        simp only [visit, hunseen, Bool.false_eq_true, if_false, foldl_push_unseen]
      have hvn : v < graph.length := hg ▸ h.stack_lt (v, false) mem_cons_self
      have hlen : seen.length = graph.length := h.length_seen.trans hg.symm
      have hset := isSet_set (hlen ▸ hvn)
      rw [hvisit]
      refine ⟨h.enter hlt hunseen, fun w hw => (hset w).mpr (.inr hw), ?_, ?_⟩
      · intro w hw
        obtain heq | hw := mem_cons.mp hw
        · exact .inl ((hset w).mpr (.inl (Prod.mk.inj heq).1.symm))
        · exact .inr (mem_append_right _ (mem_cons_of_mem _ hw))
      · -- entering a node frees the work its successors then take
        have hwork := unseenWork_set hvn hlen hunseen
        have hfilter := length_filter_le (fun next => !isSet (seen.set v true) next) (row graph v)
        simp only [length_append, length_map, length_cons]
        omega

theorem unseenWork_lt_searchFuel (graph : List (List ℕ)) (seen : List Bool) :
    unseenWork graph seen + 1 ≤ searchFuel graph := by
  exact Nat.succ_le_succ (openWeight_le isSet _ _ seen)

theorem Searching.restart {start : ℕ} (h : Searching n graph s) (hempty : s.stack = [])
    (hstart : start < n) :
    Searching n graph { s with stack := [(start, false)] } := by
  have hnone : ∀ v, (v, true) ∉ [(start, false)] := fun v hmem => by simp at hmem
  refine ⟨h.length_seen, ?_, by simpa using hstart, fun v hv => absurd hv (hnone v),
    pairwise_singleton _ _, fun v hv => absurd hv (hnone v), h.closed, h.nodup, h.backed,
    h.finish⟩
  intro v
  rw [h.seen_iff, hempty]
  simp

theorem dfsOrder_spec {start : ℕ} (hg : graph.length = n) (hlt : ∀ s t, Edge graph s t → t < n)
    (h : Searching n graph s) (hempty : s.stack = []) (hstart : start < n) :
    Searching n graph (dfsOrder graph s start) ∧ (dfsOrder graph s start).stack = [] ∧
      (∀ v, isSet s.seen v = true → isSet (dfsOrder graph s start).seen v = true) ∧
      isSet (dfsOrder graph s start).seen start = true := by
  unfold dfsOrder
  by_cases hseen : isSet s.seen start = true
  · simp only [hseen, if_true]
    exact ⟨h, hempty, fun _ hv => hv, trivial⟩
  simp only [hseen, Bool.false_eq_true, if_false]
  have hinv := h.restart hempty hstart
  let I : DfsOrder → Prop := fun t => Searching n graph t ∧
    (∀ v, isSet s.seen v = true → isSet t.seen v = true) ∧
    (isSet t.seen start = true ∨ (start, false) ∈ t.stack)
  have hstep : ∀ t entry t', I t → t.pop = some (entry, t') → I (visit graph entry t') := by
    rintro t entry t' ⟨ht, hmono, hwait⟩ hpop
    obtain ⟨hnext, hseen', hqueued, _⟩ := ht.visit hg hlt hpop
    refine ⟨hnext, fun v hv => hseen' v (hmono v hv), ?_⟩
    obtain hdone | hwait := hwait
    · exact .inl (hseen' start hdone)
    · exact hqueued start hwait
  have hstart' : I { s with stack := [(start, false)] } := ⟨hinv, fun _ hv => hv, by simp⟩
  have hend := drain_inv hstep (searchFuel graph) hstart'
  have hdone := drain_done hstep (fun t => unseenWork graph t.seen + t.stack.length)
    (fun t entry t' ht hpop => (ht.1.visit hg hlt hpop).2.2.2) (searchFuel graph) hstart'
    (by simpa using unseenWork_lt_searchFuel graph s.seen)
  have hnil : (drain pop (visit graph) (searchFuel graph)
      { s with stack := [(start, false)] }).stack = [] := pop_eq_none hdone
  refine ⟨hend.1, hnil, hend.2.1, ?_⟩
  apply hend.2.2.resolve_right
  rw [hnil]
  exact not_mem_nil

theorem finishOrder_spec (live : List Bool) (hg : graph.length = n)
    (hlt : ∀ s t, Edge graph s t → t < n) :
    FinishOrder (Edge graph) (finishOrder graph live) ∧
      ∀ v < n, isSet live v = true → v ∈ finishOrder graph live := by
  let I : DfsOrder → List ℕ → Prop := fun s rest =>
    (Searching n graph s ∧ s.stack = []) ∧ (∀ v ∈ rest, v < n) ∧
      ∀ v < n, isSet live v = true → isSet s.seen v = true ∨ v ∈ rest
  have hstep : ∀ s start rest, I s (start :: rest) → I (dfsOrder graph s start) rest := by
    rintro s start rest ⟨⟨hs, hempty⟩, hrest, hlive⟩
    obtain ⟨hs', hempty', hmono, hstart⟩ := dfsOrder_spec hg hlt hs hempty
      (hrest start mem_cons_self)
    refine ⟨⟨hs', hempty'⟩, fun v hv => hrest v (mem_cons_of_mem _ hv), ?_⟩
    intro v hv hvlive
    obtain hseen | hmem := hlive v hv hvlive
    · exact .inl (hmono v hseen)
    · obtain rfl | hmem := mem_cons.mp hmem
      · exact .inl hstart
      · exact .inr hmem
  have hstart : I { seen := replicate graph.length false, order := [], stack := [] }
      ((range graph.length).filter fun node => isSet live node) := by
    refine ⟨⟨⟨by simpa using hg, by simp [isSet_replicate], by simp, by simp, .nil, by simp,
      by simp, nodup_nil, backed_nil, finishOrder_nil⟩, rfl⟩, ?_, ?_⟩
    · intro v hv
      exact hg ▸ mem_range.mp (mem_filter.mp hv).1
    · intro v hv hvlive
      exact .inr (mem_filter.mpr ⟨mem_range.mpr (hg ▸ hv), hvlive⟩)
  obtain ⟨⟨hs, hempty⟩, _, hall⟩ := foldl_rest hstep _ hstart
  refine ⟨hs.finish, fun v hv hvlive => ?_⟩
  have hseen := (hall v hv hvlive).resolve_right not_mem_nil
  rw [hs.seen_iff, hempty] at hseen
  exact hseen.resolve_right not_mem_nil

end Order

section Component
variable {n : ℕ} {graph reverse : List (List ℕ)} {seen₀ : List Bool} {start : ℕ}
  {out stack : List ℕ}

theorem mem_foldl_push {seen : List Bool} (targets stack : List ℕ) (u : ℕ) :
    u ∈ targets.foldl (fun stack next => if isSet seen next then stack else next :: stack) stack ↔
      u ∈ stack ∨ (u ∈ targets ∧ isSet seen u = false) := by
  induction targets generalizing stack with
  | nil => simp
  | cons t targets ih =>
    rw [foldl_cons]
    grind

theorem length_foldl_push_le (seen : List Bool) (targets stack : List ℕ) :
    (targets.foldl (fun stack next => if isSet seen next then stack else next :: stack)
      stack).length ≤ stack.length + targets.length := by
  induction targets generalizing stack with
  | nil => simp
  | cons t targets ih =>
    rw [foldl_cons]
    apply (ih _).trans
    split
    · simp
    · simp
      omega

def PredClosed (graph : List (List ℕ)) (seen : List Bool) : Prop :=
  ∀ s t, Edge graph s t → isSet seen t = true → isSet seen s = true

/-- The state of `dfs_component`: the nodes of `out` are new and reach the start
through one another. -/
structure Collecting (graph : List (List ℕ)) (seen₀ : List Bool) (start : ℕ) (s : DfsComponent) :
    Prop where
  length_seen : s.seen.length = graph.length
  seen_iff : ∀ v, isSet s.seen v = true ↔ isSet seen₀ v = true ∨ v ∈ s.out
  fresh : ∀ v ∈ s.out, isSet seen₀ v = false
  nodup : s.out.Nodup
  stack_lt : ∀ v ∈ s.stack, v < graph.length
  reaches : ∀ u ∈ s.out, Inside (Edge graph) (· ∈ s.out) u start
  leads : ∀ u ∈ s.stack, u = start ∨ ∃ m ∈ s.out, Edge graph u m
  preds : ∀ u t, Edge graph u t → t ∈ s.out → isSet s.seen u = true ∨ u ∈ s.stack
  started : start ∈ s.out ∨ start ∈ s.stack

theorem Collecting.skip (h : Collecting graph seen₀ start ⟨seen, out, v :: stack⟩)
    (hseen : isSet seen v = true) (hunseen : isSet seen₀ start = false) :
    Collecting graph seen₀ start ⟨seen, out, stack⟩ := by
  refine ⟨h.length_seen, h.seen_iff, h.fresh, h.nodup, ?_, h.reaches, ?_, ?_, ?_⟩
  · exact fun u hu => h.stack_lt u (mem_cons_of_mem _ hu)
  · exact fun u hu => h.leads u (mem_cons_of_mem _ hu)
  · intro u t hut ht
    obtain hu | hu := h.preds u t hut ht
    · exact .inl hu
    · obtain rfl | hu := mem_cons.mp hu
      · exact .inl hseen
      · exact .inr hu
  · obtain hout | hmem := h.started
    · exact .inl hout
    · obtain rfl | hmem := mem_cons.mp hmem
      · exact .inl (((h.seen_iff start).mp hseen).resolve_left (by simp [hunseen]))
      · exact .inr hmem

section
variable (ha : Adjacency n graph reverse)
include ha

theorem Collecting.enter (h : Collecting graph seen₀ start ⟨seen, out, v :: stack⟩)
    (hunseen : isSet seen v = false) :
    Collecting graph seen₀ start ⟨seen.set v true, out ++ [v], (row reverse v).foldl
      (fun stack next => if isSet (seen.set v true) next then stack else next :: stack) stack⟩ := by
  have hvn : v < graph.length := h.stack_lt v mem_cons_self
  have hset := isSet_set (show v < seen.length from h.length_seen ▸ hvn)
  have hvnew : ¬ (isSet seen₀ v = true ∨ v ∈ out) := by
    rw [← h.seen_iff v]
    simp [hunseen]
  rw [not_or, Bool.not_eq_true] at hvnew
  have hmono : ∀ {u w}, Inside (Edge graph) (· ∈ out) u w →
      Inside (Edge graph) (· ∈ out ++ [v]) u w :=
    fun hp => hp.mono fun x hx => mem_append_left _ hx
  refine ⟨by simpa using h.length_seen, ?_, ?_, ?_, ?_, ?_, ?_, ?_, ?_⟩
  · intro w
    rw [hset, h.seen_iff w]
    simp only [mem_append, mem_singleton]
    grind
  · intro w hw
    obtain hw | hw := mem_append.mp hw
    · exact h.fresh w hw
    · rw [mem_singleton.mp hw]
      exact hvnew.1
  · exact h.nodup.append (nodup_singleton v) (disjoint_singleton.mpr hvnew.2)
  · intro u hu
    obtain hu | ⟨hu, _⟩ := (mem_foldl_push _ _ u).mp hu
    · exact h.stack_lt u (mem_cons_of_mem _ hu)
    · exact lt_of_mem_row ((ha.mem_reverse u v).mp hu)
  · -- `v` was pushed as the start or as a predecessor of a node already out
    intro u hu
    obtain hu | hu := mem_append.mp hu
    · exact hmono (h.reaches u hu)
    rw [mem_singleton.mp hu]
    obtain rfl | ⟨m, hm, hvm⟩ := h.leads v mem_cons_self
    · exact .refl
    · exact .head ⟨by simp, hvm⟩ (hmono (h.reaches m hm))
  · intro u hu
    obtain hu | ⟨hu, _⟩ := (mem_foldl_push _ _ u).mp hu
    · apply (h.leads u (mem_cons_of_mem _ hu)).imp_right
      exact fun ⟨m, hm, hum⟩ => ⟨m, mem_append_left _ hm, hum⟩
    · exact .inr ⟨v, by simp, (ha.mem_reverse u v).mp hu⟩
  · intro u t hut ht
    obtain hseen | hnew := Bool.eq_false_or_eq_true (isSet (seen.set v true) u)
    · exact .inl hseen
    apply Or.inr
    rw [mem_foldl_push]
    obtain ht | ht := mem_append.mp ht
    · obtain hold | hold := h.preds u t hut ht
      · exact absurd ((hset u).mpr (.inr hold)) (by simp [hnew])
      · apply Or.inl
        apply (mem_cons.mp hold).resolve_left
        exact fun heq => absurd ((hset u).mpr (.inl heq.symm)) (by simp [hnew])
    · rw [mem_singleton.mp ht] at hut
      exact .inr ⟨(ha.mem_reverse u v).mpr hut, hnew⟩
  · obtain hout | hmem := h.started
    · exact .inl (mem_append_left _ hout)
    · obtain rfl | hmem := mem_cons.mp hmem
      · exact .inl (by simp)
      · exact .inr ((mem_foldl_push _ _ start).mpr (.inl hmem))

theorem Collecting.visit {s s' : DfsComponent} (hstart : isSet seen₀ start = false)
    (h : Collecting graph seen₀ start s) (hpop : s.pop = some (v, s')) :
    Collecting graph seen₀ start (DfsComponent.visit reverse v s') ∧
    unseenWork reverse (DfsComponent.visit reverse v s').seen +
      (DfsComponent.visit reverse v s').stack.length <
        unseenWork reverse s.seen + s.stack.length := by
  obtain ⟨seen, out, _ | ⟨v, stack⟩⟩ := s
  · cases hpop
  cases hpop
  by_cases hseen : isSet seen v = true
  · have hvisit : DfsComponent.visit reverse v ⟨seen, out, stack⟩ = ⟨seen, out, stack⟩ := by
      simp [DfsComponent.visit, hseen]
    rw [hvisit]
    exact ⟨h.skip hseen hstart, Nat.lt_succ_self _⟩
  · have hunseen : isSet seen v = false := by simpa using hseen
    have hrows : graph.length = reverse.length := ha.length_graph.trans ha.length_reverse.symm
    have hvn : v < reverse.length := hrows ▸ h.stack_lt v mem_cons_self
    have hlen : seen.length = reverse.length := h.length_seen.trans hrows
    have hwork := unseenWork_set hvn hlen hunseen
    have hpush := length_foldl_push_le (seen.set v true) (row reverse v) stack
    simp only [DfsComponent.visit, hunseen, Bool.false_eq_true, if_false]
    refine ⟨h.enter ha hunseen, ?_⟩
    rw [length_cons]
    omega

/-- `dfs_component` from an unseen start: the component is new, its nodes reach the
start through one another, and afterwards no edge enters the seen nodes. -/
theorem dfsComponent_spec (hlen : seen₀.length = n) (hclosed : PredClosed graph seen₀)
    (hlt : start < n) (hstart : isSet seen₀ start = false) :
    Collecting graph seen₀ start (dfsComponent reverse seen₀ start) ∧
      start ∈ (dfsComponent reverse seen₀ start).out ∧
      PredClosed graph (dfsComponent reverse seen₀ start).seen := by
  have hinit : Collecting graph seen₀ start { seen := seen₀, out := [], stack := [start] } := by
    refine ⟨hlen.trans ha.length_graph.symm, by simp, by simp, nodup_nil, ?_, by simp,
      by simp, by simp, by simp⟩
    simpa using ha.length_graph ▸ hlt
  have hstep : ∀ s v s', Collecting graph seen₀ start s → s.pop = some (v, s') →
      Collecting graph seen₀ start (DfsComponent.visit reverse v s') :=
    fun s v s' hs hpop => (hs.visit ha hstart hpop).1
  have hend : Collecting graph seen₀ start (dfsComponent reverse seen₀ start) :=
    drain_inv hstep (searchFuel reverse) hinit
  have hdone : (dfsComponent reverse seen₀ start).pop = none :=
    drain_done hstep (fun s => unseenWork reverse s.seen + s.stack.length)
      (fun s v s' hs hpop => (hs.visit ha hstart hpop).2) (searchFuel reverse) hinit
      (by simpa using unseenWork_lt_searchFuel reverse seen₀)
  have hnil : (dfsComponent reverse seen₀ start).stack = [] := DfsComponent.pop_eq_none hdone
  have hempty : ∀ v, v ∉ (dfsComponent reverse seen₀ start).stack := by
    rw [hnil]
    exact fun _ => not_mem_nil
  refine ⟨hend, hend.started.resolve_right (hempty start), fun s t hst ht => ?_⟩
  obtain hold | hout := (hend.seen_iff t).mp ht
  · exact (hend.seen_iff s).mpr (.inl (hclosed s t hst hold))
  · exact (hend.preds s t hst hout).resolve_right (hempty s)

end

end Component

end Cfmd.Fixpoint
