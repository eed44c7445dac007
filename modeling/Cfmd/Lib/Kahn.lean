import Cfmd.Lib.Countdown
import Cfmd.Lib.Failure
import Cfmd.Lib.TreeMap
import Mathlib.Order.WellFoundedSet

/-! Kahn's algorithm: nodes of a finite graph are completed once everything they
wait for is. The counters of open prerequisites are kept in an ordered map, and
the nodes that are ready are taken one at a time or a whole layer at a time. -/

namespace Cfmd.Lib
open Std Relation ExtTreeMap List

structure DepGraph (α : Type) where
  nodes : List α
  deps : α → List α
  nodup : nodes.Nodup
  deps_nodup : ∀ x ∈ nodes, (deps x).Nodup
  deps_mem : ∀ x ∈ nodes, ∀ d ∈ deps x, d ∈ nodes

namespace DepGraph
variable {α ε : Type} {g : DepGraph α} {done : List α}

def Waits (g : DepGraph α) (d x : α) : Prop := x ∈ g.nodes ∧ d ∈ g.deps x

def Acyclic (g : DepGraph α) : Prop := ∀ x, ¬ TransGen g.Waits x x

inductive Topological (g : DepGraph α) : List α → Prop
  | nil : Topological g []
  | snoc {done : List α} {x : α} (h : Topological g done) (hx : x ∈ g.nodes) (hnew : x ∉ done)
      (hdeps : ∀ d ∈ g.deps x, d ∈ done) : Topological g (done ++ [x])

namespace Topological

section
variable (h : Topological g done)
include h

theorem nodup : done.Nodup := by
  induction h with
  | nil => exact nodup_nil
  | snoc _ _ hnew _ ih => exact ih.append (nodup_singleton _) (disjoint_singleton.mpr hnew)

theorem mem_nodes : ∀ x ∈ done, x ∈ g.nodes := by
  induction h with
  | nil => exact nofun
  | snoc _ hx _ _ ih =>
    intro y hy
    rcases mem_append.mp hy with hy | hy
    · exact ih y hy
    · rwa [mem_singleton.mp hy]

theorem length_le : done.length ≤ g.nodes.length :=
  (subperm_of_subset h.nodup h.mem_nodes).length_le

theorem deps_mem : ∀ x ∈ done, ∀ d ∈ g.deps x, d ∈ done := by
  induction h with
  | nil => exact nofun
  | snoc _ _ _ hdeps ih =>
    intro y hy d hd
    apply mem_append_left
    rcases mem_append.mp hy with hy | hy
    · exact ih y hy d hd
    · rw [mem_singleton.mp hy] at hd
      exact hdeps d hd

theorem of_reaches {x y : α} (hreach : ReflTransGen g.Waits y x) (hx : x ∈ done) : y ∈ done := by
  induction hreach with
  | refl => exact hx
  | tail _ hwaits ih => exact ih (h.deps_mem _ hx _ hwaits.2)

theorem not_onCycle : ∀ x ∈ done, ¬ TransGen g.Waits x x := by
  induction h with
  | nil => exact nofun
  | snoc h _ hnew hdeps ih =>
    intro y hy hcycle
    rcases mem_append.mp hy with hy | hy
    · exact ih y hy hcycle
    rw [mem_singleton.mp hy] at hcycle
    -- the last step leaves a node that was done before
    obtain ⟨d, hreach, hwaits⟩ := TransGen.tail'_iff.mp hcycle
    exact hnew (h.of_reaches hreach (hdeps d hwaits.2))

theorem acyclic (hall : ∀ x ∈ g.nodes, x ∈ done) : g.Acyclic := by
  intro x hcycle
  obtain ⟨_, _, hwaits⟩ := TransGen.tail'_iff.mp hcycle
  exact h.not_onCycle x (hall x hwaits.1) hcycle

end

end Topological

def Free (g : DepGraph α) (done : List α) (x : α) : Prop :=
  x ∈ g.nodes ∧ x ∉ done ∧ ∀ d ∈ g.deps x, d ∈ done

def Stuck (g : DepGraph α) (done : List α) : Prop :=
  ∀ x ∈ g.nodes, x ∉ done → ∃ d ∈ g.deps x, d ∉ done

theorem stuck_of_not_free (h : ∀ x, ¬ g.Free done x) : g.Stuck done := by
  intro x hx hnew
  by_contra hall
  simp only [not_exists, not_and, not_not] at hall
  exact h x ⟨hx, hnew, hall⟩

theorem free_snoc {x y : α} :
    g.Free (done ++ [x]) y ↔ (g.Free done y ∧ y ≠ x) ∨ (x ∈ g.deps y ∧ g.Free (done ++ [x]) y) := by
  constructor
  · intro hy
    by_cases hwaits : x ∈ g.deps y
    · exact .inr ⟨hwaits, hy⟩
    obtain ⟨hnode, hnew, hdeps⟩ := hy
    rw [mem_append, mem_singleton, not_or] at hnew
    refine .inl ⟨⟨hnode, hnew.1, ?_⟩, hnew.2⟩
    intro d hd
    rcases mem_append.mp (hdeps d hd) with hmem | hmem
    · exact hmem
    · exact absurd (mem_singleton.mp hmem ▸ hd) hwaits
  · rintro (⟨⟨hnode, hnew, hdeps⟩, hne⟩ | ⟨_, hy⟩)
    · refine ⟨hnode, ?_, fun d hd => mem_append_left _ (hdeps d hd)⟩
      rw [mem_append, mem_singleton]
      exact not_or_intro hnew hne
    · exact hy

theorem Free.append {x : α} {more : List α} (h : g.Free done x) (hnew : x ∉ more) :
    g.Free (done ++ more) x := by
  refine ⟨h.1, ?_, fun d hd => mem_append_left _ (h.2.2 d hd)⟩
  rw [mem_append]
  exact not_or_intro h.2.1 hnew

theorem Acyclic.all_done (h : g.Acyclic) (hstuck : g.Stuck done) : ∀ x ∈ g.nodes, x ∈ done := by
  have hstrict : IsStrictOrder α (TransGen g.Waits) :=
    { irrefl := h, trans := fun _ _ _ => TransGen.trans }
  have hwell : {x | x ∈ g.nodes}.WellFoundedOn (TransGen g.Waits) :=
    (finite_toSet g.nodes).wellFoundedOn
  intro x hx
  refine hwell.induction hx ?_
  intro y hy ih
  by_contra hnot
  obtain ⟨d, hd, hopen⟩ := hstuck y hy hnot
  exact hopen (ih d (g.deps_mem y hy d hd) (.single ⟨hy, hd⟩))

end DepGraph

/-! ### Counters -/

namespace Kahn

section
variable {α : Type} [DecidableEq α] {g : DepGraph α} {done : List α}

def openDeps (g : DepGraph α) (done : List α) (x : α) : ℕ :=
  (g.deps x).countP fun d => decide (d ∉ done)

theorem openDeps_eq_zero {x : α} : openDeps g done x = 0 ↔ ∀ d ∈ g.deps x, d ∈ done := by
  simp [openDeps, countP_eq_zero]

theorem openDeps_snoc_of_notMem {x y : α} (h : x ∉ g.deps y) :
    openDeps g (done ++ [x]) y = openDeps g done y := by
  apply countP_congr_mem
  intro d hd
  have hne : d ≠ x := fun heq => h (heq ▸ hd)
  simp [hne]

theorem openDeps_snoc_of_mem {x y : α} (hy : y ∈ g.nodes) (h : x ∈ g.deps y) (hx : x ∉ done) :
    openDeps g (done ++ [x]) y + 1 = openDeps g done y := by
  apply countP_close (g.deps_nodup y hy) h
  · simpa using hx
  · simp
  · intro d _ hne
    simp [hne]

end

variable {α ε : Type} [Ord α] [TransOrd α] [LawfulEqOrd α] {pending : ExtTreeMap α ℕ} {x : α}
  {successors : ExtTreeMap α (List α)} {fuel : ℕ} {layers : List (ExtTreeSet α compare)}

structure State (α : Type) [Ord α] where
  pending : ExtTreeMap α ℕ
  ready : ExtTreeSet α

def release (notPending : String) (s : State α) (dependent : α) : Fallible ε (State α) := do
  let remaining ← Fallible.expect notPending s.pending[dependent]?
  if remaining = 0 then .error (.panic "attempt to subtract with overflow")
  else
    return {
      pending := s.pending.insert dependent (remaining - 1)
      ready := if remaining - 1 = 0 then s.ready.insert dependent else s.ready }

/-- A ready node is complete: it leaves the map and releases its dependents. -/
def complete (notReady notPending : String) (successors : ExtTreeMap α (List α)) (s : State α)
    (completed : α) : Fallible ε (State α) := do
  let _ ← Fallible.expect notReady s.pending[completed]?
  (successors[completed]?.getD []).foldlM (release notPending)
    { s with pending := s.pending.erase completed }

/-- `successors.entry(dependency).or_default().push(node)`. -/
def pushSuccessor (successors : ExtTreeMap α (List α)) (dependency node : α) :
    ExtTreeMap α (List α) :=
  successors.alter dependency fun old => some (old.getD [] ++ [node])

def zeros (pending : ExtTreeMap α ℕ) : ExtTreeSet α :=
  ExtTreeSet.ofList (pending.toList.filterMap fun entry =>
    if entry.2 = 0 then some entry.1 else none)

variable {s : State α}

theorem mem_zeros : x ∈ zeros pending ↔ pending[x]? = some 0 := by
  classical
  rw [zeros, ExtTreeSet.mem_ofList, List.contains_iff_mem, List.mem_filterMap]
  constructor
  · rintro ⟨⟨y, count⟩, hmem, hzero⟩
    rw [mem_toList_iff_getElem?_eq_some] at hmem
    by_cases hcount : count = 0
    · rw [if_pos hcount, Option.some.injEq] at hzero
      rw [hcount] at hmem
      exact hzero ▸ hmem
    · rw [if_neg hcount] at hzero
      cases hzero
  · intro hget
    exact ⟨(x, 0), mem_toList_iff_getElem?_eq_some.mpr hget, if_pos rfl⟩

variable [DecidableEq α] {g : DepGraph α} {done : List α}

/-- The map counts the open prerequisites of every node that is not done. -/
def Counts (g : DepGraph α) (done : List α) (pending : ExtTreeMap α ℕ) : Prop :=
  ∀ x n, pending[x]? = some n ↔ x ∈ g.nodes ∧ x ∉ done ∧ n = openDeps g done x

structure Completed (g : DepGraph α) (done : List α) (pending : ExtTreeMap α ℕ) : Prop where
  order : g.Topological done
  counts : Counts g done pending

structure Indexes (g : DepGraph α) (successors : ExtTreeMap α (List α)) : Prop where
  nodup : ∀ x : α, (successors[x]?.getD []).Nodup
  mem_iff : ∀ x y : α, y ∈ successors[x]?.getD [] ↔ y ∈ g.nodes ∧ x ∈ g.deps y

omit [LawfulEqOrd α] in
theorem counts_nil (h : ∀ x n, pending[x]? = some n ↔ x ∈ g.nodes ∧ n = (g.deps x).length) :
    Counts g [] pending := by
  intro x n
  simp [h, openDeps]

theorem length_nodes_le (h : Counts g [] pending) : g.nodes.length ≤ pending.size := by
  rw [← length_keys]
  apply (subperm_of_subset g.nodup _).length_le
  intro x hx
  have hget := (h x _).mpr ⟨hx, not_mem_nil, rfl⟩
  rw [ExtTreeMap.mem_keys, ← isSome_getElem?_iff_mem, hget]
  rfl

theorem mem_zeros_iff (h : Counts g done pending) : x ∈ zeros pending ↔ g.Free done x := by
  rw [mem_zeros, h, eq_comm, openDeps_eq_zero]
  rfl

section
variable (deps : α → List α)

theorem getD_pushSuccessors {node : α} (ds : List α) (hnodup : ds.Nodup)
    (successors : ExtTreeMap α (List α)) (x : α) :
    (ds.foldl (fun s d => pushSuccessor s d node) successors)[x]?.getD [] =
      successors[x]?.getD [] ++ if x ∈ ds then [node] else [] := by
  induction ds generalizing successors with
  | nil => simp
  | cons d ds ih =>
    obtain ⟨hd, hnodup⟩ := nodup_cons.mp hnodup
    rw [foldl_cons, ih hnodup, pushSuccessor, getElem?_alter]
    by_cases hx : d = x
    · subst hx
      simp [hd]
    · simp [hx, Ne.symm hx]

theorem indexes_foldl (hnode : ∀ x ∈ g.nodes, g.deps x = deps x) :
    Indexes g (g.nodes.foldl (fun s x => (deps x).foldl (fun s d => pushSuccessor s d x) s) ∅) := by
  have hget : ∀ xs : List α, (∀ y ∈ xs, (deps y).Nodup) →
      ∀ (successors : ExtTreeMap α (List α)) (x : α),
      (xs.foldl (fun s y => (deps y).foldl (fun s d => pushSuccessor s d y) s)
        successors)[x]?.getD [] =
      successors[x]?.getD [] ++ xs.filter (x ∈ deps ·) := by
    intro xs hxs
    induction xs with
    | nil => simp
    | cons y xs ih =>
      intro successors x
      rw [forall_mem_cons] at hxs
      rw [foldl_cons, ih hxs.2, getD_pushSuccessors _ hxs.1]
      by_cases hx : x ∈ deps y <;> simp [hx]
  have hnodup : ∀ y ∈ g.nodes, (deps y).Nodup := by
    intro y hy
    rw [← hnode y hy]
    exact g.deps_nodup y hy
  constructor
  · intro x
    rw [hget _ hnodup]
    simpa using g.nodup.filter _
  · intro x y
    rw [hget _ hnodup]
    simp only [getElem?_empty, Option.getD_none, nil_append, mem_filter, decide_eq_true_eq]
    exact and_congr_right fun hy => by rw [hnode y hy]

end

/-- While `x` releases its dependents, those in `rest` still have to be. -/
structure Releasing (g : DepGraph α) (done : List α) (x : α) (before : ExtTreeSet α)
    (s : State α) (rest : List α) : Prop where
  rest_nodup : rest.Nodup
  rest_waits : ∀ y ∈ rest, y ∈ g.nodes ∧ y ∉ done ++ [x] ∧ x ∈ g.deps y
  pending_iff : ∀ y n, s.pending[y]? = some n ↔ y ∈ g.nodes ∧ y ∉ done ++ [x] ∧
    n = openDeps g (if y ∈ rest then done else done ++ [x]) y
  ready_iff : ∀ y, y ∈ s.ready ↔ y ∈ before ∨ (y ∉ rest ∧ x ∈ g.deps y ∧ g.Free (done ++ [x]) y)

theorem Releasing.step (hx : x ∉ done) {before : ExtTreeSet α} {y : α} {rest : List α}
    (h : Releasing g done x before s (y :: rest)) (notPending : String) :
    ∃ s', release (ε := ε) notPending s y = .ok s' ∧ Releasing g done x before s' rest := by
  obtain ⟨hynodes, hydone, hwaits⟩ := h.rest_waits y (mem_cons_self ..)
  obtain ⟨hynew, hnodup⟩ := nodup_cons.mp h.rest_nodup
  have hcount := openDeps_snoc_of_mem hynodes hwaits hx
  have hget : s.pending[y]? = some (openDeps g done y) := by
    rw [h.pending_iff]
    exact ⟨hynodes, hydone, by rw [if_pos (mem_cons_self ..)]⟩
  have hrelease : release (ε := ε) notPending s y = .ok
      { pending := s.pending.insert y (openDeps g (done ++ [x]) y)
        ready := if openDeps g (done ++ [x]) y = 0 then s.ready.insert y else s.ready } := by
    unfold release
    rw [hget, ← hcount]
    rfl
  refine ⟨_, hrelease, hnodup, fun z hz => h.rest_waits z (mem_cons_of_mem _ hz), ?_, ?_⟩
  · intro z n
    rw [getElem?_insert_eq_some, h.pending_iff]
    by_cases hz : y = z
    · subst hz
      simp only [hynew, if_false, hynodes, hydone, not_false_eq_true, true_and, ne_eq,
        not_true_eq_false, false_and, or_false]
      exact eq_comm
    · simp only [hz, false_and, ne_eq, not_false_eq_true, true_and, false_or, mem_cons, Ne.symm hz]
  · intro z
    have hready : z ∈ (if openDeps g (done ++ [x]) y = 0 then s.ready.insert y else s.ready) ↔
        (y = z ∧ openDeps g (done ++ [x]) y = 0) ∨ z ∈ s.ready := by
      split
      · rename_i hzero
        simp [ExtTreeSet.mem_insert, hzero]
      · rename_i hzero
        simp [hzero]
    rw [hready, h.ready_iff, openDeps_eq_zero]
    by_cases hz : y = z
    · subst hz
      simp only [true_and, mem_cons_self, not_true_eq_false, false_and, or_false, hynew,
        not_false_eq_true, hwaits, DepGraph.Free, hynodes, hydone]
      exact or_comm
    · simp only [hz, false_and, false_or, mem_cons, Ne.symm hz]

/-- Completing a free node gives the counters of the longer list, and adds to the
ready nodes those that waited for it alone. -/
theorem complete_spec (hindex : Indexes g successors) (h : Completed g done s.pending)
    (hx : g.Free done x) (notReady notPending : String) :
    ∃ s', complete (ε := ε) notReady notPending successors s x = .ok s' ∧
      Completed g (done ++ [x]) s'.pending ∧
      ∀ y, y ∈ s'.ready ↔ y ∈ s.ready ∨ (x ∈ g.deps y ∧ g.Free (done ++ [x]) y) := by
  obtain ⟨hnode, hnew, hdeps⟩ := hx
  have hself : x ∉ g.deps x := fun hmem => hnew (hdeps x hmem)
  have hget : s.pending[x]? = some (openDeps g done x) := (h.counts _ _).mpr ⟨hnode, hnew, rfl⟩
  have hstart : Releasing g done x s.ready { s with pending := s.pending.erase x }
      (successors[x]?.getD []) := by
    refine ⟨hindex.nodup x, ?_, ?_, ?_⟩
    · intro y hy
      obtain ⟨hynode, hwaits⟩ := (hindex.mem_iff x y).mp hy
      refine ⟨hynode, ?_, hwaits⟩
      intro hmem
      rcases mem_append.mp hmem with hmem | hmem
      · exact hnew (h.order.deps_mem y hmem x hwaits)
      · exact hself (mem_singleton.mp hmem ▸ hwaits)
    · intro y n
      rw [getElem?_erase]
      by_cases hy : x = y
      · subst hy
        simp
      have hcount : openDeps g (if y ∈ successors[x]?.getD [] then done else done ++ [x]) y =
          openDeps g done y ∨ y ∉ g.nodes := by
        by_cases hynode : y ∈ g.nodes
        · left
          split
          · rfl
          · rename_i hmem
            exact openDeps_snoc_of_notMem fun hwaits =>
              hmem ((hindex.mem_iff x y).mpr ⟨hynode, hwaits⟩)
        · exact .inr hynode
      rw [if_neg (by simpa using hy), h.counts]
      rcases hcount with hcount | hynode
      · rw [hcount]
        simp [Ne.symm hy]
      · simp [hynode]
    · intro y
      constructor
      · exact .inl
      · rintro (hy | ⟨hmem, hwaits, hfree⟩)
        · exact hy
        · exact absurd ((hindex.mem_iff x y).mpr ⟨hfree.1, hwaits⟩) hmem
  obtain ⟨s', hs', hend⟩ := foldlM_rest (I := Releasing g done x s.ready)
    (fun s y rest h => h.step (ε := ε) hnew notPending) _ hstart
  refine ⟨s', ?_, ⟨h.order.snoc hnode hnew hdeps, ?_⟩, ?_⟩
  · unfold complete
    rw [hget]
    exact hs'
  · intro y n
    simpa using hend.pending_iff y n
  · intro y
    simpa using hend.ready_iff y

omit [LawfulEqOrd α] in
theorem pending_isEmpty_iff (h : Completed g done pending) (hstuck : g.Stuck done) :
    pending.isEmpty = true ↔ g.Acyclic := by
  have hall : pending.isEmpty = true ↔ ∀ x ∈ g.nodes, x ∈ done := by
    rw [ExtTreeMap.isEmpty_iff, ExtTreeMap.eq_empty_iff_forall_not_mem]
    constructor
    · intro hempty x hx
      by_contra hnew
      have hget := (h.counts x _).mpr ⟨hx, hnew, rfl⟩
      exact hempty x (by rw [← ExtTreeMap.isSome_getElem?_iff_mem, hget]; rfl)
    · intro hall x hmem
      rw [← ExtTreeMap.isSome_getElem?_iff_mem, Option.isSome_iff_exists] at hmem
      obtain ⟨n, hget⟩ := hmem
      obtain ⟨hx, hnew, _⟩ := (h.counts x n).mp hget
      exact hnew (hall x hx)
  rw [hall]
  exact ⟨h.order.acyclic, fun hacyclic => hacyclic.all_done hstuck⟩

omit [LawfulEqOrd α] [DecidableEq α] in
theorem stuck_of_ready_empty {ready : ExtTreeSet α} (hready : ∀ x, x ∈ ready ↔ g.Free done x)
    (hempty : ready = ∅) : g.Stuck done := by
  apply DepGraph.stuck_of_not_free
  intro x hx
  rw [← hready, hempty] at hx
  exact ExtTreeSet.not_mem_empty hx

/-! ### One node at a time -/

/-- `while let Some(completed) = ready.pop_first()`; the list of the ready nodes is
ascending. -/
def drain (notReady notPending : String) (successors : ExtTreeMap α (List α)) :
    ℕ → State α → Fallible ε (State α)
  | 0, _ => .error (.panic "loop does not end")
  | fuel + 1, s =>
    match s.ready.toList with
    | [] => .ok s
    | completed :: _ => do
      drain notReady notPending successors fuel
        (← complete notReady notPending successors { s with ready := s.ready.erase completed }
          completed)

section
variable (hindex : Indexes g successors) (notReady notPending : String)
include hindex

theorem drain_spec (h : Completed g done s.pending) (hready : ∀ x, x ∈ s.ready ↔ g.Free done x)
    (hfuel : g.nodes.length - done.length < fuel) :
    ∃ s' done', drain (ε := ε) notReady notPending successors fuel s = .ok s' ∧
      Completed g done' s'.pending ∧ g.Stuck done' := by
  induction fuel generalizing s done with
  | zero => omega
  | succ fuel ih =>
    unfold drain
    cases hmin : s.ready.toList with
    | nil =>
      exact ⟨s, done, rfl, h, stuck_of_ready_empty hready (ExtTreeSet.toList_eq_nil_iff.mp hmin)⟩
    | cons x _ =>
      have hfirst : x ∈ s.ready.toList := hmin ▸ mem_cons_self ..
      have hfree := (hready x).mp (ExtTreeSet.mem_toList.mp hfirst)
      obtain ⟨s₁, hs₁, h₁, hready₁⟩ := complete_spec (ε := ε) hindex
        (s := { s with ready := s.ready.erase x }) h hfree notReady notPending
      have hlen := h₁.order.length_le
      rw [length_append, length_singleton] at hlen
      have hready₂ : ∀ y, y ∈ s₁.ready ↔ g.Free (done ++ [x]) y := by
        intro y
        have herase : y ∈ s.ready.erase x ↔ g.Free done y ∧ y ≠ x := by
          rw [ExtTreeSet.mem_erase, hready, and_comm, ne_eq, Std.compare_eq_iff_eq, eq_comm]
        rw [hready₁, herase]
        exact DepGraph.free_snoc.symm
      obtain ⟨s', done', hs', hrest⟩ := ih h₁ hready₂
        (by rw [length_append, length_singleton]; omega)
      refine ⟨s', done', ?_, hrest⟩
      show (complete notReady notPending successors _ x >>= _) = _
      rw [hs₁]
      exact hs'

theorem drain_start (hcounts : Counts g [] pending) (hfuel : g.nodes.length < fuel) :
    ∃ s', drain (ε := ε) notReady notPending successors fuel
        { pending, ready := zeros pending } = .ok s' ∧
      (s'.pending.isEmpty = true ↔ g.Acyclic) := by
  obtain ⟨s', done, hdrain, hdone, hstuck⟩ :=
    drain_spec (ε := ε) hindex notReady notPending (s := { pending, ready := zeros pending })
      ⟨.nil, hcounts⟩ (fun x => mem_zeros_iff hcounts) (Nat.lt_of_le_of_lt (Nat.sub_le _ _) hfuel)
  exact ⟨s', hdrain, pending_isEmpty_iff hdone hstuck⟩

end

/-! ### A layer at a time -/

/-- `while !ready.is_empty()`, with the layers taken and the counters left. -/
def drainLayers (notReady notPending : String) (successors : ExtTreeMap α (List α)) :
    ℕ → State α → List (ExtTreeSet α compare) → Fallible ε (List (ExtTreeSet α compare) × ExtTreeMap α ℕ)
  | 0, _, _ => .error (.panic "loop does not end")
  | fuel + 1, s, layers =>
    if s.ready.isEmpty then .ok (layers, s.pending)
    else do
      let layer := s.ready
      let s ← layer.toList.foldlM (complete notReady notPending successors) { s with ready := ∅ }
      drainLayers notReady notPending successors fuel s (layers ++ [layer])

def flat (layers : List (ExtTreeSet α compare)) : List α := layers.flatMap (·.toList)

omit [LawfulEqOrd α] [DecidableEq α] in
theorem flat_append (layers : List (ExtTreeSet α compare)) (layer : ExtTreeSet α compare) :
    flat (layers ++ [layer]) = flat layers ++ layer.toList := by
  simp [flat]

/-- Each layer holds the nodes that wait for earlier layers only. -/
inductive Layered (g : DepGraph α) : List (ExtTreeSet α compare) → Prop
  | nil : Layered g []
  | snoc {layers : List (ExtTreeSet α compare)} {layer : ExtTreeSet α compare} (h : Layered g layers)
      (hsome : layer.isEmpty = false) (hlayer : ∀ x, x ∈ layer ↔ g.Free (flat layers) x) :
      Layered g (layers ++ [layer])

section
variable (hindex : Indexes g successors) (notReady notPending : String)
include hindex notReady notPending

theorem completeLayer_spec
    (base : List α) (xs : List α) {before : List α} (hnodup : (before ++ xs).Nodup)
    (hfree : ∀ x ∈ xs, g.Free base x) (h : Completed g (base ++ before) s.pending)
    (hready : ∀ y, y ∈ s.ready ↔ g.Free (base ++ before) y ∧ ¬ g.Free base y) :
    ∃ s', xs.foldlM (complete (ε := ε) notReady notPending successors) s = .ok s' ∧
      Completed g (base ++ (before ++ xs)) s'.pending ∧
      ∀ y, y ∈ s'.ready ↔ g.Free (base ++ (before ++ xs)) y ∧ ¬ g.Free base y := by
  induction xs generalizing before s with
  | nil =>
    rw [append_nil]
    exact ⟨s, rfl, h, hready⟩
  | cons x xs ih =>
    obtain ⟨hx, hxs⟩ := forall_mem_cons.mp hfree
    have hnew : x ∉ before := by
      intro hmem
      exact (nodup_append.mp hnodup).2.2 x hmem x (mem_cons_self ..) rfl
    obtain ⟨s₁, hs₁, h₁, hready₁⟩ :=
      complete_spec (ε := ε) hindex h (hx.append hnew) notReady notPending
    have hready₂ : ∀ y, y ∈ s₁.ready ↔ g.Free (base ++ before ++ [x]) y ∧ ¬ g.Free base y := by
      intro y
      rw [hready₁, hready]
      constructor
      · rintro (⟨hy, hold⟩ | ⟨hwaits, hy⟩)
        · have hne : y ≠ x := fun heq => hold (heq ▸ hx)
          exact ⟨DepGraph.free_snoc.mpr (.inl ⟨hy, hne⟩), hold⟩
        · exact ⟨hy, fun hold => hx.2.1 (hold.2.2 x hwaits)⟩
      · rintro ⟨hy, hold⟩
        rcases DepGraph.free_snoc.mp hy with ⟨hy, _⟩ | hy
        · exact .inl ⟨hy, hold⟩
        · exact .inr hy
    rw [append_assoc] at h₁ hready₂
    have hassoc : before ++ x :: xs = before ++ [x] ++ xs := by simp
    rw [hassoc] at hnodup ⊢
    obtain ⟨s', hs', hrest⟩ := ih hnodup hxs h₁ hready₂
    refine ⟨s', ?_, hrest⟩
    rw [foldlM_cons, hs₁]
    exact hs'

theorem drainLayers_spec (hlayered : Layered g layers)
    (h : Completed g (flat layers) s.pending)
    (hready : ∀ x, x ∈ s.ready ↔ g.Free (flat layers) x)
    (hfuel : g.nodes.length - (flat layers).length < fuel) :
    ∃ layers' pending', drainLayers (ε := ε) notReady notPending successors fuel s layers =
        .ok (layers', pending') ∧
      Layered g layers' ∧ Completed g (flat layers') pending' ∧ g.Stuck (flat layers') := by
  induction fuel generalizing s layers with
  | zero => omega
  | succ fuel ih =>
    unfold drainLayers
    split
    · rename_i hempty
      exact ⟨layers, s.pending, rfl, hlayered, h,
        stuck_of_ready_empty hready (ExtTreeSet.isEmpty_iff.mp hempty)⟩
    · rename_i hsome
      have hfree : ∀ x ∈ s.ready.toList, g.Free (flat layers) x := by
        intro x hx
        exact (hready x).mp (ExtTreeSet.mem_toList.mp hx)
      have h' : Completed g (flat layers ++ []) s.pending := by rwa [append_nil]
      have hstart : ∀ y, y ∈ (∅ : ExtTreeSet α compare) ↔
          g.Free (flat layers ++ []) y ∧ ¬ g.Free (flat layers) y := by simp
      obtain ⟨s₁, hs₁, h₁, hready₁⟩ :=
        completeLayer_spec (ε := ε) hindex notReady notPending (flat layers) s.ready.toList
          (s := { s with ready := ∅ }) (nodup_set_toList s.ready) hfree h' hstart
      rw [nil_append, ← flat_append] at h₁ hready₁
      have hlen := h₁.order.length_le
      have hready₂ : ∀ x, x ∈ s₁.ready ↔ g.Free (flat (layers ++ [s.ready])) x := by
        intro x
        rw [hready₁, and_iff_left_iff_imp]
        intro hx hold
        -- what was free is in the layer
        rw [flat_append] at hx
        exact hx.2.1 (mem_append_right _ (ExtTreeSet.mem_toList.mpr ((hready x).mpr hold)))
      have hpos : 0 < s.ready.toList.length := by
        rw [length_pos_iff, ne_eq, ExtTreeSet.toList_eq_nil_iff, ← ExtTreeSet.isEmpty_iff]
        exact hsome
      obtain ⟨layers', pending', hs', hrest⟩ := ih (hlayered.snoc (by simpa using hsome) hready) h₁ hready₂
        (by rw [flat_append, length_append] at hlen ⊢; omega)
      refine ⟨layers', pending', ?_, hrest⟩
      show (s.ready.toList.foldlM _ _ >>= _) = _
      rw [hs₁]
      exact hs'

theorem drainLayers_start (hcounts : Counts g [] pending) (hfuel : g.nodes.length < fuel) :
    ∃ layers pending', drainLayers (ε := ε) notReady notPending successors fuel
        { pending, ready := zeros pending } [] = .ok (layers, pending') ∧
      Layered g layers ∧ g.Topological (flat layers) ∧ g.Stuck (flat layers) ∧
      (pending'.isEmpty = true ↔ g.Acyclic) := by
  obtain ⟨layers, pending', hdrain, hlayered, hdone, hstuck⟩ :=
    drainLayers_spec (ε := ε) hindex notReady notPending (s := { pending, ready := zeros pending })
      .nil ⟨.nil, hcounts⟩ (fun x => mem_zeros_iff hcounts)
      (Nat.lt_of_le_of_lt (Nat.sub_le _ _) hfuel)
  exact ⟨layers, pending', hdrain, hlayered, hdone.order, hstuck, pending_isEmpty_iff hdone hstuck⟩

end

omit [LawfulEqOrd α] [DecidableEq α] in
theorem Layered.isEmpty (h : Layered g layers) : ∀ layer ∈ layers, layer.isEmpty = false := by
  induction h with
  | nil => exact nofun
  | snoc _ hsome _ ih =>
    intro layer hlayer
    rcases mem_append.mp hlayer with hlayer | hlayer
    · exact ih layer hlayer
    · rwa [mem_singleton.mp hlayer]

omit [LawfulEqOrd α] [DecidableEq α] in
theorem Layered.earlier (h : Layered g layers) {before after : List (ExtTreeSet α compare)}
    {layer : ExtTreeSet α compare} (hsplit : layers = before ++ layer :: after) (hx : x ∈ layer) :
    ∀ d ∈ g.deps x, d ∈ flat before := by
  induction h generalizing after with
  | nil => simp at hsplit
  | @snoc layers last h _ hlast ih =>
    rcases eq_nil_or_concat after with rfl | ⟨after', last', rfl⟩
    · obtain ⟨rfl, hlayer⟩ := append_inj' hsplit rfl
      cases hlayer
      exact ((hlast x).mp hx).2.2
    · rw [concat_eq_append, ← cons_append, ← append_assoc] at hsplit
      exact ih (append_inj' hsplit rfl).1

end Kahn

end Cfmd.Lib
