import Cfmd.Fixpoint.PositiveBag

/-! The incidence lists of a bag program: which rules head an atom, the graph of
premises and heads, and its reverse. -/

namespace Cfmd.Fixpoint
open Lib Grounded List

namespace PositiveBagIncidence

variable {program : PositiveBagProgram} {support : GroundedCertificate} {p : ℕ}

def activeRules (program : PositiveBagProgram) (support : GroundedCertificate) : List ℕ :=
  (range program.rules.length).filter fun index => !skips support (program.rule index)

theorem rulesByHead_eq : (compile program support).rulesByHead =
    ((activeRules program support).map fun index => ((program.rule index).head, index)).foldl
      (fun rows push => pushAt rows push.1 push.2) (replicate program.atomCount []) := by
  rw [foldl_map]
  rfl

@[simp] theorem length_rulesByHead :
    (compile program support).rulesByHead.length = program.atomCount := by
  rw [rulesByHead_eq]
  simp

theorem row_rulesByHead {a : ℕ} (ha : a < program.atomCount) :
    row (compile program support).rulesByHead a =
      (activeRules program support).filter fun index => (program.rule index).head = a := by
  rw [rulesByHead_eq, row_foldl_pushAt _ _ (by simpa using ha), row_replicate, nil_append,
    filter_map, map_map]
  exact map_id _

/-- The graph before its rows are sorted: a push per premise of an active rule. -/
def edgePushes (program : PositiveBagProgram) (support : GroundedCertificate) : List (ℕ × ℕ) :=
  (activeRules program support).flatMap fun index =>
    (program.rule index).body.map fun premise => (premise, (program.rule index).head)

theorem graph_eq : (compile program support).graph =
    ((edgePushes program support).foldl (fun rows push => pushAt rows push.1 push.2)
      (replicate program.atomCount [])).map sortDedup := by
  unfold edgePushes
  rw [foldl_flatMap]
  simp only [foldl_map]
  rfl

theorem row_graph (hp : p < program.atomCount) :
    row (compile program support).graph p = sortDedup
      (((edgePushes program support).filter fun push => push.1 = p).map Prod.snd) := by
  have hlen : p < ((edgePushes program support).foldl
      (fun rows push => pushAt rows push.1 push.2)
      (replicate program.atomCount [])).length := by simpa using hp
  have hrow := row_foldl_pushAt (edgePushes program support)
    (replicate program.atomCount []) (j := p) (by simpa using hp)
  rw [row_replicate, nil_append] at hrow
  rw [← hrow, graph_eq]
  unfold row
  rw [getElem?_map, getElem?_eq_getElem hlen]
  rfl

@[simp] theorem length_graph : (compile program support).graph.length = program.atomCount := by
  rw [graph_eq]
  simp

theorem graph_nodup (p : ℕ) : (row (compile program support).graph p).Nodup := by
  by_cases hp : p < program.atomCount
  · rw [row_graph hp]
    exact nodup_dedup _
  · rw [row_of_le (by simpa using hp)]
    exact nodup_nil

theorem reverse_eq : (compile program support).reverse =
    ((range program.atomCount).flatMap fun source =>
      (row (compile program support).graph source).map fun target => (target, source)).foldl
      (fun rows push => pushAt rows push.1 push.2) (replicate program.atomCount []) := by
  have hsources : range program.atomCount =
      range (compile program support).graph.length := by rw [length_graph]
  rw [foldl_flatMap, hsources]
  simp only [foldl_map]
  rfl

@[simp] theorem length_reverse : (compile program support).reverse.length = program.atomCount := by
  rw [reverse_eq]
  simp

theorem row_reverse {t : ℕ} (ht : t < program.atomCount) :
    row (compile program support).reverse t = (range program.atomCount).filter fun s =>
      t ∈ row (compile program support).graph s := by
  rw [reverse_eq, row_foldl_pushAt _ _ (by simpa using ht), row_replicate, nil_append,
    filter_flatMap_pairs _ graph_nodup]

theorem skips_eq_false {rule : PositiveBagRule} : skips support rule = false ↔
    rule.coefficient ≠ 0 ∧ support.isLive rule.head = true ∧
      ∀ b ∈ rule.body, support.isLive b = true := by
  simp [skips, and_assoc]

theorem mem_activeRules {index : ℕ} : index ∈ activeRules program support ↔
    index < program.rules.length ∧ skips support (program.rule index) = false := by
  simp [activeRules]

theorem mem_graph (hs : support.HasSize program.atomCount) {h : ℕ} :
    h ∈ row (compile program support).graph p ↔ ∃ index ∈ activeRules program support,
        p ∈ (program.rule index).body ∧ (program.rule index).head = h := by
  have hpushes : h ∈ ((edgePushes program support).filter fun push => push.1 = p).map Prod.snd ↔
      ∃ index ∈ activeRules program support,
        p ∈ (program.rule index).body ∧ (program.rule index).head = h := by
    simp [edgePushes]
  constructor
  · intro hmem
    have hp : p < program.atomCount := by simpa using lt_of_mem_row hmem
    rw [row_graph hp, mem_sortDedup] at hmem
    exact hpushes.mp hmem
  · rintro ⟨index, hindex, hbody, hhead⟩
    have hlive := (skips_eq_false.mp (mem_activeRules.mp hindex).2).2.2 p hbody
    rw [row_graph (hs.lt_of_isLive hlive), mem_sortDedup]
    exact hpushes.mpr ⟨index, hindex, hbody, hhead⟩

theorem live_of_mem_graph (hs : support.HasSize program.atomCount) {h : ℕ}
    (hmem : h ∈ row (compile program support).graph p) :
    support.isLive p = true ∧ support.isLive h = true := by
  obtain ⟨index, hindex, hbody, rfl⟩ := (mem_graph hs).mp hmem
  have hactive := skips_eq_false.mp (mem_activeRules.mp hindex).2
  exact ⟨hactive.2.2 p hbody, hactive.2.1⟩

structure Adjacency (n : ℕ) (graph reverse : List (List ℕ)) : Prop where
  length_graph : graph.length = n
  length_reverse : reverse.length = n
  target_lt : ∀ s, ∀ t ∈ row graph s, t < n
  mem_reverse : ∀ s t, s ∈ row reverse t ↔ t ∈ row graph s
  graph_nodup : ∀ s, (row graph s).Nodup
  reverse_nodup : ∀ t, (row reverse t).Nodup

theorem adjacency_compile (hs : support.HasSize program.atomCount) :
    Adjacency program.atomCount (compile program support).graph
      (compile program support).reverse where
  length_graph := length_graph
  length_reverse := length_reverse
  target_lt s t ht := hs.lt_of_isLive (live_of_mem_graph hs ht).2
  mem_reverse s t := by
    constructor
    · intro hmem
      have ht : t < program.atomCount := by simpa using lt_of_mem_row hmem
      rw [row_reverse ht] at hmem
      simpa using (mem_filter.mp hmem).2
    · intro hmem
      have hlive := live_of_mem_graph hs hmem
      rw [row_reverse (hs.lt_of_isLive hlive.2), mem_filter]
      exact ⟨mem_range.mpr (hs.lt_of_isLive hlive.1), by simpa using hmem⟩
  graph_nodup := graph_nodup
  reverse_nodup t := by
    by_cases ht : t < program.atomCount
    · rw [row_reverse ht]
      exact nodup_range.filter _
    · rw [row_of_le (by simpa using ht)]
      exact nodup_nil

end PositiveBagIncidence

end Cfmd.Fixpoint
