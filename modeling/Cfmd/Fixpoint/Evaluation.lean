import Cfmd.Fixpoint.Components

/-! The topological evaluation: every atom that is live and not infinite is
processed once, after all its premises, so the values it leaves solve the
equations of these atoms. -/

namespace Cfmd.Fixpoint
open Lib Relation PositiveBagIncidence List

namespace EvaluationContext

structure Sound (ctx : EvaluationContext) : Prop where
  adjacency : Adjacency ctx.program.atomCount ctx.incidence.graph ctx.incidence.reverse
  lt : ∀ v, ctx.isFinite v = true → v < ctx.program.atomCount
  pred : ∀ p v, Edge ctx.incidence.graph p v → ctx.isFinite v = true → ctx.isFinite p = true
  acyclic : ∀ v, ctx.isFinite v = true → ¬ TransGen (Edge ctx.incidence.graph) v v
  premise : ∀ v, ∀ index ∈ row ctx.incidence.rulesByHead v,
    ∀ p ∈ (ctx.program.rule index).body, Edge ctx.incidence.graph p v

variable {ctx : EvaluationContext} {s : Evaluation} {v : ℕ} {done : List ℕ}
  {finite finite' : List Exact.ExactNatural}

theorem pop_eq_none (h : pop s = none) : s.queue = [] := by
  unfold pop at h
  split at h
  · assumption
  · cases h

theorem product_congr {rule : PositiveBagRule}
    (h : ∀ p ∈ rule.body, finite[p]?.getD .zero = finite'[p]?.getD .zero) :
    product finite rule = product finite' rule := by
  apply foldl_ext
  intro value p hp
  rw [h p hp]

theorem value_congr (hc : ctx.Sound)
    (h : ∀ p, Edge ctx.incidence.graph p v → finite[p]?.getD .zero = finite'[p]?.getD .zero) :
    ctx.value finite v = ctx.value finite' v := by
  apply foldl_ext
  intro total index hindex
  rw [product_congr fun p hp => h p (hc.premise v index hindex p hp)]

def waiting (ctx : EvaluationContext) (done : List ℕ) (v : ℕ) : ℕ :=
  (row ctx.incidence.reverse v).countP fun p => ctx.isFinite p && !done.contains p

/-- The loop of the evaluation after the atoms `done`, while the successors
`rest` of the last of them are still to be released. -/
structure Evaluating (ctx : EvaluationContext) (done rest : List ℕ) (s : Evaluation) : Prop where
  length_indegree : s.indegree.length = ctx.program.atomCount
  length_finite : s.finite.length = ctx.program.atomCount
  processed : s.processed = done.length
  nodup : (done ++ s.queue).Nodup
  isFinite : ∀ v ∈ done ++ s.queue, ctx.isFinite v = true
  indegree : ∀ v, ctx.isFinite v = true →
    s.indegree[v]?.getD 0 = ctx.waiting done v + if v ∈ rest then 1 else 0
  ready : ∀ v, ctx.isFinite v = true → (v ∈ done ++ s.queue ↔ s.indegree[v]?.getD 0 = 0)
  value : ∀ v ∈ done, s.finite[v]?.getD .zero = ctx.value s.finite v

section
variable (hc : ctx.Sound)
include hc

theorem Evaluating.release {rest : List ℕ} {t : ℕ} (hnd : (t :: rest).Nodup)
    (h : Evaluating ctx done (t :: rest) s) :
    Evaluating ctx done rest (ctx.release s t) := by
  unfold EvaluationContext.release
  by_cases ht : ctx.isFinite t = true
  · simp only [ht, Bool.not_true, Bool.false_eq_true, if_false]
    have htn : t < s.indegree.length := h.length_indegree ▸ hc.lt t ht
    have hleft : s.indegree[t]?.getD 0 = ctx.waiting done t + 1 := by
      rw [h.indegree t ht, if_pos mem_cons_self]
    have hnew : t ∉ done ++ s.queue := by
      rw [h.ready t ht, hleft]
      exact Nat.succ_ne_zero _
    have hset : ∀ v, (s.indegree.set t (s.indegree[t]?.getD 0 - 1))[v]?.getD 0 =
        if t = v then ctx.waiting done t else s.indegree[v]?.getD 0 := by
      intro v
      rw [getD_set, hleft]
      simp [htn]
    rw [nodup_cons] at hnd
    have hqueue : ∀ v, v ∈ done ++ (if s.indegree[t]?.getD 0 - 1 = 0 then s.queue ++ [t]
        else s.queue) ↔ v ∈ done ++ s.queue ∨ (v = t ∧ ctx.waiting done t = 0) := by
      intro v
      rw [hleft, Nat.add_sub_cancel]
      split_ifs with hzero
      · simp [hzero, or_assoc]
      · simp [hzero]
    refine ⟨by simpa using h.length_indegree, h.length_finite, h.processed, ?_, ?_, ?_, ?_, h.value⟩
    · split_ifs
      · rw [← append_assoc]
        exact h.nodup.append (nodup_singleton t) (disjoint_singleton.mpr hnew)
      · exact h.nodup
    · intro v hv
      obtain hv | ⟨rfl, _⟩ := (hqueue v).mp hv
      · exact h.isFinite v hv
      · exact ht
    · intro v hv
      rw [hset]
      split_ifs with htv hmem hmem
      · exact absurd (htv ▸ hmem) hnd.1
      · rw [htv]
        rfl
      · rw [h.indegree v hv, if_pos (mem_cons_of_mem _ hmem)]
      · rw [h.indegree v hv, if_neg]
        rw [mem_cons, not_or]
        exact ⟨Ne.symm htv, hmem⟩
    · intro v hv
      rw [hqueue, hset]
      split_ifs with htv
      · subst htv
        simp [hnew]
      · rw [h.ready v hv]
        simp [Ne.symm htv]
  · have hskip : ctx.isFinite t = false := by simpa using ht
    simp only [hskip, Bool.not_false, if_true]
    refine ⟨h.length_indegree, h.length_finite, h.processed, h.nodup, h.isFinite, ?_, h.ready,
      h.value⟩
    intro v hv
    have hvt : v ≠ t := fun heq => ht (heq ▸ hv)
    rw [h.indegree v hv]
    simp [hvt]

theorem Evaluating.premise_done (h : Evaluating ctx done [] s) {p : ℕ} (hv : v ∈ done ++ s.queue)
    (hpv : Edge ctx.incidence.graph p v) : p ∈ done := by
  have hfinite := h.isFinite v hv
  have hzero := (h.ready v hfinite).mp hv
  rw [h.indegree v hfinite] at hzero
  have hp := countP_eq_zero.mp hzero p ((hc.adjacency.mem_reverse p v).mpr hpv)
  simpa [hc.pred p v hpv hfinite] using hp

theorem waiting_append {a : ℕ} (ha : a ∉ done) (hfinite : ctx.isFinite a = true) :
    ctx.waiting done v =
      ctx.waiting (done ++ [a]) v + if v ∈ row ctx.incidence.graph a then 1 else 0 := by
  split_ifs with hedge
  · refine (countP_close (hc.adjacency.reverse_nodup v)
      ((hc.adjacency.mem_reverse a v).mpr hedge) (by simpa [hfinite] using ha) (by simp) ?_).symm
    intro x _ hxa
    simp [hxa]
  · apply countP_congr_mem
    intro x hx
    have hxa : x ≠ a := fun heq => hedge ((hc.adjacency.mem_reverse a v).mp (heq ▸ hx))
    simp [hxa]

theorem Evaluating.visit {a : ℕ} {s' : Evaluation} (h : Evaluating ctx done [] s)
    (hpop : pop s = some (a, s')) :
    Evaluating ctx (done ++ [a]) [] (ctx.visit a s') := by
  obtain ⟨indegree, queue, finite, processed⟩ := s
  obtain _ | ⟨a, queue⟩ := queue
  · cases hpop
  cases hpop
  have hqueue : done ++ a :: queue = (done ++ [a]) ++ queue := by simp
  have hfinite := h.isFinite a (by simp)
  have han : a < finite.length := h.length_finite ▸ hc.lt a hfinite
  have hnodup : ((done ++ [a]) ++ queue).Nodup := hqueue ▸ h.nodup
  have ha : a ∉ done := by
    have hleft := (nodup_append.mp hnodup).1
    intro hin
    exact (nodup_append.mp hleft).2.2 a hin a (by simp) rfl
  -- writing the value of `a` changes no value read by an evaluated atom
  have hread : ∀ v ∈ done ++ [a],
      ctx.value (finite.set a (ctx.value finite a)) v = ctx.value finite v := by
    intro v hv
    apply value_congr hc
    intro p hpv
    have hv' : v ∈ done ++ a :: queue := hqueue ▸ mem_append_left _ hv
    have hpa : a ≠ p := fun heq => ha (heq ▸ h.premise_done hc hv' hpv)
    rw [getD_set, if_neg fun hand => hpa hand.1]
  have hinit : Evaluating ctx (done ++ [a]) (row ctx.incidence.graph a)
      ⟨indegree, queue, finite.set a (ctx.value finite a), processed + 1⟩ := by
    refine ⟨h.length_indegree, by simpa using h.length_finite, ?_, hnodup, hqueue ▸ h.isFinite, ?_,
      hqueue ▸ h.ready, ?_⟩
    · simpa using h.processed
    · intro v hv
      rw [h.indegree v hv, if_neg not_mem_nil, Nat.add_zero, waiting_append hc ha hfinite]
    · intro v hv
      rw [hread v hv, getD_set]
      split_ifs with hav
      · rw [hav.1]
      · obtain hv | hv := mem_append.mp hv
        · exact h.value v hv
        · exact absurd ⟨(mem_singleton.mp hv).symm, han⟩ hav
  have hend := foldl_rest (f := ctx.release)
    (I := fun s rest => rest.Nodup ∧ Evaluating ctx (done ++ [a]) rest s)
    (fun s t rest hI => ⟨(nodup_cons.mp hI.1).2, hI.2.release hc hI.1⟩) _
    ⟨hc.adjacency.graph_nodup a, hinit⟩
  exact hend.2

theorem evaluating_start : Evaluating ctx [] [] ctx.start := by
  have hindegree : ∀ v, ctx.isFinite v = true →
      ctx.start.indegree[v]?.getD 0 = ctx.waiting [] v := by
    intro v hv
    have hvn := hc.lt v hv
    simp [start, waiting, hvn, hv]
  refine ⟨by simp [start], by simp [start], rfl, nodup_range.filter _, ?_, ?_, ?_, by simp⟩
  · intro v hv
    have hboth := (mem_filter.mp hv).2
    exact (Bool.and_eq_true_iff.mp hboth).1
  · intro v hv
    rw [hindegree v hv]
    simp
  · intro v hv
    have hvn := hc.lt v hv
    simp [start, hvn, hv]

theorem Evaluating.length_le {rest : List ℕ} (h : Evaluating ctx done rest s) :
    (done ++ s.queue).length ≤ ctx.program.atomCount := by
  have hsub : (done ++ s.queue).Subperm (range ctx.program.atomCount) :=
    h.nodup.subperm fun v hv => mem_range.mpr (hc.lt v (h.isFinite v hv))
  simpa using hsub.length_le

theorem evaluate_spec :
    ctx.evaluate.processed = (range ctx.program.atomCount).countP ctx.isFinite ∧
      ∀ v, ctx.isFinite v = true →
        ctx.evaluate.finite[v]?.getD .zero = ctx.value ctx.evaluate.finite v := by
  let I : Evaluation → Prop := fun s => ∃ done, Evaluating ctx done [] s
  have hstep : ∀ s a s', I s → pop s = some (a, s') → I (ctx.visit a s') := by
    rintro s a s' ⟨done, hs⟩ hpop
    exact ⟨done ++ [a], hs.visit hc hpop⟩
  have hμ : ∀ s a s', I s → pop s = some (a, s') →
      ctx.program.atomCount - (ctx.visit a s').processed < ctx.program.atomCount - s.processed := by
    rintro s a s' ⟨done, hs⟩ hpop
    have hnext := hs.visit hc hpop
    have hle := hnext.length_le hc
    rw [hnext.processed, hs.processed]
    simp only [length_append, length_singleton] at hle ⊢
    omega
  obtain ⟨done, hend⟩ := drain_inv hstep ctx.program.atomCount ⟨[], evaluating_start hc⟩
  have hnone := drain_done hstep (fun s => ctx.program.atomCount - s.processed) hμ
    ctx.program.atomCount ⟨[], evaluating_start hc⟩ (Nat.sub_le _ _)
  have hempty : ctx.evaluate.queue = [] := pop_eq_none hnone
  replace hend : Evaluating ctx done [] ctx.evaluate := hend
  have hreach : ∀ v < ctx.program.atomCount, ctx.isFinite v = true → v ∈ done := by
    apply acyclic_induction (E := fun p v => Edge ctx.incidence.graph p v ∧ ctx.isFinite v = true)
    · intro v hcycle
      obtain ⟨p, _, hpv⟩ := TransGen.tail'_iff.mp hcycle
      exact hc.acyclic v hpv.2 (TransGen.mono (fun _ _ h => h.1) _ _ hcycle)
    · -- all premises evaluated: the counter is zero, and nothing waits in the queue
      intro v _ ih hv
      have hzero : ctx.waiting done v = 0 := by
        apply countP_eq_zero.mpr
        intro p hp
        have hpv := (hc.adjacency.mem_reverse p v).mp hp
        have hpf := hc.pred p v hpv hv
        simp [ih p (hc.lt p hpf) ⟨hpv, hv⟩ hpf]
      have hmem := (hend.ready v hv).mpr (by
        rw [hend.indegree v hv, hzero, if_neg not_mem_nil])
      rwa [hempty, append_nil] at hmem
  have hdone : done.Perm ((range ctx.program.atomCount).filter ctx.isFinite) := by
    rw [perm_ext_iff_of_nodup (nodup_append.mp hend.nodup).1 (nodup_range.filter _)]
    intro v
    rw [mem_filter, mem_range]
    constructor
    · intro hv
      have hfinite := hend.isFinite v (mem_append_left _ hv)
      exact ⟨hc.lt v hfinite, hfinite⟩
    · exact fun hv => hreach v hv.1 hv.2
  refine ⟨?_, fun v hv => hend.value v (hreach v (hc.lt v hv) hv)⟩
  rw [hend.processed, hdone.length_eq, countP_eq_length_filter]

end

end EvaluationContext

end Cfmd.Fixpoint
