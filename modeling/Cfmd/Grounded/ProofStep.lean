import Mathlib.Data.Bool.Count
import Mathlib.Data.Finset.Card
import Cfmd.Grounded.Check

/-! What every closure loop does to a certificate: it makes one dead atom live,
as a seed or through a rule whose premises are live. The invariants of a
certificate are kept by such a step, so by every loop made of them. -/

namespace Cfmd.Grounded
open Lib GroundedCertificate List Nat

inductive ProofStep (program : GroundedProgram) :
    GroundedCertificate → GroundedCertificate → Prop
  | seed {c : GroundedCertificate} {a : GroundedAtomId}
      (hseed : program.seeds.contains a = true) (hdead : c.isLive a = false) :
      ProofStep program c (c.setProof a 0 .seed)
  | rule {c : GroundedCertificate} {r : GroundedRuleId}
      (hen : (program.rule r).enabled = true)
      (hbody : ∀ b ∈ (program.rule r).body, c.isLive b = true)
      (hdead : c.isLive (program.rule r).head = false) :
      ProofStep program c (c.setProof (program.rule r).head (c.ruleRank (program.rule r)) (.rule r))

abbrev ProofSteps (program : GroundedProgram) := Relation.ReflTransGen (ProofStep program)

/-- Ranks leave room for one rank per dead atom, so `saturating_add` never saturates. -/
structure RankRoom (c : GroundedCertificate) : Prop where
  dead_le : c.live.count false ≤ usizeMax
  rank_le : ∀ a k, c.rankOf a = some k → k + c.live.count false ≤ usizeMax

/-- A rule witness has a premise whose rank is the one just below. -/
def RankTight (program : GroundedProgram) (c : GroundedCertificate) : Prop :=
  ∀ a r k, c.witnessOf a = some (.rule r) → c.rankOf a = some (k + 1) →
    ∃ b ∈ (program.rule r).body, c.rankOf b = some k

variable {program : GroundedProgram} {c c' : GroundedCertificate} {b a : GroundedAtomId} {m k : ℕ}
  {w : GroundedWitness}

/-! ## One step -/

section
variable (hv : program.Valid) (h : ProofStep program c c')
include hv h

theorem ProofStep.exists_setProof :
    ∃ a k w, a < program.atomCount ∧ c.isLive a = false ∧ c' = c.setProof a k w := by
  cases h with
  | seed hseed hdead =>
    exact ⟨_, _, _, hv.members ▸ GroundedSeedSet.lt_of_contains hseed, hdead, rfl⟩
  | rule hen hbody hdead =>
    exact ⟨_, _, _, hv.rule_head_lt hen, hdead, rfl⟩

theorem ProofStep.size (hs : c.HasSize program.atomCount) : c'.HasSize program.atomCount := by
  obtain ⟨a, k, w, _, _, rfl⟩ := h.exists_setProof hv
  exact hs.setProof a k w

theorem ProofStep.isLive (hs : c.HasSize program.atomCount) (hb : c.isLive b = true) :
    c'.isLive b = true := by
  obtain ⟨a, k, w, ha, _, rfl⟩ := h.exists_setProof hv
  rw [isLive_setProof hs ha]
  split_ifs
  · rfl
  · exact hb

end

theorem count_false_setProof (hs : c.HasSize program.atomCount) (ha : a < program.atomCount)
    (hdead : c.isLive a = false) (k : ℕ) (w : GroundedWitness) :
    (c.setProof a k w).live.count false + 1 = c.live.count false := by
  have hlt : a < c.live.length := hs.live ▸ ha
  have hget : c.live[a] = false := by
    simpa [isLive, getElem?_eq_getElem hlt] using hdead
  have hpos : 0 < c.live.count false := count_pos_iff.mpr (hget ▸ getElem_mem hlt)
  have hcount := count_set (a := true) (b := false) hlt
  simp only [hget] at hcount
  have hset : (c.setProof a k w).live.count false = c.live.count false - 1 := by
    simpa [setProof] using hcount
  omega

theorem ruleRank_cases (c : GroundedCertificate) (rule : GroundedRule) :
    (c.ruleRank rule = 0 ∧ ∀ b ∈ rule.body, c.rankOf b = none) ∨
    ∃ b ∈ rule.body, ∃ m, c.rankOf b = some m ∧ c.ruleRank rule = saturatingSucc m ∧
      ∀ b' ∈ rule.body, ∀ k, c.rankOf b' = some k → k ≤ m := by
  unfold ruleRank
  cases hm : (rule.body.filterMap c.rankOf).max? with
  | none =>
    left
    rw [max?_eq_none_iff, filterMap_eq_nil_iff] at hm
    exact ⟨rfl, hm⟩
  | some m =>
    right
    obtain ⟨hmem, hle⟩ := max?_eq_some_iff.mp hm
    obtain ⟨b, hb, hbm⟩ := mem_filterMap.mp hmem
    exact ⟨b, hb, m, hbm, rfl, fun b' hb' k hk => hle k (mem_filterMap.mpr ⟨b', hb', hk⟩)⟩

theorem saturatingSucc_of_room (hr : RankRoom c) (hs : c.HasSize program.atomCount)
    (ha : a < program.atomCount) (hdead : c.isLive a = false) (hb : c.rankOf b = some m) :
    saturatingSucc m = m + 1 := by
  have hcount := count_false_setProof hs ha hdead 0 .seed
  have hroom := hr.rank_le b m hb
  exact min_eq_left (by omega)

theorem Grounds.setProof {rank : ℕ} {w' : GroundedWitness} (hs : c.HasSize program.atomCount)
    (ha : a < program.atomCount) (hdead : c.isLive a = false) (h : Grounds program c b rank w) :
    Grounds program (c.setProof a k w') b rank w := by
  cases w with
  | seed => exact h
  | rule r =>
    refine ⟨h.1, h.2.1, fun p hp => ?_⟩
    obtain ⟨hlive, hrank⟩ := h.2.2 p hp
    have hne : a ≠ p := by
      rintro rfl
      rw [hlive] at hdead
      cases hdead
    rw [isLive_setProof hs ha, rankOf_setProof hs ha]
    simp only [hne, if_false]
    exact ⟨hlive, hrank⟩

/-- What a step needs to keep a certificate justified: the new atom is grounded. -/
theorem Justified.setProof (hj : Justified program c) (ha : a < program.atomCount)
    (hdead : c.isLive a = false) (hg : Grounds program c a k w) :
    Justified program (c.setProof a k w) := by
  refine ⟨hj.size.setProof a k w, fun b hb => ?_, fun b hb => ?_⟩
  · rw [isLive_setProof hj.size ha] at hb
    rw [rankOf_setProof hj.size ha, witnessOf_setProof hj.size ha]
    by_cases hab : a = b
    · subst hab
      exact ⟨k, w, by simp, by simp, hg.setProof hj.size ha hdead⟩
    · simp only [hab, if_false] at hb ⊢
      obtain ⟨rank, w', hrank, hw, hb⟩ := hj.live b hb
      exact ⟨rank, w', hrank, hw, hb.setProof hj.size ha hdead⟩
  · rw [isLive_setProof hj.size ha] at hb
    rw [rankOf_setProof hj.size ha, witnessOf_setProof hj.size ha]
    by_cases hab : a = b
    · simp [hab] at hb
    · simp only [hab, if_false] at hb ⊢
      exact hj.dead b hb

theorem RankRoom.setProof (hr : RankRoom c) (hs : c.HasSize program.atomCount)
    (ha : a < program.atomCount) (hdead : c.isLive a = false)
    (hk : k = 0 ∨ ∃ b m, c.rankOf b = some m ∧ k = m + 1) :
    RankRoom (c.setProof a k w) := by
  have hcount := count_false_setProof hs ha hdead k w
  have hdead_le := hr.dead_le
  refine ⟨by omega, fun b j hj => ?_⟩
  rw [rankOf_setProof hs ha] at hj
  split_ifs at hj with hab
  · cases hj
    rcases hk with rfl | ⟨p, m, hp, rfl⟩
    · omega
    · have hroom := hr.rank_le p m hp
      omega
  · have hroom := hr.rank_le b j hj
    omega

theorem grounds_ruleRank (hv : program.Valid) (hj : Justified program c) (hr : RankRoom c)
    {r : GroundedRuleId} (hen : (program.rule r).enabled = true)
    (hbody : ∀ b ∈ (program.rule r).body, c.isLive b = true)
    (hdead : c.isLive (program.rule r).head = false) :
    Grounds program c (program.rule r).head (c.ruleRank (program.rule r)) (.rule r) := by
  have hlt := hv.rule_head_lt hen
  refine ⟨hen, rfl, fun b hb => ⟨hbody b hb, ?_⟩⟩
  obtain ⟨k, w, hk, _, _⟩ := hj.live b (hbody b hb)
  refine ⟨k, ?_, hk⟩
  rcases ruleRank_cases c (program.rule r) with ⟨_, hnone⟩ | ⟨p, _, m, hm, hrank, hmax⟩
  · rw [hnone b hb] at hk
    cases hk
  · rw [hrank, saturatingSucc_of_room hr hj.size hlt hdead hm]
    exact lt_succ_of_le (hmax b hb k hk)

section
variable (hv : program.Valid) (h : ProofStep program c c') (hj : Justified program c)
  (hr : RankRoom c)
include hv h hj hr

theorem ProofStep.justified : Justified program c' ∧ RankRoom c' := by
  cases h with
  | @seed a hseed hdead =>
    have hlt : a < program.atomCount := hv.members ▸ GroundedSeedSet.lt_of_contains hseed
    exact ⟨hj.setProof hlt hdead ⟨hseed, rfl⟩, hr.setProof hj.size hlt hdead (.inl rfl)⟩
  | @rule r hen hbody hdead =>
    have hlt := hv.rule_head_lt hen
    refine ⟨hj.setProof hlt hdead (grounds_ruleRank hv hj hr hen hbody hdead),
      hr.setProof hj.size hlt hdead ?_⟩
    rcases ruleRank_cases c (program.rule r) with ⟨hzero, _⟩ | ⟨p, _, m, hm, hrank, _⟩
    · exact .inl hzero
    · exact .inr ⟨p, m, hm, hrank.trans (saturatingSucc_of_room hr hj.size hlt hdead hm)⟩

omit hv h hj hr in
theorem RankTight.setProof (ht : RankTight program c) (hj : Justified program c)
    (ha : a < program.atomCount) (hdead : c.isLive a = false)
    (hnew : ∀ r j, w = .rule r → k = j + 1 → ∃ b ∈ (program.rule r).body, c.rankOf b = some j) :
    RankTight program (c.setProof a k w) := by
  intro b r j hw hrank
  rw [witnessOf_setProof hj.size ha] at hw
  rw [rankOf_setProof hj.size ha] at hrank
  have hold : ∃ p ∈ (program.rule r).body, c.rankOf p = some j := by
    by_cases hab : a = b
    · simp only [hab, if_true, Option.some.injEq] at hw hrank
      exact hnew r j hw hrank
    · simp only [hab, if_false] at hw hrank
      exact ht b r j hw hrank
  obtain ⟨p, hp, hpj⟩ := hold
  refine ⟨p, hp, ?_⟩
  have hne : a ≠ p := by
    rintro rfl
    rw [hj.isLive_of_rankOf hpj] at hdead
    cases hdead
  rw [rankOf_setProof hj.size ha, if_neg hne, hpj]

theorem ProofStep.rankTight (ht : RankTight program c) : RankTight program c' := by
  cases h with
  | @seed a hseed hdead =>
    refine ht.setProof hj (hv.members ▸ GroundedSeedSet.lt_of_contains hseed) hdead ?_
    intro r j hw
    cases hw
  | @rule r hen hbody hdead =>
    have hlt := hv.rule_head_lt hen
    refine ht.setProof hj hlt hdead ?_
    intro r' j hw hk
    cases hw
    rcases ruleRank_cases c (program.rule r) with ⟨hzero, _⟩ | ⟨p, hp, m, hm, hrank, _⟩
    · omega
    · rw [hrank, saturatingSucc_of_room hr hj.size hlt hdead hm] at hk
      exact ⟨p, hp, by rw [hm, succ_injective hk]⟩

end

/-! ## Many steps -/

section
variable (hv : program.Valid) (h : ProofSteps program c c')
include hv h

theorem ProofSteps.size (hs : c.HasSize program.atomCount) : c'.HasSize program.atomCount := by
  induction h with
  | refl => exact hs
  | tail _ hstep ih => exact hstep.size hv ih

theorem ProofSteps.isLive (hs : c.HasSize program.atomCount) (hb : c.isLive b = true) :
    c'.isLive b = true := by
  induction h with
  | refl => exact hb
  | tail hsteps hstep ih => exact hstep.isLive hv (size hv hsteps hs) ih

theorem ProofSteps.justified
    (hj : Justified program c) (hr : RankRoom c) : Justified program c' ∧ RankRoom c' := by
  induction h with
  | refl => exact ⟨hj, hr⟩
  | tail _ hstep ih => exact hstep.justified hv ih.1 ih.2

theorem ProofSteps.rankTight
    (hj : Justified program c) (hr : RankRoom c) (ht : RankTight program c) :
    RankTight program c' := by
  induction h with
  | refl => exact ht
  | tail hsteps hstep ih =>
    have hmid := justified hv hsteps hj hr
    exact hstep.rankTight hv hmid.1 hmid.2 ih

end

/-! ## Tight ranks are small -/

section
variable (ht : RankTight program c) (hj : Justified program c)
include ht hj

theorem RankTight.exists_rankOf (ha : c.rankOf a = some m) (hk : k ≤ m) :
    ∃ b, c.rankOf b = some k := by
  induction m generalizing a with
  | zero => exact ⟨a, by rw [ha, le_zero.mp hk]⟩
  | succ m ih =>
    obtain hlt | rfl := lt_or_eq_of_le hk
    · obtain ⟨rank, w, hrank, hw, hg⟩ := hj.live a (hj.isLive_of_rankOf ha)
      rw [ha, Option.some.injEq] at hrank
      subst hrank
      cases w with
      | seed => exact absurd hg.2 (succ_ne_zero m)
      | rule r =>
        obtain ⟨b, _, hb⟩ := ht a r m hw ha
        exact ih hb (le_of_lt_succ hlt)
    · exact ⟨a, ha⟩

omit ht hj in
theorem card_live (c : GroundedCertificate) :
    ((Finset.range c.live.length).filter fun a => c.isLive a = true).card = c.live.count true := by
  have hmap : (range c.live.length).map c.isLive = c.live := by
    apply ext_getElem
    · simp
    · intro i h₁ h₂
      simp [isLive, getElem?_eq_getElem h₂]
  have hcount : c.live.count true = (range c.live.length).countP c.isLive := by
    conv_lhs => rw [← hmap]
    rw [List.count, countP_map]
    congr 1
    funext a
    simp
  rw [hcount, countP_eq_length_filter]
  simp [Finset.card_def, Multiset.range]

theorem RankTight.rank_lt (ha : c.rankOf a = some m) : m < c.live.count true := by
  have hex : ∀ k : ℕ, ∃ b, k ≤ m → c.rankOf b = some k := by
    intro k
    by_cases hk : k ≤ m
    · obtain ⟨b, hb⟩ := ht.exists_rankOf hj ha hk
      exact ⟨b, fun _ => hb⟩
    · exact ⟨0, fun h => absurd h hk⟩
  choose f hf using hex
  have hle : (Finset.range (m + 1)).card ≤
      ((Finset.range c.live.length).filter fun a => c.isLive a = true).card := by
    apply Finset.card_le_card_of_injOn f
    · intro k hk
      have hfk := hf k (le_of_lt_succ (Finset.mem_range.mp hk))
      have hlive := hj.isLive_of_rankOf hfk
      exact Finset.mem_filter.mpr ⟨Finset.mem_range.mpr (lt_length_of_getD_true hlive), hlive⟩
    · intro k hk j hj' heq
      have hfk := hf k (le_of_lt_succ (Finset.mem_range.mp hk))
      have hfj := hf j (le_of_lt_succ (Finset.mem_range.mp hj'))
      rw [heq, hfj] at hfk
      exact (Option.some.inj hfk).symm
  rw [card_live, Finset.card_range] at hle
  exact hle

theorem RankTight.rankRoom (hn : program.atomCount ≤ usizeMax) : RankRoom c := by
  have hsum : c.live.count true + c.live.count false = program.atomCount := by
    rw [← hj.size.live, add_comm, count_false_add_count_true]
  refine ⟨by omega, fun a k hk => ?_⟩
  have hlt := ht.rank_lt hj hk
  omega

end

/-! ## Steps that queue the new atom -/

structure QueueOk (c : GroundedCertificate) (queue : List GroundedAtomId) : Prop where
  nodup : queue.Nodup
  live : ∀ a ∈ queue, c.isLive a = true

/-- Nothing happens, or a proof step whose new atom is pushed on the queue. -/
def Advance (program : GroundedProgram) (c : GroundedCertificate) (queue : List GroundedAtomId)
    (c' : GroundedCertificate) (queue' : List GroundedAtomId) : Prop :=
  (c' = c ∧ queue' = queue) ∨ ProofStep program c c' ∧ ∃ a k w, a < program.atomCount ∧
    c.isLive a = false ∧ c' = c.setProof a k w ∧ queue' = queue ++ [a]

/-- The certificate was reached by proof steps, the queue is sound, and dead atoms
and queued atoms together number `m`. -/
structure Front (program : GroundedProgram) (c₀ : GroundedCertificate) (m : ℕ)
    (c : GroundedCertificate) (queue : List GroundedAtomId) : Prop where
  valid : program.Valid
  start : c₀.HasSize program.atomCount
  steps : ProofSteps program c₀ c
  queueOk : QueueOk c queue
  measure : c.live.count false + queue.length = m

variable {queue queue' : List GroundedAtomId} {c₀ : GroundedCertificate} {m : ℕ}

theorem Front.size (h : Front program c₀ m c queue) : c.HasSize program.atomCount :=
  ProofSteps.size h.valid h.steps h.start

theorem Front.pop (h : Front program c₀ m c (a :: queue)) :
    Front program c₀ (m - 1) c queue ∧ a ∉ queue ∧ c.isLive a = true ∧ 0 < m := by
  obtain ⟨hnotin, hnd⟩ := nodup_cons.mp h.queueOk.nodup
  have hmeasure := h.measure
  rw [length_cons] at hmeasure
  refine ⟨⟨h.valid, h.start, h.steps, ⟨hnd, fun b hb => ?_⟩, by omega⟩, hnotin,
    h.queueOk.live a mem_cons_self, by omega⟩
  exact h.queueOk.live b (mem_cons_of_mem _ hb)

theorem advance_seed (hv : program.Valid) (hseed : program.seeds.contains a = true)
    (hdead : c.isLive a = false) :
    Advance program c queue (c.setProof a 0 .seed) (queue ++ [a]) :=
  .inr ⟨.seed hseed hdead, a, 0, .seed, hv.members ▸ GroundedSeedSet.lt_of_contains hseed, hdead,
    rfl, rfl⟩

theorem advance_rule (hv : program.Valid) {r : GroundedRuleId}
    (hen : (program.rule r).enabled = true)
    (hbody : ∀ b ∈ (program.rule r).body, c.isLive b = true)
    (hdead : c.isLive (program.rule r).head = false) :
    Advance program c queue
      (c.setProof (program.rule r).head (c.ruleRank (program.rule r)) (.rule r))
      (queue ++ [(program.rule r).head]) :=
  .inr ⟨.rule hen hbody hdead, _, _, _, hv.rule_head_lt hen, hdead, rfl, rfl⟩

theorem Front.advance (h : Front program c₀ m c queue)
    (hadv : Advance program c queue c' queue') : Front program c₀ m c' queue' := by
  obtain ⟨rfl, rfl⟩ | ⟨hstep, a, k, w, ha, hdead, rfl, rfl⟩ := hadv
  · exact h
  have hfresh : a ∉ queue := by
    intro hmem
    rw [h.queueOk.live a hmem] at hdead
    cases hdead
  refine ⟨h.valid, h.start, h.steps.tail hstep, ⟨?_, fun b hb => ?_⟩, ?_⟩
  · exact h.queueOk.nodup.append (nodup_singleton a) (by simpa using hfresh)
  · rw [isLive_setProof h.size ha]
    rcases mem_append.mp hb with hb | hb
    · rw [h.queueOk.live b hb, ite_self]
    · rw [if_pos (mem_singleton.mp hb).symm]
  · -- a dead atom is traded for a queued one
    have hcount := count_false_setProof h.size ha hdead k w
    have hmeasure := h.measure
    rw [length_append, length_singleton]
    omega

section
variable (hadv : Advance program c queue c' queue')
include hadv

theorem Advance.settled (hs : c.HasSize program.atomCount) (b : GroundedAtomId) :
    (c'.isLive b = true ∧ b ∉ queue') ↔ (c.isLive b = true ∧ b ∉ queue) := by
  obtain ⟨rfl, rfl⟩ | ⟨hstep, a, k, w, ha, hdead, rfl, rfl⟩ := hadv
  · rfl
  rw [isLive_setProof hs ha]
  by_cases hab : a = b
  · subst hab
    simp [hdead]
  · simp [hab, Ne.symm hab]

theorem Advance.isLive (hv : program.Valid)
    (hs : c.HasSize program.atomCount) (hb : c.isLive b = true) :
    c'.isLive b = true := by
  obtain ⟨rfl, rfl⟩ | ⟨hstep, _⟩ := hadv
  · exact hb
  · exact hstep.isLive hv hs hb

theorem Advance.queue_subset : queue ⊆ queue' := by
  obtain ⟨rfl, rfl⟩ | ⟨_, a, k, w, _, _, rfl, rfl⟩ := hadv
  · exact List.Subset.refl _
  · exact subset_append_left _ _

theorem Advance.mem_queue (hs : c.HasSize program.atomCount) (hb : c'.isLive b = true) :
    c.isLive b = true ∨ b ∈ queue' := by
  by_contra hnot
  rw [not_or] at hnot
  exact hnot.1 ((hadv.settled hs b).mp ⟨hb, hnot.2⟩).1

end

theorem Front.justified (h : Front program c₀ m c queue) (hj : Justified program c₀)
    (hr : RankRoom c₀) : Justified program c ∧ RankRoom c :=
  ProofSteps.justified h.valid h.steps hj hr

end Cfmd.Grounded
