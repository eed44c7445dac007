import Cfmd.Grounded.Maintenance

/-! The forward closure after an insertion. A rule whose premises are live and
whose head is dead is waiting: it is still to be visited, or one of its premises
is on the queue. When the queue runs empty no rule waits, so the set is closed. -/

namespace Cfmd.Grounded
open Lib List

variable {program : GroundedProgram} {index : GroundedIncidenceIndex}
  {c₀ : GroundedCertificate} {m : ℕ} {s s' : Maintained} {r a : ℕ} {seedRest ruleRest : List ℕ}

def Fireable (program : GroundedProgram) (c : GroundedCertificate) (r : GroundedRuleId) : Prop :=
  (program.rule r).enabled = true ∧ (∀ b ∈ (program.rule r).body, c.isLive b = true) ∧
    c.isLive (program.rule r).head = false

structure InsertInv (program : GroundedProgram) (c₀ : GroundedCertificate) (m : ℕ)
    (seedRest : List GroundedAtomId) (ruleRest : List GroundedRuleId) (s : Maintained) :
    Prop where
  base : Justified program c₀ ∧ RankRoom c₀
  front : Front program c₀ m s.cert s.queue
  indexed : WitnessIndexed program s.cert s.windex
  seeds : ∀ a, program.seeds.contains a = true → s.cert.isLive a = true ∨ a ∈ seedRest
  waiting : ∀ r, Fireable program s.cert r →
    (∃ b ∈ (program.rule r).body, b ∈ s.queue) ∨ r ∈ ruleRest

theorem Maintained.deriveFromRule_spec (hv : program.Valid) (hj : Justified program s.cert)
    (hw : WitnessIndexed program s.cert s.windex) (hf : Fireable program s.cert r) :
    Advance program s.cert s.queue (s.deriveFromRule program r).cert
      (s.deriveFromRule program r).queue ∧
    WitnessIndexed program (s.deriveFromRule program r).cert (s.deriveFromRule program r).windex ∧
    (s.deriveFromRule program r).cert.isLive (program.rule r).head = true := by
  obtain ⟨hen, hbody, hdead⟩ := hf
  have hlt := hv.rule_head_lt hen
  unfold deriveFromRule
  simp only [hdead, Bool.false_eq_true, if_false]
  refine ⟨advance_rule hv hen hbody hdead, hw.install hv hj hlt hdead _ _, ?_⟩
  rw [GroundedCertificate.isLive_setProof hj.size hlt, if_pos rfl]

theorem Advance.fireable {c c' : GroundedCertificate} {queue queue' : List ℕ}
    (hadv : Advance program c queue c' queue') (hv : program.Valid)
    (hs : c.HasSize program.atomCount) (hf : Fireable program c' r) :
    Fireable program c r ∨ ∃ b ∈ (program.rule r).body, b ∈ queue' := by
  obtain ⟨hen, hbody, hdead⟩ := hf
  by_cases hall : ∀ b ∈ (program.rule r).body, c.isLive b = true
  · refine .inl ⟨hen, hall, ?_⟩
    by_contra hlive
    rw [hadv.isLive hv hs (by simpa using hlive)] at hdead
    cases hdead
  · simp only [not_forall] at hall
    obtain ⟨b, hb, hbdead⟩ := hall
    exact .inr ⟨b, hb, (hadv.mem_queue hs (hbody b hb)).resolve_left hbdead⟩

theorem InsertInv.advance (h : InsertInv program c₀ m seedRest ruleRest s)
    (hadv : Advance program s.cert s.queue s'.cert s'.queue)
    (hw : WitnessIndexed program s'.cert s'.windex) :
    InsertInv program c₀ m seedRest ruleRest s' := by
  refine ⟨h.base, h.front.advance hadv, hw, fun a ha => ?_, fun r hf => ?_⟩
  · exact (h.seeds a ha).imp (fun hl => hadv.isLive h.front.valid h.front.size hl) id
  · rcases hadv.fireable h.front.valid h.front.size hf with hold | hnew
    · refine (h.waiting r hold).imp (fun ⟨b, hb, hq⟩ => ⟨b, hb, ?_⟩) id
      exact hadv.queue_subset hq
    · exact .inl hnew

theorem InsertInv.setStats (h : InsertInv program c₀ m seedRest ruleRest s)
    (stats : GroundedWorkStats) :
    InsertInv program c₀ m seedRest ruleRest { s with stats } :=
  ⟨h.base, h.front, h.indexed, h.seeds, h.waiting⟩

section
variable (h : InsertInv program c₀ m seedRest (r :: ruleRest) s)
include h

theorem InsertInv.drop
    (hr : ¬ Fireable program s.cert r) : InsertInv program c₀ m seedRest ruleRest s := by
  refine ⟨h.base, h.front, h.indexed, h.seeds, fun r' hf => ?_⟩
  refine (h.waiting r' hf).imp id fun hmem => ?_
  exact (mem_cons.mp hmem).resolve_left fun heq => hr (heq ▸ hf)

theorem InsertInv.derive (hf : Fireable program s.cert r) :
    InsertInv program c₀ m seedRest ruleRest (s.deriveFromRule program r) := by
  obtain ⟨hj, _⟩ := h.front.justified h.base.1 h.base.2
  obtain ⟨hadv, hw, hhead⟩ := Maintained.deriveFromRule_spec h.front.valid hj h.indexed hf
  refine (h.advance hadv hw).drop fun hf' => ?_
  have hdead := hf'.2.2
  rw [hhead] at hdead
  cases hdead

end

theorem fireable_iff {c : GroundedCertificate} : Fireable program c r ↔
    (!(program.rule r).enabled || c.isLive (program.rule r).head) = false ∧
      (program.rule r).body.all c.isLive = true := by
  simp only [Fireable, Bool.or_eq_false_iff, Bool.not_eq_false', all_eq_true]
  tauto

section
variable (h : InsertInv program c₀ m seedRest (r :: ruleRest) s)
include h

theorem InsertInv.insertRule :
    InsertInv program c₀ m seedRest ruleRest (s.insertRule program r) := by
  unfold Maintained.insertRule
  simp only []
  split_ifs with hskip hbody
  · exact h.drop fun hf => by rw [(fireable_iff.mp hf).1] at hskip; cases hskip
  · exact (h.setStats _).derive (fireable_iff.mpr ⟨by simpa using hskip, hbody⟩)
  · exact h.drop fun hf => hbody (fireable_iff.mp hf).2

theorem InsertInv.insertIncidence :
    InsertInv program c₀ m seedRest ruleRest (s.insertIncidence program r) := by
  unfold Maintained.insertIncidence
  simp only []
  split_ifs with hskip hbody
  · exact h.drop fun hf => by rw [(fireable_iff.mp hf).1] at hskip; cases hskip
  · exact (h.setStats _).derive (fireable_iff.mpr ⟨by simpa using hskip, hbody⟩)
  · exact (h.setStats _).drop fun hf => hbody (fireable_iff.mp hf).2

end

theorem InsertInv.insertSeed (h : InsertInv program c₀ m (a :: seedRest) ruleRest s)
    (ha : program.seeds.contains a = true) :
    InsertInv program c₀ m seedRest ruleRest (s.insertSeed a) := by
  have hdrop : ∀ s' : Maintained, InsertInv program c₀ m (a :: seedRest) ruleRest s' →
      s'.cert.isLive a = true → InsertInv program c₀ m seedRest ruleRest s' := by
    intro s' h' hlive
    refine ⟨h'.base, h'.front, h'.indexed, fun b hb => ?_, h'.waiting⟩
    rcases h'.seeds b hb with hb' | hb'
    · exact .inl hb'
    · rcases mem_cons.mp hb' with rfl | hb'
      · exact .inl hlive
      · exact .inr hb'
  have hlt : a < program.atomCount := h.front.valid.members ▸ GroundedSeedSet.lt_of_contains ha
  obtain ⟨hj, _⟩ := h.front.justified h.base.1 h.base.2
  unfold Maintained.insertSeed
  split_ifs with hlive
  · exact hdrop s h hlive
  have hdead : s.cert.isLive a = false := by simpa using hlive
  refine hdrop _ (h.advance (advance_seed h.front.valid ha hdead)
    (h.indexed.setSeed hj hlt hdead)) ?_
  rw [GroundedCertificate.isLive_setProof hj.size hlt, if_pos rfl]

/-! ## The queue -/

theorem Maintained.pop_eq_none (h : s.pop = none) : s.queue = [] := by
  unfold pop at h
  split at h
  · assumption
  · cases h

theorem InsertInv.visit (hi : IndexedBy program index) (h : InsertInv program c₀ m [] [] s)
    (hpop : s.pop = some (a, s')) :
    InsertInv program c₀ (m - 1) [] []
      ((index.dependentsOf a).foldl (Maintained.insertIncidence program) s') ∧ 0 < m := by
  obtain ⟨cert, windex, _ | ⟨a, queue⟩, stats⟩ := s
  · cases hpop
  cases hpop
  obtain ⟨hfront, _, _, hpos⟩ := h.front.pop
  refine ⟨?_, hpos⟩
  refine foldl_rest (I := fun s rest => InsertInv program c₀ (m - 1) [] rest s)
    (fun s r rest hs => hs.insertIncidence) (index.dependentsOf a)
    ⟨h.base, hfront, h.indexed, h.seeds, fun r hf => ?_⟩
  obtain ⟨b, hb, hbq⟩ := (h.waiting r hf).resolve_right not_mem_nil
  rcases mem_cons.mp hbq with rfl | hbq
  · exact .inr ((hi.mem_dependents b r).mpr ⟨GroundedProgram.lt_of_enabled hf.1, hb⟩)
  · exact .inl ⟨b, hb, hbq⟩

theorem incrementalInsertions_spec (hv : program.Valid) (hi : IndexedBy program index)
    {addSeeds enableRules : List ℕ} (hj : Justified program s.cert) (hr : RankRoom s.cert)
    (hw : WitnessIndexed program s.cert s.windex)
    (hadd : ∀ a ∈ addSeeds, program.seeds.contains a = true)
    (hseeds : ∀ a, program.seeds.contains a = true → s.cert.isLive a = true ∨ a ∈ addSeeds)
    (hrules : ∀ r, Fireable program s.cert r → r ∈ enableRules) :
    let final := incrementalInsertions program index s addSeeds enableRules
    ProofSteps program s.cert final.cert ∧ WitnessIndexed program final.cert final.windex ∧
    Closed program final.cert := by
  have hstart : InsertInv program s.cert (s.cert.live.count false) addSeeds enableRules
      { s with queue := [] } :=
    ⟨⟨hj, hr⟩, ⟨hv, hj.size, .refl, ⟨nodup_nil, by simp⟩, by simp⟩, hw, hseeds,
      fun r hf => .inr (hrules r hf)⟩
  have hseeded := foldl_rest
    (I := fun s' rest => InsertInv program s.cert (s.cert.live.count false) rest enableRules s' ∧
      ∀ a ∈ rest, program.seeds.contains a = true)
    (fun s' a rest hs => ⟨hs.1.insertSeed (hs.2 a mem_cons_self),
      fun b hb => hs.2 b (mem_cons_of_mem _ hb)⟩) addSeeds ⟨hstart, hadd⟩
  have hruled := foldl_rest
    (I := fun s' rest => InsertInv program s.cert (s.cert.live.count false) [] rest s')
    (fun s' r rest hs => hs.insertRule) enableRules hseeded.1
  have hcount : s.cert.live.count false ≤ program.atomCount := hj.size.live ▸ count_le_length
  obtain ⟨⟨k, hfinal⟩, hnone⟩ := drain_countdown (J := fun k => InsertInv program s.cert k [] [])
    (fun _ _ _ _ hs hpop => hs.visit hi hpop) program.atomCount hruled hcount
  have hdone := Maintained.pop_eq_none hnone
  refine ⟨hfinal.front.steps, hfinal.indexed,
    fun a ha => (hfinal.seeds a ha).resolve_right not_mem_nil, fun r hen hbody => ?_⟩
  by_contra hdead
  obtain ⟨b, _, hb⟩ := (hfinal.waiting r ⟨hen, hbody, eq_false_of_ne_true hdead⟩).resolve_right
    not_mem_nil
  rw [hdone] at hb
  exact absurd hb not_mem_nil

end Cfmd.Grounded
