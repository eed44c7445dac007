import Cfmd.Grounded.Insertion

/-! The cone of a deletion: the atoms whose selected proof rests on a removed
source. Without it, what is left of the certificate is justified. -/

namespace Cfmd.Grounded
open Lib Std List

variable {program : GroundedProgram} {cert : GroundedCertificate}
  {windex : GroundedWitnessIndex} {direct : ExtTreeSet GroundedAtomId}

def outside (cert : GroundedCertificate) (affected : ExtTreeSet GroundedAtomId) : ℕ :=
  (List.range cert.live.length).countP fun a => cert.isLive a && decide (a ∉ affected)

/-- Children of processed atoms are in the cone, up to those of `current` still to come. -/
structure ConeInv (cert : GroundedCertificate) (windex : GroundedWitnessIndex)
    (direct : ExtTreeSet GroundedAtomId) (m : ℕ) (directRest : List GroundedAtomId)
    (current : GroundedAtomId) (rest : List GroundedAtomId) (s : ConeState) : Prop where
  live : ∀ a ∈ s.affected, cert.isLive a = true
  direct : ∀ a ∈ direct, cert.isLive a = true → a ∈ s.affected ∨ a ∈ directRest
  closed : ∀ x ∈ s.affected, x ∉ s.queue → ∀ child ∈ windex.childrenOf x,
    cert.isLive child = true → child ∈ s.affected ∨ (x = current ∧ child ∈ rest)
  measure : outside cert s.affected + s.queue.length = m

variable {m current : ℕ} {directRest rest : List ℕ} {s : ConeState} {a : ℕ}

theorem outside_insert {affected : ExtTreeSet ℕ} (ha : cert.isLive a = true) (hnot : a ∉ affected) :
    outside cert (affected.insert a) + 1 = outside cert affected := by
  refine countP_close nodup_range (mem_range.mpr (lt_length_of_getD_true ha)) ?_ ?_ ?_
  · simp [ha, hnot]
  · simp
  · intro b _ hb
    simp [Ne.symm hb]

theorem ConeInv.enter (h : ConeInv cert windex direct m directRest current rest s) (a : ℕ) :
    ConeInv cert windex direct m directRest current rest (s.enter cert a) ∧
      (cert.isLive a = true → a ∈ (s.enter cert a).affected) := by
  unfold ConeState.enter
  split_ifs with hcond
  · obtain ⟨hlive, hnot⟩ := hcond
    refine ⟨⟨fun b hb => ?_, fun b hb hl => ?_, fun x hx hq child hchild hl => ?_, ?_⟩, ?_⟩
    · rcases ExtTreeSet.mem_insert.mp hb with hb | hb
      · rwa [← LawfulEqCmp.eq_of_compare hb]
      · exact h.live b hb
    · exact (h.direct b hb hl).imp (fun hb => by simp [hb]) id
    · have hxa : x ≠ a := by
        rintro rfl
        simp at hq
      have hx' : x ∈ s.affected := by simpa [Ne.symm hxa] using hx
      have hq' : x ∉ s.queue := fun hmem => hq (mem_append_left _ hmem)
      exact (h.closed x hx' hq' child hchild hl).imp (fun hc => by simp [hc]) id
    · have hout := outside_insert hlive hnot
      have hm := h.measure
      simp only [length_append, length_singleton]
      omega
    · intro _
      simp
  · refine ⟨h, fun hlive => ?_⟩
    by_contra hnot
    exact hcond ⟨hlive, hnot⟩

theorem ConeInv.walk {child : ℕ}
    (h : ConeInv cert windex direct m directRest current (child :: rest) s) :
    ConeInv cert windex direct m directRest current rest (s.walk cert child) := by
  have hstats : ConeInv cert windex direct m directRest current (child :: rest)
      { s with stats := s.stats.dependencyWalk } := ⟨h.live, h.direct, h.closed, h.measure⟩
  obtain ⟨henter, hmem⟩ := hstats.enter child
  refine ⟨henter.live, henter.direct, fun x hx hq y hy hl => ?_, henter.measure⟩
  rcases henter.closed x hx hq y hy hl with hin | ⟨hcur, hin⟩
  · exact .inl hin
  · rcases mem_cons.mp hin with rfl | hin
    · exact .inl (hmem hl)
    · exact .inr ⟨hcur, hin⟩

theorem ConeInv.visit {s' : ConeState} (h : ConeInv cert windex direct m [] current [] s)
    (hpop : s.pop = some (a, s')) :
    ConeInv cert windex direct (m - 1) [] a []
      ((windex.childrenOf a).toList.foldl (ConeState.walk cert) s') ∧ 0 < m := by
  unfold ConeState.pop at hpop
  split at hpop
  · cases hpop
  next atom queue hq =>
  cases hpop
  have hm := h.measure
  rw [hq, length_cons] at hm
  refine ⟨?_, by omega⟩
  refine foldl_rest (I := fun s rest => ConeInv cert windex direct (m - 1) [] a rest s)
    (fun s child rest hs => hs.walk) _ ⟨h.live, h.direct, fun x hx hxq y hy hl => ?_, ?_⟩
  · by_cases hxa : x = a
    · exact .inr ⟨hxa, ExtTreeSet.mem_toList.mpr (hxa ▸ hy)⟩
    · refine .inl ((h.closed x hx ?_ y hy hl).resolve_right fun hc => not_mem_nil hc.2)
      rw [hq]
      simpa [hxa] using hxq
  · show outside cert s.affected + queue.length = m - 1
    omega

theorem cone_spec (cert : GroundedCertificate) (windex : GroundedWitnessIndex)
    (direct : ExtTreeSet GroundedAtomId) (stats : GroundedWorkStats) :
    let affected := (collectSparseWitnessCone cert windex direct stats).1
    (∀ a ∈ affected, cert.isLive a = true) ∧
    (∀ a ∈ direct, cert.isLive a = true → a ∈ affected) ∧
    ∀ x ∈ affected, ∀ child ∈ windex.childrenOf x, cert.isLive child = true → child ∈ affected := by
  have hinit : ConeInv cert windex direct (outside cert ∅) direct.toList 0 [] ⟨∅, [], stats⟩ :=
    ⟨by simp, fun a ha _ => .inr (ExtTreeSet.mem_toList.mpr ha), by simp, by simp⟩
  have hstart := foldl_rest
    (I := fun s rest => ConeInv cert windex direct (outside cert ∅) rest 0 [] s)
    (f := ConeState.enter cert) ?_ direct.toList hinit
  · have hstep : ∀ s a s', (∃ m current, ConeInv cert windex direct m [] current [] s) →
        s.pop = some (a, s') → ∃ m current, ConeInv cert windex direct m [] current []
          ((windex.childrenOf a).toList.foldl (ConeState.walk cert) s') := by
      rintro s a s' ⟨m, current, hs⟩ hpop
      exact ⟨_, _, (hs.visit hpop).1⟩
    have hfinal := drain_inv hstep cert.live.length ⟨_, _, hstart⟩
    have hdone := drain_done hstep (fun s => outside cert s.affected + s.queue.length) ?_
      cert.live.length ⟨_, _, hstart⟩ ?_
    · obtain ⟨m, current, hfinal⟩ := hfinal
      have hqueue : ∀ s : ConeState, s.pop = none → s.queue = [] := by
        intro s hs
        unfold ConeState.pop at hs
        split at hs
        · assumption
        · cases hs
      refine ⟨hfinal.live, fun a ha hl => (hfinal.direct a ha hl).resolve_right not_mem_nil,
        fun x hx child hchild hl => ?_⟩
      refine (hfinal.closed x hx ?_ child hchild hl).resolve_right fun hc => not_mem_nil hc.2
      rw [hqueue _ hdone]
      exact not_mem_nil
    · rintro s a s' ⟨m, current, hs⟩ hpop
      obtain ⟨hs', hpos⟩ := hs.visit hpop
      have hbefore := hs.measure
      have hafter := hs'.measure
      omega
    · rw [hstart.measure]
      exact (countP_le_length).trans (by simp)
  · intro s a rest hs
    obtain ⟨henter, hmem⟩ := hs.enter a
    refine ⟨henter.live, fun b hb hl => ?_, henter.closed, henter.measure⟩
    rcases henter.direct b hb hl with hin | hin
    · exact .inl hin
    · rcases mem_cons.mp hin with rfl | hin
      · exact .inl (hmem hl)
      · exact .inr hin

/-! ## The certificate without its cone -/

/-- What a repair starts from: only the invalidated atoms may have lost their grounds. -/
structure RepairPre (program : GroundedProgram) (cert : GroundedCertificate)
    (windex : GroundedWitnessIndex) (direct : ExtTreeSet GroundedAtomId) : Prop where
  size : cert.HasSize program.atomCount
  indexed : WitnessIndexed program cert windex
  grounded : ∀ a, cert.isLive a = true → a ∉ direct → ∃ rank w, cert.rankOf a = some rank ∧
    cert.witnessOf a = some w ∧ Grounds program cert a rank w
  dead : ∀ a, cert.isLive a = false → cert.rankOf a = none ∧ cert.witnessOf a = none

/-- A set that a repair may clear: live, above the invalidated atoms, closed upwards. -/
structure IsCone (cert : GroundedCertificate) (windex : GroundedWitnessIndex)
    (direct affected : ExtTreeSet GroundedAtomId) : Prop where
  live : ∀ a ∈ affected, cert.isLive a = true
  direct : ∀ a ∈ direct, cert.isLive a = true → a ∈ affected
  closed : ∀ x ∈ affected, ∀ child ∈ windex.childrenOf x, cert.isLive child = true →
    child ∈ affected

theorem isCone_collect (cert : GroundedCertificate) (windex : GroundedWitnessIndex)
    (direct : ExtTreeSet GroundedAtomId) (stats : GroundedWorkStats) :
    IsCone cert windex direct (collectSparseWitnessCone cert windex direct stats).1 := by
  obtain ⟨hlive, hdirect, hclosed⟩ := cone_spec cert windex direct stats
  exact ⟨hlive, hdirect, hclosed⟩

theorem foldl_clearProof {c : GroundedCertificate} {n : ℕ} (hs : c.HasSize n) (atoms : List ℕ)
    (hlt : ∀ a ∈ atoms, a < n) :
    let c' := atoms.foldl (fun c a => c.clearProof a) c
    c'.HasSize n ∧ ∀ b, c'.isLive b = (if b ∈ atoms then false else c.isLive b) ∧
      c'.rankOf b = (if b ∈ atoms then none else c.rankOf b) ∧
      c'.witnessOf b = (if b ∈ atoms then none else c.witnessOf b) := by
  induction atoms generalizing c with
  | nil => exact ⟨hs, fun b => by simp⟩
  | cons a atoms ih =>
    have ha : a < n := hlt a mem_cons_self
    obtain ⟨hsize, hget⟩ := ih (hs.clearProof a) fun b hb => hlt b (mem_cons_of_mem _ hb)
    refine ⟨hsize, fun b => ?_⟩
    obtain ⟨hlive, hrank, hwit⟩ := hget b
    rw [foldl_cons, hlive, hrank, hwit, GroundedCertificate.isLive_clearProof hs ha,
      GroundedCertificate.rankOf_clearProof hs ha, GroundedCertificate.witnessOf_clearProof hs ha]
    by_cases hab : b = a
    · simp [hab]
    · simp [hab, Ne.symm hab]

section Clear
variable {affected : ExtTreeSet GroundedAtomId}

section
variable (h : RepairPre program cert windex direct) (hcone : IsCone cert windex direct affected)
include h hcone

theorem RepairPre.withoutCone_get :
    (withoutCone cert affected).HasSize program.atomCount ∧
    ∀ b, (withoutCone cert affected).isLive b = (if b ∈ affected then false else cert.isLive b) ∧
      (withoutCone cert affected).rankOf b = (if b ∈ affected then none else cert.rankOf b) ∧
      (withoutCone cert affected).witnessOf b =
        (if b ∈ affected then none else cert.witnessOf b) := by
  have hclear := foldl_clearProof h.size affected.toList fun a ha =>
    h.size.lt_of_isLive (hcone.live a (ExtTreeSet.mem_toList.mp ha))
  simpa only [withoutCone, ExtTreeSet.mem_toList] using hclear

theorem RepairPre.premise_outside {p : ℕ} (ha : cert.isLive a = true)
    (hout : a ∉ affected) (hp : p ∈ selectedPremises program cert a) : p ∉ affected := by
  intro hin
  exact hout (hcone.closed p hin a ((h.indexed.mem p a).mpr hp) ha)

theorem RepairPre.justified : Justified program (withoutCone cert affected) := by
  obtain ⟨hsize, hget⟩ := h.withoutCone_get hcone
  refine ⟨hsize, fun a ha => ?_, fun a ha => ?_⟩
  · rw [(hget a).1] at ha
    split_ifs at ha with hin
    obtain ⟨rank, w, hrank, hw, hg⟩ := h.grounded a ha fun hd => hin (hcone.direct a hd ha)
    refine ⟨rank, w, by rw [(hget a).2.1, if_neg hin, hrank],
      by rw [(hget a).2.2, if_neg hin, hw], ?_⟩
    cases w with
    | seed => exact hg
    | rule r =>
      refine ⟨hg.1, hg.2.1, fun b hb => ?_⟩
      have hsel : b ∈ selectedPremises program cert a := by rwa [selectedPremises, hw]
      have hbout := h.premise_outside hcone ha hin hsel
      rw [(hget b).1, (hget b).2.1, if_neg hbout, if_neg hbout]
      exact hg.2.2 b hb
  · rw [(hget a).1] at ha
    rw [(hget a).2.1, (hget a).2.2]
    split_ifs at ha ⊢ with hin
    · exact ⟨rfl, rfl⟩
    · exact h.dead a ha

theorem RepairPre.rankTight (ht : RankTight program cert) :
    RankTight program (withoutCone cert affected) := by
  obtain ⟨hsize, hget⟩ := h.withoutCone_get hcone
  intro a r k hw hrank
  rw [(hget a).2.2] at hw
  rw [(hget a).2.1] at hrank
  split_ifs at hw hrank with hin
  obtain ⟨b, hb, hbk⟩ := ht a r k hw hrank
  have hlive : cert.isLive a = true := by
    by_contra hdead
    rw [(h.dead a (by simpa using hdead)).2] at hw
    cases hw
  have hsel : b ∈ selectedPremises program cert a := by rwa [selectedPremises, hw]
  exact ⟨b, hb, by rw [(hget b).2.1, if_neg (h.premise_outside hcone hlive hin hsel), hbk]⟩

end

section
variable (hv : program.Valid) (h : RepairPre program cert windex direct)
  (hcone : IsCone cert windex direct affected)
include hv h hcone

theorem RepairPre.indexed_withoutCone :
    WitnessIndexed program (withoutCone cert affected)
      (affected.toList.foldl
        (fun windex atom => windex.removeFromCertificate program cert atom) windex) := by
  obtain ⟨_, hget⟩ := h.withoutCone_get hcone
  obtain ⟨hlen, hmem⟩ := mem_childrenOf_foldl_remove (c := cert) hv affected.toList h.indexed.length
  refine ⟨hlen, fun p a => ?_⟩
  rw [hmem, h.indexed.mem, selectedPremises, selectedPremises, (hget a).2.2]
  by_cases hin : a ∈ affected
  · simp [hin]
  · simp [hin]

theorem RepairPre.clearCone_spec (hroom : RankRoom (withoutCone cert affected)) :
    let cleared := clearCone program cert windex affected
    ProofSteps program (withoutCone cert affected) cleared.1 ∧
    WitnessIndexed program cleared.1 cleared.2 ∧
    ∀ a, cleared.1.isLive a = if a ∈ affected then program.seeds.contains a else cert.isLive a := by
  obtain ⟨hsize, hget⟩ := h.withoutCone_get hcone
  have hj := h.justified hcone
  have hfold := foldl_rest
    (I := fun c rest => ProofSteps program (withoutCone cert affected) c ∧
      WitnessIndexed program c (clearCone program cert windex affected).2 ∧ rest.Nodup ∧
      (∀ a ∈ rest, program.seeds.contains a = true) ∧
      ∀ a, c.isLive a = if a ∈ affected then
        decide (program.seeds.contains a = true ∧ a ∉ rest) else cert.isLive a)
    (f := fun c seed => if seed ∈ affected then c.setProof seed 0 .seed else c)
    (s := withoutCone cert affected) ?_ program.seeds.iter
    ⟨.refl, h.indexed_withoutCone hv hcone, program.seeds.iter_nodup,
      fun a ha => GroundedSeedSet.mem_iter.mp ha, fun a => ?_⟩
  · obtain ⟨hsteps, hindexed, _, _, hlive⟩ := hfold
    refine ⟨hsteps, hindexed, fun a => ?_⟩
    exact (hlive a).trans (by simp)
  · rintro c a rest ⟨hsteps, hindexed, hnd, hseed, hlive⟩
    rw [nodup_cons] at hnd
    have ha : program.seeds.contains a = true := hseed a mem_cons_self
    have hlt : a < program.atomCount := hv.members ▸ GroundedSeedSet.lt_of_contains ha
    have hrest : ∀ b ∈ rest, program.seeds.contains b = true :=
      fun b hb => hseed b (mem_cons_of_mem _ hb)
    split_ifs with hin
    · have hdead : c.isLive a = false := by
        rw [hlive a, if_pos hin]
        simp
      obtain ⟨hcj, _⟩ := ProofSteps.justified hv hsteps hj hroom
      refine ⟨hsteps.tail (.seed ha hdead), hindexed.setSeed hcj hlt hdead, hnd.2, hrest,
        fun b => ?_⟩
      rw [GroundedCertificate.isLive_setProof hcj.size hlt, hlive b]
      by_cases hab : a = b
      · subst hab
        simp [hin, ha, hnd.1]
      · simp [hab, Ne.symm hab]
    · refine ⟨hsteps, hindexed, hnd.2, hrest, fun b => ?_⟩
      rw [hlive b]
      by_cases hb : b ∈ affected
      · have hab : b ≠ a := fun heq => hin (heq ▸ hb)
        simp [hab]
      · simp [hb]
  · rw [(hget a).1]
    simp [GroundedSeedSet.mem_iter]

end

end Clear

end Cfmd.Grounded
