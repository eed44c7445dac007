import Cfmd.Grounded.Repair

/-! Reconciliation of a certificate with a structurally changed program. Matched
rules carry their witnesses over, the cone of the dropped ones is repaired, and
new seeds and unmatched rules drive the forward closure. -/

namespace Cfmd.Grounded
open Lib Std List GroundedProgram

variable {old new : GroundedProgram} {m : RuleCorrespondence}

/-! ## Matched rules are equal -/

structure Correlates (old new : GroundedProgram) (m : RuleCorrespondence) : Prop where
  length : m.matchedNew.length = new.rules.length
  carried : ∀ i j, m.oldToNew[i]?.getD none = some j → new.rule j = old.rule i
  matched : ∀ j, m.matchedNew[j]?.getD false = true → ∃ i, old.rule i = new.rule j

theorem Correlates.set (h : Correlates old new m) {i j : ℕ}
    (heq : new.rule j = old.rule i) :
    Correlates old new ⟨m.oldToNew.set i (some j), m.matchedNew.set j true⟩ := by
  refine ⟨?_, fun i' j' hget => ?_, fun j' hget => ?_⟩
  · rw [length_set, h.length]
  · rw [getD_set] at hget
    split_ifs at hget with hslot
    · obtain ⟨rfl, _⟩ := hslot
      cases hget
      exact heq
    · exact h.carried i' j' hget
  · rw [getD_set] at hget
    split_ifs at hget with hslot
    · obtain ⟨rfl, _⟩ := hslot
      exact ⟨i, heq.symm⟩
    · exact h.matched j' hget

theorem correlates_start (old new : GroundedProgram) :
    Correlates old new ⟨replicate old.rules.length none, replicate new.rules.length false⟩ := by
  refine ⟨length_replicate, fun i j hget => ?_, fun j hget => ?_⟩
  · rw [getD_replicate_self] at hget
    cases hget
  · rw [getD_replicate_self] at hget
    cases hget

theorem Correlates.matchSlot (h : Correlates old new m) (id : ℕ) :
    Correlates old new (matchSlot old new m id) := by
  unfold Grounded.matchSlot
  split_ifs with heq
  · exact h.set heq.symm
  · exact h

def QueuesMatch (new : GroundedProgram) (queues : NewByRule) : Prop :=
  ∀ rule, ∀ id ∈ queues rule, new.rule id = rule

theorem Correlates.matchResidual {acc : RuleCorrespondence × NewByRule}
    (h : Correlates old new acc.1) (hq : QueuesMatch new acc.2) (id : ℕ) :
    Correlates old new (matchResidual old acc id).1 ∧
      QueuesMatch new (matchResidual old acc id).2 := by
  unfold Grounded.matchResidual
  split_ifs
  · exact ⟨h, hq⟩
  split
  · exact ⟨h, hq⟩
  next newId queue hqueue =>
  have hmem : ∀ id' ∈ newId :: queue, new.rule id' = old.rule id := by
    intro id' hid'
    rw [← hqueue] at hid'
    exact hq _ id' hid'
  refine ⟨h.set (hmem newId mem_cons_self), fun rule id' hid' => ?_⟩
  change id' ∈ Function.update acc.2 (old.rule id) queue rule at hid'
  by_cases hrule : rule = old.rule id
  · subst hrule
    rw [Function.update_self] at hid'
    exact hmem id' (mem_cons_of_mem _ hid')
  · rw [Function.update_of_ne hrule] at hid'
    exact hq rule id' hid'

theorem correlates_correlateRules (old new : GroundedProgram) :
    Correlates old new (correlateRules old new) := by
  have hslots : Correlates old new
      ((range (min old.rules.length new.rules.length)).foldl (matchSlot old new)
        ⟨replicate old.rules.length none, replicate new.rules.length false⟩) :=
    foldl_inv _ (fun m id _ hm => hm.matchSlot id) (correlates_start old new)
  refine (foldl_inv (I := fun acc : RuleCorrespondence × NewByRule =>
    Correlates old new acc.1 ∧ QueuesMatch new acc.2) _
    (fun acc id _ hacc => hacc.1.matchResidual hacc.2 id) ⟨hslots, ?_⟩).1
  intro rule id hid
  simp only [mem_filter, Bool.and_eq_true, decide_eq_true_eq] at hid
  exact hid.2.2

/-! ## The remapped certificate -/

def carriedWitness (new : GroundedProgram) (m : RuleCorrespondence) (atom : GroundedAtomId) :
    GroundedWitness → Option GroundedWitness
  | .seed => if new.seeds.contains atom then some .seed else none
  | .rule id => (m.oldToNew[id]?.getD none).map .rule

/-- The state of the remapping loop: visited live atoms have their carried witness, or none and
are invalidated; the others are as they were. -/
structure RemapInv (new : GroundedProgram) (m : RuleCorrespondence) (cert : GroundedCertificate)
    (acc : GroundedCertificate × ExtTreeSet GroundedAtomId) (rest : List GroundedAtomId) :
    Prop where
  nodup : rest.Nodup
  live : ∀ a, acc.1.isLive a = cert.isLive a
  rank : ∀ a, acc.1.rankOf a = cert.rankOf a
  size : acc.1.HasSize new.atomCount
  visited : ∀ a w, a ∉ rest → cert.isLive a = true → cert.witnessOf a = some w →
    acc.1.witnessOf a = carriedWitness new m a w ∧ (a ∉ acc.2 → (carriedWitness new m a w).isSome)
  waiting : ∀ a, a ∈ rest ∨ cert.isLive a = false → acc.1.witnessOf a = cert.witnessOf a

variable {m : RuleCorrespondence} {cert : GroundedCertificate}
  {acc : GroundedCertificate × ExtTreeSet GroundedAtomId} {a : ℕ} {rest : List ℕ}
  {direct : ExtTreeSet GroundedAtomId}

theorem RemapInv.write {w : GroundedWitness} (h : RemapInv new m cert acc (a :: rest))
    (hlive : cert.isLive a = true) (hw : cert.witnessOf a = some w)
    (hkeep : ∀ b ∈ acc.2, b ∈ direct) (hdrop : a ∉ direct → (carriedWitness new m a w).isSome) :
    RemapInv new m cert
      ({ acc.1 with witness := acc.1.witness.set a (carriedWitness new m a w) }, direct) rest := by
  have hlt : a < acc.1.witness.length := by
    rw [h.size.witness]
    exact h.size.lt_of_isLive ((h.live a).trans hlive)
  have hget : ∀ b, (acc.1.witness.set a (carriedWitness new m a w))[b]?.getD none =
      if a = b then carriedWitness new m a w else acc.1.witnessOf b := by
    intro b
    simp only [getD_set, hlt, and_true, GroundedCertificate.witnessOf]
  obtain ⟨hnot, hnodup⟩ := nodup_cons.mp h.nodup
  refine ⟨hnodup, h.live, h.rank, ⟨h.size.live, h.size.rank, ?_⟩, fun b w' hb hl hw' => ?_,
    fun b hb => ?_⟩
  · rw [length_set, h.size.witness]
  · rw [GroundedCertificate.witnessOf, hget]
    split_ifs with hab
    · subst hab
      rw [hw] at hw'
      cases hw'
      exact ⟨rfl, hdrop⟩
    · have hrest : b ∉ a :: rest := by simp [Ne.symm hab, hb]
      obtain ⟨hwb, hmem⟩ := h.visited b w' hrest hl hw'
      exact ⟨hwb, fun hd => hmem fun hacc => hd (hkeep b hacc)⟩
  · have hab : a ≠ b := by
      rintro rfl
      rcases hb with hb | hb
      · exact hnot hb
      · rw [hlive] at hb
        cases hb
    rw [GroundedCertificate.witnessOf, hget, if_neg hab]
    exact h.waiting b (hb.imp (mem_cons_of_mem _) id)

theorem RemapInv.skip (h : RemapInv new m cert acc (a :: rest))
    (hsame : ∀ w, cert.isLive a = true → cert.witnessOf a = some w →
      carriedWitness new m a w = some w) : RemapInv new m cert acc rest := by
  refine ⟨(nodup_cons.mp h.nodup).2, h.live, h.rank, h.size, fun b w hb hl hw => ?_,
    fun b hb => h.waiting b (hb.imp (mem_cons_of_mem _) id)⟩
  by_cases hab : b = a
  · subst hab
    rw [h.waiting b (.inl mem_cons_self), hw, hsame w hl hw]
    exact ⟨rfl, fun _ => rfl⟩
  · exact h.visited b w (by simp [hab, hb]) hl hw

theorem RemapInv.remapAtom (hj : Justified old cert) (h : RemapInv new m cert acc (a :: rest)) :
    ∃ acc', remapAtom new m cert acc a = .ok acc' ∧ RemapInv new m cert acc' rest := by
  unfold Grounded.remapAtom
  cases hlive : cert.isLive a with
  | false =>
    refine ⟨acc, rfl, h.skip fun w hl => ?_⟩
    rw [hlive] at hl
    cases hl
  | true =>
    obtain ⟨rank, w, _, hw, _⟩ := hj.live a hlive
    have hkeep : ∀ b ∈ acc.2, b ∈ acc.2.insert a := fun b hb => by simp [hb]
    have hmem : a ∈ acc.2.insert a := by simp
    simp only [Bool.not_true, Bool.false_eq_true, if_false, hw]
    cases w with
    | seed =>
      cases hseed : new.seeds.contains a with
      | true =>
        refine ⟨acc, rfl, h.skip fun w _ hw' => ?_⟩
        rw [hw] at hw'
        cases hw'
        simp [carriedWitness, hseed]
      | false =>
        have hwrite := h.write hlive hw hkeep fun hnot => absurd hmem hnot
        rw [carriedWitness, hseed] at hwrite
        exact ⟨_, rfl, hwrite⟩
    | rule id =>
      cases hid : m.oldToNew[id]?.getD none with
      | none =>
        have hwrite := h.write hlive hw hkeep fun hnot => absurd hmem hnot
        rw [carriedWitness, hid] at hwrite
        simp only [hid]
        exact ⟨_, rfl, hwrite⟩
      | some newId =>
        have hsome : a ∉ acc.2 → (carriedWitness new m a (.rule id)).isSome := fun _ => by
          simp [carriedWitness, hid]
        have hwrite := h.write hlive hw (fun b hb => hb) hsome
        rw [carriedWitness, hid] at hwrite
        simp only [hid]
        exact ⟨_, rfl, hwrite⟩

/-- The remapped certificate is ready for a repair of the dropped atoms, and has the live atoms
and ranks of the old one. -/
theorem remapCertificate_spec (hj : Justified old cert) (hnew : new.Valid)
    (hle : old.atomCount ≤ new.atomCount) :
    ∃ remapped, remapCertificate old new cert = .ok remapped ∧
      (∀ a, remapped.1.isLive a = cert.isLive a) ∧
      (∀ a, remapped.1.rankOf a = cert.rankOf a) ∧
      RepairPre new remapped.1 (.compile new remapped.1) remapped.2 := by
  have hstart : RemapInv new (correlateRules old new) cert (cert.resizeAtoms new.atomCount, ∅)
      (range old.atomCount) := by
    have hget := hj.size.resizeAtoms hle
    refine ⟨nodup_range, fun a => (hget a).1, fun a => (hget a).2.1,
      GroundedCertificate.hasSize_resizeAtoms _ _, fun a w ha hl => ?_, fun a _ => (hget a).2.2⟩
    exact absurd (mem_range.mpr (hj.size.lt_of_isLive hl)) ha
  obtain ⟨remapped, hok, hinv⟩ := foldlM_rest
    (I := fun acc rest => RemapInv new (correlateRules old new) cert acc rest)
    (fun acc a rest hacc => hacc.remapAtom hj) (range old.atomCount) hstart
  have hdead : ∀ a, remapped.1.isLive a = false →
      remapped.1.rankOf a = none ∧ remapped.1.witnessOf a = none := by
    intro a ha
    rw [hinv.live] at ha
    rw [hinv.rank, hinv.waiting a (.inr ha)]
    exact hj.dead a ha
  refine ⟨remapped, hok, hinv.live, hinv.rank, hinv.size,
    witnessIndexed_compile hnew fun a ha => (hdead a ha).2, fun a ha hnot => ?_, hdead⟩
  rw [hinv.live] at ha
  obtain ⟨rank, w, hrank, hw, hg⟩ := hj.live a ha
  obtain ⟨hwit, hsome⟩ := hinv.visited a w not_mem_nil ha hw
  obtain ⟨w', hw'⟩ := Option.isSome_iff_exists.mp (hsome hnot)
  refine ⟨rank, w', (hinv.rank a).trans hrank, hwit.trans hw', ?_⟩
  cases w with
  | seed =>
    simp only [carriedWitness] at hw'
    split_ifs at hw' with hseed
    cases hw'
    exact ⟨hseed, hg.2⟩
  | rule id =>
    simp only [carriedWitness, Option.map_eq_some_iff] at hw'
    obtain ⟨newId, hid, rfl⟩ := hw'
    have heq := (correlates_correlateRules old new).carried id newId hid
    simp only [Grounds, heq, hinv.live, hinv.rank]
    exact hg

/-! ## The reconciled certificate -/

def reconcileSafe (old new : GroundedProgram) (cert : GroundedCertificate) : Bool :=
  match remapCertificate old new cert with
  | .ok remapped => repairSafe new (.compile new) remapped.1 (.compile new remapped.1) remapped.2
  | .error _ => true

theorem rankOf_keptByRepair {windex : GroundedWitnessIndex}
    (hpre : RepairPre new cert windex direct) {k : ℕ}
    (h : (keptByRepair cert windex direct).rankOf a = some k) : cert.rankOf a = some k := by
  unfold keptByRepair at h
  split_ifs at h
  · exact h
  · rw [((hpre.withoutCone_get (isCone_collect cert windex direct default)).2 a).2.1] at h
    split_ifs at h
    exact h

theorem mem_unmatchedRules (hc : Closed old cert) {remapped : GroundedCertificate}
    (hlive : ∀ a, remapped.isLive a = cert.isLive a) {r : ℕ} (hf : Fireable new remapped r) :
    r ∈ unmatchedRules old new := by
  have hunmatched : (correlateRules old new).matchedNew[r]?.getD false = false := by
    by_contra hmatched
    obtain ⟨i, hi⟩ := (correlates_correlateRules old new).matched r (by simpa using hmatched)
    obtain ⟨hen, hbody, hdead⟩ := hf
    rw [← hi] at hen hbody hdead
    simp only [hlive] at hbody hdead
    rw [hc.rules i hen hbody] at hdead
    cases hdead
  have hlt := lt_of_enabled hf.1
  simp [unmatchedRules, hf.1, hunmatched, hlt]

theorem reconcileRemapped_spec (hv : new.Valid) (hn : new.atomCount ≤ usizeMax)
    (hc : Closed old cert) (hrank : ∀ a k, cert.rankOf a = some k → k + new.atomCount ≤ usizeMax)
    {remapped : GroundedCertificate × ExtTreeSet GroundedAtomId}
    (hlive : ∀ a, remapped.1.isLive a = cert.isLive a)
    (hranks : ∀ a, remapped.1.rankOf a = cert.rankOf a)
    (hpre : RepairPre new remapped.1 (.compile new remapped.1) remapped.2)
    (hsafe : repairSafe new (.compile new) remapped.1 (.compile new remapped.1) remapped.2 = true) :
    Justified new (reconcileRemapped old new remapped).cert ∧
      Closed new (reconcileRemapped old new remapped).cert := by
  have hi := (GroundedIncidenceIndex.indexes_compile hv).indexedBy
  have hkept := justified_keptByRepair hpre
  have hdead : (keptByRepair remapped.1 (.compile new remapped.1) remapped.2).live.count false ≤
      new.atomCount := hkept.size.live ▸ count_le_length
  have hroom : RankRoom (keptByRepair remapped.1 (.compile new remapped.1) remapped.2) := by
    refine ⟨hdead.trans hn, fun a k hk => ?_⟩
    have hbound := hrank a k ((hranks a).symm.trans (rankOf_keptByRepair hpre hk))
    omega
  obtain ⟨hsteps, hindexed, hseeds, hfire⟩ := repairAfterDeletion_spec hv hi hpre hroom hsafe
  obtain ⟨hj, hroom⟩ := ProofSteps.justified hv hsteps hkept hroom
  have hready : ∀ a, new.seeds.contains a = true →
      (repairAfterDeletion new (.compile new) remapped.1 (.compile new remapped.1)
        remapped.2).cert.isLive a = true ∨ a ∈ new.seeds.difference old.seeds := by
    intro a ha
    cases hseed : old.seeds.contains a with
    | true => exact .inl (hseeds a ha ((hlive a).trans (hc.seeds a hseed)))
    | false => exact .inr (GroundedSeedSet.mem_difference.mpr ⟨ha, hseed⟩)
  obtain ⟨hsteps', _, hclosed⟩ := incrementalInsertions_spec hv hi hj hroom hindexed
    (fun a ha => (GroundedSeedSet.mem_difference.mp ha).1) hready
    fun r hf => mem_unmatchedRules hc hlive (hfire r hf)
  exact ⟨(ProofSteps.justified hv hsteps' hj hroom).1, hclosed⟩

/-- Reconciliation yields the certificate of the new least fixpoint, if the repair of the dropped
witnesses counts every rule right and ranks leave room below `usize::MAX`. -/
theorem reconcile_ok_of_safe {m n : ℕ} {seeds seeds' : List GroundedAtomId}
    {rules rules' : List GroundedRule} (hold : GroundedProgram.new m seeds rules = .ok old)
    (hnew : GroundedProgram.new n seeds' rules' = .ok new) (hle : m ≤ n) (hn : n ≤ usizeMax)
    (hcheck : check old cert = .ok ())
    (hrank : ∀ a k, cert.rankOf a = some k → k + n ≤ usizeMax)
    (hsafe : reconcileSafe old new cert = true) :
    ∃ cert' stats, reconcileStructuralChange old new cert = .ok (cert', stats) ∧
      check new cert' = .ok () ∧ ∀ a, cert'.isLive a = true ↔ new.LeastFixpoint a := by
  obtain ⟨hvold, rfl⟩ := new_valid hold
  obtain ⟨hv, rfl⟩ := new_valid hnew
  obtain ⟨hj, hc⟩ := check_eq_ok.mp hcheck
  obtain ⟨remapped, hremap, hlive, hranks, hpre⟩ := remapCertificate_spec hj hv hle
  rw [reconcileSafe, hremap] at hsafe
  obtain ⟨hj', hc'⟩ := reconcileRemapped_spec hv hn hc hrank hlive hranks hpre hsafe
  have haccept := check_eq_ok.mpr ⟨hj', hc'⟩
  refine ⟨_, (reconcileRemapped old new remapped).stats, ?_, haccept,
    isLive_iff_leastFixpoint hj' hc'⟩
  unfold reconcileStructuralChange
  simp only [if_neg (Nat.not_lt.mpr hle), bind_eq_ok]
  exact ⟨(), hvold.validate, (), hv.validate, (), hcheck, remapped, hremap, (), haccept, rfl⟩

/-- Two rules change places and a seed disappears. -/
theorem reconcile_ok_reordered : ∃ old new cert,
    GroundedProgram.new 3 [0, 1] [.new [0] 1, .new [1] 2] = .ok old ∧
    GroundedProgram.new 3 [0] [.new [1] 2, .new [0] 1] = .ok new ∧ check old cert = .ok () ∧
    ∃ cert' stats, reconcileStructuralChange old new cert = .ok (cert', stats) ∧
      check new cert' = .ok () ∧ ∀ a, cert'.isLive a = true ↔ new.LeastFixpoint a := by
  let cert : GroundedCertificate :=
    ⟨[true, true, true], [some 0, some 0, some 1], [some .seed, some .seed, some (.rule 1)]⟩
  have hold : GroundedProgram.new 3 [0, 1] [.new [0] 1, .new [1] 2] =
      .ok ⟨3, ⟨[true, true, false], 2⟩, [.new [0] 1, .new [1] 2]⟩ := by rfl
  have hnew : GroundedProgram.new 3 [0] [.new [1] 2, .new [0] 1] =
      .ok ⟨3, ⟨[true, false, false], 1⟩, [.new [1] 2, .new [0] 1]⟩ := by rfl
  have hcheck : check ⟨3, ⟨[true, true, false], 2⟩, [.new [0] 1, .new [1] 2]⟩ cert = .ok () := by
    rfl
  have hrank : ∀ a k, cert.rankOf a = some k → k + 3 ≤ usizeMax := by
    intro a k hk
    have hle : k ≤ 1 := by
      rcases a with _ | _ | _ | a <;> simp [cert, GroundedCertificate.rankOf] at hk <;> omega
    exact (Nat.add_le_add_right hle 3).trans (by decide)
  exact ⟨_, _, cert, hold, hnew, hcheck, reconcile_ok_of_safe hold hnew (by decide) (by decide)
    hcheck hrank (by decide +kernel)⟩

/-- Both seeds go. The rule for `2` is counted against `1` only and fires when the re-derived `0`
is visited; the final check rejects the certificate. -/
theorem reconcile_rejects_removed_seeds :
    GroundedProgram.new 3 [0, 1] [.new [] 0, .new [0, 1] 2] =
      .ok ⟨3, ⟨[true, true, false], 2⟩, [.new [] 0, .new [0, 1] 2]⟩ ∧
    GroundedProgram.new 3 [] [.new [] 0, .new [0, 1] 2] =
      .ok ⟨3, ⟨[false, false, false], 0⟩, [.new [] 0, .new [0, 1] 2]⟩ ∧
    check ⟨3, ⟨[true, true, false], 2⟩, [.new [] 0, .new [0, 1] 2]⟩
      ⟨[true, true, true], [some 0, some 0, some 1], [some .seed, some .seed, some (.rule 1)]⟩ =
        .ok () ∧
    reconcileStructuralChange ⟨3, ⟨[true, true, false], 2⟩, [.new [] 0, .new [0, 1] 2]⟩
      ⟨3, ⟨[false, false, false], 0⟩, [.new [] 0, .new [0, 1] 2]⟩
      ⟨[true, true, true], [some 0, some 0, some 1], [some .seed, some .seed, some (.rule 1)]⟩ =
        .error (.witnessPremiseDead 2 1) := by
  refine ⟨by decide +kernel, by decide +kernel, by decide +kernel, by decide +kernel⟩

end Cfmd.Grounded
