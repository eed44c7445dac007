import Cfmd.Grounded.Repair

/-! How programs change under maintenance: a deletion takes sources away and
records the atoms whose witness was one of them, an insertion adds sources, a
patch appends atoms and disabled rules. -/

namespace Cfmd.Grounded
open Lib Std List

/-- The second program has the sources of the first and maybe more, over the same rules. -/
structure Extends (p q : GroundedProgram) : Prop where
  atomCount : q.atomCount = p.atomCount
  members : q.seeds.members.length = p.seeds.members.length
  length : q.rules.length = p.rules.length
  head : ∀ r, (q.rule r).head = (p.rule r).head
  body : ∀ r, (q.rule r).body = (p.rule r).body
  seeds : ∀ a, p.seeds.contains a = true → q.seeds.contains a = true
  enabled : ∀ r, (p.rule r).enabled = true → (q.rule r).enabled = true

namespace Extends
variable {p q : GroundedProgram} {c : GroundedCertificate} {w : GroundedWitnessIndex}

theorem refl (p : GroundedProgram) : Extends p p :=
  ⟨rfl, rfl, rfl, fun _ => rfl, fun _ => rfl, fun _ h => h, fun _ h => h⟩

theorem trans {r : GroundedProgram} (h : Extends p q) (h' : Extends q r) : Extends p r :=
  ⟨h'.atomCount.trans h.atomCount, h'.members.trans h.members, h'.length.trans h.length,
    fun id => (h'.head id).trans (h.head id), fun id => (h'.body id).trans (h.body id),
    fun a ha => h'.seeds a (h.seeds a ha), fun id hid => h'.enabled id (h.enabled id hid)⟩

section
variable (h : Extends p q)
include h

theorem valid_iff : q.Valid ↔ p.Valid := by
  have hmem : ∀ (x y : GroundedProgram), y.rules.length = x.rules.length →
      (∀ r, (y.rule r).head = (x.rule r).head) → (∀ r, (y.rule r).body = (x.rule r).body) →
      ∀ rule ∈ y.rules, ∃ rule' ∈ x.rules, rule.head = rule'.head ∧ rule.body = rule'.body := by
    intro x y hlen hhead hbody rule hrule
    obtain ⟨r, hr, rfl⟩ := GroundedProgram.mem_rules_iff.mp hrule
    exact ⟨x.rule r, GroundedProgram.rule_mem (hlen ▸ hr), hhead r, hbody r⟩
  constructor
  · intro hv
    refine ⟨h.members ▸ hv.members.trans h.atomCount, fun rule hrule => ?_, fun rule hrule b hb => ?_⟩
    · obtain ⟨rule', hrule', hhead, _⟩ := hmem q p h.length.symm (fun r => (h.head r).symm)
        (fun r => (h.body r).symm) rule hrule
      rw [hhead, ← h.atomCount]
      exact hv.head rule' hrule'
    · obtain ⟨rule', hrule', _, hbody⟩ := hmem q p h.length.symm (fun r => (h.head r).symm)
        (fun r => (h.body r).symm) rule hrule
      rw [← h.atomCount]
      exact hv.body rule' hrule' b (hbody ▸ hb)
  · intro hv
    refine ⟨by rw [h.members, h.atomCount, hv.members], fun rule hrule => ?_,
      fun rule hrule b hb => ?_⟩
    · obtain ⟨rule', hrule', hhead, _⟩ := hmem p q h.length h.head h.body rule hrule
      rw [hhead, h.atomCount]
      exact hv.head rule' hrule'
    · obtain ⟨rule', hrule', _, hbody⟩ := hmem p q h.length h.head h.body rule hrule
      rw [h.atomCount]
      exact hv.body rule' hrule' b (hbody ▸ hb)

theorem selectedPremises_eq (a : GroundedAtomId) :
    selectedPremises q c a = selectedPremises p c a := by
  unfold selectedPremises
  split
  · exact h.body _
  · rfl

theorem witnessIndexed_iff : WitnessIndexed q c w ↔ WitnessIndexed p c w := by
  constructor
  · exact fun hw => ⟨hw.length.trans h.atomCount,
      fun b a => (hw.mem b a).trans (by rw [h.selectedPremises_eq])⟩
  · exact fun hw => ⟨hw.length.trans h.atomCount.symm,
      fun b a => (hw.mem b a).trans (by rw [h.selectedPremises_eq])⟩

theorem rankTight_iff : RankTight q c ↔ RankTight p c := by
  simp only [RankTight, h.body]

theorem fireable {r : ℕ} (hf : Fireable p c r) : Fireable q c r := by
  refine ⟨h.enabled r hf.1, ?_, ?_⟩
  · rw [h.body]
    exact hf.2.1
  · rw [h.head]
    exact hf.2.2

theorem grounds {a k : ℕ} {wit : GroundedWitness} (hg : Grounds p c a k wit) :
    Grounds q c a k wit := by
  cases wit with
  | seed => exact ⟨h.seeds a hg.1, hg.2⟩
  | rule r =>
    refine ⟨h.enabled r hg.1, (h.head r).trans hg.2.1, ?_⟩
    rw [h.body]
    exact hg.2.2

theorem justified (hj : Justified p c) : Justified q c := by
  refine ⟨h.atomCount ▸ hj.size, fun a ha => ?_, hj.dead⟩
  obtain ⟨rank, wit, hrank, hwit, hg⟩ := hj.live a ha
  exact ⟨rank, wit, hrank, hwit, h.grounds hg⟩

theorem indexes_iff {index : GroundedIncidenceIndex} :
    index.Indexes q.atomCount q.rules ↔ index.Indexes p.atomCount p.rules := by
  have hget : ∀ (x : GroundedRule → Prop), (∀ r, x (q.rule r) ↔ x (p.rule r)) → ∀ r : ℕ,
      (∃ rule, q.rules[r]? = some rule ∧ x rule) ↔ ∃ rule, p.rules[r]? = some rule ∧ x rule := by
    intro x hx r
    have hxr := hx r
    simp only [GroundedProgram.rule] at hxr
    by_cases hr : r < p.rules.length
    · have hr' : r < q.rules.length := h.length ▸ hr
      simp only [List.getElem?_eq_getElem hr, List.getElem?_eq_getElem hr', Option.getD_some,
        Option.some.injEq, exists_eq_left'] at hxr ⊢
      exact hxr
    · have hr' : ¬ r < q.rules.length := h.length ▸ hr
      simp [hr, hr']
  have hbody := fun a r : ℕ =>
    hget (fun rule => a ∈ rule.body) (fun r => by rw [h.body]) r
  have hhead := fun a r : ℕ =>
    hget (fun rule => rule.head = a) (fun r => by rw [h.head]) r
  rw [h.atomCount]
  constructor
  · exact fun hi => ⟨hi.length_dependents, hi.length_byHead,
      fun a r => (hi.mem_dependents a r).trans (hbody a r),
      fun a r => (hi.mem_byHead a r).trans (hhead a r), hi.nodup_dependents, hi.nodup_byHead⟩
  · exact fun hi => ⟨hi.length_dependents, hi.length_byHead,
      fun a r => (hi.mem_dependents a r).trans (hbody a r).symm,
      fun a r => (hi.mem_byHead a r).trans (hhead a r).symm, hi.nodup_dependents,
      hi.nodup_byHead⟩

end

end Extends

theorem GroundedProgram.rule_setEnabled (p : GroundedProgram) (id r : ℕ) (enabled : Bool) :
    (p.setEnabled id enabled).rule r =
      if id = r ∧ id < p.rules.length then { p.rule r with enabled } else p.rule r :=
  getD_modify p.rules id r _ default

/-! ## Deletion of sources -/

/-- Sources of `p₀` are gone, and every live atom whose witness was one of them is recorded. -/
structure Reduces (p₀ : GroundedProgram) (cert : GroundedCertificate)
    (acc : GroundedProgram × ExtTreeSet GroundedAtomId) : Prop where
  below : Extends acc.1 p₀
  seed : ∀ a, cert.isLive a = true → cert.witnessOf a = some .seed →
    p₀.seeds.contains a = true → acc.1.seeds.contains a = true ∨ a ∈ acc.2
  rule : ∀ a r, cert.isLive a = true → cert.witnessOf a = some (.rule r) →
    (p₀.rule r).enabled = true → (p₀.rule r).head = a → (acc.1.rule r).enabled = true ∨ a ∈ acc.2

variable {p₀ p : GroundedProgram} {cert : GroundedCertificate}
  {acc : GroundedProgram × ExtTreeSet GroundedAtomId}

section
variable (p : GroundedProgram)

theorem extends_remove (seed : ℕ) : Extends { p with seeds := p.seeds.remove seed } p :=
  ⟨rfl, (GroundedSeedSet.length_remove _ _).symm, rfl, fun _ => rfl, fun _ => rfl,
    fun _ ha => ((GroundedSeedSet.contains_remove _ _ _).mp ha).2, fun _ h => h⟩

theorem extends_disable (id : ℕ) : Extends (p.setEnabled id false) p := by
  refine ⟨rfl, rfl, (length_modify _ _ _).symm, fun r => ?_, fun r => ?_, fun _ h => h,
    fun r hr => ?_⟩
  · rw [p.rule_setEnabled]
    split <;> rfl
  · rw [p.rule_setEnabled]
    split <;> rfl
  · rw [p.rule_setEnabled] at hr
    split_ifs at hr with hid
    exact hr

theorem extends_enable (id : ℕ) : Extends p (p.setEnabled id true) := by
  refine ⟨rfl, rfl, length_modify _ _ _, fun r => ?_, fun r => ?_, fun _ h => h, fun r hr => ?_⟩
  · rw [p.rule_setEnabled]
    split <;> rfl
  · rw [p.rule_setEnabled]
    split <;> rfl
  · rw [p.rule_setEnabled]
    split_ifs with hid
    · rfl
    · exact hr

end

theorem Reduces.removeSeed (h : Reduces p₀ cert acc) (seed : ℕ) :
    Reduces p₀ cert (removeSeed cert acc seed) := by
  have hmono : ∀ a, a ∈ acc.2 → a ∈ (Grounded.removeSeed cert acc seed).2 := by
    intro a ha
    unfold Grounded.removeSeed
    split_ifs
    · simp [ha]
    · exact ha
  refine ⟨(extends_remove acc.1 seed).trans h.below, fun a hl hw hs => ?_,
    fun a r hl hw hen hh => (h.rule a r hl hw hen hh).imp id (hmono a)⟩
  by_cases ha : seed = a
  · subst ha
    right
    unfold Grounded.removeSeed
    simp [hl, hw]
  · exact (h.seed a hl hw hs).imp
      (fun hc => (GroundedSeedSet.contains_remove _ _ _).mpr ⟨ha, hc⟩) (hmono a)

theorem Reduces.disableRule (h : Reduces p₀ cert acc) (id : ℕ) :
    Reduces p₀ cert (disableRule cert acc id) := by
  have hmono : ∀ a, a ∈ acc.2 → a ∈ (Grounded.disableRule cert acc id).2 := by
    intro a ha
    unfold Grounded.disableRule
    simp only []
    split_ifs
    · simp [ha]
    · exact ha
  refine ⟨(extends_disable acc.1 id).trans h.below,
    fun a hl hw hs => (h.seed a hl hw hs).imp (fun hc => hc) (hmono a),
    fun a r hl hw hen hh => ?_⟩
  rcases h.rule a r hl hw hen hh with hr | hr
  · by_cases hid : id = r
    · subst hid
      right
      have hhead : (acc.1.rule id).head = a := (h.below.head id).symm.trans hh
      unfold Grounded.disableRule
      simp [hr, hhead, hl, hw]
    · left
      show ((acc.1.setEnabled id false).rule r).enabled = true
      rw [GroundedProgram.rule_setEnabled, if_neg fun hc => hid hc.1]
      exact hr
  · exact .inr (hmono a hr)

theorem reduces_invalidate (p : GroundedProgram) (cert : GroundedCertificate)
    (update : GroundedUpdate) :
    Reduces p cert (invalidateUpdateSources p cert update) := by
  refine foldl_inv _ (fun acc id _ h => h.disableRule id) ?_
  refine foldl_inv _ (fun acc seed _ h => h.removeSeed seed) ?_
  exact ⟨.refl p, fun _ _ _ hs => .inl hs, fun _ _ _ _ hen _ => .inl hen⟩

theorem Reduces.repairPre {w : GroundedWitnessIndex} (h : Reduces p₀ cert acc)
    (hj : Justified p₀ cert) (hw : WitnessIndexed p₀ cert w) :
    RepairPre acc.1 cert w acc.2 := by
  refine ⟨h.below.atomCount ▸ hj.size, h.below.witnessIndexed_iff.mp hw, fun a ha hout => ?_,
    hj.dead⟩
  obtain ⟨rank, wit, hrank, hwit, hg⟩ := hj.live a ha
  refine ⟨rank, wit, hrank, hwit, ?_⟩
  cases wit with
  | seed => exact ⟨(h.seed a ha hwit hg.1).resolve_right hout, hg.2⟩
  | rule r =>
    refine ⟨(h.rule a r ha hwit hg.1 hg.2.1).resolve_right hout,
      (h.below.head r).symm.trans hg.2.1, ?_⟩
    rw [← h.below.body]
    exact hg.2.2

/-! ## Addition of sources -/

theorem contains_foldl_insert (seeds : List ℕ) {set : GroundedSeedSet}
    (hlt : ∀ a ∈ seeds, a < set.members.length) :
    (seeds.foldl .insert set).members.length = set.members.length ∧
    ∀ b, (seeds.foldl .insert set).contains b = true ↔ b ∈ seeds ∨ set.contains b = true := by
  induction seeds generalizing set with
  | nil => exact ⟨rfl, fun b => by simp⟩
  | cons a seeds ih =>
    have ha := hlt a mem_cons_self
    have hlen := GroundedSeedSet.length_insert ha
    have hrest : ∀ b ∈ seeds, b < (set.insert a).members.length :=
      fun b hb => hlen.symm ▸ hlt b (mem_cons_of_mem _ hb)
    obtain ⟨hlen', hmem⟩ := ih hrest
    refine ⟨hlen'.trans hlen, fun b => ?_⟩
    rw [foldl_cons, hmem, GroundedSeedSet.contains_insert ha, mem_cons]
    tauto

theorem foldl_enable (ids : List ℕ) (p : GroundedProgram) :
    let q := ids.foldl (fun p id => p.setEnabled id true) p
    Extends p q ∧ q.seeds = p.seeds ∧
    (∀ r, (q.rule r).enabled = true → r ∈ ids ∨ (p.rule r).enabled = true) ∧
    ∀ r, r ∈ ids → r < p.rules.length → (q.rule r).enabled = true := by
  induction ids generalizing p with
  | nil => exact ⟨.refl p, rfl, fun r hr => .inr hr, fun r hr => absurd hr not_mem_nil⟩
  | cons id ids ih =>
    obtain ⟨hext, hseeds, hen, hin⟩ := ih (p.setEnabled id true)
    have hstep := extends_enable p id
    refine ⟨hstep.trans hext, hseeds, fun r hr => ?_, fun r hr hlt => ?_⟩
    · rcases hen r hr with hr' | hr'
      · exact .inl (mem_cons_of_mem _ hr')
      rw [p.rule_setEnabled] at hr'
      split_ifs at hr' with hid
      · exact .inl (hid.1 ▸ mem_cons_self)
      · exact .inr hr'
    · rcases mem_cons.mp hr with rfl | hr
      · refine hext.enabled r ?_
        rw [p.rule_setEnabled, if_pos ⟨rfl, hlt⟩]
      · exact hin r hr (hstep.length ▸ hlt)

theorem addSources_spec (p : GroundedProgram) (update : GroundedUpdate)
    (hseeds : ∀ a ∈ update.addSeeds, a < p.seeds.members.length) :
    Extends p (p.addSources update) ∧
    (∀ a, (p.addSources update).seeds.contains a = true ↔
      a ∈ update.addSeeds ∨ p.seeds.contains a = true) ∧
    ∀ r, ((p.addSources update).rule r).enabled = true →
      r ∈ update.enableRules ∨ (p.rule r).enabled = true := by
  obtain ⟨hlen, hmem⟩ := contains_foldl_insert update.addSeeds hseeds
  have hseeded : Extends p { p with seeds := update.addSeeds.foldl .insert p.seeds } :=
    ⟨rfl, hlen, rfl, fun _ => rfl, fun _ => rfl, fun a ha => (hmem a).mpr (.inr ha), fun _ h => h⟩
  obtain ⟨hext, hseeds', hen, _⟩ := foldl_enable update.enableRules
    { p with seeds := update.addSeeds.foldl .insert p.seeds }
  refine ⟨hseeded.trans hext, fun a => ?_, hen⟩
  rw [← hmem]
  exact Eq.congr (congrArg (GroundedSeedSet.contains · a) hseeds') rfl

end Cfmd.Grounded
