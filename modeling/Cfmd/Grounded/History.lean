import Cfmd.Grounded.Update

/-! Histories of a maintained closure. Every update and structural patch that
returns `Ok`, and whose repair the first scan counts right, leaves the
certificate of the least fixpoint; so does every run of such calls. -/

namespace Cfmd.Grounded
open Lib List GroundedProgram

/-- The maintained state is exact: the certificate is that of the program's least fixpoint, and
the two indices are those of the program and the certificate. -/
structure GroundedMaintenance.Exact (m : GroundedMaintenance) : Prop where
  valid : m.program.Valid
  bound : m.program.atomCount ≤ usizeMax
  indexes : m.index.Indexes m.program.atomCount m.program.rules
  justified : Justified m.program m.certificate
  tight : RankTight m.program m.certificate
  closed : Closed m.program m.certificate
  indexed : WitnessIndexed m.program m.certificate m.witnessIndex

def GroundedProgram.dropSources (program : GroundedProgram) (update : GroundedUpdate) :
    GroundedProgram :=
  update.disableRules.foldl (fun program id => program.setEnabled id false)
    (update.removeSeeds.foldl (fun program seed => { program with seeds := program.seeds.remove seed })
      program)

namespace GroundedMaintenance
variable {m m' : GroundedMaintenance} {program : GroundedProgram} {update : GroundedUpdate}

def updateSafe (m : GroundedMaintenance) (update : GroundedUpdate) : Bool :=
  let reduced := invalidateUpdateSources m.program m.certificate update
  repairSafe reduced.1 m.index m.certificate m.witnessIndex reduced.2

theorem exact_solved (hv : program.Valid) (hn : program.atomCount ≤ usizeMax) :
    let index := GroundedIncidenceIndex.compile program
    let certificate := (solveIndexed program index).1
    Exact ⟨program, index, certificate, .compile program certificate⟩ := by
  have hi := GroundedIncidenceIndex.indexes_compile hv
  obtain ⟨hj, ht, hc⟩ := solveIndexed_spec hv hn hi.indexedBy
  exact ⟨hv, hn, hi, hj, ht, hc, witnessIndexed_compile hv fun a ha => (hj.dead a ha).2⟩

theorem new_exact (hv : program.Valid) (hn : program.atomCount ≤ usizeMax)
    (h : new program = .ok m) :
    m.Exact ∧ m.program = program := by
  simp only [new, seq_eq_ok] at h
  cases h.2
  exact ⟨exact_solved hv hn, rfl⟩

theorem validateUpdate_eq_ok (h : validateUpdate program update = .ok ()) :
    (∀ a ∈ update.addSeeds, a < program.atomCount) ∧
      ∀ r ∈ update.enableRules, r < program.rules.length := by
  simp only [validateUpdate, seq_eq_ok, forM_eq_ok, validateAtom_eq_ok,
    validateRule_eq_ok, mem_append] at h
  exact ⟨fun a ha => h.1 a (.inl ha), fun r hr => h.2 r (.inl hr)⟩

theorem program_applyUpdate (m : GroundedMaintenance) (update : GroundedUpdate) :
    (m.applyUpdateMaintainedValidated update).1.program =
      (m.program.dropSources update).addSources update := by
  refine congrArg (addSources · update) ?_
  unfold invalidateUpdateSources dropSources
  exact (foldl_hom Prod.fst fun _ _ => by rfl).symm.trans
    (congrArg (foldl _ · _) (foldl_hom Prod.fst fun _ _ => by rfl).symm)

theorem Exact.applyUpdate (h : m.Exact)
    (hvalid : validateUpdate m.program update = .ok ()) (hsafe : m.updateSafe update = true) :
    (m.applyUpdateMaintainedValidated update).1.Exact := by
  have hred := reduces_invalidate m.program m.certificate update
  have hsafe' : repairSafe (invalidateUpdateSources m.program m.certificate update).1 m.index
    m.certificate m.witnessIndex (invalidateUpdateSources m.program m.certificate update).2 = true :=
      hsafe
  unfold applyUpdateMaintainedValidated
  simp only []
  generalize invalidateUpdateSources m.program m.certificate update = reduced at hred hsafe' ⊢
  -- the deletion: what is left of the certificate grows back to a set closed for `reduced`
  have hv₁ : reduced.1.Valid := hred.below.valid_iff.mp h.valid
  have hn₁ : reduced.1.atomCount ≤ usizeMax := hred.below.atomCount ▸ h.bound
  have hi₁ : m.index.Indexes reduced.1.atomCount reduced.1.rules :=
    hred.below.indexes_iff.mp h.indexes
  have hpre := hred.repairPre h.justified h.indexed
  have hkept := justified_keptByRepair hpre
  have htight := rankTight_keptByRepair hpre (hred.below.rankTight_iff.mp h.tight)
  have hroom := htight.rankRoom hkept hn₁
  obtain ⟨hsteps, hindexed, hseeds, hfire⟩ :=
    repairAfterDeletion_spec hv₁ hi₁.indexedBy hpre hroom hsafe'
  generalize repairAfterDeletion reduced.1 m.index m.certificate m.witnessIndex reduced.2 =
    repaired at hsteps hindexed hseeds hfire ⊢
  have hj₁ := (ProofSteps.justified hv₁ hsteps hkept hroom).1
  have ht₁ := ProofSteps.rankTight hv₁ hsteps hkept hroom htight
  have hclosed : ∀ r, ¬ Fireable reduced.1 repaired.cert r := by
    intro r hf
    obtain ⟨hen, hbody, hdead⟩ := hred.below.fireable (hfire r hf)
    rw [h.closed.rules r hen hbody] at hdead
    cases hdead
  -- the insertion: only the added seeds and rules can still fire
  obtain ⟨hadd, _⟩ := validateUpdate_eq_ok hvalid
  obtain ⟨hext, hseeds₂, hen₂⟩ := addSources_spec reduced.1 update fun a ha => by
    rw [hv₁.members, ← hred.below.atomCount]
    exact hadd a ha
  have hv₂ := hext.valid_iff.mpr hv₁
  have hi₂ := hext.indexes_iff.mpr hi₁
  have hj₂ := hext.justified hj₁
  have ht₂ := hext.rankTight_iff.mpr ht₁
  have hn₂ : (reduced.1.addSources update).atomCount ≤ usizeMax := hext.atomCount ▸ hn₁
  have hroom₂ := ht₂.rankRoom hj₂ hn₂
  have hready : ∀ a, (reduced.1.addSources update).seeds.contains a = true →
      repaired.cert.isLive a = true ∨ a ∈ update.addSeeds := by
    intro a ha
    rcases (hseeds₂ a).mp ha with ha | ha
    · exact .inr ha
    · exact .inl (hseeds a ha (h.closed.seeds a (hred.below.seeds a ha)))
  have hnew : ∀ r, Fireable (reduced.1.addSources update) repaired.cert r →
      r ∈ update.enableRules := by
    intro r hf
    refine (hen₂ r hf.1).resolve_right fun hen => hclosed r ⟨hen, ?_, ?_⟩
    · rw [← hext.body]
      exact hf.2.1
    · rw [← hext.head]
      exact hf.2.2
  obtain ⟨hsteps₂, hindexed₂, hclosed₂⟩ := incrementalInsertions_spec hv₂ hi₂.indexedBy hj₂ hroom₂
    (hext.witnessIndexed_iff.mpr hindexed) (fun a ha => (hseeds₂ a).mpr (.inl ha)) hready hnew
  exact ⟨hv₂, hn₂, hi₂, (ProofSteps.justified hv₂ hsteps₂ hj₂ hroom₂).1,
    ProofSteps.rankTight hv₂ hsteps₂ hj₂ hroom₂ ht₂, hclosed₂, hindexed₂⟩

/-! ## Structural patches -/

structure Grows (p q : GroundedProgram) : Prop where
  le : p.atomCount ≤ q.atomCount
  seeds : ∀ a, q.seeds.contains a = p.seeds.contains a
  rule : ∀ r < p.rules.length, q.rule r = p.rule r
  disabled : ∀ r, ¬ r < p.rules.length → (q.rule r).enabled = false

section Grows
variable {p q : GroundedProgram} {c : GroundedCertificate}

section
variable (h : Grows p q)
include h

theorem Grows.rule_eq {r : ℕ} (hen : (q.rule r).enabled = true) : q.rule r = p.rule r := by
  by_cases hr : r < p.rules.length
  · exact h.rule r hr
  · rw [h.disabled r hr] at hen
    cases hen

section
variable (hj : Justified p c)
include hj

theorem Grows.rule_of_witness {a r : ℕ}
    (hw : c.witnessOf a = some (.rule r)) : q.rule r = p.rule r := by
  have hlive : c.isLive a = true := by
    by_contra hdead
    rw [(hj.dead a (by simpa using hdead)).2] at hw
    cases hw
  obtain ⟨rank, w, _, hw', hg⟩ := hj.live a hlive
  rw [hw, Option.some.injEq] at hw'
  subst hw'
  exact h.rule r (lt_of_enabled hg.1)

theorem Grows.justified : Justified q (c.resizeAtoms q.atomCount) := by
  have hget := hj.size.resizeAtoms h.le
  refine ⟨GroundedCertificate.hasSize_resizeAtoms _ _, fun a ha => ?_, fun a ha => ?_⟩
  · rw [(hget a).1] at ha
    obtain ⟨rank, w, hrank, hw, hg⟩ := hj.live a ha
    refine ⟨rank, w, (hget a).2.1.trans hrank, (hget a).2.2.trans hw, ?_⟩
    cases w with
    | seed => exact ⟨(h.seeds a).trans hg.1, hg.2⟩
    | rule r =>
      have heq := h.rule_of_witness hj hw
      refine ⟨by rw [heq, hg.1], by rw [heq, hg.2.1], fun b hb => ?_⟩
      rw [heq] at hb
      rw [(hget b).1, (hget b).2.1]
      exact hg.2.2 b hb
  · rw [(hget a).1] at ha
    rw [(hget a).2.1, (hget a).2.2]
    exact hj.dead a ha

theorem Grows.rankTight (ht : RankTight p c) : RankTight q (c.resizeAtoms q.atomCount) := by
  have hget := hj.size.resizeAtoms h.le
  intro a r k hw hrank
  rw [(hget a).2.2] at hw
  rw [(hget a).2.1] at hrank
  obtain ⟨b, hb, hbk⟩ := ht a r k hw hrank
  rw [h.rule_of_witness hj hw]
  exact ⟨b, hb, (hget b).2.1.trans hbk⟩

theorem Grows.closed (hc : Closed p c) : Closed q (c.resizeAtoms q.atomCount) := by
  have hget := hj.size.resizeAtoms h.le
  refine ⟨fun a ha => ?_, fun r hen hbody => ?_⟩
  · rw [(hget a).1]
    exact hc.seeds a (by rw [← h.seeds a, ha])
  · have heq := h.rule_eq hen
    rw [(hget _).1, heq]
    rw [heq] at hen hbody
    exact hc.rules r hen fun b hb => by rw [← (hget b).1, hbody b hb]

theorem Grows.witnessIndexed {w : GroundedWitnessIndex}
    (hw : WitnessIndexed p c w) :
    WitnessIndexed q (c.resizeAtoms q.atomCount) (w.resizeAtoms q.atomCount) := by
  refine hw.resizeAtoms h.le rfl fun a => ?_
  have hget := hj.size.resizeAtoms h.le a
  rw [selectedPremises, selectedPremises, hget.2.2]
  rcases hwit : c.witnessOf a with _ | ⟨_ | r⟩
  · rfl
  · rfl
  · exact congrArg GroundedRule.body (h.rule_of_witness hj hwit)

end

end

end Grows

theorem rule_append (rules : List GroundedRule) (rule : GroundedRule) (r : ℕ) :
    (rules ++ [rule])[r]?.getD default =
      if r = rules.length then rule else rules[r]?.getD default := by
  rw [getElem?_append]
  by_cases hlt : r < rules.length
  · simp [hlt, hlt.ne]
  by_cases heq : r = rules.length
  · simp [heq]
  · have hsub : r - rules.length ≠ 0 := by omega
    simp [hlt, heq, hsub]

theorem foldl_appendRule {p : GroundedProgram} (rules : List GroundedRule)
    (acc : GroundedProgram × GroundedIncidenceIndex)
    (hhead : ∀ rule ∈ rules, rule.head < acc.1.atomCount)
    (hbody : ∀ rule ∈ rules, ∀ b ∈ rule.body, b < acc.1.atomCount)
    (hv : acc.1.Valid) (hi : acc.2.Indexes acc.1.atomCount acc.1.rules) (hg : Grows p acc.1)
    (hlen : p.rules.length ≤ acc.1.rules.length) :
    let acc' := rules.foldl appendRule acc
    acc'.1.atomCount = acc.1.atomCount ∧ acc'.1.Valid ∧
    acc'.2.Indexes acc'.1.atomCount acc'.1.rules ∧ Grows p acc'.1 := by
  induction rules generalizing acc with
  | nil => exact ⟨rfl, hv, hi, hg⟩
  | cons rule rules ih =>
    have hrule := hhead rule mem_cons_self
    have hrule' := hbody rule mem_cons_self
    have hget : ∀ r, (appendRule acc rule).1.rule r =
        if r = acc.1.rules.length then { rule with enabled := false } else acc.1.rule r :=
      fun r => rule_append acc.1.rules { rule with enabled := false } r
    refine ih (appendRule acc rule) (fun x hx => hhead x (mem_cons_of_mem _ hx))
      (fun x hx => hbody x (mem_cons_of_mem _ hx)) ⟨hv.members, fun x hx => ?_,
        fun x hx => ?_⟩ ?_ ⟨hg.le, hg.seeds, fun r hr => ?_, fun r hr => ?_⟩ ?_
    · rcases mem_append.mp hx with hx | hx
      · exact hv.head x hx
      · rw [mem_singleton.mp hx]
        exact hrule
    · rcases mem_append.mp hx with hx | hx
      · exact hv.body x hx
      · rw [mem_singleton.mp hx]
        exact hrule'
    · exact @GroundedIncidenceIndex.Indexes.appendRule _ _ _ hi { rule with enabled := false }
        hrule hrule'
    · rw [hget, if_neg (hr.trans_le hlen).ne]
      exact hg.rule r hr
    · rw [hget]
      split_ifs
      · rfl
      · exact hg.disabled r hr
    · exact hlen.trans (by simp [appendRule])

theorem program_extend (m : GroundedMaintenance) (n : ℕ) (rules : List GroundedRule) :
    (m.extend n rules).program = ⟨n, m.program.seeds.resizeAtoms n,
      m.program.rules ++ rules.map fun rule => { rule with enabled := false }⟩ := by
  have hrules : ∀ acc, (rules.foldl appendRule acc).1 = { acc.1 with
      rules := acc.1.rules ++ rules.map fun rule => { rule with enabled := false } } := by
    induction rules with
    | nil => simp
    | cons rule rules ih => simp [ih, appendRule]
  exact hrules _

theorem Exact.extend (h : m.Exact) {n : ℕ} {rules : List GroundedRule}
    (hle : m.program.atomCount ≤ n) (hn : n ≤ usizeMax) (hhead : ∀ rule ∈ rules, rule.head < n)
    (hbody : ∀ rule ∈ rules, ∀ b ∈ rule.body, b < n) : (m.extend n rules).Exact := by
  have hseeds : ∀ a, (m.program.seeds.resizeAtoms n).contains a = m.program.seeds.contains a :=
    GroundedSeedSet.contains_resizeAtoms (h.valid.members ▸ hle)
  have hgrow : Grows m.program
      { m.program with atomCount := n, seeds := m.program.seeds.resizeAtoms n } := by
    refine ⟨hle, hseeds, fun r _ => rfl, fun r hr => ?_⟩
    by_contra hen
    have hen' : (m.program.rule r).enabled = true := (Bool.not_eq_false _).mp hen
    exact hr (lt_of_enabled hen')
  obtain ⟨hcount, hv, hi, hg⟩ := foldl_appendRule rules
    ({ m.program with atomCount := n, seeds := m.program.seeds.resizeAtoms n },
      m.index.resizeAtoms n) hhead hbody
    ⟨length_resize _ _ _, fun rule hr => (h.valid.head rule hr).trans_le hle,
      fun rule hr b hb => (h.valid.body rule hr b hb).trans_le hle⟩
    (h.indexes.resizeAtoms hle) hgrow le_rfl
  unfold GroundedMaintenance.extend
  generalize rules.foldl appendRule _ = extended at hcount hv hi hg
  have hcount' : extended.1.atomCount = n := hcount
  exact ⟨hv, by rw [hcount']; exact hn, hi, hcount' ▸ hg.justified h.justified,
    hcount' ▸ hg.rankTight h.justified h.tight, hcount' ▸ hg.closed h.justified h.closed,
    hcount' ▸ hg.witnessIndexed h.justified h.indexed⟩

theorem validatePatch_eq_ok {n : ℕ} {patch : GroundedStructuralPatch}
    (h : m.validatePatch n patch = .ok ()) :
    ∀ rule ∈ patch.appendRules, rule.head < n ∧ ∀ b ∈ rule.body, b < n := by
  have hatom : ∀ a, validateFutureAtom n a = .ok () ↔ a < n := by
    intro a
    unfold validateFutureAtom
    split_ifs with ha <;> simp [ha]
  simp only [validatePatch, seq_eq_ok, forM_eq_ok, hatom] at h
  exact h.2.1

end GroundedMaintenance

/-! ## Runs -/

inductive MaintenanceCall
  | applyUpdate (update : GroundedUpdate)
  | applyStructuralPatch (patch : GroundedStructuralPatch)

variable {m m' : GroundedMaintenance}

namespace MaintenanceCall
open GroundedMaintenance

def apply (m : GroundedMaintenance) :
    MaintenanceCall → Except GroundedClosureError GroundedMaintenance
  | .applyUpdate update => do return (← m.applyUpdate update).1
  | .applyStructuralPatch patch => do return (← m.applyStructuralPatch patch).1

def safe (m : GroundedMaintenance) : MaintenanceCall → Bool
  | .applyUpdate update => m.updateSafe update
  | .applyStructuralPatch patch =>
    (m.extend (m.program.atomCount + patch.appendAtoms) patch.appendRules).updateSafe
      (m.program.patchUpdate patch)

/-- The program that a call leaves. -/
def onProgram (program : GroundedProgram) : MaintenanceCall → GroundedProgram
  | .applyUpdate update => (program.dropSources update).addSources update
  | .applyStructuralPatch patch =>
    let update := program.patchUpdate patch
    let atomCount := program.atomCount + patch.appendAtoms
    let rules := program.rules ++ patch.appendRules.map fun rule => { rule with enabled := false }
    ((mk atomCount (program.seeds.resizeAtoms atomCount) rules).dropSources update).addSources update

theorem apply_spec {call : MaintenanceCall} (h : m.Exact) (hsafe : call.safe m = true)
    (happly : call.apply m = .ok m') : m'.Exact ∧ m'.program = call.onProgram m.program := by
  cases call with
  | applyUpdate update =>
    simp only [apply, GroundedMaintenance.applyUpdate, bind_eq_ok] at happly
    obtain ⟨result, ⟨⟨⟩, hvalid, hresult⟩, hm'⟩ := happly
    cases hresult
    cases hm'
    exact ⟨h.applyUpdate hvalid hsafe, program_applyUpdate m update⟩
  | applyStructuralPatch patch =>
    simp only [apply, GroundedMaintenance.applyStructuralPatch, bind_eq_ok] at happly
    obtain ⟨result, hresult, hm'⟩ := happly
    split_ifs at hresult with hover
    · cases hresult
    simp only [bind_eq_ok] at hresult
    obtain ⟨⟨⟩, hpatch, ⟨⟩, hvalid, hresult⟩ := hresult
    cases hresult
    cases hm'
    have hn : m.program.atomCount + patch.appendAtoms ≤ usizeMax := Nat.le_of_not_lt hover
    have hrules := validatePatch_eq_ok hpatch
    refine ⟨(h.extend (Nat.le_add_right _ _) hn (fun rule hr => (hrules rule hr).1)
      fun rule hr => (hrules rule hr).2).applyUpdate hvalid hsafe, ?_⟩
    rw [program_applyUpdate, program_extend]
    rfl

end MaintenanceCall

/-- A sequence of calls that all return `Ok` and whose repairs are all safe. -/
inductive SafeRun : GroundedMaintenance → List MaintenanceCall → GroundedMaintenance → Prop
  | nil (m : GroundedMaintenance) : SafeRun m [] m
  | cons {m m' m'' : GroundedMaintenance} {call : MaintenanceCall}
      {calls : List MaintenanceCall} (hsafe : call.safe m = true)
      (happly : call.apply m = .ok m') (hrest : SafeRun m' calls m'') :
      SafeRun m (call :: calls) m''

theorem SafeRun.spec {calls : List MaintenanceCall} (h : SafeRun m calls m') (hm : m.Exact) :
    m'.Exact ∧ m'.program = calls.foldl MaintenanceCall.onProgram m.program := by
  induction h with
  | nil => exact ⟨hm, rfl⟩
  | cons hsafe happly _ ih =>
    obtain ⟨hexact, hprogram⟩ := MaintenanceCall.apply_spec hm hsafe happly
    rw [foldl_cons, ← hprogram]
    exact ih hexact

theorem GroundedMaintenance.Exact.live_eq_solve (h : m.Exact) :
    m.certificate.live = (solve m.program).1.live := by
  obtain ⟨hj, hc⟩ := solve_spec h.valid h.bound
  have hiff : ∀ a, m.certificate.isLive a = (solve m.program).1.isLive a := by
    intro a
    rw [Bool.eq_iff_iff, isLive_iff_leastFixpoint h.justified h.closed,
      isLive_iff_leastFixpoint hj hc]
  refine ext_getElem (h.justified.size.live.trans hj.size.live.symm) fun a h₁ h₂ => ?_
  simpa [GroundedCertificate.isLive, getElem?_eq_getElem h₁, getElem?_eq_getElem h₂] using hiff a

/-- Along every run whose repairs are safe, the maintained certificate is that of the least
fixpoint of the program that the calls have led to. -/
theorem maintained_live_iff_leastFixpoint {atomCount : ℕ} {seeds : List GroundedAtomId}
    {rules : List GroundedRule} {program : GroundedProgram} {m₀ m : GroundedMaintenance}
    {calls : List MaintenanceCall} (hcount : atomCount ≤ usizeMax)
    (hprogram : GroundedProgram.new atomCount seeds rules = .ok program)
    (hnew : GroundedMaintenance.new program = .ok m₀) (hrun : SafeRun m₀ calls m) :
    m.program = calls.foldl MaintenanceCall.onProgram program ∧
      (∀ a, m.certificate.isLive a = true ↔ m.program.LeastFixpoint a) ∧
      m.certificate.live = (solve m.program).1.live := by
  obtain ⟨hv, rfl⟩ := new_valid hprogram
  obtain ⟨hexact₀, rfl⟩ := GroundedMaintenance.new_exact hv hcount hnew
  obtain ⟨hexact, hafter⟩ := hrun.spec hexact₀
  exact ⟨hafter, isLive_iff_leastFixpoint hexact.justified hexact.closed, hexact.live_eq_solve⟩

/-- Removing the only seed below a rule is a safe call. -/
theorem maintained_live_after_seed_removal :
    ∃ m₀ m, GroundedMaintenance.new ⟨2, ⟨[true, false], 1⟩, [.new [0] 1]⟩ = .ok m₀ ∧
      SafeRun m₀ [.applyUpdate ⟨[], [0], [], []⟩] m ∧
      m.program = ⟨2, ⟨[false, false], 0⟩, [.new [0] 1]⟩ ∧
      (∀ a, m.certificate.isLive a = true ↔ m.program.LeastFixpoint a) ∧
      m.certificate.live = (solve m.program).1.live := by
  have hrun : ∃ m₀ m, GroundedMaintenance.new ⟨2, ⟨[true, false], 1⟩, [.new [0] 1]⟩ = .ok m₀ ∧
      SafeRun m₀ [.applyUpdate ⟨[], [0], [], []⟩] m :=
    ⟨_, _, rfl, .cons (by decide) rfl (.nil _)⟩
  obtain ⟨m₀, m, hnew, hsafe⟩ := hrun
  have hprogram : GroundedProgram.new 2 [0] [.new [0] 1] =
      .ok ⟨2, ⟨[true, false], 1⟩, [.new [0] 1]⟩ := by rfl
  have hcount : 2 ≤ usizeMax := by decide
  exact ⟨m₀, m, hnew, hsafe, maintained_live_iff_leastFixpoint hcount hprogram hnew hsafe⟩

/-- Seeds `0` and `1`, a rule for `0` without premises and a rule for `2` from `0` and `1`. -/
def rederivedPremise : Except GroundedClosureError GroundedMaintenance := do
  let program ← GroundedProgram.new 3 [0, 1] [.new [] 0, .new [0, 1] 2]
  let m ← GroundedMaintenance.new program
  MaintenanceCall.apply m
    (.applyUpdate { addSeeds := [], removeSeeds := [0, 1], enableRules := [], disableRules := [] })

/-- Both seeds go: the scan re-derives `0`, counts only `1` as missing for the rule of `2`, and the
visit of `0` takes that to zero. Atom `2` stays live although `1` is dead. -/
theorem maintained_keeps_underivable_atom :
    ∃ m, rederivedPremise = .ok m ∧ m.certificate.isLive 2 = true ∧
      ¬ m.program.LeastFixpoint 2 ∧ (solve m.program).1.isLive 2 = false := by
  have hview : (rederivedPremise.map fun m => (m.program, m.certificate.live)) =
      .ok (⟨3, ⟨[false, false, false], 0⟩, [.new [] 0, .new [0, 1] 2]⟩, [true, false, true]) := by
    decide +kernel
  cases hrun : rederivedPremise with
  | error e =>
    rw [hrun] at hview
    cases hview
  | ok m =>
    rw [hrun] at hview
    simp only [Except.map, Except.ok.injEq, Prod.mk.injEq] at hview
    obtain ⟨hprogram, hlive⟩ := hview
    have hsolve : (solve m.program).1.isLive 2 = false := by
      rw [hprogram]
      decide +kernel
    have hvalid : m.program.Valid := by
      rw [hprogram]
      have hnew : GroundedProgram.new 3 [] [.new [] 0, .new [0, 1] 2] =
          .ok ⟨3, ⟨[false, false, false], 0⟩, [.new [] 0, .new [0, 1] 2]⟩ := by rfl
      exact (new_valid hnew).1
    have hcount : m.program.atomCount ≤ usizeMax := by
      rw [hprogram]
      decide
    obtain ⟨hj, hc⟩ := solve_spec hvalid hcount
    refine ⟨m, rfl, ?_, ?_, hsolve⟩
    · rw [GroundedCertificate.isLive, hlive]
      rfl
    · rw [← isLive_iff_leastFixpoint hj hc 2, hsolve]
      decide

end Cfmd.Grounded
