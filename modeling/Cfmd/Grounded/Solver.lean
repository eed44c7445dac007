import Cfmd.Lib.Countdown
import Cfmd.Grounded.Index

/-! The solver: seeds and body-free rules start a queue, and every atom taken off
it lowers the premise counters of the rules it feeds. -/

namespace Cfmd.Grounded
open Lib GroundedProgram GroundedCertificate List

/-- The source's `live`, `rank` and `witness` vectors are kept together in `proof`. -/
structure SolverState where
  proof : GroundedCertificate
  fired : List Bool
  queue : List GroundedAtomId
  stats : GroundedWorkStats

namespace SolverState

def isFired (s : SolverState) (id : GroundedRuleId) : Bool := s.fired[id]?.getD false

def fireRule (s : SolverState) (program : GroundedProgram) (id : GroundedRuleId) : SolverState :=
  if s.isFired id then s
  else
    let s := { s with fired := s.fired.set id true, stats := s.stats.ruleFire }
    let rule := program.rule id
    if s.proof.isLive rule.head then s
    else { s with
      proof := s.proof.setProof rule.head (s.proof.ruleRank rule) (.rule id)
      queue := s.queue ++ [rule.head] }

def pushSeed (s : SolverState) (seed : GroundedAtomId) : SolverState :=
  if s.proof.isLive seed then s
  else { s with proof := s.proof.setProof seed 0 .seed, queue := s.queue ++ [seed] }

end SolverState

structure SolveLoop where
  state : SolverState
  remaining : List ℕ

namespace SolveLoop

def left (l : SolveLoop) (id : GroundedRuleId) : ℕ := l.remaining[id]?.getD 0

def pop (l : SolveLoop) : Option (GroundedAtomId × SolveLoop) := match l.state.queue with
  | [] => none
  | atom :: queue => some (atom, { l with state := { l.state with queue } })

def incidence (program : GroundedProgram) (l : SolveLoop) (id : GroundedRuleId) : SolveLoop :=
  if l.state.isFired id || l.left id == 0 then l
  else
    let state := { l.state with stats := l.state.stats.incidenceUpdate }
    let remaining := l.remaining.set id (l.left id - 1)
    if l.left id - 1 == 0 then { state := state.fireRule program id, remaining }
    else { state, remaining }

end SolveLoop

def solveIndexed (program : GroundedProgram) (index : GroundedIncidenceIndex) :
    GroundedCertificate × GroundedWorkStats :=
  let state : SolverState :=
    { proof := .empty program.atomCount, fired := replicate program.rules.length false
      queue := [], stats := default }
  let state := program.seeds.iter.foldl SolverState.pushSeed state
  let remaining := program.rules.map fun rule => if rule.enabled then rule.body.length else 0
  let state := (range program.rules.length).foldl
    (fun state id => if (program.rule id).enabled && remaining[id]?.getD 0 == 0
      then state.fireRule program id else state) state
  let final := drain SolveLoop.pop
    (fun atom l => (index.dependentsOf atom).foldl (SolveLoop.incidence program) l)
    program.atomCount { state, remaining }
  (final.state.proof, final.state.stats)

def solve (program : GroundedProgram) : GroundedCertificate × GroundedWorkStats :=
  solveIndexed program (.compile program)

variable {program : GroundedProgram} {index : GroundedIncidenceIndex} {s : SolverState}
  {r current m a : ℕ} {c c' : GroundedCertificate} {queue rest body : List ℕ} {l : SolveLoop}

/-! ## Firing a rule -/

theorem SolverState.fireRule_spec (hv : program.Valid) (hs : s.proof.HasSize program.atomCount)
    (hen : (program.rule r).enabled = true) (hnot : s.isFired r = false)
    (hbody : ∀ b ∈ (program.rule r).body, s.proof.isLive b = true) :
    (s.fireRule program r).fired = s.fired.set r true ∧
    Advance program s.proof s.queue (s.fireRule program r).proof (s.fireRule program r).queue ∧
    (s.fireRule program r).proof.isLive (program.rule r).head = true := by
  have hlt := hv.rule_head_lt hen
  unfold fireRule
  simp only [hnot, Bool.false_eq_true, if_false]
  split_ifs with hlive
  · exact ⟨rfl, .inl ⟨rfl, rfl⟩, hlive⟩
  · refine ⟨rfl, advance_rule hv hen hbody (by simpa using hlive), ?_⟩
    rw [isLive_setProof hs hlt, if_pos rfl]

theorem SolverState.isFired_set {s' : SolverState} (h : s'.fired = s.fired.set r true)
    (hr : r < s.fired.length) (r' : ℕ) :
    s'.isFired r' = if r = r' then true else s.isFired r' := by
  simp only [isFired, h, getD_set, hr, and_true]

/-! ## The counters -/

/-- A premise still counts for a rule until it was taken off the queue, and during the
visit of `current` until the rule's own turn. -/
def isOpen (c : GroundedCertificate) (queue : List GroundedAtomId) (current : GroundedAtomId)
    (rest : List GroundedRuleId) (r : GroundedRuleId) (b : GroundedAtomId) : Bool :=
  !decide (c.isLive b = true ∧ b ∉ queue) || decide (b = current ∧ r ∈ rest)

theorem isOpen_eq_false {b : ℕ} : isOpen c queue current rest r b = false ↔
      (c.isLive b = true ∧ b ∉ queue) ∧ ¬ (b = current ∧ r ∈ rest) := by
  simp [isOpen]

theorem isOpen_congr {queue' : List ℕ} {rest' : List ℕ} {b : ℕ}
    (h : (c'.isLive b = true ∧ b ∉ queue') ↔ (c.isLive b = true ∧ b ∉ queue))
    (hr : r ∈ rest' ↔ r ∈ rest) :
    isOpen c' queue' current rest' r b = isOpen c queue current rest r b := by
  rw [Bool.eq_iff_iff, ← not_iff_not, Bool.not_eq_true, Bool.not_eq_true, isOpen_eq_false,
    isOpen_eq_false, h, hr]

theorem countP_isOpen_cons (body : List ℕ) {r' : ℕ} (hne : r ≠ r') :
    body.countP (isOpen c queue current (r :: rest) r') =
      body.countP (isOpen c queue current rest r') :=
  countP_congr_mem fun _ _ => isOpen_congr Iff.rfl (by simp [Ne.symm hne])

theorem countP_isOpen_turn (hnd : body.Nodup) (hfresh : r ∉ rest)
    (hmem : current ∈ body) (hcur : c.isLive current = true ∧ current ∉ queue) :
    body.countP (isOpen c queue current rest r) + 1 =
      body.countP (isOpen c queue current (r :: rest) r) := by
  refine countP_close hnd hmem (by simp [isOpen]) ?_ ?_
  · exact isOpen_eq_false.mpr ⟨hcur, fun hc => hfresh hc.2⟩
  · intro b _ hb
    simp [isOpen, hb]

theorem isLive_of_countP_isOpen
    (h : body.countP (isOpen c queue current rest r) = 0) : ∀ b ∈ body, c.isLive b = true := by
  intro b hb
  have hb' := countP_eq_zero.mp h b hb
  exact (isOpen_eq_false.mp (by simpa using hb')).1.1

theorem countP_isOpen_pop {body deps : List ℕ} (hdep : a ∈ body → r ∈ deps) :
    body.countP (isOpen c (a :: queue) current [] r) = body.countP (isOpen c queue a deps r) := by
  refine countP_congr_mem fun b hb => ?_
  rw [Bool.eq_iff_iff, ← not_iff_not, Bool.not_eq_true, Bool.not_eq_true, isOpen_eq_false,
    isOpen_eq_false]
  by_cases hba : b = a
  · simp [hba, hdep (hba ▸ hb)]
  · simp [hba]

theorem countP_isOpen_empty (h : ∀ b ∈ body, c.isLive b = true) :
    body.countP (isOpen c [] current [] r) = 0 := by
  refine countP_eq_zero.mpr fun b hb => ?_
  rw [Bool.not_eq_true, isOpen_eq_false]
  exact ⟨⟨h b hb, not_mem_nil⟩, fun hc => not_mem_nil hc.2⟩

structure SolveInv (program : GroundedProgram) (m : ℕ) (current : GroundedAtomId)
    (rest : List GroundedRuleId) (l : SolveLoop) : Prop where
  front : Front program (.empty program.atomCount) m l.state.proof l.state.queue
  length_fired : l.state.fired.length = program.rules.length
  length_remaining : l.remaining.length = program.rules.length
  seeds_live : ∀ a, program.seeds.contains a = true → l.state.proof.isLive a = true
  disabled : ∀ r, (program.rule r).enabled = false → l.left r = 0
  fired_live : ∀ r, (program.rule r).enabled = true → l.state.isFired r = true →
    l.state.proof.isLive (program.rule r).head = true
  counts : ∀ r, (program.rule r).enabled = true → l.state.isFired r = false →
    l.left r = (program.rule r).body.countP
      (isOpen l.state.proof l.state.queue current rest r) ∧ l.left r ≠ 0

theorem SolveLoop.left_set (hr : r < l.remaining.length) (k r' : ℕ) (s : SolverState) :
    left ⟨s, l.remaining.set r k⟩ r' = if r = r' then k else l.left r' := by
  simp only [left, getD_set, hr, and_true]

theorem SolveInv.incidence (h : SolveInv program m current (r :: rest) l) (hfresh : r ∉ rest)
    (hmem : current ∈ (program.rule r).body)
    (hcur : l.state.proof.isLive current = true ∧ current ∉ l.state.queue) :
    SolveInv program m current rest (l.incidence program r) ∧
    ((l.incidence program r).state.proof.isLive current = true ∧
      current ∉ (l.incidence program r).state.queue) := by
  have hkeep : (l.state.isFired r = true ∨ (program.rule r).enabled = false) →
      SolveInv program m current rest l := by
    intro hskip
    refine ⟨h.front, h.length_fired, h.length_remaining, h.seeds_live, h.disabled, h.fired_live, ?_⟩
    intro r' hen hnot
    have hne : r ≠ r' := by
      rintro rfl
      rcases hskip with hf | hd
      · rw [hf] at hnot
        cases hnot
      · rw [hd] at hen
        cases hen
    obtain ⟨hcount, hpos⟩ := h.counts r' hen hnot
    exact ⟨hcount.trans (countP_isOpen_cons _ hne), hpos⟩
  unfold SolveLoop.incidence
  cases hfired : l.state.isFired r with
  | true => exact ⟨hkeep (.inl hfired), hcur⟩
  | false =>
    by_cases hleft : l.left r = 0
    · -- a counter of an enabled rule is positive until the rule fires
      have hdis : (program.rule r).enabled = false := by
        by_contra hen
        exact (h.counts r (by simpa using hen) hfired).2 hleft
      simp only [hleft, beq_self_eq_true, Bool.or_true, if_true]
      exact ⟨hkeep (.inr hdis), hcur⟩
    · have hen : (program.rule r).enabled = true := by
        by_contra hdis
        exact hleft (h.disabled r (by simpa using hdis))
      have hlt : r < program.rules.length := lt_of_enabled hen
      have hclose : (program.rule r).body.countP
          (isOpen l.state.proof l.state.queue current rest r) + 1 = l.left r := by
        rw [(h.counts r hen hfired).1]
        exact countP_isOpen_turn (program.rule r).body_nodup hfresh hmem hcur
      have hrem : r < l.remaining.length := h.length_remaining ▸ hlt
      have hdisabled : ∀ s r', (program.rule r').enabled = false →
          SolveLoop.left ⟨s, l.remaining.set r (l.left r - 1)⟩ r' = 0 := by
        intro s r' hdis
        have hne : r ≠ r' := by
          rintro rfl
          rw [hen] at hdis
          cases hdis
        rw [SolveLoop.left_set hrem, if_neg hne]
        exact h.disabled r' hdis
      have hcond : (false || l.left r == 0) = false := by simpa using hleft
      simp only [hcond, Bool.false_eq_true, if_false]
      by_cases hzero : l.left r - 1 = 0
      · -- the last premise: the rule fires, and no other counter moves
        have hbody : ∀ b ∈ (program.rule r).body, l.state.proof.isLive b = true :=
          isLive_of_countP_isOpen ((Nat.eq_sub_of_add_eq hclose).trans hzero)
        obtain ⟨hfire, hadv, hhead⟩ := SolverState.fireRule_spec
          (s := { l.state with stats := l.state.stats.incidenceUpdate }) (r := r)
          h.front.valid h.front.size hen hfired hbody
        have hisFired := SolverState.isFired_set hfire
          (show r < l.state.fired.length by rw [h.length_fired]; exact hlt)
        simp only [hzero, beq_self_eq_true, if_true]
        rw [← hzero]
        have hmono : ∀ b, l.state.proof.isLive b = true → _ :=
          fun b hb => hadv.isLive h.front.valid h.front.size hb
        refine ⟨⟨h.front.advance hadv, ?_, ?_, fun a ha => hmono a (h.seeds_live a ha),
          hdisabled _, ?_, ?_⟩, (hadv.settled h.front.size current).mpr hcur⟩
        · simpa [hfire] using h.length_fired
        · simpa using h.length_remaining
        · intro r' hen' hf
          rw [hisFired] at hf
          split_ifs at hf with hne
          · rw [← hne]
            exact hhead
          · exact hmono _ (h.fired_live r' hen' hf)
        · intro r' hen' hnot
          rw [hisFired] at hnot
          split_ifs at hnot with hne
          obtain ⟨hcount, hpos⟩ := h.counts r' hen' hnot
          rw [SolveLoop.left_set hrem, if_neg hne, hcount, countP_isOpen_cons _ hne]
          refine ⟨countP_congr_mem fun b _ => ?_, countP_isOpen_cons _ hne ▸ hcount ▸ hpos⟩
          exact (isOpen_congr (hadv.settled h.front.size b) Iff.rfl).symm
      · have hcond' : (l.left r - 1 == 0) = false := by simpa using hzero
        simp only [hcond', Bool.false_eq_true, if_false]
        refine ⟨⟨h.front, h.length_fired, ?_, h.seeds_live, hdisabled _, h.fired_live, ?_⟩, hcur⟩
        · simpa using h.length_remaining
        · intro r' hen' hnot
          rw [SolveLoop.left_set hrem]
          split_ifs with hne
          · subst hne
            exact ⟨Nat.sub_eq_of_eq_add hclose.symm, hzero⟩
          · obtain ⟨hcount, hpos⟩ := h.counts r' hen' hnot
            exact ⟨hcount.trans (countP_isOpen_cons _ hne), hpos⟩

section
variable (hi : IndexedBy program index) {l' : SolveLoop} (h : SolveInv program m current [] l)
  (hpop : l.pop = some (a, l'))
include hi h hpop

theorem SolveInv.pop :
    SolveInv program (m - 1) a (index.dependentsOf a) l' ∧ 0 < m ∧
    (l'.state.proof.isLive a = true ∧ a ∉ l'.state.queue) := by
  obtain ⟨⟨proof, fired, _ | ⟨a, queue⟩, stats⟩, remaining⟩ := l
  · cases hpop
  cases hpop
  obtain ⟨hfront, hnotin, hlive, hpos⟩ := h.front.pop
  refine ⟨⟨hfront, h.length_fired, h.length_remaining, h.seeds_live, h.disabled, h.fired_live,
    ?_⟩, hpos, hlive, hnotin⟩
  intro r hen hnot
  obtain ⟨hcount, hne⟩ := h.counts r hen hnot
  refine ⟨hcount.trans (countP_isOpen_pop fun hmem => ?_), hne⟩
  exact (hi.mem_dependents a r).mpr ⟨lt_of_enabled hen, hmem⟩

theorem SolveInv.visit :
    SolveInv program (m - 1) a []
      ((index.dependentsOf a).foldl (SolveLoop.incidence program) l') ∧ 0 < m := by
  obtain ⟨hvisit, hpos, hcur⟩ := h.pop hi hpop
  have hfold := foldl_rest
    (I := fun l rest => SolveInv program (m - 1) a rest l ∧ rest.Nodup ∧
      (∀ r ∈ rest, a ∈ (program.rule r).body) ∧
      (l.state.proof.isLive a = true ∧ a ∉ l.state.queue))
    (f := SolveLoop.incidence program) (s := l') ?_ (index.dependentsOf a)
    ⟨hvisit, hi.nodup_dependents a, fun r hr => ((hi.mem_dependents a r).mp hr).2, hcur⟩
  · exact ⟨hfold.1, hpos⟩
  · rintro l r rest ⟨hinv, hnd, hmem, hcur⟩
    rw [nodup_cons] at hnd
    obtain ⟨hinv', hcur'⟩ := hinv.incidence hnd.1 (hmem r mem_cons_self) hcur
    exact ⟨hinv', hnd.2, fun r' hr' => hmem r' (mem_cons_of_mem _ hr'), hcur'⟩

end

/-! ## The start of the loop -/

structure SolveStart (program : GroundedProgram) (s : SolverState) : Prop where
  front : Front program (.empty program.atomCount) program.atomCount s.proof s.queue
  length_fired : s.fired.length = program.rules.length
  queued : ∀ a, s.proof.isLive a = true → a ∈ s.queue
  fired_live : ∀ r, (program.rule r).enabled = true → s.isFired r = true →
    s.proof.isLive (program.rule r).head = true

theorem Advance.queued {queue' : List ℕ} (hadv : Advance program c queue c' queue')
    (hs : c.HasSize program.atomCount) (h : ∀ a, c.isLive a = true → a ∈ queue) :
    ∀ a, c'.isLive a = true → a ∈ queue' := by
  intro a ha
  by_contra hq
  have hold := (hadv.settled hs a).mp ⟨ha, hq⟩
  exact hold.2 (h a hold.1)

theorem SolveStart.pushSeed (h : SolveStart program s) (ha : program.seeds.contains a = true) :
    SolveStart program (s.pushSeed a) ∧ (s.pushSeed a).proof.isLive a = true ∧
      ∀ b, s.proof.isLive b = true → (s.pushSeed a).proof.isLive b = true := by
  unfold SolverState.pushSeed
  split_ifs with hlive
  · exact ⟨h, hlive, fun b hb => hb⟩
  have hadv : Advance program s.proof s.queue (s.proof.setProof a 0 .seed) (s.queue ++ [a]) :=
    advance_seed h.front.valid ha (by simpa using hlive)
  have hmono : ∀ b, s.proof.isLive b = true → (s.proof.setProof a 0 .seed).isLive b = true :=
    fun b hb => hadv.isLive h.front.valid h.front.size hb
  refine ⟨⟨h.front.advance hadv, h.length_fired, hadv.queued h.front.size h.queued,
    fun r hen hf => hmono _ (h.fired_live r hen hf)⟩, ?_, hmono⟩
  rw [isLive_setProof h.front.size
    (h.front.valid.members ▸ GroundedSeedSet.lt_of_contains ha), if_pos rfl]

theorem solveStart_seeds (hv : program.Valid) :
    let s := program.seeds.iter.foldl SolverState.pushSeed
      { proof := .empty program.atomCount, fired := replicate program.rules.length false
        queue := [], stats := default }
    SolveStart program s ∧ ∀ a, program.seeds.contains a = true → s.proof.isLive a = true := by
  have hfold := foldl_rest
    (I := fun s rest => SolveStart program s ∧ (∀ a ∈ rest, program.seeds.contains a = true) ∧
      ∀ a, program.seeds.contains a = true → s.proof.isLive a = true ∨ a ∈ rest)
    (f := SolverState.pushSeed)
    (s := { proof := .empty program.atomCount, fired := replicate program.rules.length false
            queue := [], stats := default }) ?_ program.seeds.iter ⟨?_, ?_, ?_⟩
  · exact ⟨hfold.1, fun a ha => (hfold.2.2 a ha).resolve_right not_mem_nil⟩
  · rintro s a rest ⟨hs, hrest, hseed⟩
    obtain ⟨hs', hlive, hmono⟩ := hs.pushSeed (hrest a mem_cons_self)
    refine ⟨hs', fun b hb => hrest b (mem_cons_of_mem _ hb), fun b hb => ?_⟩
    rcases hseed b hb with hb' | hb'
    · exact .inl (hmono b hb')
    · rcases mem_cons.mp hb' with rfl | hb'
      · exact .inl hlive
      · exact .inr hb'
  · refine ⟨⟨hv, hasSize_empty _, .refl, ⟨nodup_nil, by simp⟩, ?_⟩, by simp, ?_, ?_⟩
    · simp [empty]
    · intro a ha
      rw [isLive_empty] at ha
      cases ha
    · intro r _ hf
      rw [SolverState.isFired, getD_replicate_self] at hf
      cases hf
  · exact fun a ha => GroundedSeedSet.mem_iter.mp ha
  · exact fun a ha => .inr (GroundedSeedSet.mem_iter.mpr ha)

theorem SolveStart.fireRule (h : SolveStart program s) (hen : (program.rule r).enabled = true)
    (hbody : (program.rule r).body = []) :
    SolveStart program (s.fireRule program r) ∧
    (∀ r', (s.fireRule program r).isFired r' = true ↔ r = r' ∨ s.isFired r' = true) ∧
    ∀ b, s.proof.isLive b = true → (s.fireRule program r).proof.isLive b = true := by
  cases hfired : s.isFired r with
  | true =>
    have hsame : s.fireRule program r = s := by
      unfold SolverState.fireRule
      rw [if_pos hfired]
    rw [hsame]
    exact ⟨h, fun r' => ⟨.inr, fun hr' => hr'.elim (fun heq => heq ▸ hfired) id⟩, fun b hb => hb⟩
  | false =>
    obtain ⟨hfire, hadv, hhead⟩ := SolverState.fireRule_spec (r := r) h.front.valid h.front.size
      hen hfired (by simp [hbody])
    have hisFired := SolverState.isFired_set hfire
      (show r < s.fired.length by rw [h.length_fired]; exact lt_of_enabled hen)
    have hmono : ∀ b, s.proof.isLive b = true → (s.fireRule program r).proof.isLive b = true :=
      fun b hb => hadv.isLive h.front.valid h.front.size hb
    refine ⟨⟨h.front.advance hadv, by simpa [hfire] using h.length_fired,
      hadv.queued h.front.size h.queued, fun r' hen' hf => ?_⟩, fun r' => ?_, hmono⟩
    · rw [hisFired] at hf
      split_ifs at hf with heq
      · rw [← heq]
        exact hhead
      · exact hmono _ (h.fired_live r' hen' hf)
    · rw [hisFired]
      split_ifs with heq <;> simp [heq]

theorem remaining_left (program : GroundedProgram) (r : ℕ) :
    (program.rules.map fun rule => if rule.enabled then rule.body.length else 0)[r]?.getD 0 =
      if (program.rule r).enabled then (program.rule r).body.length else 0 := by
  by_cases hr : r < program.rules.length
  · simp [rule, hr]
  · have hnone : program.rules[r]? = none := getElem?_eq_none (Nat.le_of_not_lt hr)
    rw [rule, getElem?_map, hnone]
    rfl

theorem SolveStart.solveInv (h : SolveStart program s)
    (hseeds : ∀ a, program.seeds.contains a = true → s.proof.isLive a = true)
    (hfired : ∀ r, (program.rule r).enabled = true → (program.rule r).body = [] →
      s.isFired r = true) :
    SolveInv program program.atomCount 0 [] ⟨s, program.rules.map fun rule =>
      if rule.enabled then rule.body.length else 0⟩ := by
  refine ⟨h.front, h.length_fired, by simp, hseeds, fun r hdis => ?_, h.fired_live,
    fun r hen hnot => ?_⟩
  · rw [SolveLoop.left, remaining_left, hdis, if_neg Bool.false_ne_true]
  · rw [SolveLoop.left, remaining_left, hen]
    constructor
    · refine (countP_eq_length.mpr fun b _ => ?_).symm
      by_contra hclosed
      obtain ⟨⟨hlive, hq⟩, _⟩ := isOpen_eq_false.mp (by simpa using hclosed)
      exact hq (h.queued b hlive)
    · intro hzero
      have hf := hfired r hen (length_eq_zero_iff.mp hzero)
      rw [hf] at hnot
      cases hnot

theorem solveStart_rules {s₀ : SolverState} (h₀ : SolveStart program s₀) {remaining : List ℕ}
    (hrem : ∀ r, remaining[r]?.getD 0 =
      if (program.rule r).enabled then (program.rule r).body.length else 0) :
    let s := (range program.rules.length).foldl
      (fun state id => if (program.rule id).enabled && remaining[id]?.getD 0 == 0
        then state.fireRule program id else state) s₀
    SolveStart program s ∧ (∀ b, s₀.proof.isLive b = true → s.proof.isLive b = true) ∧
    ∀ r, (program.rule r).enabled = true → (program.rule r).body = [] → s.isFired r = true := by
  have hfold := foldl_rest
    (I := fun s rest => SolveStart program s ∧
      (∀ b, s₀.proof.isLive b = true → s.proof.isLive b = true) ∧
      ∀ r, (program.rule r).enabled = true → (program.rule r).body = [] →
        s.isFired r = true ∨ r ∈ rest)
    (f := fun state id => if (program.rule id).enabled && remaining[id]?.getD 0 == 0
        then state.fireRule program id else state)
    (s := s₀) ?_ (range program.rules.length) ⟨h₀, fun b hb => hb, ?_⟩
  · exact ⟨hfold.1, hfold.2.1, fun r hen hbody => (hfold.2.2 r hen hbody).resolve_right not_mem_nil⟩
  · rintro s r rest ⟨hs, hmono, hrest⟩
    split_ifs with hcond
    · obtain ⟨hen, hzero⟩ : (program.rule r).enabled = true ∧ (program.rule r).body = [] := by
        simp only [Bool.and_eq_true, beq_iff_eq, hrem] at hcond
        obtain ⟨hen, hzero⟩ := hcond
        rw [hen] at hzero
        exact ⟨hen, length_eq_zero_iff.mp hzero⟩
      obtain ⟨hs', hf, hmono'⟩ := hs.fireRule hen hzero
      refine ⟨hs', fun b hb => hmono' b (hmono b hb), fun r' hen' hbody' => ?_⟩
      rcases hrest r' hen' hbody' with hr' | hr'
      · exact .inl ((hf r').mpr (.inr hr'))
      · rcases mem_cons.mp hr' with rfl | hr'
        · exact .inl ((hf _).mpr (.inl rfl))
        · exact .inr hr'
    · refine ⟨hs, hmono, fun r' hen' hbody' => ?_⟩
      refine (hrest r' hen' hbody').imp id fun hr' => ?_
      refine (mem_cons.mp hr').resolve_left ?_
      rintro rfl
      apply hcond
      simp [hrem, hen', hbody']
  · exact fun r hen _ => .inr (mem_range.mpr (lt_of_enabled hen))

/-! ## The solver is exact -/

theorem justified_empty (program : GroundedProgram) :
    Justified program (.empty program.atomCount) := by
  refine ⟨hasSize_empty _, fun a ha => ?_, fun a _ => ⟨?_, ?_⟩⟩
  · rw [isLive_empty] at ha
    cases ha
  · exact getD_replicate_self _ _ _
  · exact getD_replicate_self _ _ _

theorem rankTight_empty (program : GroundedProgram) :
    RankTight program (.empty program.atomCount) := by
  intro a r k hw _
  have hnone : (empty program.atomCount).witnessOf a = none := getD_replicate_self _ _ _
  rw [hnone] at hw
  cases hw

theorem SolveLoop.pop_eq_none (h : l.pop = none) : l.state.queue = [] := by
  unfold pop at h
  split at h
  · assumption
  · cases h

theorem SolveInv.closed (h : SolveInv program m current [] l) (hq : l.state.queue = [])
    (hen : (program.rule r).enabled = true)
    (hbody : ∀ b ∈ (program.rule r).body, l.state.proof.isLive b = true) :
    l.state.proof.isLive (program.rule r).head = true := by
  cases hfired : l.state.isFired r with
  | true => exact h.fired_live r hen hfired
  | false =>
    obtain ⟨hcount, hne⟩ := h.counts r hen hfired
    rw [hq, countP_isOpen_empty hbody] at hcount
    exact absurd hcount hne

theorem solve_loop (hi : IndexedBy program index) (h : SolveInv program program.atomCount 0 [] l) :
    let final := drain SolveLoop.pop
      (fun atom l => (index.dependentsOf atom).foldl (SolveLoop.incidence program) l)
      program.atomCount l
    (∃ m current, SolveInv program m current [] final) ∧ final.state.queue = [] := by
  obtain ⟨hinv, hdone⟩ := drain_countdown (J := fun m l => ∃ current, SolveInv program m current [] l)
    (fun m l a l' ⟨current, hinv⟩ hpop => ⟨⟨a, (hinv.visit hi hpop).1⟩, (hinv.visit hi hpop).2⟩)
    program.atomCount ⟨0, h⟩ le_rfl
  exact ⟨hinv, SolveLoop.pop_eq_none hdone⟩

section
variable (hv : program.Valid) (hn : program.atomCount ≤ usizeMax)
include hv hn

/-- The solver's certificate is justified, closed and has tight ranks. -/
theorem solveIndexed_spec (hi : IndexedBy program index) :
    Justified program (solveIndexed program index).1 ∧
    RankTight program (solveIndexed program index).1 ∧
    Closed program (solveIndexed program index).1 := by
  obtain ⟨hseeds, hlive⟩ := solveStart_seeds hv
  obtain ⟨hstart, hmono, hfired⟩ := solveStart_rules hseeds (remaining_left program)
  obtain ⟨⟨m, current, hinv⟩, hqueue⟩ := solve_loop hi
    (hstart.solveInv (fun a ha => hmono a (hlive a ha)) hfired)
  have hempty : RankRoom (.empty program.atomCount) :=
    (rankTight_empty program).rankRoom (justified_empty program) hn
  have hsteps := hinv.front.steps
  exact ⟨(ProofSteps.justified hv hsteps (justified_empty program) hempty).1,
    ProofSteps.rankTight hv hsteps (justified_empty program) hempty (rankTight_empty program),
    ⟨hinv.seeds_live, fun r hen hbody => hinv.closed hqueue hen hbody⟩⟩

theorem solve_spec : Justified program (solve program).1 ∧ Closed program (solve program).1 := by
  obtain ⟨hj, _, hc⟩ := solveIndexed_spec hv hn
    (GroundedIncidenceIndex.indexes_compile hv).indexedBy
  exact ⟨hj, hc⟩

end

/-! ## The checker and the solver -/

/-- Evidence for the least fixpoint: its atoms are the live ones, each with a rank and a witness
that grounds it, and nothing is kept for the others. -/
structure Evidence (program : GroundedProgram) (c : GroundedCertificate) : Prop
    extends Justified program c where
  least : ∀ a, c.isLive a = true ↔ program.LeastFixpoint a

theorem evidence_iff : Evidence program c ↔ Justified program c ∧ Closed program c := by
  constructor
  · intro h
    refine ⟨h.toJustified, fun a ha => (h.least a).mpr (.fact ha), fun r hen hbody => ?_⟩
    -- the fixpoint is closed under an enabled rule
    have hmem := rule_mem (lt_of_enabled hen)
    rw [h.least]
    exact .rule ⟨_, hmem, hen, rfl, rfl⟩ fun b hb => (h.least b).mp (hbody b hb)
  · rintro ⟨hj, hc⟩
    exact ⟨hj, isLive_iff_leastFixpoint hj hc⟩

/-- The checker accepts exactly the evidence for the least fixpoint, and so what the solver returns
for a program whose ids are inside its universe. -/
theorem check_decides_evidence (program : GroundedProgram) :
    (∀ c, check program c = .ok () ↔ Evidence program c) ∧
    (∀ c, check program c = .ok () →
      IsLeast {s | RuleClosed program.Fact program.HornRule s} {a | c.isLive a = true}) ∧
    (program.Valid → program.atomCount ≤ usizeMax → check program (solve program).1 = .ok ()) := by
  have hiff : ∀ c, check program c = .ok () ↔ Evidence program c := by
    intro c
    rw [check_eq_ok, evidence_iff]
  refine ⟨hiff, fun c hok => ?_, fun hv hn => ?_⟩
  · have hlive : {a | c.isLive a = true} = {a | program.LeastFixpoint a} := by
      ext a
      exact ((hiff c).mp hok).least a
    rw [hlive]
    exact derivable_isLeast
  · rw [check_eq_ok]
    exact solve_spec hv hn

/-- A rule without premises, one that needs two atoms and one that is switched off. -/
def mixedProgram : GroundedProgram :=
  ⟨4, ⟨[true, false, false, false], 1⟩, [.new [] 1, .new [1, 0, 1] 2, .disabled [0] 3]⟩

theorem check_accepts_solved_mixedProgram :
    check mixedProgram (solve mixedProgram).1 = .ok () ∧
      (solve mixedProgram).1.live = [true, true, true, false] := by
  have hnew : GroundedProgram.new 4 [0] [.new [] 1, .new [1, 0, 1] 2, .disabled [0] 3] =
      .ok mixedProgram := by rfl
  have hvalid : mixedProgram.Valid := (GroundedProgram.new_valid hnew).1
  exact ⟨(check_decides_evidence mixedProgram).2.2 hvalid (by decide), by decide +kernel⟩

end Cfmd.Grounded
