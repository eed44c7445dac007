import Cfmd.Lib.Loop
import Cfmd.Lib.Horn
import Cfmd.Lib.Rows

/-! Grounded programs: finitely many atoms, seed atoms and Horn rules that can
be switched on and off. -/

namespace Cfmd.Grounded
open Lib List

abbrev GroundedAtomId := ℕ
abbrev GroundedRuleId := ℕ

def usizeMax : ℕ := 2 ^ 64 - 1

def saturatingSucc (n : ℕ) : ℕ := min (n + 1) usizeMax

inductive GroundedClosureError
  | atomOutsideUniverse (atom : GroundedAtomId)
  | ruleOutsideProgram (rule : GroundedRuleId)
  | certificateShapeMismatch
  | liveAtomMissingRank (atom : GroundedAtomId)
  | liveAtomMissingWitness (atom : GroundedAtomId)
  | deadAtomHasProofState (atom : GroundedAtomId)
  | seedWitnessForNonSeed (atom : GroundedAtomId)
  | seedHasNonZeroRank (atom : GroundedAtomId)
  | witnessRuleDisabled (rule : GroundedRuleId)
  | witnessRuleHeadMismatch (atom : GroundedAtomId) (rule : GroundedRuleId)
  | witnessPremiseDead (atom premise : GroundedAtomId)
  | witnessRankNotStrictlySmaller (atom premise : GroundedAtomId)
  | missingSeed (atom : GroundedAtomId)
  | notClosedUnderRule (rule : GroundedRuleId)
  | structuralUniverseShrank (oldAtomCount newAtomCount : ℕ)
  | structuralUniverseOverflow
  deriving DecidableEq

/-- The constructors sort the body and drop repetitions. -/
structure GroundedRule where
  body : List GroundedAtomId
  head : GroundedAtomId
  enabled : Bool
  body_sorted : body.Pairwise (· < ·)
  deriving DecidableEq

namespace GroundedRule

def new (body : List GroundedAtomId) (head : GroundedAtomId) : GroundedRule :=
  ⟨sortDedup body, head, true, sortDedup_pairwise body⟩

def disabled (body : List GroundedAtomId) (head : GroundedAtomId) : GroundedRule :=
  { new body head with enabled := false }

instance : Inhabited GroundedRule := ⟨disabled [] 0⟩

theorem body_nodup (rule : GroundedRule) : rule.body.Nodup := rule.body_sorted.imp fun h => h.ne

end GroundedRule

structure GroundedSeedSet where
  members : List Bool
  count : ℕ
  deriving DecidableEq

variable {atom : GroundedAtomId} {n : ℕ}

namespace GroundedSeedSet

def contains (set : GroundedSeedSet) (atom : GroundedAtomId) : Bool := set.members[atom]?.getD false

def insert (set : GroundedSeedSet) (atom : GroundedAtomId) : GroundedSeedSet :=
  let members :=
    if atom ≥ set.members.length then resize set.members (atom + 1) false
    else set.members
  if members[atom]?.getD false then { set with members }
  else { members := members.set atom true, count := set.count + 1 }

def remove (set : GroundedSeedSet) (atom : GroundedAtomId) : GroundedSeedSet :=
  if set.contains atom then { members := set.members.set atom false, count := set.count - 1 }
  else set

def resizeAtoms (set : GroundedSeedSet) (atomCount : ℕ) : GroundedSeedSet :=
  { set with members := resize set.members atomCount false }

def iter (set : GroundedSeedSet) : List GroundedAtomId :=
  (range set.members.length).filter fun atom => set.contains atom

def difference (set other : GroundedSeedSet) : List GroundedAtomId :=
  set.iter.filter fun atom => !other.contains atom

def fromAtoms (atomCount : ℕ) (atoms : List GroundedAtomId) :
    Except GroundedClosureError GroundedSeedSet :=
  atoms.foldlM
    (fun set atom =>
      if atom ≥ atomCount then .error (.atomOutsideUniverse atom) else .ok (set.insert atom))
    { members := replicate atomCount false, count := 0 }

variable {set : GroundedSeedSet} {a : GroundedAtomId} {atoms : List GroundedAtomId}

section
variable (h : atom < set.members.length)
include h

theorem insert_of_lt :
    set.insert atom = if set.contains atom then set
      else { members := set.members.set atom true, count := set.count + 1 } := by
  unfold insert contains
  simp only [ge_iff_le, Nat.not_le.mpr h, if_false]

theorem contains_insert (b : GroundedAtomId) :
    (set.insert atom).contains b = true ↔ atom = b ∨ set.contains b = true := by
  rw [insert_of_lt h]
  split_ifs with hc
  · exact ⟨.inr, fun hb => hb.elim (fun he => he ▸ hc) id⟩
  · simp only [contains, getD_set, h, and_true]
    split_ifs with hab <;> simp [hab]

theorem length_insert : (set.insert atom).members.length = set.members.length := by
  rw [insert_of_lt h]
  split <;> simp

end

theorem lt_of_contains (h : set.contains a = true) : a < set.members.length :=
  lt_length_of_getD_true h

theorem contains_remove (set : GroundedSeedSet) (atom b : GroundedAtomId) :
    (set.remove atom).contains b = true ↔ atom ≠ b ∧ set.contains b = true := by
  unfold remove
  split_ifs with hc
  · simp only [contains, getD_set, lt_of_contains hc, and_true]
    split_ifs with hab <;> simp [hab]
  · exact ⟨fun hb => ⟨fun he => hc (he ▸ hb), hb⟩, fun hb => hb.2⟩

@[simp] theorem length_remove (set : GroundedSeedSet) (atom : GroundedAtomId) :
    (set.remove atom).members.length = set.members.length := by
  unfold remove
  split <;> simp

theorem contains_resizeAtoms (h : set.members.length ≤ n) (b : GroundedAtomId) :
    (set.resizeAtoms n).contains b = set.contains b :=
  getD_resize_of_le h b false

theorem mem_iter : a ∈ set.iter ↔ set.contains a = true := by
  simp only [iter, mem_filter, mem_range]
  exact ⟨fun h => h.2, fun h => ⟨lt_of_contains h, h⟩⟩

theorem mem_difference {s t : GroundedSeedSet} :
    a ∈ s.difference t ↔ s.contains a = true ∧ t.contains a = false := by
  simp [difference, mem_iter]

theorem iter_nodup (set : GroundedSeedSet) : set.iter.Nodup := nodup_range.filter _

theorem length_of_fromAtoms (h : fromAtoms n atoms = .ok set) : set.members.length = n := by
  refine foldlM_inv (I := fun set : GroundedSeedSet => set.members.length = n) ?_ atoms h
    length_replicate
  intro s x s' hs hx
  split_ifs at hx with hlt
  cases hx
  exact (length_insert (hs ▸ Nat.lt_of_not_le hlt)).trans hs

theorem exists_fromAtoms (h : ∀ a ∈ atoms, a < n) :
    ∃ set, fromAtoms n atoms = .ok set ∧ ∀ a, set.contains a = true ↔ a ∈ atoms := by
  have hloop := foldlM_rest (ε := GroundedClosureError)
    (f := fun set atom =>
      if atom ≥ n then .error (.atomOutsideUniverse atom) else .ok (set.insert atom))
    (I := fun (set : GroundedSeedSet) (rest : List GroundedAtomId) =>
      set.members.length = n ∧ (∀ a ∈ rest, a < n) ∧
        ∀ a, set.contains a = true ∨ a ∈ rest ↔ a ∈ atoms)
    ?_ atoms (s := { members := replicate n false, count := 0 }) ?_
  · obtain ⟨set, hset, _, _, hmem⟩ := hloop
    exact ⟨set, hset, fun a => by simpa using hmem a⟩
  · rintro set atom rest ⟨hlen, hrest, hmem⟩
    rw [forall_mem_cons] at hrest
    refine ⟨set.insert atom, if_neg (Nat.not_le.mpr hrest.1), ?_, hrest.2, fun a => ?_⟩
    · exact (length_insert (hlen ▸ hrest.1)).trans hlen
    · rw [contains_insert (hlen ▸ hrest.1), ← hmem a, mem_cons, or_assoc, or_left_comm,
        eq_comm (a := a)]
  · exact ⟨length_replicate, h, fun a => by simp only [contains, getD_replicate_self]; simp⟩

theorem contains_of_fromAtoms (h : fromAtoms n atoms = .ok set) (a : GroundedAtomId) :
    set.contains a = true ↔ a ∈ atoms := by
  have hlt : ∀ a ∈ atoms, a < n := by
    unfold fromAtoms at h
    generalize ({ members := replicate n false, count := 0 } : GroundedSeedSet) = start at h
    induction atoms generalizing start with
    | nil => exact fun a ha => absurd ha not_mem_nil
    | cons atom rest ih =>
      rw [foldlM_cons, bind_eq_ok] at h
      obtain ⟨next, hnext, hrest⟩ := h
      split_ifs at hnext with hge
      rw [forall_mem_cons]
      exact ⟨Nat.lt_of_not_le hge, ih next hrest⟩
  obtain ⟨set', hset', hmem⟩ := exists_fromAtoms hlt
  rw [h] at hset'
  cases hset'
  exact hmem a

end GroundedSeedSet

structure GroundedProgram where
  atomCount : ℕ
  seeds : GroundedSeedSet
  rules : List GroundedRule
  deriving DecidableEq

namespace GroundedProgram

/-- `program.rules[rule]`; the ids in use are in range. -/
def rule (program : GroundedProgram) (id : GroundedRuleId) : GroundedRule :=
  program.rules[id]?.getD default

def validateAtom (program : GroundedProgram) (atom : GroundedAtomId) :
    Except GroundedClosureError Unit :=
  if atom < program.atomCount then .ok () else .error (.atomOutsideUniverse atom)

def validateRule (program : GroundedProgram) (rule : GroundedRuleId) :
    Except GroundedClosureError Unit :=
  if rule < program.rules.length then .ok () else .error (.ruleOutsideProgram rule)

def validate (program : GroundedProgram) : Except GroundedClosureError Unit := do
  forM program.seeds.iter program.validateAtom
  forM program.rules fun rule => do
    program.validateAtom rule.head
    forM rule.body program.validateAtom

def new (atomCount : ℕ) (seeds : List GroundedAtomId) (rules : List GroundedRule) :
    Except GroundedClosureError GroundedProgram := do
  let seeds ← GroundedSeedSet.fromAtoms atomCount seeds
  let program : GroundedProgram := { atomCount, seeds, rules }
  program.validate
  return program

structure Valid (program : GroundedProgram) : Prop where
  members : program.seeds.members.length = program.atomCount
  head : ∀ rule ∈ program.rules, rule.head < program.atomCount
  body : ∀ rule ∈ program.rules, ∀ b ∈ rule.body, b < program.atomCount

variable {program : GroundedProgram} {seeds : List GroundedAtomId} {rules : List GroundedRule}
  {r : GroundedRuleId}

theorem validateAtom_eq_ok : program.validateAtom atom = .ok () ↔ atom < program.atomCount := by
  unfold validateAtom
  split_ifs with h <;> simp [h]

theorem validateRule_eq_ok {rule : GroundedRuleId} :
    program.validateRule rule = .ok () ↔ rule < program.rules.length := by
  unfold validateRule
  split_ifs with h <;> simp [h]

theorem validate_eq_ok : program.validate = .ok () ↔
    (∀ seed ∈ program.seeds.iter, seed < program.atomCount) ∧
    ∀ rule ∈ program.rules, rule.head < program.atomCount ∧
      ∀ b ∈ rule.body, b < program.atomCount := by
  simp only [validate, seq_eq_ok, forM_eq_ok, validateAtom_eq_ok]

theorem new_valid (h : new n seeds rules = .ok program) :
    program.Valid ∧ program.atomCount = n := by
  simp only [new, bind_eq_ok] at h
  obtain ⟨set, hset, ⟨⟩, hv, h⟩ := h
  cases h
  rw [validate_eq_ok] at hv
  exact ⟨⟨GroundedSeedSet.length_of_fromAtoms hset, fun rule hr => (hv.2 rule hr).1,
    fun rule hr => (hv.2 rule hr).2⟩, rfl⟩

theorem new_eq_ok (h : new n seeds rules = .ok program) :
    program.rules = rules ∧ ∀ a, program.seeds.contains a = true ↔ a ∈ seeds := by
  simp only [new, bind_eq_ok] at h
  obtain ⟨set, hset, ⟨⟩, _, h⟩ := h
  cases h
  exact ⟨rfl, GroundedSeedSet.contains_of_fromAtoms hset⟩

theorem Valid.validate (h : program.Valid) : program.validate = .ok () := by
  rw [validate_eq_ok]
  refine ⟨fun seed hs => ?_, fun rule hr => ⟨h.head rule hr, h.body rule hr⟩⟩
  exact h.members ▸ GroundedSeedSet.lt_of_contains (GroundedSeedSet.mem_iter.mp hs)

theorem rule_mem (h : r < program.rules.length) : program.rule r ∈ program.rules := by
  unfold rule
  rw [getElem?_eq_getElem h]
  exact getElem_mem h

theorem mem_rules_iff {rule : GroundedRule} :
    rule ∈ program.rules ↔ ∃ r < program.rules.length, program.rule r = rule := by
  constructor
  · intro h
    obtain ⟨r, hr, heq⟩ := getElem_of_mem h
    exact ⟨r, hr, by rw [GroundedProgram.rule, getElem?_eq_getElem hr, Option.getD_some, heq]⟩
  · rintro ⟨r, hr, rfl⟩
    exact rule_mem hr

theorem lt_of_enabled (h : (program.rule r).enabled = true) : r < program.rules.length := by
  by_contra hr
  rw [rule, getElem?_eq_none (Nat.le_of_not_lt hr)] at h
  exact absurd h (by decide)

theorem Valid.rule_head_lt (hv : program.Valid) (h : (program.rule r).enabled = true) :
    (program.rule r).head < program.atomCount :=
  hv.head _ (rule_mem (lt_of_enabled h))

theorem Valid.rule_body_lt (hv : program.Valid) {r b : ℕ} (hb : b ∈ (program.rule r).body) :
    b < program.atomCount := by
  by_cases hr : r < program.rules.length
  · exact hv.body _ (rule_mem hr) b hb
  · rw [rule, getElem?_eq_none (Nat.le_of_not_lt hr)] at hb
    exact absurd hb not_mem_nil

def Fact (program : GroundedProgram) (atom : GroundedAtomId) : Prop :=
  program.seeds.contains atom = true

def HornRule (program : GroundedProgram) (body : List GroundedAtomId) (head : GroundedAtomId) :
    Prop :=
  ∃ rule ∈ program.rules, rule.enabled = true ∧ rule.body = body ∧ rule.head = head

def LeastFixpoint (program : GroundedProgram) (atom : GroundedAtomId) : Prop :=
  Derivable program.Fact program.HornRule atom

end GroundedProgram

end Cfmd.Grounded
