import Cfmd.Grounded.ProofStep

/-! The incidence index of a program and the reverse index of the selected
witnesses, with what their builders and updates keep true of them. -/

namespace Cfmd.Grounded
open Lib Std List

structure GroundedIncidenceIndex where
  dependents : List (List GroundedRuleId)
  byHead : List (List GroundedRuleId)
  deriving DecidableEq

variable {program : GroundedProgram}

namespace GroundedIncidenceIndex

def dependentsOf (index : GroundedIncidenceIndex) (atom : GroundedAtomId) : List GroundedRuleId :=
  index.dependents[atom]?.getD []

def headedBy (index : GroundedIncidenceIndex) (atom : GroundedAtomId) : List GroundedRuleId :=
  index.byHead[atom]?.getD []

def appendRule (index : GroundedIncidenceIndex) (id : GroundedRuleId) (rule : GroundedRule) :
    GroundedIncidenceIndex where
  byHead := index.byHead.modify rule.head (· ++ [id])
  dependents := modifyAll rule.body (· ++ [id]) index.dependents

def compile (program : GroundedProgram) : GroundedIncidenceIndex :=
  program.rules.zipIdx.foldl (fun index entry => index.appendRule entry.2 entry.1)
    ⟨replicate program.atomCount [], replicate program.atomCount []⟩

def resizeAtoms (index : GroundedIncidenceIndex) (atomCount : ℕ) : GroundedIncidenceIndex :=
  ⟨resize index.dependents atomCount [], resize index.byHead atomCount []⟩

/-- The index lists, for each atom, the rules it feeds and the rules it heads. -/
structure Indexes (index : GroundedIncidenceIndex) (atomCount : ℕ) (rules : List GroundedRule) :
    Prop where
  length_dependents : index.dependents.length = atomCount
  length_byHead : index.byHead.length = atomCount
  mem_dependents : ∀ a r, r ∈ index.dependentsOf a ↔ ∃ rule, rules[r]? = some rule ∧ a ∈ rule.body
  mem_byHead : ∀ a r, r ∈ index.headedBy a ↔ ∃ rule, rules[r]? = some rule ∧ rule.head = a
  nodup_dependents : ∀ a, (index.dependentsOf a).Nodup
  nodup_byHead : ∀ a, (index.headedBy a).Nodup

variable {index : GroundedIncidenceIndex} {n : ℕ} {rules : List GroundedRule}

theorem indexes_empty (n : ℕ) : Indexes ⟨replicate n [], replicate n []⟩ n [] := by
  constructor <;> simp only [dependentsOf, headedBy, getD_replicate_self] <;> simp

theorem nodup_append_fresh {ids : List GroundedRuleId} (hnd : ids.Nodup)
    (h : ∀ r ∈ ids, ∃ rule, rules[r]? = some rule) : (ids ++ [rules.length]).Nodup := by
  have hfresh : rules.length ∉ ids := by
    intro hmem
    obtain ⟨rule, hrule⟩ := h _ hmem
    exact absurd (List.getElem?_eq_some_iff.mp hrule).1 (lt_irrefl _)
  exact hnd.append (nodup_singleton _) (by simpa using hfresh)

theorem getElem?_append_rule (rules : List GroundedRule) (rule : GroundedRule)
    (q : GroundedRule → Prop) (r : ℕ) :
    (∃ x, (rules ++ [rule])[r]? = some x ∧ q x) ↔
      (∃ x, rules[r]? = some x ∧ q x) ∨ (r = rules.length ∧ q rule) := by
  rw [getElem?_append]
  split_ifs with hr
  · exact ⟨.inl, fun h => h.elim id fun h' => absurd h'.1 hr.ne⟩
  have hnone : rules[r]? = none := getElem?_eq_none (Nat.le_of_not_lt hr)
  rw [hnone]
  by_cases heq : r = rules.length
  · simp [heq]
  · have hsub : ¬ r - rules.length = 0 := by omega
    simp [heq, hsub]

theorem Indexes.appendRule (h : index.Indexes n rules) {rule : GroundedRule}
    (hhead : rule.head < n) (hbody : ∀ b ∈ rule.body, b < n) :
    (index.appendRule rules.length rule).Indexes n (rules ++ [rule]) := by
  have hdep : ∀ a, (index.appendRule rules.length rule).dependentsOf a =
      if a ∈ rule.body then index.dependentsOf a ++ [rules.length] else index.dependentsOf a := by
    intro a
    simp only [dependentsOf, GroundedIncidenceIndex.appendRule, getD_modifyAll rule.body_nodup,
      h.length_dependents]
    by_cases ha : a ∈ rule.body
    · simp [ha, hbody a ha]
    · simp [ha]
  have hbyh : ∀ a, (index.appendRule rules.length rule).headedBy a =
      if rule.head = a then index.headedBy a ++ [rules.length] else index.headedBy a := by
    intro a
    simp only [headedBy, GroundedIncidenceIndex.appendRule, getD_modify, h.length_byHead, hhead,
      and_true]
  refine ⟨?_, ?_, fun a r => ?_, fun a r => ?_, fun a => ?_, fun a => ?_⟩
  · simpa [GroundedIncidenceIndex.appendRule] using h.length_dependents
  · simpa [GroundedIncidenceIndex.appendRule] using h.length_byHead
  · rw [hdep, getElem?_append_rule, ← h.mem_dependents]
    split_ifs with ha <;> simp [ha]
  · rw [hbyh, getElem?_append_rule, ← h.mem_byHead]
    split_ifs with ha <;> simp [ha]
  · rw [hdep]
    split_ifs with ha
    · refine nodup_append_fresh (h.nodup_dependents a) fun r hr => ?_
      obtain ⟨rule, hrule, _⟩ := (h.mem_dependents a r).mp hr
      exact ⟨rule, hrule⟩
    · exact h.nodup_dependents a
  · rw [hbyh]
    split_ifs with ha
    · refine nodup_append_fresh (h.nodup_byHead a) fun r hr => ?_
      obtain ⟨rule, hrule, _⟩ := (h.mem_byHead a r).mp hr
      exact ⟨rule, hrule⟩
    · exact h.nodup_byHead a

theorem Indexes.foldl_appendRule {rest : List GroundedRule} (h : index.Indexes n rules)
    (hhead : ∀ rule ∈ rest, rule.head < n) (hbody : ∀ rule ∈ rest, ∀ b ∈ rule.body, b < n) :
    ((rest.zipIdx rules.length).foldl
      (fun index entry => index.appendRule entry.2 entry.1) index).Indexes n (rules ++ rest) := by
  induction rest generalizing index rules with
  | nil => simpa using h
  | cons rule rest ih =>
    have hstep := h.appendRule (hhead rule mem_cons_self) (hbody rule mem_cons_self)
    have hrest := ih hstep (fun x hx => hhead x (mem_cons_of_mem _ hx))
      (fun x hx => hbody x (mem_cons_of_mem _ hx))
    simpa using hrest

theorem indexes_compile (hv : program.Valid) :
    (compile program).Indexes program.atomCount program.rules := by
  have h := (indexes_empty program.atomCount).foldl_appendRule hv.head hv.body
  simpa [compile] using h

theorem Indexes.resizeAtoms (h : index.Indexes n rules) {m : ℕ} (hm : n ≤ m) :
    (index.resizeAtoms m).Indexes m rules := by
  have hdep : ∀ a, (index.resizeAtoms m).dependentsOf a = index.dependentsOf a := fun a =>
    getD_resize_of_le (h.length_dependents ▸ hm) a []
  have hbyh : ∀ a, (index.resizeAtoms m).headedBy a = index.headedBy a := fun a =>
    getD_resize_of_le (h.length_byHead ▸ hm) a []
  refine ⟨length_resize _ _ _, length_resize _ _ _, fun a r => ?_, fun a r => ?_, fun a => ?_,
    fun a => ?_⟩
  · rw [hdep, h.mem_dependents]
  · rw [hbyh, h.mem_byHead]
  · rw [hdep]
    exact h.nodup_dependents a
  · rw [hbyh]
    exact h.nodup_byHead a

end GroundedIncidenceIndex

structure IndexedBy (program : GroundedProgram) (index : GroundedIncidenceIndex) : Prop where
  mem_dependents : ∀ a r, r ∈ index.dependentsOf a ↔
    r < program.rules.length ∧ a ∈ (program.rule r).body
  mem_byHead : ∀ a r, r ∈ index.headedBy a ↔ r < program.rules.length ∧ (program.rule r).head = a
  nodup_dependents : ∀ a, (index.dependentsOf a).Nodup
  nodup_byHead : ∀ a, (index.headedBy a).Nodup

theorem GroundedIncidenceIndex.Indexes.indexedBy {index : GroundedIncidenceIndex} {n : ℕ}
    (h : index.Indexes n program.rules) :
    IndexedBy program index := by
  have hget : ∀ (q : GroundedRule → Prop) (r : ℕ), (∃ x, program.rules[r]? = some x ∧ q x) ↔
      r < program.rules.length ∧ q (program.rule r) := by
    intro q r
    by_cases hr : r < program.rules.length
    · simp [GroundedProgram.rule, hr]
    · simp [hr]
  exact ⟨fun a r => (h.mem_dependents a r).trans (hget _ r),
    fun a r => (h.mem_byHead a r).trans (hget _ r), h.nodup_dependents, h.nodup_byHead⟩

/-! ## The reverse index of the selected witnesses -/

structure GroundedWitnessIndex where
  children : List (ExtTreeSet GroundedAtomId)

namespace GroundedWitnessIndex

def childrenOf (w : GroundedWitnessIndex) (premise : GroundedAtomId) :
    ExtTreeSet GroundedAtomId :=
  w.children[premise]?.getD ∅

def installFromCertificate (w : GroundedWitnessIndex) (program : GroundedProgram)
    (c : GroundedCertificate) (atom : GroundedAtomId) : GroundedWitnessIndex :=
  match c.witnessOf atom with
  | some (.rule id) =>
    ⟨modifyAll (program.rule id).body (fun children => children.insert atom) w.children⟩
  | _ => w

def removeFromCertificate (w : GroundedWitnessIndex) (program : GroundedProgram)
    (c : GroundedCertificate) (atom : GroundedAtomId) : GroundedWitnessIndex :=
  match c.witnessOf atom with
  | some (.rule id) =>
    ⟨modifyAll (program.rule id).body (fun children => children.erase atom) w.children⟩
  | _ => w

def compile (program : GroundedProgram) (c : GroundedCertificate) : GroundedWitnessIndex :=
  c.liveAtoms.foldl (fun w atom => w.installFromCertificate program c atom)
    ⟨replicate program.atomCount ∅⟩

def resizeAtoms (w : GroundedWitnessIndex) (atomCount : ℕ) : GroundedWitnessIndex :=
  ⟨resize w.children atomCount ∅⟩

end GroundedWitnessIndex

def selectedPremises (program : GroundedProgram) (c : GroundedCertificate)
    (a : GroundedAtomId) : List GroundedAtomId :=
  match c.witnessOf a with
  | some (.rule r) => (program.rule r).body
  | _ => []

structure WitnessIndexed (program : GroundedProgram) (c : GroundedCertificate)
    (w : GroundedWitnessIndex) : Prop where
  length : w.children.length = program.atomCount
  mem : ∀ p a, a ∈ w.childrenOf p ↔ p ∈ selectedPremises program c a

section WitnessIndex
variable {program : GroundedProgram} {c : GroundedCertificate} {w : GroundedWitnessIndex}
  {a : GroundedAtomId}

theorem selectedPremises_nodup (program : GroundedProgram) (c : GroundedCertificate)
    (a : GroundedAtomId) : (selectedPremises program c a).Nodup := by
  unfold selectedPremises
  split
  · exact GroundedRule.body_nodup _
  · exact nodup_nil

theorem lt_of_mem_selectedPremises (hv : program.Valid) {p : GroundedAtomId}
    (h : p ∈ selectedPremises program c a) : p < program.atomCount := by
  unfold selectedPremises at h
  split at h
  · exact hv.rule_body_lt h
  · exact absurd h not_mem_nil

open GroundedWitnessIndex (childrenOf)

theorem installFromCertificate_eq (a : GroundedAtomId) :
    w.installFromCertificate program c a =
      ⟨modifyAll (selectedPremises program c a) (fun s => s.insert a) w.children⟩ := by
  unfold GroundedWitnessIndex.installFromCertificate selectedPremises
  split <;> rfl

theorem removeFromCertificate_eq (a : GroundedAtomId) :
    w.removeFromCertificate program c a =
      ⟨modifyAll (selectedPremises program c a) (fun s => s.erase a) w.children⟩ := by
  unfold GroundedWitnessIndex.removeFromCertificate selectedPremises
  split <;> rfl

section
variable (hv : program.Valid) (atoms : List GroundedAtomId)
  (hw : w.children.length = program.atomCount)
include hv hw

theorem childrenOf_modifyAll (f : ExtTreeSet GroundedAtomId → ExtTreeSet GroundedAtomId)
    (a p : GroundedAtomId) :
    childrenOf ⟨modifyAll (selectedPremises program c a) f w.children⟩ p =
      if p ∈ selectedPremises program c a then f (w.childrenOf p) else w.childrenOf p := by
  rw [childrenOf, getD_modifyAll (selectedPremises_nodup program c a), hw]
  by_cases hp : p ∈ selectedPremises program c a
  · simp [hp, lt_of_mem_selectedPremises hv hp, childrenOf]
  · simp [hp, childrenOf]

theorem mem_childrenOf_install (a p x : GroundedAtomId) :
    x ∈ (w.installFromCertificate program c a).childrenOf p ↔
      (a = x ∧ p ∈ selectedPremises program c a) ∨ x ∈ w.childrenOf p := by
  rw [installFromCertificate_eq, childrenOf_modifyAll hv hw]
  split <;> simp [*]

theorem notMem_childrenOf_remove (a p x : GroundedAtomId) :
    x ∉ (w.removeFromCertificate program c a).childrenOf p ↔
      (a = x ∧ p ∈ selectedPremises program c a) ∨ x ∉ w.childrenOf p := by
  rw [removeFromCertificate_eq, childrenOf_modifyAll hv hw]
  split <;> simp [*, or_iff_not_imp_left]

theorem mem_childrenOf_foldl_install :
    let w' := atoms.foldl (fun w a => w.installFromCertificate program c a) w
    w'.children.length = program.atomCount ∧ ∀ p x, x ∈ w'.childrenOf p ↔
      (x ∈ atoms ∧ p ∈ selectedPremises program c x) ∨ x ∈ w.childrenOf p := by
  have hlen : ∀ w : GroundedWitnessIndex, ∀ a ∈ atoms, w.children.length = program.atomCount →
      (w.installFromCertificate program c a).children.length = program.atomCount := by
    intro w a _ hw
    rw [installFromCertificate_eq, length_modifyAll, hw]
  refine ⟨foldl_inv atoms hlen hw, fun p x => ?_⟩
  rw [foldl_adds_of_inv (V := fun w => x ∈ w.childrenOf p) atoms hlen
    (fun w a _ hw => mem_childrenOf_install hv hw a p x) hw]
  simp

theorem mem_childrenOf_foldl_remove :
    let w' := atoms.foldl (fun w a => w.removeFromCertificate program c a) w
    w'.children.length = program.atomCount ∧ ∀ p x, x ∈ w'.childrenOf p ↔
      ¬ (x ∈ atoms ∧ p ∈ selectedPremises program c x) ∧ x ∈ w.childrenOf p := by
  have hlen : ∀ w : GroundedWitnessIndex, ∀ a ∈ atoms, w.children.length = program.atomCount →
      (w.removeFromCertificate program c a).children.length = program.atomCount := by
    intro w a _ hw
    rw [removeFromCertificate_eq, length_modifyAll, hw]
  refine ⟨foldl_inv atoms hlen hw, fun p x => ?_⟩
  rw [← not_iff_not, foldl_adds_of_inv (V := fun w => x ∉ w.childrenOf p) atoms hlen
    (fun w a _ hw => notMem_childrenOf_remove hv hw a p x) hw, not_and_or, not_not]
  simp

end

theorem witnessIndexed_compile (hv : program.Valid)
    (hlive : ∀ a, c.isLive a = false → c.witnessOf a = none) :
    WitnessIndexed program c (GroundedWitnessIndex.compile program c) := by
  obtain ⟨hlen, hmem⟩ := mem_childrenOf_foldl_install (c := c) hv c.liveAtoms
    (w := ⟨replicate program.atomCount ∅⟩) length_replicate
  refine ⟨hlen, fun p a => ?_⟩
  have hempty : a ∉ childrenOf ⟨replicate program.atomCount ∅⟩ p := by
    rw [childrenOf, getD_replicate_self]
    simp
  rw [GroundedWitnessIndex.compile, hmem, GroundedCertificate.mem_liveAtoms]
  refine ⟨fun h => (h.resolve_right hempty).2, fun h => .inl ⟨?_, h⟩⟩
  by_contra hdead
  rw [selectedPremises, hlive a (by simpa using hdead)] at h
  exact absurd h not_mem_nil

theorem WitnessIndexed.resizeAtoms {n : ℕ} (h : WitnessIndexed program c w)
    (hn : program.atomCount ≤ n) {program' : GroundedProgram} {c' : GroundedCertificate}
    (hcount : program'.atomCount = n)
    (hsel : ∀ a, selectedPremises program' c' a = selectedPremises program c a) :
    WitnessIndexed program' c' (w.resizeAtoms n) := by
  refine ⟨by rw [hcount]; exact length_resize _ _ _, fun p a => ?_⟩
  have hget : (w.resizeAtoms n).childrenOf p = w.childrenOf p :=
    getD_resize_of_le (h.length ▸ hn) p ∅
  rw [hget, h.mem, hsel]

theorem selectedPremises_setProof (hs : c.HasSize program.atomCount) (ha : a < program.atomCount)
    (k : ℕ) (wit : GroundedWitness) {x : GroundedAtomId} (hx : a ≠ x) :
    selectedPremises program (c.setProof a k wit) x = selectedPremises program c x := by
  simp only [selectedPremises, GroundedCertificate.witnessOf_setProof hs ha, if_neg hx]

theorem WitnessIndexed.install (hv : program.Valid) (h : WitnessIndexed program c w)
    (hj : Justified program c) (ha : a < program.atomCount) (hdead : c.isLive a = false) (k : ℕ)
    (wit : GroundedWitness) :
    WitnessIndexed program (c.setProof a k wit)
      (w.installFromCertificate program (c.setProof a k wit) a) := by
  refine ⟨by rw [installFromCertificate_eq, length_modifyAll, h.length], fun p x => ?_⟩
  rw [mem_childrenOf_install hv h.length, h.mem]
  by_cases hax : a = x
  · subst hax
    have hnone : selectedPremises program c a = [] := by
      rw [selectedPremises, (hj.dead a hdead).2]
    simp [hnone]
  · rw [selectedPremises_setProof hj.size ha k wit hax]
    simp [hax]

theorem WitnessIndexed.setSeed (h : WitnessIndexed program c w) (hj : Justified program c)
    (ha : a < program.atomCount) (hdead : c.isLive a = false) :
    WitnessIndexed program (c.setProof a 0 .seed) w := by
  refine ⟨h.length, fun p x => ?_⟩
  rw [h.mem]
  by_cases hax : a = x
  · subst hax
    rw [selectedPremises, selectedPremises, (hj.dead a hdead).2,
      GroundedCertificate.witnessOf_setProof hj.size ha, if_pos rfl]
  · rw [selectedPremises_setProof hj.size ha 0 .seed hax]

end WitnessIndex

end Cfmd.Grounded
