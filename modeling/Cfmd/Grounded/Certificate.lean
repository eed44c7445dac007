import Mathlib.Data.List.Count
import Mathlib.Data.List.MinMax
import Cfmd.Grounded.Program

/-! Certificates of a grounded closure: which atoms are live, with a rank and a
witness for each of them, and the checker that accepts exactly the certificates
of the least fixpoint. -/

namespace Cfmd.Grounded
open Lib

inductive GroundedWitness
  | seed
  | rule (id : GroundedRuleId)
  deriving DecidableEq

structure GroundedCertificate where
  live : List Bool
  rank : List (Option ℕ)
  witness : List (Option GroundedWitness)
  deriving DecidableEq

structure GroundedWorkStats where
  incidenceUpdates : ℕ
  dependencyWalks : ℕ
  ruleFires : ℕ
  affectedAtoms : ℕ
  deriving DecidableEq

namespace GroundedWorkStats

instance : Inhabited GroundedWorkStats := ⟨⟨0, 0, 0, 0⟩⟩

def incidenceUpdate (stats : GroundedWorkStats) : GroundedWorkStats :=
  { stats with incidenceUpdates := saturatingSucc stats.incidenceUpdates }

def dependencyWalk (stats : GroundedWorkStats) : GroundedWorkStats :=
  { stats with dependencyWalks := saturatingSucc stats.dependencyWalks }

def ruleFire (stats : GroundedWorkStats) : GroundedWorkStats :=
  { stats with ruleFires := saturatingSucc stats.ruleFires }

end GroundedWorkStats

namespace GroundedCertificate

def isLive (c : GroundedCertificate) (atom : GroundedAtomId) : Bool := c.live[atom]?.getD false

def rankOf (c : GroundedCertificate) (atom : GroundedAtomId) : Option ℕ := c.rank[atom]?.getD none

def witnessOf (c : GroundedCertificate) (atom : GroundedAtomId) : Option GroundedWitness :=
  c.witness[atom]?.getD none

def liveAtoms (c : GroundedCertificate) : List GroundedAtomId :=
  (List.range c.live.length).filter fun atom => c.isLive atom

def empty (atomCount : ℕ) : GroundedCertificate :=
  ⟨List.replicate atomCount false, List.replicate atomCount none, List.replicate atomCount none⟩

def setProof (c : GroundedCertificate) (atom : GroundedAtomId) (rank : ℕ)
    (witness : GroundedWitness) : GroundedCertificate :=
  ⟨c.live.set atom true, c.rank.set atom (some rank), c.witness.set atom (some witness)⟩

def clearProof (c : GroundedCertificate) (atom : GroundedAtomId) : GroundedCertificate :=
  ⟨c.live.set atom false, c.rank.set atom none, c.witness.set atom none⟩

def resizeAtoms (c : GroundedCertificate) (atomCount : ℕ) : GroundedCertificate :=
  ⟨resize c.live atomCount false, resize c.rank atomCount none, resize c.witness atomCount none⟩

def ruleRank (c : GroundedCertificate) (rule : GroundedRule) : ℕ :=
  match (rule.body.filterMap c.rankOf).max? with
  | none => 0
  | some rank => saturatingSucc rank

structure HasSize (c : GroundedCertificate) (n : ℕ) : Prop where
  live : c.live.length = n
  rank : c.rank.length = n
  witness : c.witness.length = n

variable {c : GroundedCertificate} {n : ℕ} {a : GroundedAtomId}

theorem HasSize.setProof (h : c.HasSize n) (a : GroundedAtomId) (k : ℕ) (w : GroundedWitness) :
    (c.setProof a k w).HasSize n :=
  ⟨by simpa [GroundedCertificate.setProof] using h.live,
    by simpa [GroundedCertificate.setProof] using h.rank,
    by simpa [GroundedCertificate.setProof] using h.witness⟩

theorem HasSize.clearProof (h : c.HasSize n) (a : GroundedAtomId) : (c.clearProof a).HasSize n :=
  ⟨by simpa [GroundedCertificate.clearProof] using h.live,
    by simpa [GroundedCertificate.clearProof] using h.rank,
    by simpa [GroundedCertificate.clearProof] using h.witness⟩

theorem hasSize_empty (n : ℕ) : (empty n).HasSize n := by
  constructor <;> simp [empty]

theorem isLive_empty (n a : ℕ) : (empty n).isLive a = false := getD_replicate_self _ _ _

section
variable (h : c.HasSize n)
include h

theorem HasSize.lt_of_isLive (ha : c.isLive a = true) : a < n := h.live ▸ lt_length_of_getD_true ha

section
variable (ha : a < n) (k : ℕ) (w : GroundedWitness) (b : GroundedAtomId)
include ha k w b

theorem isLive_setProof : (c.setProof a k w).isLive b = if a = b then true else c.isLive b := by
  simp only [isLive, setProof, getD_set, h.live, ha, and_true]

theorem rankOf_setProof : (c.setProof a k w).rankOf b = if a = b then some k else c.rankOf b := by
  simp only [rankOf, setProof, getD_set, h.rank, ha, and_true]

theorem witnessOf_setProof :
    (c.setProof a k w).witnessOf b = if a = b then some w else c.witnessOf b := by
  simp only [witnessOf, setProof, getD_set, h.witness, ha, and_true]

end

section
variable (ha : a < n) (b : GroundedAtomId)
include ha

theorem isLive_clearProof : (c.clearProof a).isLive b = if a = b then false else c.isLive b := by
  simp only [isLive, clearProof, getD_set, h.live, ha, and_true]

theorem rankOf_clearProof : (c.clearProof a).rankOf b = if a = b then none else c.rankOf b := by
  simp only [rankOf, clearProof, getD_set, h.rank, ha, and_true]

theorem witnessOf_clearProof :
    (c.clearProof a).witnessOf b = if a = b then none else c.witnessOf b := by
  simp only [witnessOf, clearProof, getD_set, h.witness, ha, and_true]

end

end

theorem hasSize_resizeAtoms (c : GroundedCertificate) (n : ℕ) : (c.resizeAtoms n).HasSize n :=
  ⟨length_resize _ _ _, length_resize _ _ _, length_resize _ _ _⟩

theorem HasSize.resizeAtoms (h : c.HasSize n) {n' : ℕ} (hn : n ≤ n') (a : GroundedAtomId) :
    (c.resizeAtoms n').isLive a = c.isLive a ∧ (c.resizeAtoms n').rankOf a = c.rankOf a ∧
      (c.resizeAtoms n').witnessOf a = c.witnessOf a :=
  ⟨getD_resize_of_le (h.live ▸ hn) a false, getD_resize_of_le (h.rank ▸ hn) a none,
    getD_resize_of_le (h.witness ▸ hn) a none⟩

theorem mem_liveAtoms : a ∈ c.liveAtoms ↔ c.isLive a = true := by
  simp only [liveAtoms, List.mem_filter, List.mem_range]
  exact ⟨fun h => h.2, fun h => ⟨lt_length_of_getD_true h, h⟩⟩

end GroundedCertificate

end Cfmd.Grounded
