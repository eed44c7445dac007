import Mathlib.Data.Finset.Basic
import Cfmd.Lib.KeyedList
import Cfmd.Lib.Loop
import Cfmd.Types

/-! Stable sequence intents name occurrences and gaps by identity. Resolved against a snapshot, an
intent is an edit of the keyed occurrence list, and a pair that the classifier calls coordination
free commutes unless both insert into one gap. -/

namespace Cfmd.Rewrite
open Lib Std List

abbrev SeqOccurrenceId := SemanticId
abbrev SeqAnchorHistoryId := SemanticId

structure StableSeqGapAnchor where
  id : SemanticId
  history : SeqAnchorHistoryId
  left : Option SeqOccurrenceId
  right : Option SeqOccurrenceId
deriving DecidableEq, Repr

structure StableSeqOccurrence (T : Type) where
  id : SeqOccurrenceId
  value : T
deriving DecidableEq, Repr

structure StableSeqSnapshot (T : Type) where
  sequence : SemanticId
  retainedAnchorHistories : ExtTreeSet SeqAnchorHistoryId
  occurrences : List (StableSeqOccurrence T)

inductive StableSeqRewriteIntent (T : Type) where
  | insert (sequence : SemanticId) (anchor : StableSeqGapAnchor) (occurrence : SeqOccurrenceId)
      (value : T)
  | replace (sequence : SemanticId) (occurrence : SeqOccurrenceId) (value : T)
  | delete (sequence : SemanticId) (occurrence : SeqOccurrenceId)

def StableSeqRewriteIntent.sequence {T : Type} : StableSeqRewriteIntent T → SemanticId
  | .insert sequence _ _ _ => sequence
  | .replace sequence _ _ => sequence
  | .delete sequence _ => sequence

inductive StableSeqRewriteError where
  | wrongSequence
  | footprintMismatch
  | missingOccurrence (occurrence : SeqOccurrenceId)
  | duplicateOccurrence (occurrence : SeqOccurrenceId)
  | expiredAnchorHistory (history : SeqAnchorHistoryId)
  | anchorNoLongerGap (anchor : SemanticId)
  | resolvedSpliceInvalid
deriving DecidableEq, Repr

inductive StableSeqPairDecision where
  | coordinationFree
  | sameGapOrderingRequired (anchor : StableSeqGapAnchor)
  | conflictingOccurrenceRewrite (occurrence : SeqOccurrenceId)
deriving DecidableEq, Repr

/-! ## Splices -/

structure SeqSplice (T : Type) where
  start : ℕ
  deleteCount : ℕ
  insert : List T
deriving DecidableEq, Repr

inductive SeqChangeError where
  | startOutOfBounds
  | deleteOutOfBounds
deriving DecidableEq, Repr

/-- A sum past `usize::MAX` is past the length of the list too, with the same error. -/
def SeqSplice.apply {T : Type} (splice : SeqSplice T) (old : List T) :
    Except SeqChangeError (List T) :=
  if splice.start > old.length then .error .startOutOfBounds
  else if splice.start + splice.deleteCount > old.length then .error .deleteOutOfBounds
  else .ok (old.take splice.start ++ splice.insert ++ old.drop (splice.start + splice.deleteCount))

theorem SeqSplice.apply_append {T : Type} (xs ys zs ins : List T) :
    SeqSplice.apply ⟨xs.length, ys.length, ins⟩ (xs ++ ys ++ zs) = .ok (xs ++ ins ++ zs) := by
  unfold SeqSplice.apply
  have hstart : ¬ xs.length > (xs ++ ys ++ zs).length := by simp
  have hend : ¬ xs.length + ys.length > (xs ++ ys ++ zs).length := by simp
  have htake : (xs ++ ys ++ zs).take xs.length = xs := by simp
  have hdrop : (xs ++ ys ++ zs).drop (xs.length + ys.length) = zs := by
    rw [← length_append, drop_left]
  simp only [if_neg hstart, if_neg hend, htake, hdrop]

theorem SeqSplice.apply_insert {T : Type} (xs ys : List T) (entry : T) :
    SeqSplice.apply ⟨xs.length, 0, [entry]⟩ (xs ++ ys) = .ok (xs ++ entry :: ys) := by
  have happly := apply_append xs [] ys [entry]
  simpa using happly

theorem SeqSplice.apply_replace {T : Type} (xs : List T) (entry : T) (ys ins : List T) :
    SeqSplice.apply ⟨xs.length, 1, ins⟩ (xs ++ entry :: ys) = .ok (xs ++ ins ++ ys) := by
  have happly := apply_append xs [entry] ys ins
  simpa using happly

/-! ## Resolution -/

section Resolve
variable {T : Type} (snapshot : StableSeqSnapshot T) (occurrenceIndex : SeqOccurrenceId → Option ℕ)

def requiredOccurrenceIndex (occurrence : SeqOccurrenceId) : Except StableSeqRewriteError ℕ :=
  match occurrenceIndex occurrence with
  | some index => .ok index
  | none => .error (.missingOccurrence occurrence)

def resolveGapWithLookup (anchor : StableSeqGapAnchor) : Except StableSeqRewriteError ℕ :=
  if !snapshot.retainedAnchorHistories.contains anchor.history then
    .error (.expiredAnchorHistory anchor.history)
  else match anchor.left, anchor.right with
    | none, none =>
      if snapshot.occurrences.length = 0 then .ok 0 else .error (.anchorNoLongerGap anchor.id)
    | none, some right => do
      let right ← requiredOccurrenceIndex occurrenceIndex right
      if right ≠ 0 then .error (.anchorNoLongerGap anchor.id) else .ok 0
    | some left, none => do
      let left ← requiredOccurrenceIndex occurrenceIndex left
      if left + 1 ≠ snapshot.occurrences.length then .error (.anchorNoLongerGap anchor.id)
      else .ok snapshot.occurrences.length
    | some left, some right => do
      let left ← requiredOccurrenceIndex occurrenceIndex left
      let right ← requiredOccurrenceIndex occurrenceIndex right
      if left + 1 ≠ right then .error (.anchorNoLongerGap anchor.id) else .ok right

def resolveIntentWithLookup (intent : StableSeqRewriteIntent T) :
    Except StableSeqRewriteError (SeqSplice (StableSeqOccurrence T)) :=
  if intent.sequence ≠ snapshot.sequence then .error .wrongSequence
  else match intent with
    | .insert _ anchor occurrence value =>
      if (occurrenceIndex occurrence).isSome then .error (.duplicateOccurrence occurrence)
      else do
        let start ← resolveGapWithLookup snapshot occurrenceIndex anchor
        return ⟨start, 0, [⟨occurrence, value⟩]⟩
    | .replace _ occurrence value => do
      let start ← requiredOccurrenceIndex occurrenceIndex occurrence
      return ⟨start, 1, [⟨occurrence, value⟩]⟩
    | .delete _ occurrence => do
      let start ← requiredOccurrenceIndex occurrenceIndex occurrence
      return ⟨start, 1, []⟩

end Resolve

namespace StableSeqSnapshot
variable {T : Type}

def position (occurrences : List (StableSeqOccurrence T)) (occurrence : SeqOccurrenceId) :
    Option ℕ :=
  occurrences.findIdx? fun entry => entry.id == occurrence

def resolveIntent (snapshot : StableSeqSnapshot T) (intent : StableSeqRewriteIntent T) :
    Except StableSeqRewriteError (SeqSplice (StableSeqOccurrence T)) :=
  resolveIntentWithLookup snapshot (position snapshot.occurrences) intent

def materialize (snapshot : StableSeqSnapshot T) (intent : StableSeqRewriteIntent T) :
    Except StableSeqRewriteError (List (StableSeqOccurrence T)) := do
  let splice ← snapshot.resolveIntent intent
  match splice.apply snapshot.occurrences with
  | .ok next => .ok next
  | .error _ => .error .resolvedSpliceInvalid

/-- The loop of `prepare`: a second entry with one id is rejected. -/
def prepareFrom (index : ℕ) (indices : ExtTreeMap SeqOccurrenceId ℕ) :
    List (StableSeqOccurrence T) → Except StableSeqRewriteError (ExtTreeMap SeqOccurrenceId ℕ)
  | [] => .ok indices
  | entry :: rest =>
    if indices[entry.id]?.isSome then .error (.duplicateOccurrence entry.id)
    else prepareFrom (index + 1) (indices.insert entry.id index) rest

def prepare (snapshot : StableSeqSnapshot T) :
    Except StableSeqRewriteError (ExtTreeMap SeqOccurrenceId ℕ) :=
  prepareFrom 0 ∅ snapshot.occurrences

/-- `PreparedStableSeqSnapshot::resolve_intent`, on the index that `prepare` built. -/
def resolveIntentPrepared (snapshot : StableSeqSnapshot T)
    (indices : ExtTreeMap SeqOccurrenceId ℕ) (intent : StableSeqRewriteIntent T) :
    Except StableSeqRewriteError (SeqSplice (StableSeqOccurrence T)) :=
  resolveIntentWithLookup snapshot (fun occurrence => indices[occurrence]?) intent

end StableSeqSnapshot

/-! ## The pair classifier -/

section Classify
variable {T : Type}

def stableSeqTargetOccurrence : StableSeqRewriteIntent T → SeqOccurrenceId
  | .insert _ _ occurrence _ => occurrence
  | .replace _ occurrence _ => occurrence
  | .delete _ occurrence => occurrence

def anchorReferences (anchor : StableSeqGapAnchor) (occurrence : SeqOccurrenceId) : Bool :=
  anchor.left == some occurrence || anchor.right == some occurrence

def classifyStableSeqPair (left right : StableSeqRewriteIntent T) : StableSeqPairDecision :=
  if left.sequence ≠ right.sequence then .coordinationFree
  else if stableSeqTargetOccurrence left = stableSeqTargetOccurrence right then
    .conflictingOccurrenceRewrite (stableSeqTargetOccurrence left)
  else match left, right with
    | .insert _ leftAnchor _ _, .insert _ rightAnchor _ _ =>
      if leftAnchor = rightAnchor then .sameGapOrderingRequired leftAnchor else .coordinationFree
    | .delete _ deleted, .insert _ anchor _ _ =>
      if anchorReferences anchor deleted then .conflictingOccurrenceRewrite deleted
      else .coordinationFree
    | .insert _ anchor _ _, .delete _ deleted =>
      if anchorReferences anchor deleted then .conflictingOccurrenceRewrite deleted
      else .coordinationFree
    | _, _ => .coordinationFree

end Classify

/-! ## Resolution finds the edit that the intent names -/

section Spec
variable {T : Type} {occurrences xs ys : List (StableSeqOccurrence T)} {id : SeqOccurrenceId}
  {i : ℕ} {indices : ExtTreeMap SeqOccurrenceId ℕ} {intent : StableSeqRewriteIntent T}
  {splice : SeqSplice (StableSeqOccurrence T)} {next : List (StableSeqOccurrence T)}

abbrev ids (occurrences : List (StableSeqOccurrence T)) : List SeqOccurrenceId :=
  keys StableSeqOccurrence.id occurrences

def StableSeqRewriteIntent.edit :
    StableSeqRewriteIntent T → Edit (StableSeqOccurrence T) SeqOccurrenceId
  | .insert _ anchor occurrence value => .insert anchor.left anchor.right ⟨occurrence, value⟩
  | .replace _ occurrence value => .replace occurrence [⟨occurrence, value⟩]
  | .delete _ occurrence => .replace occurrence []

open StableSeqSnapshot (position prepareFrom)

def StableSeqRewriteIntent.Retained (snapshot : StableSeqSnapshot T) :
    StableSeqRewriteIntent T → Prop
  | .insert _ anchor _ _ => snapshot.retainedAnchorHistories.contains anchor.history = true
  | _ => True

theorem position_eq_none : position occurrences id = none ↔ id ∉ ids occurrences := by
  simp only [position, findIdx?_eq_none_iff, beq_eq_false_iff_ne, ids,
    Lib.keys, mem_map, not_exists, not_and]

theorem position_append {entry : StableSeqOccurrence T} (h : entry.id ∉ ids xs) :
    position (xs ++ entry :: ys) entry.id = some xs.length := by
  have hnone := position_eq_none.mpr h
  unfold position at hnone ⊢
  rw [findIdx?_append, hnone]
  simp [findIdx?_cons]

theorem position_eq_some (hnd : (ids occurrences).Nodup) :
    position occurrences id = some i ↔
      ∃ xs entry ys, occurrences = xs ++ entry :: ys ∧ entry.id = id ∧ xs.length = i := by
  constructor
  · intro h
    obtain ⟨hlt, hid, _⟩ := findIdx?_eq_some_iff_getElem.mp h
    refine ⟨occurrences.take i, occurrences[i], occurrences.drop (i + 1), ?_, by simpa using hid,
      length_take_of_le hlt.le⟩
    simp
  · rintro ⟨xs, entry, ys, rfl, rfl, rfl⟩
    apply position_append
    simp only [ids, Lib.keys_append, Lib.keys_cons] at hnd
    exact (nodup_cons.mp (nodup_middle.mp hnd)).1 ∘ fun h => mem_append_left _ h

theorem prepareFrom_spec {final : ExtTreeMap SeqOccurrenceId ℕ} (hnd : (ids xs).Nodup)
    (hindices : ∀ id, indices[id]? = position xs id)
    (h : prepareFrom xs.length indices ys = .ok final) :
    (ids (xs ++ ys)).Nodup ∧ ∀ id, final[id]? = position (xs ++ ys) id := by
  induction ys generalizing xs indices with
  | nil =>
    cases h
    simpa using ⟨hnd, hindices⟩
  | cons entry ys ih =>
    unfold prepareFrom at h
    split_ifs at h with hsome
    have hfresh : entry.id ∉ ids xs := by
      apply position_eq_none.mp
      rw [← hindices]
      simpa using hsome
    have hnd' : (ids (xs ++ [entry])).Nodup := by
      simp only [ids, Lib.keys_append, Lib.keys_cons, Lib.keys_nil]
      exact nodup_append_comm.mp (nodup_cons.mpr ⟨hfresh, hnd⟩)
    have hnext : ∀ id, (indices.insert entry.id xs.length)[id]? = position (xs ++ [entry]) id := by
      intro id
      have hold := hindices id
      unfold position at hold ⊢
      rw [ExtTreeMap.getElem?_insert, findIdx?_append, ← hold]
      by_cases heq : entry.id = id
      · subst heq
        have hnone : indices[entry.id]? = none := by simpa using hsome
        simp [hnone, findIdx?_cons]
      · simp [heq, findIdx?_cons]
    have hrest := ih hnd' hnext (by simpa using h)
    simpa using hrest

/-- A prepared snapshot has distinct ids and resolves every intent as the plain one does. -/
theorem resolveIntentPrepared_eq {snapshot : StableSeqSnapshot T}
    (h : snapshot.prepare = .ok indices) :
    (ids snapshot.occurrences).Nodup ∧
      snapshot.resolveIntentPrepared indices = snapshot.resolveIntent := by
  have hspec : (ids ([] ++ snapshot.occurrences)).Nodup ∧
      ∀ id, indices[id]? = position ([] ++ snapshot.occurrences) id :=
    prepareFrom_spec nodup_nil (fun id => rfl) h
  obtain ⟨hnd, hindices⟩ := hspec
  refine ⟨hnd, ?_⟩
  have hlookup : (fun occurrence => indices[occurrence]?) = position snapshot.occurrences := by
    funext occurrence
    exact hindices occurrence
  funext intent
  rw [StableSeqSnapshot.resolveIntentPrepared, StableSeqSnapshot.resolveIntent, hlookup]

theorem resolveIntentPrepared_of_two : ∃ (snapshot : StableSeqSnapshot Unit) (indices : _),
    snapshot.prepare = .ok indices ∧
      snapshot.resolveIntentPrepared indices = snapshot.resolveIntent :=
  ⟨⟨7, {9}, [⟨1, ()⟩, ⟨2, ()⟩]⟩, _, rfl, (resolveIntentPrepared_eq rfl).2⟩

theorem requiredOccurrenceIndex_eq_ok {lookup : SeqOccurrenceId → Option ℕ} :
    requiredOccurrenceIndex lookup id = .ok i ↔ lookup id = some i := by
  unfold requiredOccurrenceIndex
  split <;> simp_all

variable {snapshot : StableSeqSnapshot T}

section
variable (hnd : (ids snapshot.occurrences).Nodup)
include hnd

theorem resolveGap_eq_ok {anchor : StableSeqGapAnchor} :
    resolveGapWithLookup snapshot (position snapshot.occurrences) anchor = .ok i ↔
      snapshot.retainedAnchorHistories.contains anchor.history = true ∧
        ∃ xs ys, snapshot.occurrences = xs ++ ys ∧
          Gap StableSeqOccurrence.id xs ys anchor.left anchor.right ∧ xs.length = i := by
  unfold resolveGapWithLookup
  cases hret : snapshot.retainedAnchorHistories.contains anchor.history with
  | false => simp
  | true =>
    simp only [Bool.not_true, Bool.false_eq_true, if_false, true_and]
    rcases hl : anchor.left with _ | left <;> rcases hr : anchor.right with _ | right <;>
      simp only [bind_eq_ok, requiredOccurrenceIndex_eq_ok, position_eq_some hnd]
    · constructor
      · intro h
        split_ifs at h with hlen
        cases h
        exact ⟨[], [], length_eq_zero_iff.mp hlen, ⟨rfl, rfl⟩, rfl⟩
      · rintro ⟨xs, ys, hocc, ⟨hlast, hhead⟩, rfl⟩
        have hxs : xs = [] := by simpa using hlast.symm
        have hys : ys = [] := by simpa using hhead.symm
        subst hxs hys
        simp [hocc]
    · constructor
      · rintro ⟨j, ⟨xs, entry, ys, hocc, rfl, rfl⟩, h⟩
        split_ifs at h with hlen
        cases h
        have hxs : xs = [] := length_eq_zero_iff.mp (by simpa using hlen)
        subst hxs
        exact ⟨[], entry :: ys, hocc, ⟨rfl, rfl⟩, rfl⟩
      · rintro ⟨xs, ys, hocc, ⟨hlast, hhead⟩, rfl⟩
        have hxs : xs = [] := by simpa using hlast.symm
        subst hxs
        obtain ⟨entry, hentry, rfl⟩ := Option.map_eq_some_iff.mp hhead.symm
        obtain ⟨ys, rfl⟩ := head?_eq_some_iff.mp hentry
        exact ⟨0, ⟨[], entry, ys, hocc, rfl, rfl⟩, by simp⟩
    · constructor
      · rintro ⟨j, ⟨xs, entry, ys, hocc, rfl, rfl⟩, h⟩
        split_ifs at h with hlen
        cases h
        have hys : ys = [] := by
          simp only [hocc, length_append, length_cons, ne_eq, not_not] at hlen
          exact length_eq_zero_iff.mp (by omega)
        subst hys
        exact ⟨xs ++ [entry], [], by simpa using hocc, ⟨by simp, rfl⟩, by simp [hocc]⟩
      · rintro ⟨xs, ys, hocc, ⟨hlast, hhead⟩, rfl⟩
        have hys : ys = [] := by simpa using hhead.symm
        subst hys
        obtain ⟨entry, hentry, rfl⟩ := Option.map_eq_some_iff.mp hlast.symm
        obtain ⟨xs, rfl⟩ := getLast?_eq_some_iff.mp hentry
        exact ⟨xs.length, ⟨xs, entry, [], by simpa using hocc, rfl, rfl⟩, by simp [hocc]⟩
    · constructor
      · rintro ⟨j, ⟨xs, entry, ys, hocc, rfl, rfl⟩, j', ⟨xs', entry', ys', hocc', rfl, rfl⟩, h⟩
        split_ifs at h with hlen
        cases h
        have hsplit : xs' = xs ++ [entry] := by
          have heq : (xs ++ [entry]) ++ ys = xs' ++ entry' :: ys' := by
            rw [← hocc', hocc, append_assoc, singleton_append]
          exact (append_inj_left heq (by simpa using hlen)).symm
        exact ⟨xs', entry' :: ys', hocc', ⟨by simp [hsplit], rfl⟩, rfl⟩
      · rintro ⟨xs, ys, hocc, ⟨hlast, hhead⟩, rfl⟩
        obtain ⟨entry, hentry, rfl⟩ := Option.map_eq_some_iff.mp hlast.symm
        obtain ⟨xs, rfl⟩ := getLast?_eq_some_iff.mp hentry
        obtain ⟨entry', hentry', rfl⟩ := Option.map_eq_some_iff.mp hhead.symm
        obtain ⟨ys, rfl⟩ := head?_eq_some_iff.mp hentry'
        refine ⟨xs.length, ⟨xs, entry, entry' :: ys, by simpa using hocc, rfl, rfl⟩,
          (xs ++ [entry]).length, ⟨xs ++ [entry], entry', ys, hocc, rfl, rfl⟩, by simp⟩

theorem resolveIntent_sound (h : snapshot.resolveIntent intent = .ok splice) :
    intent.sequence = snapshot.sequence ∧ intent.Retained snapshot ∧
      ∃ next, splice.apply snapshot.occurrences = .ok next ∧
        intent.edit.Applies StableSeqOccurrence.id snapshot.occurrences next := by
  unfold StableSeqSnapshot.resolveIntent resolveIntentWithLookup at h
  split_ifs at h with hseq
  refine ⟨by simpa using hseq, ?_⟩
  cases intent with
  | insert sequence anchor occurrence value =>
    simp only [] at h
    split_ifs at h with hsome
    simp only [bind_eq_ok, resolveGap_eq_ok hnd] at h
    obtain ⟨_, ⟨hret, xs, ys, hocc, hgap, rfl⟩, h⟩ := h
    cases h
    have hfresh : occurrence ∉ ids snapshot.occurrences :=
      position_eq_none.mp (by simpa using hsome)
    refine ⟨hret, _, ?_, hfresh, xs, ys, hocc, hgap, rfl⟩
    rw [hocc]
    exact SeqSplice.apply_insert xs ys _
  | replace sequence occurrence value | delete sequence occurrence =>
    simp only [bind_eq_ok, requiredOccurrenceIndex_eq_ok, position_eq_some hnd] at h
    obtain ⟨_, ⟨xs, entry, ys, hocc, hid, rfl⟩, h⟩ := h
    cases h
    refine ⟨trivial, _, ?_, xs, entry, ys, hocc, hid, rfl⟩
    rw [hocc]
    exact SeqSplice.apply_replace xs entry ys _

theorem resolveIntent_complete
    (hseq : intent.sequence = snapshot.sequence) (hret : intent.Retained snapshot)
    (h : intent.edit.Applies StableSeqOccurrence.id snapshot.occurrences next) :
    ∃ splice, snapshot.resolveIntent intent = .ok splice ∧
      splice.apply snapshot.occurrences = .ok next := by
  unfold StableSeqSnapshot.resolveIntent resolveIntentWithLookup
  rw [if_neg (not_not.mpr hseq)]
  cases intent with
  | insert sequence anchor occurrence value =>
    obtain ⟨hfresh, xs, ys, hocc, hgap, rfl⟩ := h
    have hnone : ¬ (position snapshot.occurrences occurrence).isSome = true := by
      rw [position_eq_none.mpr hfresh]
      exact Bool.false_ne_true
    have hstart := (resolveGap_eq_ok hnd).mpr ⟨hret, xs, ys, hocc, hgap, rfl⟩
    refine ⟨⟨xs.length, 0, [⟨occurrence, value⟩]⟩, ?_, hocc ▸ SeqSplice.apply_insert xs ys _⟩
    simp only [if_neg hnone, hstart]
    rfl
  | replace sequence occurrence value | delete sequence occurrence =>
    obtain ⟨xs, entry, ys, hocc, hid, rfl⟩ := h
    have hstart := requiredOccurrenceIndex_eq_ok.mpr
      ((position_eq_some hnd).mpr ⟨xs, entry, ys, hocc, hid, rfl⟩)
    have happly := SeqSplice.apply_replace xs entry ys
    rw [← hocc] at happly
    refine ⟨_, ?_, happly _⟩
    simp only [hstart]
    rfl

theorem materialize_eq_ok :
    snapshot.materialize intent = .ok next ↔
      intent.sequence = snapshot.sequence ∧ intent.Retained snapshot ∧
        intent.edit.Applies StableSeqOccurrence.id snapshot.occurrences next := by
  unfold StableSeqSnapshot.materialize
  rw [bind_eq_ok]
  constructor
  · rintro ⟨splice, hsplice, h⟩
    obtain ⟨hseq, hret, next', happly, hedit⟩ := resolveIntent_sound hnd hsplice
    rw [happly] at h
    cases h
    exact ⟨hseq, hret, hedit⟩
  · rintro ⟨hseq, hret, hedit⟩
    obtain ⟨splice, hsplice, happly⟩ := resolveIntent_complete hnd hseq hret hedit
    exact ⟨splice, hsplice, by rw [happly]⟩

theorem exists_materialize (h : snapshot.resolveIntent intent = .ok splice) :
    ∃ next, snapshot.materialize intent = .ok next := by
  obtain ⟨hseq, hret, next, _, hedit⟩ := resolveIntent_sound hnd h
  exact ⟨next, (materialize_eq_ok hnd).mpr ⟨hseq, hret, hedit⟩⟩

end

theorem nodup_of_applies (hnd : (ids occurrences).Nodup)
    (h : intent.edit.Applies StableSeqOccurrence.id occurrences next) : (ids next).Nodup := by
  cases intent with
  | insert sequence anchor occurrence value =>
    obtain ⟨hfresh, xs, ys, rfl, _, rfl⟩ := h
    simp only [ids, Lib.keys_append, Lib.keys_cons] at hnd hfresh ⊢
    exact nodup_middle.mpr (nodup_cons.mpr ⟨hfresh, hnd⟩)
  | replace sequence occurrence value =>
    obtain ⟨xs, entry, ys, rfl, hid, rfl⟩ := h
    simp only [ids, Lib.keys_append, Lib.keys_cons, append_assoc, singleton_append, hid] at hnd ⊢
    exact hnd
  | delete sequence occurrence =>
    obtain ⟨xs, entry, ys, rfl, hid, rfl⟩ := h
    simp only [ids, Lib.keys_append, Lib.keys_cons, append_nil] at hnd ⊢
    exact (nodup_cons.mp (nodup_middle.mp hnd)).2

end Spec

/-! ## Coordination-free pairs -/

section Commute
variable {T : Type} {a b : StableSeqRewriteIntent T}

def SameGap : StableSeqRewriteIntent T → StableSeqRewriteIntent T → Prop
  | .insert _ anchor _ _, .insert _ anchor' _ _ =>
      anchor.left = anchor'.left ∧ anchor.right = anchor'.right
  | _, _ => False

/-- After either intent the other still resolves, and both orders end in the same occurrences. -/
def StableSeqSnapshot.Commutes (snapshot : StableSeqSnapshot T)
    (a b : StableSeqRewriteIntent T) : Prop :=
  ∃ na nb next, snapshot.materialize a = .ok na ∧ snapshot.materialize b = .ok nb ∧
    { snapshot with occurrences := na }.materialize b = .ok next ∧
    { snapshot with occurrences := nb }.materialize a = .ok next

omit a b in
theorem not_referenced {anchor : StableSeqGapAnchor} {occurrence : SeqOccurrenceId}
    (hfree : (if anchorReferences anchor occurrence then
      StableSeqPairDecision.conflictingOccurrenceRewrite occurrence else .coordinationFree) =
        .coordinationFree) : anchor.left ≠ some occurrence ∧ anchor.right ≠ some occurrence := by
  split_ifs at hfree with href
  simpa only [anchorReferences, Bool.or_eq_true, beq_iff_eq, not_or] using href

theorem independent_of_free (hseq : a.sequence = b.sequence)
    (hfree : classifyStableSeqPair a b = .coordinationFree) (hgap : ¬ SameGap a b) :
    a.edit.Independent StableSeqOccurrence.id b.edit := by
  unfold classifyStableSeqPair at hfree
  rw [if_neg (not_not.mpr hseq)] at hfree
  split_ifs at hfree with htarget
  cases a with
  | insert sequence anchor occurrence value =>
    cases b with
    | insert sequence' anchor' occurrence' value' => exact ⟨htarget, hgap⟩
    | replace sequence' occurrence' value' =>
      refine ⟨fun entry hentry => ?_, fun hnil => absurd hnil (cons_ne_nil _ _)⟩
      rw [mem_singleton.mp hentry]
    | delete sequence' occurrence' =>
      exact ⟨fun entry hentry => absurd hentry not_mem_nil, fun _ => not_referenced hfree⟩
  | replace sequence occurrence value =>
    cases b with
    | insert sequence' anchor' occurrence' value' =>
      refine ⟨fun entry hentry => ?_, fun hnil => absurd hnil (cons_ne_nil _ _)⟩
      rw [mem_singleton.mp hentry]
    | replace sequence' occurrence' value' | delete sequence' occurrence' => exact htarget
  | delete sequence occurrence =>
    cases b with
    | insert sequence' anchor' occurrence' value' =>
      exact ⟨fun entry hentry => absurd hentry not_mem_nil, fun _ => not_referenced hfree⟩
    | replace sequence' occurrence' value' | delete sequence' occurrence' => exact htarget

theorem not_commutes_of_sameGap {snapshot : StableSeqSnapshot T}
    (hnd : (ids snapshot.occurrences).Nodup) (hgap : SameGap a b) : ¬ snapshot.Commutes a b := by
  rintro ⟨na, nb, next, ha, _, hab, _⟩
  cases a with
  | insert sequence anchor occurrence value =>
    cases b with
    | insert sequence' anchor' occurrence' value' =>
      obtain ⟨_, _, hedit⟩ := (materialize_eq_ok hnd).mp ha
      obtain ⟨_, _, hedit'⟩ := (materialize_eq_ok (nodup_of_applies hnd hedit)).mp hab
      simp only [StableSeqRewriteIntent.edit, hgap.1, hgap.2] at hedit hedit'
      exact insert_closes_gap hnd hedit next hedit'
    | replace | delete => exact hgap
  | replace | delete => exact hgap

/-- A pair that resolves on the snapshot and is classified coordination free commutes exactly
when it does not insert twice into one gap. -/
theorem free_commutes_iff {snapshot : StableSeqSnapshot T} {a b : StableSeqRewriteIntent T}
    {sa sb : SeqSplice (StableSeqOccurrence T)} (hnd : (ids snapshot.occurrences).Nodup)
    (ha : snapshot.resolveIntent a = .ok sa) (hb : snapshot.resolveIntent b = .ok sb)
    (hfree : classifyStableSeqPair a b = .coordinationFree) :
    snapshot.Commutes a b ↔ ¬ SameGap a b := by
  refine ⟨fun hcomm hgap => not_commutes_of_sameGap hnd hgap hcomm, fun hgap => ?_⟩
  obtain ⟨na, hna⟩ := exists_materialize hnd ha
  obtain ⟨nb, hnb⟩ := exists_materialize hnd hb
  obtain ⟨hseqa, hreta, hedita⟩ := (materialize_eq_ok hnd).mp hna
  obtain ⟨hseqb, hretb, heditb⟩ := (materialize_eq_ok hnd).mp hnb
  have hind := independent_of_free (hseqa.trans hseqb.symm) hfree hgap
  obtain ⟨next, hab, hba⟩ := Edit.joins hedita heditb hind
  refine ⟨na, nb, next, hna, hnb, ?_, ?_⟩
  · exact (materialize_eq_ok (nodup_of_applies hnd hedita)).mpr ⟨hseqb, hretb, hab⟩
  · exact (materialize_eq_ok (nodup_of_applies hnd heditb)).mpr ⟨hseqa, hreta, hba⟩

/-- An insertion between `1` and `2`, and the deletion of `3`. -/
theorem free_commutes_insert_delete :
    StableSeqSnapshot.Commutes ⟨7, {9}, [⟨1, ()⟩, ⟨2, ()⟩, ⟨3, ()⟩]⟩
      (.insert 7 ⟨20, 9, some 1, some 2⟩ 10 ()) (.delete 7 3) := by
  have ha : StableSeqSnapshot.resolveIntent ⟨7, {9}, [⟨1, ()⟩, ⟨2, ()⟩, ⟨3, ()⟩]⟩
      (.insert 7 ⟨20, 9, some 1, some 2⟩ 10 ()) = .ok ⟨1, 0, [⟨10, ()⟩]⟩ := by decide
  have hb : StableSeqSnapshot.resolveIntent ⟨7, {9}, [⟨1, ()⟩, ⟨2, ()⟩, ⟨3, ()⟩]⟩
      (.delete 7 3) = .ok ⟨2, 1, []⟩ := by decide
  exact (free_commutes_iff (by decide) ha hb (by decide)).mpr fun hgap => hgap

/-- Two anchors `20` and `21` of one gap: the pair is classified coordination free, and after the
first insertion the second anchor is no longer a gap. -/
theorem free_pair_closes_gap :
    StableSeqSnapshot.resolveIntent ⟨7, {9}, [⟨1, ()⟩, ⟨2, ()⟩]⟩
      (.insert 7 ⟨20, 9, some 1, some 2⟩ 10 ()) = .ok ⟨1, 0, [⟨10, ()⟩]⟩ ∧
    StableSeqSnapshot.resolveIntent ⟨7, {9}, [⟨1, ()⟩, ⟨2, ()⟩]⟩
      (.insert 7 ⟨21, 9, some 1, some 2⟩ 11 ()) = .ok ⟨1, 0, [⟨11, ()⟩]⟩ ∧
    classifyStableSeqPair (.insert 7 ⟨20, 9, some 1, some 2⟩ 10 ())
      (.insert 7 ⟨21, 9, some 1, some 2⟩ 11 ()) = .coordinationFree ∧
    SeqSplice.apply ⟨1, 0, [⟨10, ()⟩]⟩ [⟨1, ()⟩, ⟨2, ()⟩] =
      .ok [(⟨1, ()⟩ : StableSeqOccurrence Unit), ⟨10, ()⟩, ⟨2, ()⟩] ∧
    StableSeqSnapshot.resolveIntent ⟨7, {9}, [⟨1, ()⟩, ⟨10, ()⟩, ⟨2, ()⟩]⟩
      (.insert 7 ⟨21, 9, some 1, some 2⟩ 11 ()) = .error (.anchorNoLongerGap 21) := by
  refine ⟨?_, ?_, ?_, ?_, ?_⟩ <;> decide

end Commute

end Cfmd.Rewrite
