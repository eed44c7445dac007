import Mathlib.Data.List.Basic
import Std.Data.ExtTreeMap

/-! Association lists in strictly ascending order of their keys. A key cuts such a list into what
is below it, its own entry if there is one, and what is above; every operation is put together from
these parts. -/

namespace Cfmd.Lib.SortedAssoc
open Std List Option
variable {K V σ : Type*} [Ord K]

def Sorted (list : List (K × V)) : Prop := list.Pairwise fun a b => compare a.1 b.1 = .lt

def below (key : K) (list : List (K × V)) : List (K × V) :=
  list.filter fun entry => compare key entry.1 = .gt

def entryAt (key : K) (list : List (K × V)) : Option (K × V) :=
  list.find? fun entry => compare key entry.1 = .eq

def above (key : K) (list : List (K × V)) : List (K × V) :=
  list.filter fun entry => compare key entry.1 = .lt

/-! ### Operations -/

def lookup (key : K) (list : List (K × V)) : Option V := (entryAt key list).map Prod.snd

def insert (key : K) (value : V) (list : List (K × V)) : List (K × V) :=
  below key list ++ (key, value) :: above key list

def erase (key : K) (list : List (K × V)) : List (K × V) := below key list ++ above key list

omit [Ord K] in
/-- The entries that are kept, by a test with a state of its own. -/
def retain (keep : σ → K → V → Bool × σ) : List (K × V) → σ → List (K × V) × σ
  | [], state => ([], state)
  | entry :: rest, state =>
    let kept := keep state entry.1 entry.2
    let retained := retain keep rest kept.2
    (if kept.1 then entry :: retained.1 else retained.1, retained.2)

omit [Ord K] in
theorem retain_append (keep : σ → K → V → Bool × σ) (before after : List (K × V)) (state : σ) :
    retain keep (before ++ after) state =
      ((retain keep before state).1 ++ (retain keep after (retain keep before state).2).1,
        (retain keep after (retain keep before state).2).2) := by
  induction before generalizing state with
  | nil => rfl
  | cons entry rest ih =>
    rw [cons_append, retain, ih, retain]
    split_ifs <;> rfl

omit [Ord K] in
theorem retain_sublist (keep : σ → K → V → Bool × σ) (list : List (K × V)) (state : σ) :
    (retain keep list state).1.Sublist list := by
  induction list generalizing state with
  | nil => exact .refl _
  | cons entry rest ih =>
    rw [retain]
    split_ifs
    · exact (ih _).cons_cons entry
    · exact (ih _).cons entry

/-! ### The three parts -/

section
variable {key : K} {list before after : List (K × V)} {entry : K × V}

theorem below_append : below key (before ++ after) = below key before ++ below key after :=
  filter_append ..

theorem above_append : above key (before ++ after) = above key before ++ above key after :=
  filter_append ..

theorem entryAt_append :
    entryAt key (before ++ after) = (entryAt key before).or (entryAt key after) :=
  find?_append

theorem compare_of_mem_below (h : entry ∈ below key list) : compare key entry.1 = .gt :=
  of_decide_eq_true (mem_filter.mp h).2

theorem compare_of_mem_above (h : entry ∈ above key list) : compare key entry.1 = .lt :=
  of_decide_eq_true (mem_filter.mp h).2

theorem mem_of_mem_insert {value : V} (h : entry ∈ insert key value list) :
    entry = (key, value) ∨ entry ∈ list := by
  rcases mem_append.mp h with h | h
  · exact .inr (mem_filter.mp h).1
  · exact (mem_cons.mp h).imp_right fun h => (mem_filter.mp h).1

theorem parts_of_forall_gt (h : ∀ entry ∈ list, compare key entry.1 = .gt) :
    below key list = list ∧ entryAt key list = none ∧ above key list = [] := by
  refine ⟨filter_eq_self.mpr fun entry hentry => decide_eq_true (h entry hentry),
    find?_eq_none.mpr fun entry hentry => ?_, filter_eq_nil_iff.mpr fun entry hentry => ?_⟩
  · simp [h entry hentry]
  · simp [h entry hentry]

theorem parts_of_forall_lt (h : ∀ entry ∈ list, compare key entry.1 = .lt) :
    below key list = [] ∧ entryAt key list = none ∧ above key list = list := by
  refine ⟨filter_eq_nil_iff.mpr fun entry hentry => ?_,
    find?_eq_none.mpr fun entry hentry => ?_,
    filter_eq_self.mpr fun entry hentry => decide_eq_true (h entry hentry)⟩
  · simp [h entry hentry]
  · simp [h entry hentry]

theorem Sorted.sides (h : Sorted (before ++ entry :: after)) :
    (Sorted before ∧ Sorted after) ∧ (∀ other ∈ before, compare other.1 entry.1 = .lt) ∧
      ∀ other ∈ after, compare entry.1 other.1 = .lt := by
  obtain ⟨hbefore, hrest, hbetween⟩ := pairwise_append.mp h
  obtain ⟨hentry, hafter⟩ := pairwise_cons.mp hrest
  exact ⟨⟨hbefore, hafter⟩, fun other hother => hbetween other hother _ mem_cons_self, hentry⟩

variable [TransOrd K]

section
variable (h : Sorted (before ++ entry :: after))
include h

theorem parts_of_lt (hlt : compare key entry.1 = .lt) :
    below key (before ++ entry :: after) = below key before ∧
    entryAt key (before ++ entry :: after) = entryAt key before ∧
    above key (before ++ entry :: after) = above key before ++ entry :: after := by
  have hrest : ∀ other ∈ entry :: after, compare key other.1 = .lt := by
    refine forall_mem_cons.mpr ⟨hlt, fun other hother => ?_⟩
    exact TransCmp.lt_trans hlt (h.sides.2.2 other hother)
  obtain ⟨hbelow, hat, habove⟩ := parts_of_forall_lt hrest
  rw [below_append, entryAt_append, above_append, hbelow, hat, habove]
  exact ⟨append_nil _, or_none, rfl⟩

theorem parts_of_gt (hgt : compare key entry.1 = .gt) :
    below key (before ++ entry :: after) = before ++ entry :: below key after ∧
    entryAt key (before ++ entry :: after) = entryAt key after ∧
    above key (before ++ entry :: after) = above key after := by
  have hfirst : ∀ other ∈ before ++ [entry], compare key other.1 = .gt := by
    refine forall_mem_append.mpr ⟨fun other hother => ?_, forall_mem_singleton.mpr hgt⟩
    exact OrientedCmp.gt_of_lt (TransCmp.lt_trans (h.sides.2.1 other hother) (OrientedCmp.lt_of_gt hgt))
  obtain ⟨hbelow, hat, habove⟩ := parts_of_forall_gt hfirst
  have hlist : before ++ entry :: after = (before ++ [entry]) ++ after := by simp
  rw [hlist, below_append, entryAt_append, above_append, hbelow, hat, habove]
  exact ⟨append_cons .. |>.symm, none_or, rfl⟩

section
variable (heq : compare key entry.1 = .eq)
include heq

theorem parts_of_left_of_eq :
    below key before = before ∧ entryAt key before = none ∧ above key before = [] := by
  apply parts_of_forall_gt
  intro other hother
  have hlt := TransCmp.lt_of_lt_of_eq (h.sides.2.1 other hother) (OrientedCmp.eq_symm heq)
  exact OrientedCmp.gt_of_lt hlt

theorem parts_of_right_of_eq :
    below key after = [] ∧ entryAt key after = none ∧ above key after = after := by
  apply parts_of_forall_lt
  exact fun other hother => TransCmp.lt_of_eq_of_lt heq (h.sides.2.2 other hother)

theorem parts_of_eq :
    below key (before ++ entry :: after) = before ∧
    entryAt key (before ++ entry :: after) = some entry ∧
    above key (before ++ entry :: after) = after := by
  obtain ⟨hbelow, hat, habove⟩ := parts_of_left_of_eq h heq
  obtain ⟨hbelow', hat', habove'⟩ := parts_of_right_of_eq h heq
  rw [← singleton_append, below_append, below_append, entryAt_append, entryAt_append,
    above_append, above_append, hbelow, hat, habove, hbelow', hat', habove']
  simp [below, entryAt, above, heq]

end

end

section
variable (h : Sorted list)
include h

theorem Sorted.parts (key : K) :
    list = below key list ++ (entryAt key list).toList ++ above key list := by
  induction list with
  | nil => rfl
  | cons entry rest ih =>
    have hsorted : Sorted ([] ++ entry :: rest) := h
    rw [← nil_append (entry :: rest)]
    cases hcompare : compare key entry.1 with
    | lt =>
      obtain ⟨hbelow, hat, habove⟩ := parts_of_lt hsorted hcompare
      rw [hbelow, hat, habove]
      rfl
    | eq =>
      obtain ⟨hbelow, hat, habove⟩ := parts_of_eq hsorted hcompare
      rw [hbelow, hat, habove]
      rfl
    | gt =>
      obtain ⟨hbelow, hat, habove⟩ := parts_of_gt hsorted hcompare
      rw [hbelow, hat, habove, append_assoc, append_assoc, cons_append,
        ← append_assoc, ← ih hsorted.sides.1.2]

theorem erase_sublist (key : K) : (erase key list).Sublist list := by
  have hparts := (sublist_append_left (below key list) (entryAt key list).toList).append
    (List.Sublist.refl (above key list))
  rwa [← h.parts key] at hparts

theorem erase_of_lookup_eq_none (hnone : lookup key list = none) : erase key list = list := by
  have hparts := h.parts key
  rw [map_eq_none_iff.mp hnone, toList_none, append_nil] at hparts
  exact hparts.symm

theorem length_erase (key : K) :
    (erase key list).length + (lookup key list).toList.length = list.length := by
  have hparts := congrArg List.length (h.parts key)
  simp only [length_append, length_toList] at hparts
  rw [erase, lookup, length_append, length_toList, isSome_map]
  omega

end

omit [TransOrd K] in
theorem length_insert (value : V) :
    (insert key value list).length = (erase key list).length + 1 := by
  rw [insert, erase, length_append, length_append, length_cons, Nat.add_assoc]

theorem Sorted.insert (h : Sorted list) (value : V) : Sorted (insert key value list) := by
  obtain ⟨hbelow, habove, hbetween⟩ := pairwise_append.mp (h.sublist (erase_sublist h key))
  refine pairwise_append.mpr ⟨hbelow, pairwise_cons.mpr ⟨?_, habove⟩, fun a ha => ?_⟩
  · exact fun other hother => compare_of_mem_above hother
  · have hlt : compare a.1 key = .lt := OrientedCmp.lt_of_gt (compare_of_mem_below ha)
    exact forall_mem_cons.mpr ⟨hlt, hbetween a ha⟩

end

end Cfmd.Lib.SortedAssoc
