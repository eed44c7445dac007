import Mathlib.Data.List.Nodup

/-! Edits of a list whose elements carry distinct keys. An insertion names its
gap by the keys on both sides, any other edit names the element it replaces;
two edits commute unless one destroys what the other names. -/

namespace Cfmd.Lib
open List

variable {α κ : Type*} (key : α → κ) {xs ys n n' l : List α} {a a' : α} {left right : Option κ}

def keys (xs : List α) : List κ := xs.map key

inductive Edit (α κ : Type*) where
  | insert (left right : Option κ) (a : α)
  | replace (k : κ) (by' : List α)

def Gap (xs ys : List α) (left right : Option κ) : Prop :=
  left = xs.getLast?.map key ∧ right = ys.head?.map key

def Edit.Applies (l : List α) : Edit α κ → List α → Prop
  | .insert left right a, next => key a ∉ keys key l ∧
      ∃ xs ys, l = xs ++ ys ∧ Gap key xs ys left right ∧ next = xs ++ a :: ys
  | .replace k ins, next =>
      ∃ xs a ys, l = xs ++ a :: ys ∧ key a = k ∧ next = xs ++ ins ++ ys

variable {key}

@[simp] theorem keys_append (xs ys : List α) : keys key (xs ++ ys) = keys key xs ++ keys key ys :=
  map_append

@[simp] theorem keys_cons (a : α) (xs : List α) : keys key (a :: xs) = key a :: keys key xs := rfl

@[simp] theorem keys_nil : keys key [] = [] := rfl

theorem split_unique {xs' ys' : List α} (hnd : (keys key (xs ++ a :: ys)).Nodup)
    (h : xs ++ a :: ys = xs' ++ a' :: ys') (hkey : key a = key a') : xs = xs' := by
  induction xs generalizing xs' with
  | nil =>
    cases xs' with
    | nil => rfl
    | cons b xs' =>
      obtain ⟨rfl, rfl⟩ := h
      simp [hkey] at hnd
  | cons b xs ih =>
    cases xs' with
    | nil =>
      obtain ⟨rfl, rfl⟩ := h
      simp [hkey] at hnd
    | cons b' xs' =>
      simp only [cons_append, List.cons.injEq] at h
      obtain ⟨rfl, h⟩ := h
      have hnd' : (keys key (xs ++ a :: ys)).Nodup := (nodup_cons.mp hnd).2
      rw [ih hnd' h]

theorem gap_left_unique {xs' ys' : List α} {right' : Option κ} (hnd : (keys key (xs ++ ys)).Nodup)
    (h : xs ++ ys = xs' ++ ys') (hg : Gap key xs ys left right)
    (hg' : Gap key xs' ys' left right') : xs = xs' := by
  have hlast := hg.1.symm.trans hg'.1
  rcases eq_nil_or_concat xs with rfl | ⟨p, e, rfl⟩
  · rcases eq_nil_or_concat xs' with rfl | ⟨p', e', rfl⟩
    · rfl
    · simp at hlast
  rcases eq_nil_or_concat xs' with rfl | ⟨p', e', rfl⟩
  · simp at hlast
  have hkey : key e = key e' := by simpa using hlast
  simp only [concat_eq_append, append_assoc, singleton_append] at h hnd ⊢
  have hp := split_unique hnd h hkey
  subst hp
  simp only [append_cancel_left_eq, List.cons.injEq] at h
  rw [h.1]

/-! ## Neighbours after a replacement -/

section Replace
variable {a : α} {ins : List α} (hkeep : ∀ b ∈ ins, key b = key a)
include hkeep

theorem last_replace (xs ys : List α) (h : ins = [] → ys ≠ []) :
    (xs ++ ins ++ ys).getLast?.map key = (xs ++ a :: ys).getLast?.map key := by
  rcases eq_nil_or_concat ys with rfl | ⟨p, e, rfl⟩
  · rcases eq_nil_or_concat ins with rfl | ⟨q, b, rfl⟩
    · exact absurd rfl (h rfl)
    · have hb := hkeep b (by simp)
      simp [hb]
  · have hl : xs ++ ins ++ p.concat e = (xs ++ ins ++ p) ++ [e] := by simp
    have hr : xs ++ a :: p.concat e = (xs ++ a :: p) ++ [e] := by simp
    rw [hl, hr, getLast?_concat, getLast?_concat]

theorem head_replace (xs ys : List α) (h : ins = [] → xs ≠ []) :
    (xs ++ ins ++ ys).head?.map key = (xs ++ a :: ys).head?.map key := by
  cases xs with
  | nil =>
    cases ins with
    | nil => exact absurd rfl (h rfl)
    | cons b ins =>
      have hb := hkeep b mem_cons_self
      simp [hb]
  | cons b xs => rfl

theorem notMem_keys_replace {k : κ} (xs ys : List α) (h : k ∉ keys key (xs ++ a :: ys)) :
    k ∉ keys key (xs ++ ins ++ ys) := by
  intro hmem
  apply h
  simp only [keys_append, keys_cons, mem_append, mem_cons] at hmem ⊢
  rcases hmem with (hmem | hmem) | hmem
  · exact .inl hmem
  · obtain ⟨b, hb, rfl⟩ := mem_map.mp hmem
    exact .inr (.inl (hkeep b hb))
  · exact .inr (.inr hmem)

end Replace

/-! ## Two edits of one list -/

variable (key) in
def Edit.Independent : Edit α κ → Edit α κ → Prop
  | .insert left right a, .insert left' right' a' =>
      key a ≠ key a' ∧ ¬ (left = left' ∧ right = right')
  | .insert left right _, .replace k ins =>
      (∀ b ∈ ins, key b = k) ∧ (ins = [] → left ≠ some k ∧ right ≠ some k)
  | .replace k ins, .insert left right _ =>
      (∀ b ∈ ins, key b = k) ∧ (ins = [] → left ≠ some k ∧ right ≠ some k)
  | .replace k _, .replace k' _ => k ≠ k'

variable (key) in
/-- Each edit applies after the other, and both orders end in the same list. -/
def Edit.Joins (e e' : Edit α κ) (n n' : List α) : Prop :=
  ∃ next, e'.Applies key n next ∧ e.Applies key n' next

theorem Edit.Joins.symm {e e' : Edit α κ} (h : e.Joins key e' n n') : e'.Joins key e n' n := by
  obtain ⟨next, h₁, h₂⟩ := h
  exact ⟨next, h₂, h₁⟩

theorem joins_insert_insert {zs : List α} {left' right' : Option κ} (hne : key a ≠ key a')
    (hgap : ¬ (left = left' ∧ right = right')) (ha : key a ∉ keys key (xs ++ zs ++ ys))
    (ha' : key a' ∉ keys key (xs ++ zs ++ ys)) (hg : Gap key xs (zs ++ ys) left right)
    (hg' : Gap key (xs ++ zs) ys left' right') :
    (Edit.insert left right a).Joins key (.insert left' right' a') (xs ++ a :: (zs ++ ys))
      (xs ++ zs ++ a' :: ys) := by
  have hzs : zs ≠ [] := by
    rintro rfl
    simp only [append_nil, nil_append] at hg hg'
    exact hgap ⟨hg.1.trans hg'.1.symm, hg.2.trans hg'.2.symm⟩
  refine ⟨xs ++ a :: zs ++ a' :: ys, ⟨?_, xs ++ a :: zs, ys, by simp, ⟨?_, hg'.2⟩, rfl⟩,
    ?_, xs, zs ++ a' :: ys, by simp, ⟨hg.1, ?_⟩, by simp⟩
  · simpa [Ne.symm hne] using ha'
  · obtain ⟨p, e, rfl⟩ := (eq_nil_or_concat zs).resolve_left hzs
    rw [hg'.1]
    have hr : xs ++ a :: p.concat e = (xs ++ a :: p) ++ [e] := by simp
    have hl : xs ++ p.concat e = (xs ++ p) ++ [e] := by simp
    rw [hl, hr, getLast?_concat, getLast?_concat]
  · simpa [hne] using ha
  · obtain ⟨b, zs, rfl⟩ := exists_cons_of_ne_nil hzs
    exact hg.2

theorem joins_insert_replace {k : κ} {ins : List α}
    (h : (Edit.insert left right a).Applies key l n) (h' : (Edit.replace k ins).Applies key l n')
    (hind : (Edit.insert left right a).Independent key (.replace k ins)) :
    (Edit.insert left right a).Joins key (.replace k ins) n n' := by
  obtain ⟨hfresh, xs, ys, rfl, hg, rfl⟩ := h
  obtain ⟨ps, b, qs, hl, rfl, rfl⟩ := h'
  obtain ⟨hkeep, hdrop⟩ := hind
  have hfresh' : key a ∉ keys key (ps ++ ins ++ qs) := notMem_keys_replace hkeep ps qs (hl ▸ hfresh)
  rcases append_eq_append_iff.mp hl with ⟨zs, rfl, rfl⟩ | ⟨zs, rfl, hzs⟩
  · -- the replaced element stands after the gap
    refine ⟨xs ++ a :: (zs ++ ins ++ qs), ⟨xs ++ a :: zs, b, qs, by simp, rfl, by simp⟩,
      hfresh', xs, zs ++ ins ++ qs, by simp, ⟨hg.1, ?_⟩, rfl⟩
    rw [hg.2, head_replace hkeep]
    rintro rfl rfl
    exact (hdrop rfl).2 (by rw [hg.2]; rfl)
  · cases zs with
    | nil =>
      subst hzs
      simp only [append_nil] at hg ⊢
      refine ⟨ps ++ a :: (ins ++ qs), ⟨ps ++ [a], b, qs, by simp, rfl, by simp⟩,
        hfresh', ps, ins ++ qs, by simp, ⟨hg.1, ?_⟩, rfl⟩
      have hhead := head_replace hkeep [] qs
      rw [hg.2]
      refine (hhead ?_).symm
      rintro rfl
      exact absurd (by rw [hg.2]; rfl) (hdrop rfl).2
    | cons c zs =>
      obtain ⟨rfl, rfl⟩ := hzs
      refine ⟨ps ++ ins ++ zs ++ a :: ys, ⟨ps, b, zs ++ a :: ys, by simp, rfl, by simp⟩,
        by simpa using hfresh', ps ++ ins ++ zs, ys, by simp, ⟨?_, hg.2⟩, rfl⟩
      rw [hg.1, last_replace hkeep]
      rintro rfl rfl
      exact (hdrop rfl).1 (by rw [hg.1]; simp)

theorem joins_replace_replace {zs : List α} (ins ins' : List α) :
    (Edit.replace (key a) ins).Joins key (.replace (key a') ins') (xs ++ ins ++ (zs ++ a' :: ys))
      (xs ++ a :: zs ++ ins' ++ ys) :=
  ⟨xs ++ ins ++ zs ++ ins' ++ ys, ⟨xs ++ ins ++ zs, a', ys, by simp, rfl, rfl⟩,
    xs, a, zs ++ ins' ++ ys, by simp, rfl, by simp⟩

theorem Edit.joins {e e' : Edit α κ} (h : e.Applies key l n) (h' : e'.Applies key l n')
    (hind : e.Independent key e') : e.Joins key e' n n' := by
  cases e with
  | insert left right a =>
    cases e' with
    | insert left' right' a' =>
      obtain ⟨hfresh, xs, ys, rfl, hg, rfl⟩ := h
      obtain ⟨hfresh', xs', ys', hl, hg', rfl⟩ := h'
      obtain ⟨hne, hgap⟩ := hind
      rcases append_eq_append_iff.mp hl with ⟨zs, rfl, rfl⟩ | ⟨zs, rfl, rfl⟩
      · rw [← append_assoc] at hfresh hfresh'
        exact joins_insert_insert hne hgap hfresh hfresh' hg hg'
      · have hgap' : ¬ (left' = left ∧ right' = right) := fun h => hgap ⟨h.1.symm, h.2.symm⟩
        exact (joins_insert_insert hne.symm hgap' hfresh' hfresh hg' hg).symm
    | replace k ins => exact joins_insert_replace h h' hind
  | replace k ins =>
    cases e' with
    | insert left' right' a' => exact (joins_insert_replace h' h hind).symm
    | replace k' ins' =>
      obtain ⟨xs, a, ys, rfl, rfl, rfl⟩ := h
      obtain ⟨xs', a', ys', hl, rfl, rfl⟩ := h'
      rcases append_eq_append_iff.mp hl with ⟨zs, rfl, hzs⟩ | ⟨zs, rfl, hzs⟩
      · cases zs with
        | nil =>
          simp only [nil_append, List.cons.injEq] at hzs
          exact absurd (congrArg key hzs.1) hind
        | cons c zs =>
          obtain ⟨rfl, rfl⟩ := hzs
          exact joins_replace_replace ins ins'
      · cases zs with
        | nil =>
          simp only [nil_append, List.cons.injEq] at hzs
          exact absurd (congrArg key hzs.1.symm) hind
        | cons c zs =>
          obtain ⟨rfl, rfl⟩ := hzs
          exact (joins_replace_replace ins' ins).symm

theorem insert_closes_gap (hnd : (keys key l).Nodup)
    (h : (Edit.insert left right a).Applies key l n) (m : List α) :
    ¬ (Edit.insert left right a').Applies key n m := by
  obtain ⟨hfresh, xs, ys, rfl, hg, rfl⟩ := h
  rintro ⟨_, xs', ys', hl, hg', _⟩
  have hnd' : (keys key (xs ++ a :: ys)).Nodup := by
    simp only [keys_append, keys_cons] at hnd hfresh ⊢
    exact nodup_middle.mpr (nodup_cons.mpr ⟨hfresh, hnd⟩)
  have hgn : Gap key xs (a :: ys) left (some (key a)) := ⟨hg.1, rfl⟩
  have hxs := gap_left_unique hnd' hl hgn hg'
  subst hxs
  have hys := append_cancel_left hl
  subst hys
  have hright : ys.head?.map key = some (key a) := hg.2.symm.trans hg'.2
  obtain ⟨b, hb, hkey⟩ := Option.map_eq_some_iff.mp hright
  have hmem : key b ∈ keys key ys := mem_map_of_mem (mem_of_mem_head? hb)
  rw [hkey] at hmem
  exact hfresh (by simp [hmem])

end Cfmd.Lib
