import Cfmd.Lib.TreeMap
import Cfmd.Semantics.CanonicalKey

/-! The counting measure of a list of atoms: it holds each atom once, in order, with
the number of its occurrences. So two lists have one measure exactly when each is a
permutation of the other. -/

namespace Cfmd.Semantics
open Std Lib List

section
variable {α ε : Type} [Ord α] [TransOrd α] [LawfulEqOrd α] [DecidableEq α] {atoms : List α}
  {counts counts' : ExtTreeMap α UInt64} {measure : FiniteMeasure α}

structure Counts (atoms : List α) (counts : ExtTreeMap α UInt64) : Prop where
  fits : ∀ a, atoms.count a < 2 ^ 64
  get : ∀ a, counts[a]? = if atoms.count a = 0 then none else some (UInt64.ofNat (atoms.count a))

omit [LawfulEqOrd α] in
theorem Counts.empty : Counts ([] : List α) ∅ := by
  constructor
  · intro a
    simp
  · intro a
    simp

omit [LawfulEqOrd α] in
theorem Counts.get_eq_max (h : Counts atoms counts) (a : α) :
    counts[a]? = some (0xffffffffffffffff : UInt64) ↔ atoms.count a = 2 ^ 64 - 1 := by
  have hfits := h.fits a
  rw [h.get a]
  split
  · rename_i hzero
    simp [hzero]
  · rw [Option.some.injEq, ← UInt64.toNat_inj, UInt64.toNat_ofNat_of_lt' hfits]
    rfl

theorem Counts.step (h : Counts atoms counts) (a : α) (hfits : atoms.count a + 1 < 2 ^ 64) :
    ∃ counts', countAtom (ε := ε) counts a = .ok counts' ∧ Counts (atoms ++ [a]) counts' := by
  have hcount : ∀ b, (atoms ++ [a]).count b = atoms.count b + if a = b then 1 else 0 := by
    intro b
    rw [count_append, count_singleton]
    simp only [beq_iff_eq]
  have hroom : counts[a]? ≠ some 0xffffffffffffffff := by
    rw [Ne, h.get_eq_max a]
    omega
  refine ⟨_, if_neg hroom, ?_, ?_⟩
  · intro b
    rw [hcount]
    split
    · rename_i heq
      rw [← heq]
      exact hfits
    · exact h.fits b
  · intro b
    rw [hcount, ExtTreeMap.getElem?_insert]
    by_cases heq : a = b
    · subst heq
      simp only [ReflCmp.compare_self, if_true, Nat.add_eq_zero_iff, one_ne_zero, and_false,
        if_false, Option.some.injEq]
      rw [h.get a]
      split
      · rename_i hzero
        rw [hzero]
        rfl
      · rw [UInt64.ofNat_add]
        rfl
    · have hne : compare a b ≠ .eq := fun hc => heq (LawfulEqCmp.eq_of_compare hc)
      rw [if_neg hne, if_neg heq]
      exact h.get b

theorem Counts.of_step (h : Counts atoms counts) {a : α}
    (hstep : countAtom (ε := ε) counts a = .ok counts') :
    Counts (atoms ++ [a]) counts' := by
  have hroom : counts[a]? ≠ some 0xffffffffffffffff := by
    intro hfull
    rw [countAtom, if_pos hfull] at hstep
    cases hstep
  have hlt : atoms.count a + 1 < 2 ^ 64 := by
    have hfits := h.fits a
    rw [Ne, h.get_eq_max a] at hroom
    omega
  obtain ⟨counts'', hstep', hcounts⟩ := h.step (ε := ε) a hlt
  rw [hstep, Except.ok.injEq] at hstep'
  exact hstep' ▸ hcounts

theorem counts_of_foldlM (h : atoms.foldlM (countAtom (ε := ε)) ∅ = .ok counts) :
    Counts atoms counts :=
  foldlM_visited (I := fun counts done => Counts done counts)
    (fun _ _ _ _ hcounts hstep => hcounts.of_step hstep) atoms h .empty

theorem foldlM_countAtom (hfits : ∀ a, atoms.count a < 2 ^ 64) :
    ∃ counts, atoms.foldlM (countAtom (ε := ε)) ∅ = .ok counts := by
  -- the atoms counted so far and those left make up the list
  have hrun := foldlM_rest (f := countAtom (ε := ε))
    (I := fun counts rest => ∃ done, atoms = done ++ rest ∧ Counts done counts)
    (fun counts a rest ⟨done, hsplit, hcounts⟩ => by
      have hlt : done.count a + 1 < 2 ^ 64 := by
        have hall := hfits a
        rw [hsplit, count_append, count_cons_self] at hall
        omega
      obtain ⟨counts', hstep, hcounts'⟩ := hcounts.step (ε := ε) a hlt
      exact ⟨counts', hstep, done ++ [a], by simp [hsplit], hcounts'⟩)
    atoms ⟨[], rfl, .empty⟩
  obtain ⟨counts, hfold, _⟩ := hrun
  exact ⟨counts, hfold⟩

theorem exists_measure :
    (∃ measure, finiteMeasureFromAtoms (ε := ε) atoms = .ok measure) ↔
      ∀ a, atoms.count a < 2 ^ 64 := by
  constructor
  · rintro ⟨measure, h⟩
    obtain ⟨counts, hcounts, _⟩ := bind_eq_ok.mp h
    exact (counts_of_foldlM hcounts).fits
  · intro hfits
    obtain ⟨counts, hcounts⟩ := foldlM_countAtom (ε := ε) hfits
    refine ⟨counts.toList.map fun entry => ⟨entry.1, entry.2⟩, ?_⟩
    rw [finiteMeasureFromAtoms, hcounts]
    rfl

omit [LawfulEqOrd α] [DecidableEq α] in
theorem measure_entries
    (h : counts.toList.map (fun entry => FiniteMeasureEntry.mk entry.1 entry.2) =
      counts'.toList.map fun entry => ⟨entry.1, entry.2⟩) : counts.toList = counts'.toList := by
  refine map_injective_iff.mpr ?_ h
  rintro ⟨a, m⟩ ⟨b, n⟩ heq
  rw [FiniteMeasureEntry.mk.injEq] at heq
  exact Prod.ext heq.1 heq.2

theorem measure_eq_iff {atoms' : List α} {measure' : FiniteMeasure α}
    (h : finiteMeasureFromAtoms (ε := ε) atoms = .ok measure)
    (h' : finiteMeasureFromAtoms (ε := ε) atoms' = .ok measure') :
    measure = measure' ↔ atoms.Perm atoms' := by
  obtain ⟨counts, hfold, heq⟩ := bind_eq_ok.mp h
  obtain ⟨counts', hfold', heq'⟩ := bind_eq_ok.mp h'
  cases heq
  cases heq'
  have hcounts := counts_of_foldlM hfold
  have hcounts' := counts_of_foldlM hfold'
  constructor
  · intro hmeasure
    have hlist := measure_entries hmeasure
    rw [perm_iff_count]
    intro a
    have hget : counts[a]? = counts'[a]? := by
      apply Option.ext
      intro m
      rw [← ExtTreeMap.mem_toList_iff_getElem?_eq_some, hlist,
        ExtTreeMap.mem_toList_iff_getElem?_eq_some]
    rw [hcounts.get, hcounts'.get] at hget
    -- both counts are in range, so they are read off the words
    have hfits := hcounts.fits a
    have hfits' := hcounts'.fits a
    split at hget
    · split at hget
      · omega
      · cases hget
    split_ifs at hget
    rw [Option.some.injEq, ← UInt64.toNat_inj, UInt64.toNat_ofNat_of_lt' hfits,
      UInt64.toNat_ofNat_of_lt' hfits'] at hget
    exact hget
  · intro hperm
    have hmap : counts = counts' := by
      apply ExtTreeMap.ext_getElem?
      intro a
      rw [hcounts.get, hcounts'.get, hperm.count_eq]
    rw [hmap]

section
variable (h : finiteMeasureFromAtoms (ε := ε) atoms = .ok measure)
include h

theorem measure_canonical :
    measure.Pairwise (fun a b => compare a.atom b.atom = .lt) ∧
      ∀ entry ∈ measure, 0 < entry.multiplicity ∧ entry.atom ∈ atoms := by
  obtain ⟨counts, hfold, heq⟩ := bind_eq_ok.mp h
  cases heq
  have hcounts := counts_of_foldlM hfold
  constructor
  · rw [pairwise_map]
    exact counts.ordered_keys_toList
  · intro entry hentry
    obtain ⟨⟨a, m⟩, hmem, rfl⟩ := mem_map.mp hentry
    rw [ExtTreeMap.mem_toList_iff_getElem?_eq_some, hcounts.get] at hmem
    split_ifs at hmem with hcount
    rw [Option.some.injEq] at hmem
    subst hmem
    constructor
    · rw [UInt64.lt_iff_toNat_lt, UInt64.toNat_ofNat_of_lt' (hcounts.fits a)]
      exact Nat.pos_of_ne_zero hcount
    · exact count_pos_iff.mp (Nat.pos_of_ne_zero hcount)

theorem mem_measure {a : α}
    (ha : a ∈ atoms) :
    ∃ entry ∈ measure, entry.atom = a := by
  obtain ⟨counts, hfold, heq⟩ := bind_eq_ok.mp h
  cases heq
  have hget := (counts_of_foldlM hfold).get a
  rw [if_neg (Nat.ne_of_gt (count_pos_iff.mpr ha)),
    ← ExtTreeMap.mem_toList_iff_getElem?_eq_some] at hget
  exact ⟨_, mem_map_of_mem hget, rfl⟩

end

end

/-! ### Atoms seen in two ways -/

section
variable {α β : Type}

theorem perm_map_snd {ps qs : List (α × β)} (h : (ps.map Prod.fst).Perm (qs.map Prod.fst))
    (hfun : ∀ p ∈ ps, ∀ q ∈ qs, p.1 = q.1 → p.2 = q.2) :
    (ps.map Prod.snd).Perm (qs.map Prod.snd) := by
  have hqs : Forall₂ (fun a (q : α × β) => a = q.1) (qs.map Prod.fst) qs := by
    rw [forall₂_map_left_iff]
    exact forall₂_same.mpr fun q _ => rfl
  obtain ⟨qs', hpoint, hperm⟩ := perm_comp_forall₂ h hqs
  rw [forall₂_map_left_iff] at hpoint
  have hsnd : ps.map Prod.snd = qs'.map Prod.snd := by
    rw [map_eq_map_iff_forall₂]
    exact forall₂_imp_mem hpoint fun p hp q hq heq => hfun p hp q (hperm.mem_iff.mp hq) heq
  rw [hsnd]
  exact hperm.map Prod.snd

theorem count_fst_le [DecidableEq α] [DecidableEq β] {ps : List (α × β)}
    (hfun : ∀ p ∈ ps, ∀ q ∈ ps, p.1 = q.1 → p.2 = q.2) {bound : ℕ}
    (hpos : 0 < bound) (hbound : ∀ b, (ps.map Prod.snd).count b < bound) (a : α) :
    (ps.map Prod.fst).count a < bound := by
  by_cases ha : a ∈ ps.map Prod.fst
  · obtain ⟨p, hp, rfl⟩ := mem_map.mp ha
    refine Nat.lt_of_le_of_lt ?_ (hbound p.2)
    rw [count_eq_countP, count_eq_countP, countP_map, countP_map]
    apply countP_mono_left
    intro q hq heq
    simp only [Function.comp_apply, beq_iff_eq] at heq ⊢
    exact hfun q hq p hp heq
  · rwa [count_eq_zero_of_not_mem ha]

end

end Cfmd.Semantics
