import Cfmd.Query.DeltaRows
import Cfmd.Semantics.CompiledKeys

/-! Two deltas of one relation value whose footprints need no coordination. Each can be
residualised against the value after the other, and both orders end in the same classes: for bags
always, for sets if no row is replaced by another of its class. -/

namespace Cfmd.Query
open Lib Std Semantics Rewrite List

variable {rows : List Row}

section Rows
variable {κ : Type} {key : Row → Fallible RelQueryError κ} {expectedSet : Bool}
  {removed inserted next : List Row} {rk ik vk : List κ}

def classCount [DecidableEq κ] (key : Row → Fallible RelQueryError κ) (rows : List Row) (k : κ) : ℕ :=
  rows.countP fun row => (key row).toOption = some k

def SameClasses (key : Row → Fallible RelQueryError κ) (rows rows' : List Row) : Prop :=
  (rows.map key).Perm (rows'.map key)

def Keyed (key : Row → Fallible RelQueryError κ) (rows : List Row) : Prop :=
  ∀ row ∈ rows, ∃ k, key row = .ok k

def ReplacesNone (key : Row → Fallible RelQueryError κ) (removed inserted : List Row) : Prop :=
  ∀ row ∈ removed, ∀ row' ∈ inserted, key row ≠ key row'

def OnePerClass [DecidableEq κ] (key : Row → Fallible RelQueryError κ) (rows : List Row) : Prop :=
  ∀ k, classCount key rows k ≤ 1

def LeavesOne [DecidableEq κ] (key : Row → Fallible RelQueryError κ) (rows removed : List Row) : Prop :=
  ∀ k, classCount key rows k ≤ classCount key removed k + 1

theorem keyed_iff : Keyed key rows ↔ ∃ ks, rows.mapM key = .ok ks := (exists_mapM rows).symm

theorem replacesNone_iff (hrk : removed.mapM key = .ok rk) (hik : inserted.mapM key = .ok ik) :
    ReplacesNone key removed inserted ↔ ∀ k ∈ rk, k ∉ ik := by
  constructor
  · intro h k hk hk'
    obtain ⟨row, hrow, hkey⟩ := (mem_of_mapM hrk).mp hk
    obtain ⟨row', hrow', hkey'⟩ := (mem_of_mapM hik).mp hk'
    exact h row hrow row' hrow' (hkey.trans hkey'.symm)
  · intro h row hrow row' hrow' heq
    obtain ⟨k, hk⟩ := (exists_mapM removed).mp ⟨rk, hrk⟩ row hrow
    exact h k ((mem_of_mapM hrk).mpr ⟨row, hrow, hk⟩)
      ((mem_of_mapM hik).mpr ⟨row', hrow', heq ▸ hk⟩)

variable [DecidableEq κ]

theorem classCount_eq {ks : List κ} (h : rows.mapM key = .ok ks) (k : κ) :
    classCount key rows k = ks.count k := by
  rw [mapM_eq_ok] at h
  induction h with
  | nil => rfl
  | cons hk _ ih =>
    unfold classCount at ih ⊢
    rw [countP_cons, count_cons, ih, hk]
    simp [Except.toOption]

theorem leavesOne_iff (hvk : rows.mapM key = .ok vk) (hrk : removed.mapM key = .ok rk) :
    LeavesOne key rows removed ↔ ∀ k, vk.count k ≤ rk.count k + 1 := by
  unfold LeavesOne
  simp only [classCount_eq hvk, classCount_eq hrk]

theorem sameClasses_of_count {rows' : List Row} {ks ks' : List κ} (h : rows.mapM key = .ok ks)
    (h' : rows'.mapM key = .ok ks') (heq : ∀ k, ks.count k = ks'.count k) :
    SameClasses key rows rows' := by
  unfold SameClasses
  rw [map_key_of_mapM h, map_key_of_mapM h']
  exact (perm_iff_count.mpr heq).map _

section
variable {nk : List κ} (hfits : Fits true vk rk ik)
  (hcount : ∀ k, nk.count k + rk.count k = vk.count k + ik.count k)
include hfits hcount

theorem mem_next_iff (k : κ) : k ∈ nk ↔ rk.count k < vk.count k ∨ k ∈ ik := by
  have hle := hfits.removed k
  have hk := hcount k
  rw [← count_pos_iff, ← count_pos_iff]
  omega

/-- A delta on a set leaves one row per class if it removes the others. -/
theorem nodup_next_iff : nk.Nodup ↔ ∀ k, vk.count k ≤ rk.count k + 1 := by
  rw [nodup_iff_count_le_one]
  refine forall_congr' fun k => ?_
  have hk := hcount k
  by_cases hmem : k ∈ ik
  · have hone := count_eq_one_of_mem (hfits.inserted rfl).1 hmem
    have hsame := (hfits.inserted rfl).2 k hmem
    omega
  · have hzero := count_eq_zero_of_not_mem hmem
    omega

end

theorem Fits.after {nk rk' ik' : List κ} (hfits : Fits false vk rk' ik')
    (hcount : ∀ k, nk.count k + rk.count k = vk.count k + ik.count k)
    (hdisjoint : ∀ k ∈ rk', k ∉ rk) : Fits false nk rk' ik' := by
  refine ⟨fun k => ?_, nofun⟩
  have hk := hcount k
  have hle := hfits.removed k
  by_cases hmem : k ∈ rk'
  · have hzero := count_eq_zero_of_not_mem (hdisjoint k hmem)
    omega
  · rw [count_eq_zero_of_not_mem hmem]
    exact Nat.zero_le _

/-! ### Application of keyed deltas -/

variable [Ord κ] [TransOrd κ]

omit [DecidableEq κ] in
theorem nextRows_insert (rows inserted : List Row) :
    nextRows key false rows [] inserted = .ok (rows ++ inserted) := by
  unfold nextRows
  rw [Bool.not_false, Bool.or_true]
  rfl

variable [LawfulEqOrd κ]

section
variable (hvk : rows.mapM key = .ok vk) (hrk : removed.mapM key = .ok rk)
  (hik : inserted.mapM key = .ok ik)
include hvk hrk hik

theorem nextRows_of_keys (h : nextRows key expectedSet rows removed inserted = .ok next) :
    Fits expectedSet vk rk ik ∧ ∃ nk, next.mapM key = .ok nk ∧
      ∀ k, nk.count k + rk.count k = vk.count k + ik.count k := by
  unfold nextRows at h
  split_ifs at h with hshort
  · cases h
    rw [Bool.and_eq_true, List.isEmpty_iff] at hshort
    obtain ⟨rfl, hshort⟩ := hshort
    rw [mapM_nil] at hrk
    cases hrk
    refine ⟨⟨fun k => Nat.zero_le _, fun hset => ?_⟩, vk ++ ik, mapM_key_append hvk hik, fun k => ?_⟩
    · rw [hset] at hshort
      rw [Bool.not_true, Bool.or_false, List.isEmpty_iff] at hshort
      subst hshort
      cases hik
      exact ⟨.nil, nofun⟩
    · rw [count_append, count_nil, Nat.add_zero]
  · obtain ⟨vk', rk', ik', nk, hvk', hrk', hik', hnk, hfits, hcount⟩ := applyRows_eq_ok h
    cases hvk.symm.trans hvk'
    cases hrk.symm.trans hrk'
    cases hik.symm.trans hik'
    exact ⟨hfits, nk, hnk, hcount⟩

theorem exists_nextRows (hfits : Fits expectedSet vk rk ik) :
    ∃ next, nextRows key expectedSet rows removed inserted = .ok next := by
  unfold nextRows
  split_ifs with hshort
  · exact ⟨_, rfl⟩
  · exact exists_applyRows hvk hrk hik hfits

end

theorem nextRows_of_not_keyed (hkeyed : ¬ Keyed key rows)
    (h : nextRows key expectedSet rows removed inserted = .ok next) :
    removed = [] ∧ (expectedSet = true → inserted = []) ∧ next = rows ++ inserted := by
  unfold nextRows at h
  split_ifs at h with hshort
  · cases h
    rw [Bool.and_eq_true, List.isEmpty_iff, Bool.or_eq_true, List.isEmpty_iff] at hshort
    refine ⟨hshort.1, fun hset => ?_, rfl⟩
    rw [hset] at hshort
    exact hshort.2.resolve_right Bool.false_ne_true
  · obtain ⟨vk, _, _, _, hvk, _⟩ := applyRows_eq_ok h
    exact absurd (keyed_iff.mpr ⟨vk, hvk⟩) hkeyed

/-! ### Sets -/

/-- A residual on a set with one row per class applies to it, and makes the removed classes
absent and the inserted ones present. -/
theorem exists_next_residual (hvk : rows.mapM key = .ok vk) (hrk : removed.mapM key = .ok rk)
    (hik : inserted.mapM key = .ok ik) (h : Separate vk rk ik) :
    ∃ left next nk, residual key true rows removed inserted = .ok left ∧
      nextRows key true rows left.1 left.2 = .ok next ∧ next.mapM key = .ok nk ∧ nk.Nodup ∧
      ∀ k, k ∈ nk ↔ (k ∈ vk ∧ k ∉ rk) ∨ k ∈ ik := by
  obtain ⟨left, hleft⟩ := exists_residualRows hvk hrk hik h
  obtain ⟨vk', rk', ik', hvk', hrk', hik', _, ⟨lrk, hlrk, hlrnodup, hlrmem⟩,
    ⟨lik, hlik, hlinodup, hlimem⟩⟩ := residualRows_eq_ok hleft
  cases hvk.symm.trans hvk'
  cases hrk.symm.trans hrk'
  cases hik.symm.trans hik'
  have hfits : Fits true vk lrk lik := by
    refine ⟨fun k => ?_, fun _ => ⟨hlinodup, fun k hk => ?_⟩⟩
    · by_cases hk : k ∈ lrk
      · rw [count_eq_one_of_mem hlrnodup hk]
        exact one_le_count_iff.mpr ((hlrmem k).mp hk).1
      · rw [count_eq_zero_of_not_mem hk]
        exact Nat.zero_le _
    · have hnot := ((hlimem k).mp hk).2
      have hnot' : k ∉ lrk := fun hk' => hnot ((hlrmem k).mp hk').1
      rw [count_eq_zero_of_not_mem hnot, count_eq_zero_of_not_mem hnot']
  obtain ⟨next, hnext⟩ := exists_nextRows hvk hlrk hlik hfits
  obtain ⟨_, nk, hnk, hcount⟩ := nextRows_of_keys hvk hlrk hlik hnext
  refine ⟨left, next, nk, hleft, hnext, hnk, ?_, fun k => ?_⟩
  · rw [nodup_next_iff hfits hcount]
    intro k
    have hone := nodup_iff_count_le_one.mp h.rows k
    omega
  · rw [mem_next_iff hfits hcount, hlimem]
    -- one row of the class: it stays unless it is removed
    have hstays : lrk.count k < vk.count k ↔ k ∈ vk ∧ k ∉ rk := by
      by_cases hv : k ∈ vk
      · rw [count_eq_one_of_mem h.rows hv, Nat.lt_one_iff, count_eq_zero, hlrmem]
        exact ⟨fun hnot => ⟨hv, fun hr => hnot ⟨hv, hr⟩⟩, fun hk hlr => hk.2 hlr.2⟩
      · rw [count_eq_zero_of_not_mem hv]
        exact iff_of_false (Nat.not_lt_zero _) fun hk => hv hk.1
    have hapart := h.disjoint k
    rw [hstays]
    tauto

def Follows (key : Row → Fallible RelQueryError κ) (expectedSet : Bool)
    (rows removed inserted next : List Row) : Prop :=
  ∃ left, residual key expectedSet rows removed inserted = .ok left ∧
    nextRows key expectedSet rows left.1 left.2 = .ok next

theorem follows_set (h : Follows key true rows removed inserted next) :
    ∃ vk rk ik, rows.mapM key = .ok vk ∧ removed.mapM key = .ok rk ∧ inserted.mapM key = .ok ik ∧
      Separate vk rk ik := by
  obtain ⟨left, hleft, _⟩ := h
  obtain ⟨vk, rk, ik, hvk, hrk, hik, hseparate, _⟩ := residualRows_eq_ok hleft
  exact ⟨vk, rk, ik, hvk, hrk, hik, hseparate⟩

section Pair
variable {rows removed inserted next removed' inserted' next' : List Row} {rk ik rk' ik' : List κ}
  (hrk : removed.mapM key = .ok rk) (hik : inserted.mapM key = .ok ik)
  (hrk' : removed'.mapM key = .ok rk') (hik' : inserted'.mapM key = .ok ik')
include hrk hik hrk' hik'

theorem exists_follows_bag (hdisjoint : ∀ k, k ∈ rk ∨ k ∈ ik → ¬ (k ∈ rk' ∨ k ∈ ik'))
    (h : nextRows key false rows removed inserted = .ok next)
    (h' : nextRows key false rows removed' inserted' = .ok next') :
    ∃ both both', Follows key false next removed' inserted' both ∧
      Follows key false next' removed inserted both' ∧ SameClasses key both both' := by
  by_cases hkeyed : Keyed key rows
  · obtain ⟨vk, hvk⟩ := keyed_iff.mp hkeyed
    obtain ⟨hfits, nk, hnk, hcount⟩ := nextRows_of_keys hvk hrk hik h
    obtain ⟨hfits', nk', hnk', hcount'⟩ := nextRows_of_keys hvk hrk' hik' h'
    have hafter : Fits false nk rk' ik' :=
      hfits'.after hcount fun k hk' hk => hdisjoint k (.inl hk) (.inl hk')
    have hafter' : Fits false nk' rk ik :=
      hfits.after hcount' fun k hk hk' => hdisjoint k (.inl hk) (.inl hk')
    obtain ⟨both, hboth⟩ := exists_nextRows hnk hrk' hik' hafter
    obtain ⟨both', hboth'⟩ := exists_nextRows hnk' hrk hik hafter'
    obtain ⟨_, bk, hbk, hcountBoth⟩ := nextRows_of_keys hnk hrk' hik' hboth
    obtain ⟨_, bk', hbk', hcountBoth'⟩ := nextRows_of_keys hnk' hrk hik hboth'
    refine ⟨both, both', ⟨_, rfl, hboth⟩, ⟨_, rfl, hboth'⟩, sameClasses_of_count hbk hbk' fun k => ?_⟩
    have h₁ := hcount k
    have h₂ := hcount' k
    have h₃ := hcountBoth k
    have h₄ := hcountBoth' k
    omega
  · obtain ⟨rfl, _, rfl⟩ := nextRows_of_not_keyed hkeyed h
    obtain ⟨rfl, _, rfl⟩ := nextRows_of_not_keyed hkeyed h'
    refine ⟨rows ++ inserted ++ inserted', rows ++ inserted' ++ inserted,
      ⟨_, rfl, nextRows_insert _ _⟩, ⟨_, rfl, nextRows_insert _ _⟩, ?_⟩
    rw [append_assoc, append_assoc]
    exact ((perm_append_comm).append_left rows).map key

theorem exists_follows_set (hvk : rows.mapM key = .ok vk) (hfree : ∀ k ∈ rk, k ∉ ik')
    (hfree' : ∀ k ∈ ik, k ∉ rk') (hself : ∀ k ∈ rk, k ∉ ik) (hself' : ∀ k ∈ rk', k ∉ ik')
    (hleaves : ∀ k, vk.count k ≤ rk.count k + 1) (hleaves' : ∀ k, vk.count k ≤ rk'.count k + 1)
    (h : nextRows key true rows removed inserted = .ok next)
    (h' : nextRows key true rows removed' inserted' = .ok next') :
    ∃ both both', Follows key true next removed' inserted' both ∧
      Follows key true next' removed inserted both' ∧ SameClasses key both both' := by
  obtain ⟨hfits, nk, hnk, hcount⟩ := nextRows_of_keys hvk hrk hik h
  obtain ⟨hfits', nk', hnk', hcount'⟩ := nextRows_of_keys hvk hrk' hik' h'
  obtain ⟨left, both, bk, hleft, hboth, hbk, hnodup, hmem⟩ := exists_next_residual hnk hrk' hik'
    ⟨(nodup_next_iff hfits hcount).mpr hleaves, hself'⟩
  obtain ⟨left', both', bk', hleft', hboth', hbk', hnodup', hmem'⟩ := exists_next_residual hnk' hrk hik
    ⟨(nodup_next_iff hfits' hcount').mpr hleaves', hself⟩
  refine ⟨both, both', ⟨left, hleft, hboth⟩, ⟨left', hleft', hboth'⟩, sameClasses_of_count hbk hbk' ?_⟩
  have hsame : ∀ k, k ∈ bk ↔ k ∈ bk' := by
    intro k
    rw [hmem, hmem', mem_next_iff hfits hcount, mem_next_iff hfits' hcount']
    by_cases hi : k ∈ ik
    · exact iff_of_true (.inl ⟨.inr hi, hfree' k hi⟩) (.inr hi)
    by_cases hi' : k ∈ ik'
    · exact iff_of_true (.inr hi') (.inl ⟨.inr hi', fun hr => hfree k hr hi'⟩)
    -- neither inserts the class: it stays if it is there and neither removes it
    have hl := hleaves k
    have hl' := hleaves' k
    have hr : k ∈ rk ↔ 0 < rk.count k := count_pos_iff.symm
    have hr' : k ∈ rk' ↔ 0 < rk'.count k := count_pos_iff.symm
    simp only [hi, hi', or_false, hr, hr']
    omega
  exact perm_iff_count.mp ((perm_ext_iff_of_nodup hnodup hnodup').mpr hsame)

/-- Both residuals exist only if the deltas replace nothing and leave one row per class. -/
theorem follows_set_iff (hfree : ∀ k ∈ rk, k ∉ ik') (hfree' : ∀ k ∈ ik, k ∉ rk')
    (h : nextRows key true rows removed inserted = .ok next)
    (h' : nextRows key true rows removed' inserted' = .ok next') :
    (∃ both both', Follows key true next removed' inserted' both ∧
      Follows key true next' removed inserted both' ∧ SameClasses key both both') ↔
    Keyed key rows ∧ ReplacesNone key removed inserted ∧ ReplacesNone key removed' inserted' ∧
      LeavesOne key rows removed ∧ LeavesOne key rows removed' := by
  rw [replacesNone_iff hrk hik, replacesNone_iff hrk' hik']
  constructor
  · rintro ⟨both, both', hboth, hboth', _⟩
    obtain ⟨nk, rk₁, ik₁, hnk, hrk₁, hik₁, hseparate⟩ := follows_set hboth
    obtain ⟨nk', rk₂, ik₂, hnk', hrk₂, hik₂, hseparate'⟩ := follows_set hboth'
    cases hrk'.symm.trans hrk₁
    cases hik'.symm.trans hik₁
    cases hrk.symm.trans hrk₂
    cases hik.symm.trans hik₂
    have hkeyed : Keyed key rows := by
      by_contra hnot
      -- then the first delta is empty, and the value is as it was
      obtain ⟨_, hinserted, rfl⟩ := nextRows_of_not_keyed hnot h
      rw [hinserted rfl, append_nil] at hnk
      exact hnot (keyed_iff.mpr ⟨nk, hnk⟩)
    obtain ⟨vk, hvk⟩ := keyed_iff.mp hkeyed
    obtain ⟨hfits, nk₁, hnk₁, hcount⟩ := nextRows_of_keys hvk hrk hik h
    obtain ⟨hfits', nk₂, hnk₂, hcount'⟩ := nextRows_of_keys hvk hrk' hik' h'
    cases hnk.symm.trans hnk₁
    cases hnk'.symm.trans hnk₂
    rw [leavesOne_iff hvk hrk, leavesOne_iff hvk hrk']
    exact ⟨hkeyed, hseparate'.disjoint, hseparate.disjoint,
      (nodup_next_iff hfits hcount).mp hseparate.rows,
      (nodup_next_iff hfits' hcount').mp hseparate'.rows⟩
  · rintro ⟨hkeyed, hself, hself', hleaves, hleaves'⟩
    obtain ⟨vk, hvk⟩ := keyed_iff.mp hkeyed
    rw [leavesOne_iff hvk hrk] at hleaves
    rw [leavesOne_iff hvk hrk'] at hleaves'
    exact exists_follows_set hrk hik hrk' hik' hvk hfree hfree' hself hself' hleaves hleaves' h h'

end Pair

section
variable (h : nextRows key true rows removed inserted = .ok next)
include h

theorem nextRows_set_keys : ∃ rk ik, removed.mapM key = .ok rk ∧ inserted.mapM key = .ok ik := by
  unfold nextRows at h
  split_ifs at h with hshort
  · rw [Bool.and_eq_true, List.isEmpty_iff, Bool.not_true, Bool.or_false, List.isEmpty_iff]
      at hshort
    rw [hshort.1, hshort.2]
    exact ⟨[], [], rfl, rfl⟩
  · obtain ⟨_, rk, ik, _, _, hrk, hik, _⟩ := applyRows_eq_ok h
    exact ⟨rk, ik, hrk, hik⟩

/-- A delta can be residualised against the set it applies to if it replaces nothing and the
set has one row per class. -/
theorem follows_self_iff :
    (∃ again, Follows key true rows removed inserted again ∧ SameClasses key again next) ↔
    Keyed key rows ∧ ReplacesNone key removed inserted ∧ OnePerClass key rows := by
  obtain ⟨rk, ik, hrk, hik⟩ := nextRows_set_keys h
  rw [replacesNone_iff hrk hik]
  unfold OnePerClass
  constructor
  · rintro ⟨again, hagain, _⟩
    obtain ⟨vk, rk', ik', hvk, hrk', hik', hseparate⟩ := follows_set hagain
    cases hrk.symm.trans hrk'
    cases hik.symm.trans hik'
    refine ⟨keyed_iff.mpr ⟨vk, hvk⟩, hseparate.disjoint, fun k => ?_⟩
    rw [classCount_eq hvk]
    exact nodup_iff_count_le_one.mp hseparate.rows k
  · rintro ⟨hkeyed, hself, hone⟩
    obtain ⟨vk, hvk⟩ := keyed_iff.mp hkeyed
    simp only [classCount_eq hvk] at hone
    obtain ⟨left, again, ak, hleft, hagain, hak, hnodup, hmem⟩ := exists_next_residual hvk hrk hik
      ⟨nodup_iff_count_le_one.mpr hone, hself⟩
    obtain ⟨hfits, nk, hnk, hcount⟩ := nextRows_of_keys hvk hrk hik h
    refine ⟨again, ⟨left, hleft, hagain⟩, sameClasses_of_count hak hnk ?_⟩
    have hnodup' : nk.Nodup := by
      rw [nodup_next_iff hfits hcount]
      exact fun k => (hone k).trans (Nat.le_add_left 1 _)
    have hsame : ∀ k, k ∈ ak ↔ k ∈ nk := by
      intro k
      rw [hmem, mem_next_iff hfits hcount]
      refine or_congr_left ?_
      have hk := hone k
      rw [← count_pos_iff, ← count_pos_iff]
      omega
    exact perm_iff_count.mp ((perm_ext_iff_of_nodup hnodup hnodup').mpr hsame)

end

end Rows

/-! ### Footprints -/

def Records (relation : SemanticId) (footprint : RewriteFootprint) (k : CanonicalRowKey)
    (action : RewriteActionLaw) : Prop :=
  ∃ recorded, footprint.writes[
      SemanticWriteCoordinate.relationClass relation (encodeCanonicalEqKeyTuple k)]? = some recorded ∧
    (recorded = action ∨ recorded = .opaqueAction)

section
variable {relation : SemanticId} {action action' : RewriteActionLaw}
  {footprint footprint' : RewriteFootprint} {k k' : CanonicalRowKey}

theorem records_self : Records relation (recordRelationClassAction relation action footprint k) k
    action := by
  unfold Records recordRelationClassAction
  dsimp only
  cases hrecorded : footprint.writes[
      SemanticWriteCoordinate.relationClass relation (encodeCanonicalEqKeyTuple k)]? with
  | none => exact ⟨action, ExtTreeMap.getElem?_insert_self, .inl rfl⟩
  | some recorded =>
    dsimp only
    split_ifs with hne
    · exact ⟨_, ExtTreeMap.getElem?_insert_self, .inr rfl⟩
    · rw [not_not] at hne
      exact ⟨recorded, hrecorded, .inl hne⟩

theorem Records.step (h : Records relation footprint k' action') :
    Records relation (recordRelationClassAction relation action footprint k) k' action' := by
  obtain ⟨recorded, hrecorded, hor⟩ := h
  unfold Records recordRelationClassAction
  dsimp only
  generalize SemanticWriteCoordinate.relationClass relation (encodeCanonicalEqKeyTuple k') = c at *
  by_cases heq : SemanticWriteCoordinate.relationClass relation (encodeCanonicalEqKeyTuple k) = c
  · subst heq
    rw [hrecorded]
    dsimp only
    split_ifs
    · exact ⟨_, ExtTreeMap.getElem?_insert_self, .inr rfl⟩
    · exact ⟨recorded, hrecorded, hor⟩
  · have hinsert : ∀ other, (footprint.writes.insert
        (.relationClass relation (encodeCanonicalEqKeyTuple k)) other)[c]? = some recorded :=
      fun other => getElem?_insert_eq_some.mpr (.inr ⟨heq, hrecorded⟩)
    split
    · exact ⟨recorded, hinsert _, hor⟩
    · split_ifs
      · exact ⟨recorded, hinsert _, hor⟩
      · exact ⟨recorded, hrecorded, hor⟩

theorem recordRows_eq_ok {key : Row → Fallible RelQueryError CanonicalRowKey}
    (h : recordRows key relation action rows footprint = .ok footprint') :
    (∃ ks, rows.mapM key = .ok ks ∧ ∀ k ∈ ks, Records relation footprint' k action) ∧
      ∀ k' action', Records relation footprint k' action' →
        Records relation footprint' k' action' := by
  have hstart : (∃ ks, ([] : List Row).mapM key = .ok ks ∧
      ∀ k ∈ ks, Records relation footprint k action) ∧ ∀ k' action',
        Records relation footprint k' action' → Records relation footprint k' action' :=
    ⟨⟨[], rfl, nofun⟩, fun _ _ hrecords => hrecords⟩
  have hrun := foldlM_visited (I := fun (f : RewriteFootprint) done =>
    (∃ ks, done.mapM key = .ok ks ∧ ∀ k ∈ ks, Records relation f k action) ∧
      ∀ k' action', Records relation footprint k' action' → Records relation f k' action')
    (fun f done row next hinv hstep => ?_) rows h hstart
  · exact hrun
  · obtain ⟨⟨ks, hks, hrecords⟩, hkeeps⟩ := hinv
    obtain ⟨k, hk, hstep⟩ := bind_eq_ok.mp hstep
    cases hstep
    refine ⟨⟨ks ++ [k], mapM_key_concat hks hk, fun k' hk' => ?_⟩,
      fun k' action' hk' => (hkeeps k' action' hk').step⟩
    rcases mem_concat.mp hk' with hk' | rfl
    · exact (hrecords k' hk').step
    · exact records_self

theorem compatible_opaqueAction (x : RewriteActionLaw) : compatible x .opaqueAction = false := by
  cases x <;> rfl

theorem not_free_of_records (h : Records relation footprint k action)
    (h' : Records relation footprint' k action') (hbad : compatible action action' = false) :
    ¬ footprint.Free footprint' := by
  intro hfree
  obtain ⟨x, hx, hxor⟩ := h
  obtain ⟨y, hy, hyor⟩ := h'
  have hgood := (RewriteFootprint.free_iff.mp hfree).2.2 _ x y hx hy
  rcases hyor with rfl | rfl
  · rcases hxor with rfl | rfl
    · rw [hbad] at hgood
      cases hgood
    · rw [compatible_comm, compatible_opaqueAction] at hgood
      cases hgood
  · rw [compatible_opaqueAction] at hgood
    cases hgood

end

namespace RelationDelta
variable {context : SemanticContext} {registry : SemanticRegistry} {relation : SemanticId}
  {delta delta' : RelationDelta} {footprint footprint' : RewriteFootprint}

theorem rewriteFootprint_eq_ok
    (h : delta.rewriteFootprint context registry relation = .ok footprint) :
    ∃ rk ik, delta.removed.mapM (delta.rowKey context registry) = .ok rk ∧
      delta.inserted.mapM (delta.rowKey context registry) = .ok ik ∧
      (∀ k ∈ rk, Records relation footprint k (relationClassAction delta.semantics false)) ∧
      ∀ k ∈ ik, Records relation footprint k (relationClassAction delta.semantics true) := by
  obtain ⟨mid, hmid, h⟩ := bind_eq_ok.mp h
  obtain ⟨⟨rk, hrk, hremoved⟩, _⟩ := recordRows_eq_ok hmid
  obtain ⟨⟨ik, hik, hinserted⟩, hkeeps⟩ := recordRows_eq_ok h
  exact ⟨rk, ik, hrk, hik, fun k hk => hkeeps k _ (hremoved k hk), hinserted⟩

/-- Deltas of one type whose footprints need no coordination: on a bag they have no class in
common, on a set none inserts what the other removes. -/
theorem disjoint_of_free (htype : delta.semantics = delta'.semantics)
    (h : delta.rewriteFootprint context registry relation = .ok footprint)
    (h' : delta'.rewriteFootprint context registry relation = .ok footprint')
    (hfree : footprint.Free footprint') :
    ∃ rk ik rk' ik', delta.removed.mapM (delta.rowKey context registry) = .ok rk ∧
      delta.inserted.mapM (delta.rowKey context registry) = .ok ik ∧
      delta'.removed.mapM (delta.rowKey context registry) = .ok rk' ∧
      delta'.inserted.mapM (delta.rowKey context registry) = .ok ik' ∧
      ((∀ k ∈ rk, k ∉ ik') ∧ ∀ k ∈ ik, k ∉ rk') ∧
      (delta.semantics.isSet = false → ∀ k, k ∈ rk ∨ k ∈ ik → ¬ (k ∈ rk' ∨ k ∈ ik')) := by
  obtain ⟨rk, ik, hrk, hik, hremoved, hinserted⟩ := rewriteFootprint_eq_ok h
  obtain ⟨rk', ik', hrk', hik', hremoved', hinserted'⟩ := rewriteFootprint_eq_ok h'
  have hkey : delta'.rowKey context registry = delta.rowKey context registry := by
    unfold rowKey
    rw [htype]
  rw [hkey] at hrk' hik'
  rw [← htype] at hremoved' hinserted'
  have hbad : ∀ present, compatible (relationClassAction delta.semantics present)
      (relationClassAction delta.semantics (!present)) = false := by
    intro present
    cases delta.semantics <;> cases present <;> rfl
  refine ⟨rk, ik, rk', ik', hrk, hik, hrk', hik', ⟨fun k hk hk' => ?_, fun k hk hk' => ?_⟩, ?_⟩
  · exact not_free_of_records (hremoved k hk) (hinserted' k hk') (hbad false) hfree
  · exact not_free_of_records (hinserted k hk) (hremoved' k hk') (hbad true) hfree
  · intro hbag k hk hk'
    have hany : ∀ present present', compatible (relationClassAction delta.semantics present)
        (relationClassAction delta.semantics present') = false := by
      intro present present'
      generalize delta.semantics = semantics at hbag ⊢
      cases semantics with
      | set columnEquivalences => cases hbag
      | bag columnEquivalences => rfl
    rcases hk with hk | hk <;> rcases hk' with hk' | hk'
    · exact not_free_of_records (hremoved k hk) (hremoved' k hk') (hany _ _) hfree
    · exact not_free_of_records (hremoved k hk) (hinserted' k hk') (hany _ _) hfree
    · exact not_free_of_records (hinserted k hk) (hremoved' k hk') (hany _ _) hfree
    · exact not_free_of_records (hinserted k hk) (hinserted' k hk') (hany _ _) hfree

/-! ### Values -/

theorem applyToValue_eq_ok {old next : RelationValue} :
    delta.applyToValue context registry old = .ok next ↔ old.isSet = delta.semantics.isSet ∧
      ∃ rows, nextRows (delta.rowKey context registry) delta.semantics.isSet old.rows delta.removed
        delta.inserted = .ok rows ∧ next = relationValueFromRows rows delta.semantics := by
  unfold applyToValue
  dsimp only
  split_ifs with hkind
  · rw [bne_iff_ne] at hkind
    exact ⟨nofun, fun h => absurd h.1.symm hkind⟩
  rw [bne_iff_ne, not_not] at hkind
  rw [bind_eq_ok]
  constructor
  · rintro ⟨rows, hrows, h⟩
    cases h
    exact ⟨hkind.symm, rows, hrows, rfl⟩
  · rintro ⟨_, rows, hrows, rfl⟩
    exact ⟨rows, hrows, rfl⟩

theorem residual_applies_iff {current : RelationValue}
    (hkind : current.isSet = delta.semantics.isSet) (P : List Row → Prop) :
    (∃ left next, delta.residualizeAgainst context registry current = .ok left ∧
      left.applyToValue context registry current = .ok next ∧ P next.rows) ↔
    ∃ rows, Follows (delta.rowKey context registry) delta.semantics.isSet current.rows delta.removed
      delta.inserted rows ∧ P rows := by
  constructor
  · rintro ⟨left, next, hleft, happly, hP⟩
    obtain ⟨⟨removed, inserted⟩, hresidual, hleft⟩ := bind_eq_ok.mp hleft
    cases hleft
    obtain ⟨_, rows, hrows, rfl⟩ := applyToValue_eq_ok.mp happly
    rw [rows_relationValueFromRows] at hP
    exact ⟨rows, ⟨(removed, inserted), hresidual, hrows⟩, hP⟩
  · rintro ⟨rows, ⟨⟨removed, inserted⟩, hresidual, hrows⟩, hP⟩
    refine ⟨⟨inserted, removed, delta.semantics⟩, relationValueFromRows rows delta.semantics,
      bind_eq_ok.mpr ⟨_, hresidual, rfl⟩, applyToValue_eq_ok.mpr ⟨hkind, rows, hrows, rfl⟩, ?_⟩
    rwa [rows_relationValueFromRows]

/-- What has to hold of a set for two deltas to be residualised after each other. -/
def Commutable (context : SemanticContext) (registry : SemanticRegistry) (value : RelationValue)
    (delta delta' : RelationDelta) : Prop :=
  let key := delta.rowKey context registry
  Keyed key value.rows ∧ ReplacesNone key delta.removed delta.inserted ∧
    ReplacesNone key delta'.removed delta'.inserted ∧ LeavesOne key value.rows delta.removed ∧
    LeavesOne key value.rows delta'.removed

def Repeatable (context : SemanticContext) (registry : SemanticRegistry) (value : RelationValue)
    (delta : RelationDelta) : Prop :=
  let key := delta.rowKey context registry
  Keyed key value.rows ∧ ReplacesNone key delta.removed delta.inserted ∧ OnePerClass key value.rows

/-- Two deltas that need no coordination have residuals after one another, with the same classes at
the end, exactly if on a set neither replaces a row by another of its class and both leave one row
per class. A delta is its own residual exactly if on a set it replaces nothing and there is one row
per class. -/
theorem residuals_commute_iff (context : SemanticContext) (registry : SemanticRegistry) :
    (∀ (relation : SemanticId) (value value₁ value₂ : RelationValue) (delta₁ delta₂ : RelationDelta)
      (footprint₁ footprint₂ : RewriteFootprint), delta₁.semantics = delta₂.semantics →
      delta₁.applyToValue context registry value = .ok value₁ →
      delta₂.applyToValue context registry value = .ok value₂ →
      delta₁.rewriteFootprint context registry relation = .ok footprint₁ →
      delta₂.rewriteFootprint context registry relation = .ok footprint₂ →
      coordinationDecision (inferPairRewriteLaw footprint₁ footprint₂) = .coordinationFree →
      ((∃ left₁ left₂ value₁₂ value₂₁,
        delta₂.residualizeAgainst context registry value₁ = .ok left₂ ∧
        left₂.applyToValue context registry value₁ = .ok value₁₂ ∧
        delta₁.residualizeAgainst context registry value₂ = .ok left₁ ∧
        left₁.applyToValue context registry value₂ = .ok value₂₁ ∧
        SameClasses (delta₁.rowKey context registry) value₁₂.rows value₂₁.rows) ↔
      (delta₁.semantics.isSet = true → Commutable context registry value delta₁ delta₂))) ∧
    ∀ (value next : RelationValue) (delta : RelationDelta),
      delta.applyToValue context registry value = .ok next →
      ((∃ left again, delta.residualizeAgainst context registry value = .ok left ∧
        left.applyToValue context registry value = .ok again ∧
        SameClasses (delta.rowKey context registry) again.rows next.rows) ↔
      (delta.semantics.isSet = true → Repeatable context registry value delta)) := by
  constructor
  · intro relation value value₁ value₂ delta₁ delta₂ footprint₁ footprint₂ htype h₁ h₂ hf₁ hf₂ hfree
    obtain ⟨rk, ik, rk', ik', hrk, hik, hrk', hik', hset, hbag⟩ :=
      disjoint_of_free htype hf₁ hf₂ hfree
    obtain ⟨hkind, rows₁, hrows₁, rfl⟩ := applyToValue_eq_ok.mp h₁
    obtain ⟨_, rows₂, hrows₂, rfl⟩ := applyToValue_eq_ok.mp h₂
    -- one type for both, so that the rows have one key
    obtain ⟨inserted₂, removed₂, semantics⟩ := delta₂
    cases htype
    have hrows : (∃ both both', Follows (delta₁.rowKey context registry) delta₁.semantics.isSet
        rows₁ removed₂ inserted₂ both ∧ Follows (delta₁.rowKey context registry)
        delta₁.semantics.isSet rows₂ delta₁.removed delta₁.inserted both' ∧
        SameClasses (delta₁.rowKey context registry) both both') ↔ (delta₁.semantics.isSet = true →
        Commutable context registry value delta₁ ⟨inserted₂, removed₂, delta₁.semantics⟩) := by
      cases hkind' : delta₁.semantics.isSet with
      | false =>
        rw [hkind'] at hrows₁ hrows₂
        have hexists := exists_follows_bag hrk hik hrk' hik' (hbag hkind') hrows₁ hrows₂
        exact iff_of_true hexists nofun
      | true =>
        rw [hkind'] at hrows₁ hrows₂
        rw [follows_set_iff hrk hik hrk' hik' hset.1 hset.2 hrows₁ hrows₂]
        exact ⟨fun h _ => h, fun h => h rfl⟩
    have hkind₁ : (relationValueFromRows rows₁ delta₁.semantics).isSet =
        (RelationDelta.mk inserted₂ removed₂ delta₁.semantics).semantics.isSet :=
      isSet_relationValueFromRows rows₁ delta₁.semantics
    have hkind₂ := isSet_relationValueFromRows rows₂ delta₁.semantics
    rw [← rows_relationValueFromRows rows₁ delta₁.semantics,
      ← rows_relationValueFromRows rows₂ delta₁.semantics] at hrows
    rw [← hrows]
    constructor
    · rintro ⟨left₁, left₂, value₁₂, value₂₁, hleft₂, happly₂, hleft₁, happly₁, hsame⟩
      obtain ⟨both, hboth, hsame⟩ := (residual_applies_iff hkind₁
        (SameClasses _ · value₂₁.rows)).mp ⟨left₂, value₁₂, hleft₂, happly₂, hsame⟩
      obtain ⟨both', hboth', hsame⟩ := (residual_applies_iff hkind₂ _).mp
        ⟨left₁, value₂₁, hleft₁, happly₁, hsame⟩
      exact ⟨both, both', hboth, hboth', hsame⟩
    · rintro ⟨both, both', hboth, hboth', hsame⟩
      obtain ⟨left₂, value₁₂, hleft₂, happly₂, hsame⟩ :=
        (residual_applies_iff hkind₁ (SameClasses _ · both')).mpr ⟨both, hboth, hsame⟩
      obtain ⟨left₁, value₂₁, hleft₁, happly₁, hsame⟩ :=
        (residual_applies_iff hkind₂ _).mpr ⟨both', hboth', hsame⟩
      exact ⟨left₁, left₂, value₁₂, value₂₁, hleft₂, happly₂, hleft₁, happly₁, hsame⟩
  · intro value next delta h
    obtain ⟨hkind, rows, hrows, rfl⟩ := applyToValue_eq_ok.mp h
    rw [rows_relationValueFromRows,
      residual_applies_iff hkind (SameClasses (delta.rowKey context registry) · rows)]
    cases hset : delta.semantics.isSet with
    | false =>
      -- on a bag the delta is its own residual
      rw [hset] at hrows
      exact iff_of_true ⟨rows, ⟨_, rfl, hrows⟩, .refl _⟩ nofun
    | true =>
      rw [hset] at hrows
      rw [follows_self_iff hrows]
      exact ⟨fun h _ => h, fun h => h rfl⟩

end RelationDelta

open SemanticRegistry

def textSet (texts : List String) : RelationValue := .set (texts.map fun text => [.text text]) [5]

def textDelta (removed inserted : List String) : RelationDelta where
  inserted := inserted.map fun text => [.text text]
  removed := removed.map fun text => [.text text]
  semantics := .set [5]

def textDecision (delta delta' : RelationDelta) :
    Fallible RelQueryError PairCoordinationDecision := do
  let footprint ← delta.rewriteFootprint listContext textRegistry 7
  let footprint' ← delta'.rewriteFootprint listContext textRegistry 7
  return coordinationDecision (inferPairRewriteLaw footprint footprint')

theorem textDecision_eq_ok {delta delta' : RelationDelta} {decision : PairCoordinationDecision}
    (h : (textDecision delta delta').toOption = some decision) :
    ∃ footprint footprint', delta.rewriteFootprint listContext textRegistry 7 = .ok footprint ∧
      delta'.rewriteFootprint listContext textRegistry 7 = .ok footprint' ∧
      coordinationDecision (inferPairRewriteLaw footprint footprint') = decision := by
  obtain ⟨footprint, hf, h⟩ := bind_eq_ok.mp (toOption_eq_some.mp h)
  obtain ⟨footprint', hf', h⟩ := bind_eq_ok.mp h
  exact ⟨footprint, footprint', hf, hf', Except.ok.inj h⟩

theorem residuals_commute_of_insertions :
    ∃ value₁ value₂ left₁ left₂ value₁₂ value₂₁,
      (textDelta [] ["b"]).applyToValue listContext textRegistry (textSet ["A"]) = .ok value₁ ∧
      (textDelta [] ["c"]).applyToValue listContext textRegistry (textSet ["A"]) = .ok value₂ ∧
      (textDelta [] ["c"]).residualizeAgainst listContext textRegistry value₁ = .ok left₂ ∧
      left₂.applyToValue listContext textRegistry value₁ = .ok value₁₂ ∧
      (textDelta [] ["b"]).residualizeAgainst listContext textRegistry value₂ = .ok left₁ ∧
      left₁.applyToValue listContext textRegistry value₂ = .ok value₂₁ ∧
      SameClasses ((textDelta [] ["b"]).rowKey listContext textRegistry)
        value₁₂.rows value₂₁.rows := by
  have hone : ∀ removed, LeavesOne ((textDelta [] ["b"]).rowKey listContext textRegistry)
      (textSet ["A"]).rows removed := by
    intro removed k
    exact countP_le_length.trans (Nat.le_add_left _ _)
  have hkeyed : Keyed ((textDelta [] ["b"]).rowKey listContext textRegistry)
      (textSet ["A"]).rows := by
    have hsome : ∀ row ∈ (textSet ["A"]).rows,
        ((textDelta [] ["b"]).rowKey listContext textRegistry row).toOption.isSome = true := by
      decide +kernel
    exact fun row hrow => exists_ok_of_isSome (hsome row hrow)
  have happlies : ∀ text ∈ ["b", "c"], ((textDelta [] [text]).applyToValue listContext
      textRegistry (textSet ["A"])).toOption.isSome = true := by decide +kernel
  obtain ⟨value₁, h₁⟩ := exists_ok_of_isSome (happlies "b" (by decide))
  obtain ⟨value₂, h₂⟩ := exists_ok_of_isSome (happlies "c" (by decide))
  have hdecision : (textDecision (textDelta [] ["b"]) (textDelta [] ["c"])).toOption =
      some .coordinationFree := by decide +kernel
  obtain ⟨footprint₁, footprint₂, hf₁, hf₂, hfree⟩ := textDecision_eq_ok hdecision
  obtain ⟨left₁, left₂, value₁₂, value₂₁, h⟩ :=
    ((RelationDelta.residuals_commute_iff listContext textRegistry).1 7 (textSet ["A"]) value₁ value₂
      (textDelta [] ["b"]) (textDelta [] ["c"]) footprint₁ footprint₂ rfl h₁ h₂ hf₁ hf₂ hfree).mpr
      fun _ => ⟨hkeyed, nofun, nofun, hone _, hone _⟩
  exact ⟨value₁, value₂, left₁, left₂, value₁₂, value₂₁, h₁, h₂, h⟩

/-- A replaced representative needs no coordination with another insertion, but has no residual,
neither against the value it applies to nor after the other delta. -/
theorem residual_of_replacement :
    ∃ value₁ value₂ footprint₁ footprint₂,
      (textDelta ["A"] ["a"]).applyToValue listContext textRegistry (textSet ["A"]) = .ok value₁ ∧
      (textDelta [] ["b"]).applyToValue listContext textRegistry (textSet ["A"]) = .ok value₂ ∧
      (textDelta ["A"] ["a"]).rewriteFootprint listContext textRegistry 7 = .ok footprint₁ ∧
      (textDelta [] ["b"]).rewriteFootprint listContext textRegistry 7 = .ok footprint₂ ∧
      coordinationDecision (inferPairRewriteLaw footprint₁ footprint₂) = .coordinationFree ∧
      (∀ left, (textDelta ["A"] ["a"]).residualizeAgainst listContext textRegistry (textSet ["A"]) ≠
        .ok left) ∧
      ∀ left, (textDelta ["A"] ["a"]).residualizeAgainst listContext textRegistry value₂ ≠
        .ok left := by
  have hdecision : (textDecision (textDelta ["A"] ["a"]) (textDelta [] ["b"])).toOption =
      some .coordinationFree := by decide +kernel
  obtain ⟨footprint₁, footprint₂, hf₁, hf₂, hfree⟩ := textDecision_eq_ok hdecision
  have happlies : ∀ delta ∈ [textDelta ["A"] ["a"], textDelta [] ["b"]],
      (delta.applyToValue listContext textRegistry (textSet ["A"])).toOption.isSome = true := by
    decide +kernel
  obtain ⟨value₁, h₁⟩ := exists_ok_of_isSome (happlies _ mem_cons_self)
  obtain ⟨value₂, h₂⟩ := exists_ok_of_isSome (happlies _ (mem_cons_of_mem _ mem_cons_self))
  have hnone : ((textDelta ["A"] ["a"]).residualizeAgainst listContext textRegistry
      (textSet ["A"])).toOption.isSome = false := by decide +kernel
  have hafter : (do
      let value ← (textDelta [] ["b"]).applyToValue listContext textRegistry (textSet ["A"])
      (textDelta ["A"] ["a"]).residualizeAgainst listContext textRegistry value).toOption.isSome =
      false := by decide +kernel
  refine ⟨value₁, value₂, footprint₁, footprint₂, h₁, h₂, hf₁, hf₂, hfree, ?_, ?_⟩
  · intro left hleft
    rw [hleft] at hnone
    cases hnone
  · intro left hleft
    rw [h₂] at hafter
    change ((textDelta ["A"] ["a"]).residualizeAgainst listContext textRegistry
      value₂).toOption.isSome = false at hafter
    rw [hleft] at hafter
    cases hafter

end Cfmd.Query
