import Cfmd.Query.RelationDelta

/-! What application and residuals do to the classes of rows: the loops over rows in terms
of the lists of their keys. -/

namespace Cfmd.Query
open Lib Std List

variable {κ : Type} {key : Row → Fallible RelQueryError κ} {rows removed inserted : List Row}
  {ks vk rk ik : List κ} {row : Row} {k : κ} {P : κ → Prop}

/-! ### Lists of keys -/

section
variable (h : rows.mapM key = .ok ks)
include h

theorem map_key_of_mapM : rows.map key = ks.map .ok :=
  (map_of_mapM h fun _ _ hk => hk.symm).symm

theorem mapM_key_append {rows' : List Row} {ks' : List κ} (h' : rows'.mapM key = .ok ks') :
    (rows ++ rows').mapM key = .ok (ks ++ ks') := by
  rw [mapM_eq_ok] at h h' ⊢
  exact rel_append h h'

omit h in
theorem mapM_key_entries {entries : List (Row × κ)}
    (h : ∀ entry ∈ entries, key entry.1 = .ok entry.2) :
    (entries.map Prod.fst).mapM key = .ok (entries.map Prod.snd) := by
  rw [mapM_eq_ok, forall₂_map_left_iff, forall₂_map_right_iff, forall₂_same]
  exact h

theorem key_of_mem_zip {entry : Row × κ} (hentry : entry ∈ rows.zip ks) :
    key entry.1 = .ok entry.2 := by
  rw [mapM_eq_ok] at h
  exact (forall₂_iff_zip.mp h).2 hentry

theorem mapM_key_concat (hk : key row = .ok k) : (rows ++ [row]).mapM key = .ok (ks ++ [k]) := by
  apply mapM_key_append h
  rw [mapM_eq_ok]
  exact .cons hk .nil

end

theorem mem_concat {k' : κ} : k' ∈ ks ++ [k] ↔ k' ∈ ks ∨ k' = k := by
  rw [mem_append, mem_singleton]

theorem nodup_concat (h : ks.Nodup) (hk : k ∉ ks) : (ks ++ [k]).Nodup := by
  rw [nodup_append]
  refine ⟨h, nodup_singleton k, fun a ha b hb => ?_⟩
  rw [mem_singleton.mp hb]
  rintro rfl
  exact hk ha

def Collects (key : Row → Fallible RelQueryError κ) (rows : List Row) (P : κ → Prop) : Prop :=
  ∃ ks, rows.mapM key = .ok ks ∧ ks.Nodup ∧ ∀ k, k ∈ ks ↔ P k

theorem Collects.nil (h : ∀ k, ¬ P k) : Collects key [] P :=
  ⟨[], rfl, .nil, fun k => iff_of_false not_mem_nil (h k)⟩

theorem Collects.congr {Q : κ → Prop} (h : Collects key rows P) (hiff : ∀ k, P k ↔ Q k) :
    Collects key rows Q := by
  obtain ⟨ks, hks, hnodup, hmem⟩ := h
  exact ⟨ks, hks, hnodup, fun k => (hmem k).trans (hiff k)⟩

theorem Collects.concat (h : Collects key rows P) (hk : key row = .ok k) (hnew : ¬ P k) :
    Collects key (rows ++ [row]) fun k' => P k' ∨ k' = k := by
  obtain ⟨ks, hks, hnodup, hmem⟩ := h
  refine ⟨ks ++ [k], mapM_key_concat hks hk, nodup_concat hnodup ?_, fun k' => ?_⟩
  · rwa [hmem]
  · rw [mem_concat, hmem]

theorem mapM_key_cons (h : (row :: rows).mapM key = .ok ks) :
    ∃ k ks', key row = .ok k ∧ rows.mapM key = .ok ks' ∧ ks = k :: ks' := by
  rw [mapM_cons] at h
  obtain ⟨k, hk, h⟩ := bind_eq_ok.mp h
  obtain ⟨ks', hks', h⟩ := bind_eq_ok.mp h
  cases h
  exact ⟨k, ks', hk, hks', rfl⟩

theorem exists_foldlM_keyed {β : Type} {f : β → Row → κ → β} (h : rows.mapM key = .ok ks) (s : β) :
    ∃ s', rows.foldlM (fun s row => do return f s row (← key row)) s = .ok s' := by
  induction rows generalizing ks s with
  | nil => exact ⟨s, rfl⟩
  | cons row rows ih =>
    obtain ⟨k, ks', hk, hks', rfl⟩ := mapM_key_cons h
    obtain ⟨s', hs'⟩ := ih hks' (f s row k)
    refine ⟨s', ?_⟩
    rw [foldlM_cons, hk]
    exact hs'

/-! ### Residuals -/

section
variable [Ord κ] [TransOrd κ] [LawfulEqOrd κ]

structure Indexes (key : Row → Fallible RelQueryError κ) (current : ExtTreeMap κ Row)
    (P : κ → Prop) : Prop where
  rows : ∀ k row, current[k]? = some row → key row = .ok k
  mem : ∀ k, k ∈ current ↔ P k

variable {current : ExtTreeMap κ Row} {next : ExtTreeMap κ Row × List Row}

theorem Indexes.insert (h : Indexes key current P) (hk : key row = .ok k) :
    Indexes key (current.insert k row) fun k' => P k' ∨ k' = k := by
  refine ⟨fun k' row' hrow => ?_, fun k' => ?_⟩
  · rcases getElem?_insert_eq_some.mp hrow with ⟨rfl, rfl⟩ | ⟨_, hrow⟩
    · exact hk
    · exact h.rows k' row' hrow
  · rw [ExtTreeMap.mem_insert, h.mem, LawfulEqOrd.compare_eq_iff_eq]
    exact ⟨fun h => h.symm.imp_right Eq.symm, fun h => h.symm.imp_left Eq.symm⟩

theorem Indexes.erase (h : Indexes key current P) (k : κ) :
    Indexes key (current.erase k) fun k' => P k' ∧ k' ≠ k := by
  refine ⟨fun k' row' hrow => ?_, fun k' => ?_⟩
  · rw [ExtTreeMap.getElem?_erase] at hrow
    split_ifs at hrow with hne
    exact h.rows k' row' hrow
  · rw [ExtTreeMap.mem_erase, h.mem, ne_eq, LawfulEqOrd.compare_eq_iff_eq]
    exact ⟨fun h => ⟨h.2, Ne.symm h.1⟩, fun h => ⟨Ne.symm h.2, h.1⟩⟩

theorem currentByKey_eq_ok (h : currentByKey key rows = .ok current) :
    ∃ vk, rows.mapM key = .ok vk ∧ vk.Nodup ∧ Indexes key current (· ∈ vk) := by
  have hempty : ∃ vk, ([] : List Row).mapM key = .ok vk ∧ vk.Nodup ∧
      Indexes key (∅ : ExtTreeMap κ Row) (· ∈ vk) := by
    refine ⟨[], rfl, .nil, fun k row hrow => ?_, fun k => ?_⟩
    · cases hrow
    · exact iff_of_false ExtTreeMap.not_mem_empty not_mem_nil
  have hrun := foldlM_visited (I := fun current done => ∃ vk, done.mapM key = .ok vk ∧ vk.Nodup ∧
    Indexes key current (· ∈ vk)) (fun current done row next hinv hstep => ?_) rows h hempty
  · exact hrun
  · obtain ⟨vk, hvk, hnodup, hindex⟩ := hinv
    obtain ⟨k, hk, hstep⟩ := bind_eq_ok.mp hstep
    unfold indexRow at hstep
    split_ifs at hstep with hmem
    · cases hstep
    cases hstep
    rw [ExtTreeMap.contains_iff_mem, hindex.mem] at hmem
    refine ⟨vk ++ [k], mapM_key_concat hvk hk, nodup_concat hnodup hmem, ?_⟩
    simp only [mem_concat]
    exact hindex.insert hk

theorem exists_currentByKey (hvk : rows.mapM key = .ok vk) (hnodup : vk.Nodup) :
    ∃ current, currentByKey key rows = .ok current := by
  have hrun : ∀ (rows : List Row) (vk : List κ) (current : ExtTreeMap κ Row),
      rows.mapM key = .ok vk → vk.Nodup → (∀ k ∈ vk, k ∉ current) →
      ∃ next, rows.foldlM (fun current row => key row >>= indexRow current row) current =
        Except.ok next := by
    intro rows
    induction rows with
    | nil => exact fun vk current _ _ _ => ⟨current, rfl⟩
    | cons row rows ih =>
      intro vk current hvk hnodup hnew
      obtain ⟨k, vk', hk, hvk', rfl⟩ := mapM_key_cons hvk
      rw [nodup_cons] at hnodup
      rw [forall_mem_cons] at hnew
      have hrest : ∀ k' ∈ vk', k' ∉ current.insert k row := by
        intro k' hk'
        rw [ExtTreeMap.mem_insert, LawfulEqOrd.compare_eq_iff_eq]
        rintro (rfl | hmem)
        · exact hnodup.1 hk'
        · exact hnew.2 k' hk' hmem
      obtain ⟨next, hnext⟩ := ih vk' (current.insert k row) hvk' hnodup.2 hrest
      refine ⟨next, ?_⟩
      rw [foldlM_cons, bind_eq_ok]
      refine ⟨current.insert k row, bind_eq_ok.mpr ⟨k, hk, ?_⟩, hnext⟩
      exact if_neg (by rw [ExtTreeMap.contains_iff_mem]; exact hnew.1)
  exact hrun rows vk ∅ hvk hnodup fun k _ => ExtTreeMap.not_mem_empty

theorem foldlM_residualRemoval (hindex : Indexes key current P)
    (h : removed.foldlM (fun state row => do
      return residualRemoval state (← key row)) (current, []) = .ok next) :
    ∃ rk, removed.mapM key = .ok rk ∧ Indexes key next.1 (fun k => P k ∧ k ∉ rk) ∧
      Collects key next.2 fun k => P k ∧ k ∈ rk := by
  have hstart : ∃ rk, ([] : List Row).mapM key = .ok rk ∧
      Indexes key current (fun k => P k ∧ k ∉ rk) ∧
      Collects key [] fun k => P k ∧ k ∈ rk := by
    refine ⟨[], rfl, ⟨hindex.rows, fun k => ?_⟩, Collects.nil fun k h => not_mem_nil h.2⟩
    rw [hindex.mem]
    exact ⟨fun h => ⟨h, not_mem_nil⟩, And.left⟩
  have hrun := foldlM_visited (I := fun state done => ∃ rk, done.mapM key = .ok rk ∧
    Indexes key state.1 (fun k => P k ∧ k ∉ rk) ∧ Collects key state.2 fun k => P k ∧ k ∈ rk)
    (fun state done row next hinv hstep => ?_) removed h hstart
  · exact hrun
  · obtain ⟨rk, hrk, hindex, hcollects⟩ := hinv
    obtain ⟨k, hk, hstep⟩ := bind_eq_ok.mp hstep
    cases hstep
    refine ⟨rk ++ [k], mapM_key_concat hrk hk, ?_⟩
    simp only [mem_concat, not_or]
    unfold residualRemoval
    cases hrow : state.1[k]? with
    | none =>
      -- the class is not there: it was removed already, or never was
      have hnot : ¬ (P k ∧ k ∉ rk) := by
        rw [← hindex.mem, ← ExtTreeMap.isSome_getElem?_iff_mem, hrow]
        exact Bool.false_ne_true
      refine ⟨⟨hindex.rows, fun k' => ?_⟩, hcollects.congr fun k' => ?_⟩
      · rw [hindex.mem]
        refine ⟨fun h => ⟨h.1, h.2, ?_⟩, fun h => ⟨h.1, h.2.1⟩⟩
        rintro rfl
        exact hnot h
      · refine ⟨fun h => ⟨h.1, .inl h.2⟩, fun h => ⟨h.1, ?_⟩⟩
        rcases h.2 with hmem | rfl
        · exact hmem
        · by_contra hmem
          exact hnot ⟨h.1, hmem⟩
    | some existing =>
      have hmem : k ∈ state.1 := by
        rw [← ExtTreeMap.isSome_getElem?_iff_mem, hrow]
        rfl
      rw [hindex.mem] at hmem
      constructor
      · obtain ⟨hrows, hmem'⟩ := hindex.erase k
        exact ⟨hrows, fun k' => (hmem' k').trans and_assoc⟩
      · refine (hcollects.concat (hindex.rows k existing hrow) fun h => hmem.2 h.2).congr fun k' => ?_
        grind

theorem foldlM_residualInsertion (hindex : Indexes key current P)
    (h : inserted.foldlM (fun state row => do
      return residualInsertion state row (← key row)) (current, []) = .ok next) :
    ∃ ik, inserted.mapM key = .ok ik ∧ Collects key next.2 fun k => k ∈ ik ∧ ¬ P k := by
  have hstart : ∃ ik, ([] : List Row).mapM key = .ok ik ∧
      Indexes key current (fun k => P k ∨ k ∈ ik) ∧
      Collects key [] fun k => k ∈ ik ∧ ¬ P k := by
    refine ⟨[], rfl, ⟨hindex.rows, fun k => ?_⟩, Collects.nil fun k h => not_mem_nil h.1⟩
    rw [hindex.mem]
    exact ⟨.inl, fun h => h.resolve_right not_mem_nil⟩
  have hrun := foldlM_visited (I := fun state done => ∃ ik, done.mapM key = .ok ik ∧
    Indexes key state.1 (fun k => P k ∨ k ∈ ik) ∧ Collects key state.2 fun k => k ∈ ik ∧ ¬ P k)
    (fun state done row next hinv hstep => ?_) inserted h hstart
  · obtain ⟨ik, hik, _, hcollects⟩ := hrun
    exact ⟨ik, hik, hcollects⟩
  · obtain ⟨ik, hik, hindex, hcollects⟩ := hinv
    obtain ⟨k, hk, hstep⟩ := bind_eq_ok.mp hstep
    cases hstep
    refine ⟨ik ++ [k], mapM_key_concat hik hk, ?_⟩
    simp only [mem_concat]
    unfold residualInsertion
    split_ifs with hmem <;> rw [ExtTreeMap.contains_iff_mem, hindex.mem] at hmem
    · refine ⟨⟨hindex.rows, fun k' => ?_⟩, hcollects.congr fun k' => ?_⟩
      · rw [hindex.mem]
        refine ⟨fun h => h.imp_right .inl, ?_⟩
        rintro (h | h | rfl)
        · exact .inl h
        · exact .inr h
        · exact hmem
      · refine ⟨fun h => ⟨.inl h.1, h.2⟩, ?_⟩
        rintro ⟨h | rfl, hP⟩
        · exact ⟨h, hP⟩
        · exact ⟨hmem.resolve_left hP, hP⟩
    · rw [not_or] at hmem
      constructor
      · obtain ⟨hrows, hmem'⟩ := hindex.insert hk
        exact ⟨hrows, fun k' => (hmem' k').trans or_assoc⟩
      · refine (hcollects.concat hk fun h => hmem.2 h.1).congr fun k' => ?_
        grind

/-- The classes of rows of which no row is kept twice, and of removals and insertions that do
not meet. -/
structure Separate (vk rk ik : List κ) : Prop where
  rows : vk.Nodup
  disjoint : ∀ k ∈ rk, k ∉ ik

variable [DecidableEq κ]

theorem any_contains_ofList :
    rk.any (ExtTreeSet.ofList ik compare).contains = false ↔ ∀ k ∈ rk, k ∉ ik := by
  rw [any_eq_false]
  refine forall₂_congr fun k _ => not_congr ?_
  rw [ExtTreeSet.contains_ofList, contains_iff_mem]

theorem residualRows_eq_ok {residual : List Row × List Row}
    (h : residualRows key rows removed inserted = .ok residual) :
    ∃ vk rk ik, rows.mapM key = .ok vk ∧ removed.mapM key = .ok rk ∧ inserted.mapM key = .ok ik ∧
      Separate vk rk ik ∧ (Collects key residual.1 fun k => k ∈ vk ∧ k ∈ rk) ∧
      Collects key residual.2 fun k => k ∈ ik ∧ k ∉ vk := by
  obtain ⟨current, hcurrent, h⟩ := bind_eq_ok.mp h
  obtain ⟨vk, hvk, hnodup, hindex⟩ := currentByKey_eq_ok hcurrent
  obtain ⟨rk, hrk, h⟩ := bind_eq_ok.mp h
  obtain ⟨ik, hik, h⟩ := bind_eq_ok.mp h
  split_ifs at h with hmeet
  · cases h
  rw [Bool.not_eq_true, any_contains_ofList] at hmeet
  obtain ⟨⟨current', removed'⟩, hremoved, h⟩ := bind_eq_ok.mp h
  obtain ⟨⟨current'', inserted'⟩, hinserted, h⟩ := bind_eq_ok.mp h
  cases h
  obtain ⟨rk', hrk', hindex', hremoved'⟩ := foldlM_residualRemoval hindex hremoved
  obtain ⟨ik', hik', hinserted'⟩ := foldlM_residualInsertion hindex' hinserted
  rw [hrk] at hrk'
  rw [hik] at hik'
  cases hrk'
  cases hik'
  refine ⟨vk, rk, ik, hvk, hrk, hik, ⟨hnodup, hmeet⟩, hremoved', hinserted'.congr fun k => ?_⟩
  -- a class to be inserted is not one of those just removed
  refine and_congr_right fun hk => not_congr ⟨And.left, fun hv => ⟨hv, fun hr => hmeet k hr hk⟩⟩

theorem exists_residualRows (hvk : rows.mapM key = .ok vk) (hrk : removed.mapM key = .ok rk)
    (hik : inserted.mapM key = .ok ik) (h : Separate vk rk ik) :
    ∃ residual, residualRows key rows removed inserted = .ok residual := by
  obtain ⟨current, hcurrent⟩ := exists_currentByKey hvk h.rows
  obtain ⟨⟨current', removed'⟩, hremoved⟩ :=
    exists_foldlM_keyed (f := fun state _ k => residualRemoval state k) hrk (current, [])
  obtain ⟨⟨current'', inserted'⟩, hinserted⟩ :=
    exists_foldlM_keyed (f := residualInsertion) hik (current', [])
  refine ⟨(removed', inserted'), ?_⟩
  refine bind_eq_ok.mpr ⟨current, hcurrent, bind_eq_ok.mpr ⟨rk, hrk, bind_eq_ok.mpr ⟨ik, hik, ?_⟩⟩⟩
  rw [any_contains_ofList.mpr h.disjoint]
  exact bind_eq_ok.mpr ⟨_, hremoved, bind_eq_ok.mpr ⟨_, hinserted, rfl⟩⟩

end

/-! ### Application -/

section
variable [Ord κ] [TransOrd κ]

theorem removeClass_eq_ok {counts next : Tally κ × Tally κ} : removeClass counts k = .ok next ↔
      ∃ n, counts.1.getD k 0 = n + 1 ∧ next = (counts.1.insert k n, bump counts.2 k) := by
  unfold removeClass
  rw [ExtTreeMap.getD_eq_getD_getElem?]
  rcases counts.1[k]? with _ | _ | n
  · exact ⟨nofun, fun ⟨n, hn, _⟩ => by cases hn⟩
  · exact ⟨nofun, fun ⟨n, hn, _⟩ => by cases hn⟩
  · grind

variable {expectedSet : Bool}

theorem insertClass_eq_ok {counts next : Tally κ} : insertClass expectedSet counts k = .ok next ↔
      (expectedSet = true → counts.getD k 0 = 0) ∧ next = bump counts k := by
  unfold insertClass
  cases expectedSet with
  | false => simp [eq_comm]
  | true =>
    by_cases hzero : counts.getD k 0 = 0
    · simp [hzero, eq_comm]
    · simp [hzero, inconsistent]

variable [LawfulEqOrd κ] [DecidableEq κ]

theorem foldlM_removeClass {support removals : Tally κ} {next : Tally κ × Tally κ}
    (h : ks.foldlM removeClass (support, removals) = .ok next) :
    (∀ k, next.1.getD k 0 + ks.count k = support.getD k 0) ∧
      ∀ done, Tallies removals done → Tallies next.2 (done ++ ks) := by
  induction ks generalizing support removals with
  | nil =>
    cases h
    exact ⟨fun k => rfl, fun done hdone => by rwa [append_nil]⟩
  | cons k ks ih =>
    rw [foldlM_cons, bind_eq_ok] at h
    obtain ⟨mid, hmid, h⟩ := h
    obtain ⟨n, hn, rfl⟩ := removeClass_eq_ok.mp hmid
    obtain ⟨hcounts, htallies⟩ := ih h
    refine ⟨fun k' => ?_, fun done hdone => ?_⟩
    · have hk' := hcounts k'
      rw [getD_insert] at hk'
      rw [count_cons]
      by_cases heq : k = k'
      · subst heq
        rw [if_pos rfl] at hk'
        rw [if_pos (beq_self_eq_true k), hn, ← hk', Nat.add_assoc]
      · rw [if_neg heq] at hk'
        rw [if_neg (by simpa using heq), Nat.add_zero, hk']
    · have hrest := htallies _ (hdone.bump k)
      rwa [append_assoc] at hrest

theorem exists_foldlM_removeClass (ks : List κ) (counts : Tally κ × Tally κ)
    (h : ∀ k, ks.count k ≤ counts.1.getD k 0) : ∃ next, ks.foldlM removeClass counts = .ok next := by
  induction ks generalizing counts with
  | nil => exact ⟨counts, rfl⟩
  | cons k ks ih =>
    have hpos := h k
    rw [count_cons_self] at hpos
    obtain ⟨n, hn⟩ := Nat.exists_eq_add_of_lt (Nat.lt_of_lt_of_le (Nat.succ_pos _) hpos)
    rw [Nat.zero_add] at hn
    have hstep : removeClass counts k = .ok (counts.1.insert k n, bump counts.2 k) :=
      removeClass_eq_ok.mpr ⟨n, hn, rfl⟩
    obtain ⟨next, hnext⟩ := ih (counts.1.insert k n, bump counts.2 k) (by
      intro k'
      have hk' := h k'
      rw [count_cons] at hk'
      rw [getD_insert]
      by_cases heq : k = k'
      · subst heq
        rw [if_pos (beq_self_eq_true k), hn] at hk'
        rw [if_pos rfl]
        exact Nat.le_of_succ_le_succ hk'
      · rw [if_neg (by simpa using heq)] at hk'
        rwa [if_neg heq])
    refine ⟨next, ?_⟩
    rw [foldlM_cons, bind_eq_ok]
    exact ⟨_, hstep, hnext⟩

theorem foldlM_insertClass {counts : Tally κ} :
    (∃ next, ks.foldlM (insertClass expectedSet) counts = .ok next) ↔
      (expectedSet = true → ks.Nodup ∧ ∀ k ∈ ks, counts.getD k 0 = 0) := by
  induction ks generalizing counts with
  | nil => exact ⟨fun _ _ => ⟨.nil, nofun⟩, fun _ => ⟨counts, rfl⟩⟩
  | cons k ks ih =>
    have hstep : (∃ next, (k :: ks).foldlM (insertClass expectedSet) counts = .ok next) ↔
        (expectedSet = true → counts.getD k 0 = 0) ∧
          ∃ next, ks.foldlM (insertClass expectedSet) (bump counts k) = .ok next := by
      simp only [foldlM_cons, bind_eq_ok, insertClass_eq_ok]
      grind
    rw [hstep, ih, ← imp_and]
    refine imp_congr_right fun _ => ?_
    -- after `k` is inserted, only the others can still be new
    have hbump : ∀ k' ∈ ks, (bump counts k).getD k' 0 = 0 ↔ k ≠ k' ∧ counts.getD k' 0 = 0 := by
      intro k' _
      rw [bump, getD_insert]
      by_cases heq : k = k'
      · subst heq
        simp
      · simp [heq]
    grind

structure Fits (expectedSet : Bool) (vk rk ik : List κ) : Prop where
  removed : ∀ k, rk.count k ≤ vk.count k
  inserted : expectedSet = true → ik.Nodup ∧ ∀ k ∈ ik, vk.count k = rk.count k

theorem applyRows_eq_ok {next : List Row}
    (h : applyRows key expectedSet rows removed inserted = .ok next) :
    ∃ vk rk ik nk, rows.mapM key = .ok vk ∧ removed.mapM key = .ok rk ∧ inserted.mapM key = .ok ik ∧
      next.mapM key = .ok nk ∧ Fits expectedSet vk rk ik ∧
      ∀ k, nk.count k + rk.count k = vk.count k + ik.count k := by
  obtain ⟨vk, hvk, h⟩ := bind_eq_ok.mp h
  obtain ⟨⟨support, removals⟩, hremove, h⟩ := bind_eq_ok.mp h
  obtain ⟨rk, hrk, hremove⟩ := foldlM_keyed.mp hremove
  obtain ⟨counts, hinsert, h⟩ := bind_eq_ok.mp h
  obtain ⟨ik, hik, hinsert⟩ := foldlM_keyed.mp hinsert
  cases h
  obtain ⟨hsupport, htallies⟩ := foldlM_removeClass hremove
  have hremovals := htallies [] Tallies.empty
  rw [nil_append] at hremovals
  have hnew := foldlM_insertClass.mp ⟨counts, hinsert⟩
  have hcounts : ∀ k, support.getD k 0 + rk.count k = vk.count k := by
    intro k
    rw [← tallies_tallyOf vk k]
    exact hsupport k
  have hentries : ∀ entry ∈ withdraw removals (rows.zip vk), key entry.1 = .ok entry.2 :=
    fun entry hentry => key_of_mem_zip hvk ((withdraw_sublist _ _).subset hentry)
  have hsnd : (rows.zip vk).map Prod.snd = vk :=
    map_snd_zip (List.Forall₂.length_eq ((mapM_eq_ok rows).mp hvk)).ge
  refine ⟨vk, rk, ik, _, hvk, hrk, hik, mapM_key_append (mapM_key_entries hentries) hik,
    ⟨fun k => ?_, fun hset => ⟨(hnew hset).1, fun k hk => ?_⟩⟩, fun k => ?_⟩
  · have hk := hcounts k
    omega
  · have hk' := hcounts k
    rw [(hnew hset).2 k hk, Nat.zero_add] at hk'
    exact hk'.symm
  · have hk := hcounts k
    rw [count_append, count_withdraw, hsnd, hremovals k]
    omega

theorem exists_applyRows (hvk : rows.mapM key = .ok vk) (hrk : removed.mapM key = .ok rk)
    (hik : inserted.mapM key = .ok ik) (hfits : Fits expectedSet vk rk ik) :
    ∃ next, applyRows key expectedSet rows removed inserted = .ok next := by
  obtain ⟨⟨support, removals⟩, hremove⟩ := exists_foldlM_removeClass rk (tallyOf vk, ∅) (by
    intro k
    rw [tallies_tallyOf vk k]
    exact hfits.removed k)
  have hsupport := (foldlM_removeClass hremove).1
  have hnew : expectedSet = true → ik.Nodup ∧ ∀ k ∈ ik, support.getD k 0 = 0 := by
    intro hset
    refine ⟨(hfits.inserted hset).1, fun k hk => ?_⟩
    have hk' := hsupport k
    rw [tallies_tallyOf vk k, (hfits.inserted hset).2 k hk] at hk'
    exact Nat.add_eq_right.mp hk'
  obtain ⟨counts, hinsert⟩ := foldlM_insertClass.mpr hnew
  refine ⟨(withdraw removals (rows.zip vk)).map Prod.fst ++ inserted, ?_⟩
  refine bind_eq_ok.mpr ⟨vk, hvk, bind_eq_ok.mpr ⟨_, foldlM_keyed.mpr ⟨rk, hrk, hremove⟩, ?_⟩⟩
  exact bind_eq_ok.mpr ⟨counts, foldlM_keyed.mpr ⟨ik, hik, hinsert⟩, rfl⟩

end

end Cfmd.Query
