import Mathlib.Algebra.Order.BigOperators.Group.Finset
import Cfmd.Lib.Loop
import Cfmd.Lib.Reach
import Cfmd.Lib.TreeMap

/-! Breadth-first searches over any set of marks with a membership test and an
insertion. `spread` marks a node when it is queued, `sweep` when it is taken
from the queue; both end with the marks on exactly the nodes they reach. -/

namespace Cfmd.Lib
open List

structure Work (σ α : Type*) where
  marked : σ
  queue : List α

section Search
variable {σ α : Type*} (has : σ → α → Bool) (add : σ → α → σ) {w w' : Work σ α} {x : α}

namespace Work

def pop (w : Work σ α) : Option (α × Work σ α) := match w.queue with
  | [] => none
  | x :: queue => some (x, { w with queue })

def offer (allowed : α → Bool) (w : Work σ α) (x : α) : Work σ α :=
  if allowed x && !has w.marked x then { marked := add w.marked x, queue := w.queue ++ [x] } else w

def enter (succ : α → List α) (x : α) (w : Work σ α) : Work σ α :=
  if has w.marked x then w else { marked := add w.marked x, queue := w.queue ++ succ x }

theorem pop_eq_none (h : w.pop = none) : w.queue = [] := by
  unfold pop at h
  split at h
  · assumption
  · cases h

end Work

def spread (allowed : α → Bool) (succ : α → List α) (fuel : ℕ) (w : Work σ α) : Work σ α :=
  drain Work.pop (fun x w => (succ x).foldl (Work.offer has add allowed) w) fuel w

def sweep (succ : α → List α) (fuel : ℕ) (w : Work σ α) : Work σ α :=
  drain Work.pop (Work.enter has add succ) fuel w

variable {has add}

/-- Marks that behave as a set on the nodes of `U`. -/
structure MarkSet (has : σ → α → Bool) (add : σ → α → σ) (U : Finset α) (ok : σ → Prop) :
    Prop where
  add_ok : ∀ s a, ok s → a ∈ U → ok (add s a)
  has_add : ∀ s a b, ok s → a ∈ U → (has (add s a) b = true ↔ a = b ∨ has s b = true)

theorem markSet_treeSet {α : Type*} [Ord α] [Std.TransOrd α] [Std.LawfulEqOrd α] (U : Finset α) :
    MarkSet Std.ExtTreeSet.contains Std.ExtTreeSet.insert U
      fun _ : Std.ExtTreeSet α compare => True where
  add_ok := fun _ _ _ _ => trivial
  has_add := fun s a b _ _ => by
    rw [Std.ExtTreeSet.contains_insert, Bool.or_eq_true, beq_iff_eq,
      Std.LawfulEqCmp.compare_eq_iff_eq]

def openWeight (has : σ → α → Bool) (weight : α → ℕ) (U : Finset α) (s : σ) : ℕ :=
  ∑ u ∈ U, if has s u then 0 else weight u

theorem openWeight_le (has : σ → α → Bool) (weight : α → ℕ) (U : Finset α) (s : σ) :
    openWeight has weight U s ≤ ∑ u ∈ U, weight u := by
  apply Finset.sum_le_sum
  intro u _
  split
  · exact Nat.zero_le _
  · exact le_rfl

variable [DecidableEq α] {U : Finset α} {ok : σ → Prop} (hM : MarkSet has add U ok)

include hM in
theorem openWeight_add (weight : α → ℕ) {s : σ} (hs : ok s) (hx : x ∈ U) (hnew : has s x = false) :
    openWeight has weight U (add s x) + weight x = openWeight has weight U s := by
  unfold openWeight
  rw [← Finset.add_sum_erase _ _ hx, ← Finset.add_sum_erase _ _ hx]
  have hself : has (add s x) x = true := (hM.has_add s x x hs hx).mpr (.inl rfl)
  have hrest : ∀ u ∈ U.erase x, (if has (add s x) u then 0 else weight u) =
      if has s u then 0 else weight u := by
    intro u hu
    have heq : has (add s x) u = has s u := by
      rw [Bool.eq_iff_iff, hM.has_add s x u hs hx]
      exact or_iff_right (Ne.symm (Finset.ne_of_mem_erase hu))
    rw [heq]
  rw [Finset.sum_congr rfl hrest, hself, hnew]
  simp only [if_true, Bool.false_eq_true, if_false]
  omega

omit [DecidableEq α] in
include hM in
theorem offer_spec {allowed : α → Bool} (hU : allowed x = true → x ∈ U) (hok : ok w.marked)
    (hqueue : ∀ v, has w.marked v = true ↔ v ∈ w.queue) :
    ok (w.offer has add allowed x).marked ∧
    (∀ v, has (w.offer has add allowed x).marked v = true ↔ v ∈ (w.offer has add allowed x).queue) ∧
    (∀ v, v ∈ (w.offer has add allowed x).queue ↔ v ∈ w.queue ∨ v = x ∧ allowed v = true) ∧
    (w.offer has add allowed x).queue.length ≤ w.queue.length + 1 := by
  unfold Work.offer
  by_cases hnew : (allowed x && !has w.marked x) = true
  · rw [if_pos hnew]
    have hboth : allowed x = true ∧ has w.marked x = false := by simpa using hnew
    have hxU := hU hboth.1
    refine ⟨hM.add_ok _ _ hok hxU, fun v => ?_, fun v => ?_, by simp⟩
    · rw [hM.has_add _ _ v hok hxU, hqueue, mem_append, mem_singleton, or_comm, eq_comm]
    · rw [mem_append, mem_singleton]
      exact or_congr_right ⟨fun heq => ⟨heq, heq ▸ hboth.1⟩, And.left⟩
  · rw [if_neg hnew]
    refine ⟨hok, hqueue, fun v => ⟨.inl, ?_⟩, Nat.le_succ _⟩
    rintro (hv | ⟨rfl, hall⟩)
    · exact hv
    · exact (hqueue v).mp (by simpa [hall] using hnew)

omit [DecidableEq α] in
include hM in
theorem foldl_offer (allowed : α → Bool) (xs : List α) (hU : ∀ v ∈ xs, allowed v = true → v ∈ U)
    (hok : ok w.marked) (hqueue : ∀ v, has w.marked v = true ↔ v ∈ w.queue) :
    ok (xs.foldl (Work.offer has add allowed) w).marked ∧
    (∀ v, has (xs.foldl (Work.offer has add allowed) w).marked v = true ↔
      v ∈ (xs.foldl (Work.offer has add allowed) w).queue) ∧
    (∀ v, v ∈ (xs.foldl (Work.offer has add allowed) w).queue ↔
      v ∈ w.queue ∨ v ∈ xs ∧ allowed v = true) ∧
    (xs.foldl (Work.offer has add allowed) w).queue.length ≤ w.queue.length + xs.length := by
  induction xs generalizing w with
  | nil => exact ⟨hok, hqueue, by simp, by simp⟩
  | cons x xs ih =>
    rw [forall_mem_cons] at hU
    obtain ⟨hok', hmarks', hmem', hlen'⟩ := offer_spec hM hU.1 hok hqueue
    obtain ⟨hok, hmarks, hmem, hlen⟩ := ih hU.2 hok' hmarks'
    rw [foldl_cons]
    refine ⟨hok, hmarks, fun v => ?_, ?_⟩
    · rw [hmem, hmem', mem_cons, or_assoc, or_and_right]
    · rw [length_cons]
      omega

section Spread
variable {allowed : α → Bool} {succ : α → List α} {start : α → Prop}

/-- The state of `spread` while the successors `rest` of `source` are offered. -/
structure Spreading (has : σ → α → Bool) (ok : σ → Prop) (allowed : α → Bool)
    (succ : α → List α) (start : α → Prop) (source : Option α) (w : Work σ α) (rest : List α) :
    Prop where
  ok : ok w.marked
  sound : ∀ v, has w.marked v = true → Reached start (fun p v => v ∈ succ p ∧ allowed v = true) v
  base : ∀ v, start v → has w.marked v = true
  queued : ∀ v ∈ w.queue, has w.marked v = true
  closed : ∀ v, has w.marked v = true → v ∈ w.queue ∨ ∀ u ∈ succ v, allowed u = true →
    has w.marked u = true ∨ source = some v ∧ u ∈ rest

include hM in
theorem Spreading.offer {source : α} {rest : List α}
    (hU : ∀ v ∈ succ source, allowed v = true → v ∈ U) (hsource : has w.marked source = true)
    (hx : x ∈ succ source) (h : Spreading has ok allowed succ start (some source) w (x :: rest)) :
    Spreading has ok allowed succ start (some source) (w.offer has add allowed x) rest ∧
      has (w.offer has add allowed x).marked source = true ∧
      openWeight has (fun _ => 1) U (w.offer has add allowed x).marked +
        (w.offer has add allowed x).queue.length =
          openWeight has (fun _ => 1) U w.marked + w.queue.length := by
  unfold Work.offer
  by_cases hnew : (allowed x && !has w.marked x) = true
  · rw [if_pos hnew]
    have hboth : allowed x = true ∧ has w.marked x = false := by simpa using hnew
    have hxU := hU x hx hboth.1
    have hadd : ∀ v, has (add w.marked x) v = true ↔ x = v ∨ has w.marked v = true :=
      fun v => hM.has_add _ _ v h.ok hxU
    refine ⟨⟨hM.add_ok _ _ h.ok hxU, ?_, ?_, ?_, ?_⟩, (hadd _).mpr (.inr hsource), ?_⟩
    · intro v hv
      obtain rfl | hv := (hadd _).mp hv
      · exact .step (h.sound source hsource) ⟨hx, hboth.1⟩
      · exact h.sound v hv
    · exact fun v hv => (hadd _).mpr (.inr (h.base v hv))
    · intro v hv
      obtain hv | hv := mem_append.mp hv
      · exact (hadd _).mpr (.inr (h.queued v hv))
      · exact (hadd _).mpr (.inl (mem_singleton.mp hv).symm)
    · intro v hv
      obtain rfl | hv := (hadd _).mp hv
      · exact .inl (by simp)
      obtain hq | hsucc := h.closed v hv
      · exact .inl (mem_append_left _ hq)
      apply Or.inr
      intro u hu hallowed
      obtain hmarked | ⟨hs, hmem⟩ := hsucc u hu hallowed
      · exact .inl ((hadd _).mpr (.inr hmarked))
      · obtain rfl | hmem := mem_cons.mp hmem
        · exact .inl ((hadd _).mpr (.inl rfl))
        · exact .inr ⟨hs, hmem⟩
    · have hweight := openWeight_add hM (fun _ => 1) h.ok hxU hboth.2
      simp only [length_append, length_singleton]
      omega
  · rw [if_neg hnew]
    refine ⟨⟨h.ok, h.sound, h.base, h.queued, ?_⟩, hsource, rfl⟩
    intro v hv
    apply (h.closed v hv).imp_right
    intro hsucc u hu hallowed
    obtain hmarked | ⟨hs, hmem⟩ := hsucc u hu hallowed
    · exact .inl hmarked
    · obtain rfl | hmem := mem_cons.mp hmem
      · exact .inl (by simpa [hallowed] using hnew)
      · exact .inr ⟨hs, hmem⟩

include hM in
theorem Spreading.visit {source : Option α} (hU : ∀ p, ∀ v ∈ succ p, allowed v = true → v ∈ U)
    (h : Spreading has ok allowed succ start source w []) (hpop : w.pop = some (x, w')) :
    Spreading has ok allowed succ start (some x)
        ((succ x).foldl (Work.offer has add allowed) w') [] ∧
      openWeight has (fun _ => 1) U ((succ x).foldl (Work.offer has add allowed) w').marked +
        ((succ x).foldl (Work.offer has add allowed) w').queue.length <
          openWeight has (fun _ => 1) U w.marked + w.queue.length := by
  obtain ⟨marked, _ | ⟨x, queue⟩⟩ := w
  · cases hpop
  cases hpop
  let I : Work σ α → List α → Prop := fun t rest =>
    Spreading has ok allowed succ start (some x) t rest ∧ has t.marked x = true ∧
      (∀ u ∈ rest, u ∈ succ x) ∧
      openWeight has (fun _ => 1) U t.marked + t.queue.length =
        openWeight has (fun _ => 1) U marked + queue.length
  have hstep : ∀ t u rest, I t (u :: rest) → I (t.offer has add allowed u) rest := by
    rintro t u rest ⟨ht, hx, hrest, heq⟩
    obtain ⟨hoffer, hx', heq'⟩ := ht.offer hM (hU x) hx (hrest u mem_cons_self)
    exact ⟨hoffer, hx', fun v hv => hrest v (mem_cons_of_mem _ hv), heq'.trans heq⟩
  have hinit : I ⟨marked, queue⟩ (succ x) := by
    refine ⟨⟨h.ok, h.sound, h.base, fun v hv => h.queued v (mem_cons_of_mem _ hv), ?_⟩,
      h.queued x mem_cons_self, fun _ hu => hu, rfl⟩
    intro v hv
    obtain hq | hsucc := h.closed v hv
    · obtain rfl | hq := mem_cons.mp hq
      · exact .inr fun u hu _ => .inr ⟨rfl, hu⟩
      · exact .inl hq
    · exact .inr fun u hu hallowed =>
        .inl ((hsucc u hu hallowed).resolve_right fun hmem => not_mem_nil hmem.2)
  obtain ⟨hend, _, _, heq⟩ := foldl_rest hstep _ hinit
  refine ⟨hend, ?_⟩
  rw [heq]
  exact Nat.lt_succ_self _

include hM in
theorem spread_marked {fuel : ℕ} (hok : ok w.marked)
    (hU : ∀ p, ∀ v ∈ succ p, allowed v = true → v ∈ U)
    (hqueue : ∀ v, has w.marked v = true ↔ v ∈ w.queue) (hfuel : U.card + w.queue.length ≤ fuel)
    (v : α) :
    has (spread has add allowed succ fuel w).marked v = true ↔
      Reached (· ∈ w.queue) (fun p v => v ∈ succ p ∧ allowed v = true) v := by
  let I : Work σ α → Prop := fun t =>
    ∃ source, Spreading has ok allowed succ (· ∈ w.queue) source t []
  have hstep : ∀ t x t', I t → t.pop = some (x, t') →
      I ((succ x).foldl (Work.offer has add allowed) t') := by
    rintro t x t' ⟨source, ht⟩ hpop
    exact ⟨some x, (ht.visit hM hU hpop).1⟩
  have hμ : ∀ t x t', I t → t.pop = some (x, t') →
      openWeight has (fun _ => 1) U ((succ x).foldl (Work.offer has add allowed) t').marked +
        ((succ x).foldl (Work.offer has add allowed) t').queue.length <
          openWeight has (fun _ => 1) U t.marked + t.queue.length := by
    rintro t x t' ⟨source, ht⟩ hpop
    exact (ht.visit hM hU hpop).2
  have hinit : I w := ⟨none, hok, fun v hv => .root ((hqueue v).mp hv),
    fun v hv => (hqueue v).mpr hv, fun v hv => (hqueue v).mpr hv,
    fun v hv => .inl ((hqueue v).mp hv)⟩
  have hweight : openWeight has (fun _ => 1) U w.marked + w.queue.length ≤ fuel := by
    have hle := openWeight_le has (fun _ => 1) U w.marked
    rw [← Finset.card_eq_sum_ones] at hle
    omega
  obtain ⟨source, hend⟩ := drain_inv hstep fuel hinit
  have hdone := drain_done hstep
    (fun t => openWeight has (fun _ => 1) U t.marked + t.queue.length) hμ fuel hinit hweight
  refine ⟨hend.sound v, fun hv => ?_⟩
  apply hv.subset hend.base
  intro p u hp hedge
  have hclosed := (hend.closed p hp).resolve_left (by
    rw [Work.pop_eq_none hdone]
    exact not_mem_nil)
  exact (hclosed u hedge.1 hedge.2).resolve_right fun hmem => not_mem_nil hmem.2

end Spread

section Sweep
variable {succ : α → List α} {w₀ : Work σ α}

/-- The nodes `sweep` finds: reached from the queue through nodes not marked
before. -/
def Swept (has : σ → α → Bool) (succ : α → List α) (w₀ : Work σ α) : α → Prop :=
  Reached (fun v => v ∈ w₀.queue ∧ ¬ has w₀.marked v = true)
    fun p v => v ∈ succ p ∧ ¬ has w₀.marked v = true

structure Sweeping (has : σ → α → Bool) (ok : σ → Prop) (succ : α → List α) (U : Finset α)
    (w₀ w : Work σ α) : Prop where
  ok : ok w.marked
  inside : ∀ v ∈ w.queue, v ∈ U
  kept : ∀ v, has w₀.marked v = true → has w.marked v = true
  sound : ∀ v, has w.marked v = true → has w₀.marked v = true ∨ Swept has succ w₀ v
  queued : ∀ v ∈ w.queue, has w₀.marked v = true ∨ Swept has succ w₀ v
  base : ∀ v ∈ w₀.queue, has w.marked v = true ∨ v ∈ w.queue
  closed : ∀ v, has w.marked v = true → ¬ has w₀.marked v = true →
    ∀ u ∈ succ v, has w.marked u = true ∨ u ∈ w.queue

include hM in
theorem Sweeping.visit (hU : ∀ p ∈ U, ∀ v ∈ succ p, v ∈ U) (h : Sweeping has ok succ U w₀ w)
    (hpop : w.pop = some (x, w')) :
    Sweeping has ok succ U w₀ (w'.enter has add succ x) ∧
      openWeight has (fun u => (succ u).length + 1) U (w'.enter has add succ x).marked +
        (w'.enter has add succ x).queue.length <
          openWeight has (fun u => (succ u).length + 1) U w.marked + w.queue.length := by
  obtain ⟨marked, _ | ⟨x, queue⟩⟩ := w
  · cases hpop
  cases hpop
  have hxU : x ∈ U := h.inside x mem_cons_self
  have htail : ∀ v ∈ queue, v ∈ x :: queue := fun v => mem_cons_of_mem x
  unfold Work.enter
  by_cases hx : has marked x = true
  · rw [if_pos hx]
    -- the node was marked in the meantime: only the queue gets shorter
    have hstill : ∀ v, has marked v = true ∨ v ∈ x :: queue → has marked v = true ∨ v ∈ queue := by
      rintro v (hv | hv)
      · exact .inl hv
      · obtain rfl | hv := mem_cons.mp hv
        · exact .inl hx
        · exact .inr hv
    exact ⟨⟨h.ok, fun v hv => h.inside v (htail v hv), h.kept, h.sound,
      fun v hv => h.queued v (htail v hv), fun v hv => hstill v (h.base v hv),
      fun v hv hold u hu => hstill u (h.closed v hv hold u hu)⟩, Nat.lt_succ_self _⟩
  · have hnew : has marked x = false := by simpa using hx
    rw [if_neg hx]
    have hadd : ∀ v, has (add marked x) v = true ↔ x = v ∨ has marked v = true :=
      fun v => hM.has_add _ _ v h.ok hxU
    have hold : ¬ has w₀.marked x = true := fun hk => hx (h.kept x hk)
    have hswept : Swept has succ w₀ x := (h.queued x mem_cons_self).resolve_left hold
    have hmove : ∀ v, has marked v = true ∨ v ∈ x :: queue →
        has (add marked x) v = true ∨ v ∈ queue ++ succ x := by
      rintro v (hv | hv)
      · exact .inl ((hadd v).mpr (.inr hv))
      · obtain rfl | hv := mem_cons.mp hv
        · exact .inl ((hadd v).mpr (.inl rfl))
        · exact .inr (mem_append_left _ hv)
    refine ⟨⟨hM.add_ok _ _ h.ok hxU, ?_, ?_, ?_, ?_, ?_, ?_⟩, ?_⟩
    · intro v hv
      obtain hv | hv := mem_append.mp hv
      · exact h.inside v (htail v hv)
      · exact hU x hxU v hv
    · exact fun v hv => (hadd v).mpr (.inr (h.kept v hv))
    · intro v hv
      obtain rfl | hv := (hadd v).mp hv
      · exact .inr hswept
      · exact h.sound v hv
    · intro v hv
      obtain hv | hv := mem_append.mp hv
      · exact h.queued v (htail v hv)
      · by_cases hk : has w₀.marked v = true
        · exact .inl hk
        · exact .inr (.step hswept ⟨hv, hk⟩)
    · exact fun v hv => hmove v (h.base v hv)
    · intro v hv hk u hu
      obtain rfl | hv := (hadd v).mp hv
      · exact .inr (mem_append_right _ hu)
      · exact hmove u (h.closed v hv hk u hu)
    · have hweight := openWeight_add hM (s := marked) (fun u => (succ u).length + 1) h.ok hxU hnew
      show openWeight has _ U (add marked x) + (queue ++ succ x).length <
        openWeight has _ U marked + (x :: queue).length
      rw [length_cons, length_append]
      omega

include hM in
theorem sweep_marked {fuel : ℕ} (hok : ok w₀.marked) (hU : ∀ p ∈ U, ∀ v ∈ succ p, v ∈ U)
    (hqueue : ∀ v ∈ w₀.queue, v ∈ U)
    (hfuel : ∑ u ∈ U, ((succ u).length + 1) + w₀.queue.length ≤ fuel) (v : α) :
    has (sweep has add succ fuel w₀).marked v = true ↔
      has w₀.marked v = true ∨ Swept has succ w₀ v := by
  have hstep : ∀ t x t', Sweeping has ok succ U w₀ t → t.pop = some (x, t') →
      Sweeping has ok succ U w₀ (t'.enter has add succ x) :=
    fun t x t' ht hpop => (ht.visit hM hU hpop).1
  have hinit : Sweeping has ok succ U w₀ w₀ := by
    refine ⟨hok, hqueue, fun _ hv => hv, fun _ hv => .inl hv, ?_, fun _ hv => .inr hv, ?_⟩
    · intro u hu
      by_cases hk : has w₀.marked u = true
      · exact .inl hk
      · exact .inr (.root ⟨hu, hk⟩)
    · exact fun u hu hk => absurd hu hk
  have hweight : openWeight has (fun u => (succ u).length + 1) U w₀.marked + w₀.queue.length ≤
      fuel := by
    have hle := openWeight_le has (fun u => (succ u).length + 1) U w₀.marked
    omega
  have hend := drain_inv hstep fuel hinit
  have hdone := drain_done hstep
    (fun t => openWeight has (fun u => (succ u).length + 1) U t.marked + t.queue.length)
    (fun t x t' ht hpop => (ht.visit hM hU hpop).2) fuel hinit hweight
  have hempty : ∀ u, u ∉ (sweep has add succ fuel w₀).queue := by
    intro u
    rw [sweep, Work.pop_eq_none hdone]
    exact not_mem_nil
  refine ⟨hend.sound v, ?_⟩
  rintro (hv | hv)
  · exact hend.kept v hv
  · have hboth : has (sweep has add succ fuel w₀).marked v = true ∧ ¬ has w₀.marked v = true := by
      apply hv.subset
      · exact fun u hu => ⟨(hend.base u hu.1).resolve_right (hempty u), hu.2⟩
      · exact fun p u hp hedge =>
          ⟨(hend.closed p hp.1 hp.2 u hedge.1).resolve_right (hempty u), hedge.2⟩
    exact hboth.1

end Sweep

end Search

end Cfmd.Lib
