import Mathlib.Data.List.Forall2

/-! Loop rules. A `while let Some(x) = work.pop()` loop is `drain`, with fuel: an invariant holds
at the exit, and a measure that every iteration lowers bounds the fuel. A `for` loop is a fold,
whose rule keeps the elements still to come in the invariant. -/

namespace Cfmd.Lib
open List

section Drain
variable {σ α : Type*}

def drain (pop : σ → Option (α × σ)) (step : α → σ → σ) : ℕ → σ → σ
  | 0, s => s
  | n + 1, s =>
    match pop s with
    | none => s
    | some (a, s') => drain pop step n (step a s')

variable {pop : σ → Option (α × σ)} {step : α → σ → σ} {I : σ → Prop}

section
variable {s : σ} (hstep : ∀ s a s', I s → pop s = some (a, s') → I (step a s'))
include hstep

theorem drain_inv (n : ℕ) (hs : I s) : I (drain pop step n s) := by
  induction n generalizing s with
  | zero => exact hs
  | succ n ih =>
    unfold drain
    split
    · exact hs
    · next a s' hpop => exact ih (hstep s a s' hs hpop)

omit hstep in
theorem drain_countdown {J : ℕ → σ → Prop}
    (hstep : ∀ m s a s', J m s → pop s = some (a, s') → J (m - 1) (step a s') ∧ 0 < m)
    (n : ℕ) {m : ℕ} {s : σ} (hs : J m s) (hm : m ≤ n) :
    (∃ k, J k (drain pop step n s)) ∧ pop (drain pop step n s) = none := by
  induction n generalizing m s with
  | zero =>
    refine ⟨⟨m, hs⟩, Option.eq_none_iff_forall_ne_some.mpr fun ⟨a, s'⟩ hpop => ?_⟩
    exact absurd (hstep m s a s' hs hpop).2 (by omega)
  | succ n ih =>
    unfold drain
    split
    · exact ⟨⟨m, hs⟩, ‹_›⟩
    · next a s' hpop =>
      obtain ⟨hnext, hpos⟩ := hstep m s a s' hs hpop
      exact ih hnext (by omega)

/-- A measure lowered by every iteration bounds the fuel the loop needs. -/
theorem drain_done (μ : σ → ℕ) (hμ : ∀ s a s', I s → pop s = some (a, s') → μ (step a s') < μ s)
    (n : ℕ) (hs : I s) (hn : μ s ≤ n) : pop (drain pop step n s) = none := by
  induction n generalizing s with
  | zero =>
    rcases hpop : pop s with _ | ⟨a, s'⟩
    · exact hpop
    · exact absurd (hμ s a s' hs hpop) (by omega)
  | succ n ih =>
    unfold drain
    split
    · next hpop => exact hpop
    · next a s' hpop =>
      have hlt := hμ s a s' hs hpop
      exact ih (hstep s a s' hs hpop) (by omega)

end

end Drain

section Fold
variable {σ α : Type*} {f : σ → α → σ} {I : σ → List α → Prop}

/-- The rule for `for x in xs`: the invariant sees the elements not yet visited. -/
theorem foldl_rest (hstep : ∀ s x rest, I s (x :: rest) → I (f s x) rest)
    (xs : List α) {s : σ} (hs : I s xs) : I (xs.foldl f s) [] := by
  induction xs generalizing s with
  | nil => exact hs
  | cons x xs ih => exact ih (hstep s x xs hs)

/-- The same with the elements already visited. -/
theorem foldl_visited (hstep : ∀ s done x, I s done → I (f s x) (done ++ [x])) (xs : List α) {s : σ}
    {done : List α} (hs : I s done) : I (xs.foldl f s) (done ++ xs) := by
  induction xs generalizing s done with
  | nil => rwa [append_nil]
  | cons x xs ih =>
    have hrest := ih (hstep s done x hs)
    rwa [append_assoc] at hrest

theorem foldl_inv {I : σ → Prop} (xs : List α)
    (hstep : ∀ s x, x ∈ xs → I s → I (f s x)) {s : σ} (hs : I s) :
    I (xs.foldl f s) := by
  induction xs generalizing s with
  | nil => exact hs
  | cons x xs ih =>
    exact ih (fun s y hy => hstep s y (mem_cons_of_mem _ hy)) (hstep s x mem_cons_self hs)

/-- A loop whose steps only add, where the invariant holds: what holds at the end was added by
some step, or held before. -/
theorem foldl_adds_of_inv {I V : σ → Prop} {P : α → Prop} (xs : List α)
    (hstep : ∀ s, ∀ x ∈ xs, I s → I (f s x))
    (h : ∀ s, ∀ x ∈ xs, I s → (V (f s x) ↔ P x ∨ V s)) {s : σ} (hs : I s) :
    V (xs.foldl f s) ↔ (∃ x ∈ xs, P x) ∨ V s := by
  induction xs generalizing s with
  | nil => simp
  | cons x xs ih =>
    have hrest := ih (fun s y hy => hstep s y (mem_cons_of_mem x hy))
      (fun s y hy => h s y (mem_cons_of_mem x hy)) (hstep s x mem_cons_self hs)
    rw [foldl_cons, hrest, h s x mem_cons_self hs, exists_mem_cons_iff, or_assoc, or_left_comm]

theorem foldl_adds {V : σ → Prop} {P : α → Prop} (xs : List α)
    (h : ∀ s, ∀ x ∈ xs, V (f s x) ↔ P x ∨ V s) (s : σ) :
    V (xs.foldl f s) ↔ (∃ x ∈ xs, P x) ∨ V s :=
  foldl_adds_of_inv (I := fun _ => True) xs (fun _ _ _ _ => trivial)
    (fun s x hx _ => h s x hx) trivial

end Fold

section Related
variable {α β : Type*} {R : α → β → Prop} {xs : List α} {ys : List β}

theorem forall₂_exists_right (h : Forall₂ R xs ys) {x : α} (hx : x ∈ xs) : ∃ y ∈ ys, R x y := by
  induction h with
  | nil => cases hx
  | cons hr _ ih =>
    rcases mem_cons.mp hx with rfl | hx
    · exact ⟨_, mem_cons_self, hr⟩
    · obtain ⟨y, hy, hxy⟩ := ih hx
      exact ⟨y, mem_cons_of_mem _ hy, hxy⟩

theorem forall₂_exists_left (h : Forall₂ R xs ys) {y : β} (hy : y ∈ ys) : ∃ x ∈ xs, R x y :=
  forall₂_exists_right h.flip hy

theorem forall₂_imp_mem {S : α → β → Prop} (h : Forall₂ R xs ys)
    (himp : ∀ x ∈ xs, ∀ y ∈ ys, R x y → S x y) : Forall₂ S xs ys := by
  induction h with
  | nil => exact .nil
  | cons hr _ ih =>
    refine .cons (himp _ (mem_cons_self ..) _ (mem_cons_self ..) hr) (ih ?_)
    intro x hx y hy
    exact himp x (mem_cons_of_mem _ hx) y (mem_cons_of_mem _ hy)

theorem map_eq_map_iff_forall₂ {γ : Type} {f : α → γ} {g : β → γ} :
    xs.map f = ys.map g ↔ Forall₂ (fun x y => f x = g y) xs ys := by
  rw [← forall₂_eq_eq_eq, forall₂_map_left_iff, forall₂_map_right_iff]

theorem forall₂_split {before after : List β} {y : β}
    (h : Forall₂ R xs (before ++ y :: after)) :
    ∃ before' x after', xs = before' ++ x :: after' ∧ Forall₂ R before' before ∧ R x y := by
  induction before generalizing xs with
  | nil =>
    cases h with
    | cons hr hrest => exact ⟨[], _, _, rfl, .nil, hr⟩
  | cons b before ih =>
    cases h with
    | cons hr hrest =>
      obtain ⟨before', x, after', rfl, hbefore, hx⟩ := ih hrest
      exact ⟨_ :: before', x, after', rfl, .cons hr hbefore, hx⟩

theorem forall₂_split_left {before after : List α} {x : α}
    (h : Forall₂ R (before ++ x :: after) ys) :
    ∃ before' y after', ys = before' ++ y :: after' ∧ Forall₂ R before before' ∧ R x y := by
  obtain ⟨before', y, after', hys, hbefore, hxy⟩ := forall₂_split h.flip
  exact ⟨before', y, after', hys, hbefore.flip, hxy⟩

end Related

section Checks
variable {ε α β : Type} {x : Except ε α} {f : α → Except ε β} {b s : β} {a : α} {e : ε}
  {ys : List β} {xs : List α}

theorem bind_eq_ok : (x >>= f) = .ok b ↔ ∃ a, x = .ok a ∧ f a = .ok b := by
  cases x with
  | error e | ok a => simp [bind, Except.bind]

theorem bind_pure_eq_ok {f : α → β} :
    (x >>= fun a => pure (f a)) = .ok b ↔ ∃ a, x = .ok a ∧ f a = b := by
  rw [bind_eq_ok]
  constructor
  · rintro ⟨a, ha, hb⟩
    exact ⟨a, ha, Except.ok.inj hb⟩
  · rintro ⟨a, ha, rfl⟩
    exact ⟨a, ha, rfl⟩

theorem fmap_eq_ok {f : α → β} : f <$> x = .ok b ↔ ∃ a, x = .ok a ∧ b = f a := by
  cases x with
  | error e => simp [Functor.map, Except.map]
  | ok a => simp [Functor.map, Except.map, eq_comm]

theorem seq_eq_ok {x : Except ε Unit} {y : Except ε β} :
    (x >>= fun _ => y) = .ok b ↔ x = .ok () ∧ y = .ok b := by
  rw [bind_eq_ok]
  exact ⟨fun ⟨_, hx, hy⟩ => ⟨hx, hy⟩, fun ⟨hx, hy⟩ => ⟨(), hx, hy⟩⟩

theorem mapError_eq_ok {ε' : Type} {f : ε → ε'} : x.mapError f = .ok a ↔ x = .ok a := by
  cases x with
  | error e | ok b => simp [Except.mapError]

theorem ite_error_eq_ok {c : Prop} [Decidable c] :
    (if c then .error e else x) = .ok a ↔ ¬ c ∧ x = .ok a := by
  split
  · rename_i hc
    exact ⟨nofun, fun h => absurd hc h.1⟩
  · rename_i hc
    exact (and_iff_right hc).symm

theorem toOption_eq_some : x.toOption = some a ↔ x = .ok a := by
  cases x with
  | error e | ok b => simp [Except.toOption]

theorem exists_ok_of_isSome (h : x.toOption.isSome = true) : ∃ a, x = .ok a := by
  obtain ⟨a, ha⟩ := Option.isSome_iff_exists.mp h
  exact ⟨a, toOption_eq_some.mp ha⟩

theorem map_eq_error {f : α → β} : x.map f = .error e ↔ x = .error e := by
  cases x with
  | error e' | ok b => simp [Except.map]

theorem forM_eq_ok {f : α → Except ε Unit} (xs : List α) :
    forM xs f = .ok () ↔ ∀ x ∈ xs, f x = .ok () := by
  induction xs with
  | nil => simp [pure, Except.pure]
  | cons x xs ih => rw [forM_cons, seq_eq_ok, forall_mem_cons, ih]

theorem mapM_eq_ok (xs : List α) : xs.mapM f = .ok ys ↔ Forall₂ (fun x y => f x = .ok y) xs ys := by
  induction xs generalizing ys with
  | nil =>
    constructor
    · intro h
      cases h
      exact .nil
    · intro h
      cases h
      rfl
  | cons x xs ih =>
    rw [mapM_cons, bind_eq_ok]
    constructor
    · rintro ⟨y, hy, h⟩
      obtain ⟨ys', hys', h⟩ := bind_eq_ok.mp h
      cases h
      exact .cons hy (ih.mp hys')
    · intro h
      cases h with
      | cons hy hys => exact ⟨_, hy, bind_eq_ok.mpr ⟨_, ih.mpr hys, rfl⟩⟩

theorem mem_of_mapM (h : xs.mapM f = .ok ys) {y : β} : y ∈ ys ↔ ∃ x ∈ xs, f x = .ok y := by
  rw [mapM_eq_ok] at h
  constructor
  · exact forall₂_exists_left h
  · rintro ⟨x, hx, hy⟩
    obtain ⟨y', hy', heq⟩ := forall₂_exists_right h hx
    rw [hy, Except.ok.injEq] at heq
    rwa [heq]

theorem map_of_mapM {γ : Type} {g : β → γ} {k : α → γ} (h : xs.mapM f = .ok ys)
    (hg : ∀ x y, f x = .ok y → g y = k x) :
    ys.map g = xs.map k := by
  rw [mapM_eq_ok] at h
  induction h with
  | nil => rfl
  | cons hy _ ih => rw [map_cons, map_cons, hg _ _ hy, ih]

theorem exists_mapM (xs : List α) : (∃ ys, xs.mapM f = .ok ys) ↔ ∀ x ∈ xs, ∃ y, f x = .ok y := by
  simp only [mapM_eq_ok]
  induction xs with
  | nil => exact ⟨fun _ x hx => absurd hx not_mem_nil, fun _ => ⟨[], .nil⟩⟩
  | cons x xs ih =>
    rw [forall_mem_cons, ← ih]
    constructor
    · rintro ⟨_, h⟩
      cases h with
      | cons hy hys => exact ⟨⟨_, hy⟩, _, hys⟩
    · rintro ⟨⟨y, hy⟩, ys, hys⟩
      exact ⟨y :: ys, .cons hy hys⟩

theorem exists_mapM_pair {γ : Type} (g : α → β → γ) (xs : List α) :
    (∃ ys, (xs.mapM fun x => do let y ← f x; return g x y) = .ok ys) ↔
      ∀ x ∈ xs, ∃ y, f x = .ok y := by
  rw [exists_mapM]
  simp only [bind_eq_ok]
  constructor
  · intro h x hx
    obtain ⟨_, y, hy, _⟩ := h x hx
    exact ⟨y, hy⟩
  · intro h x hx
    obtain ⟨y, hy⟩ := h x hx
    exact ⟨g x y, y, hy, rfl⟩

theorem mapM_eq_map {g : α → β} (h : xs.mapM f = .ok ys)
    (hg : ∀ x ∈ xs, ∀ y, f x = .ok y → y = g x) : ys = xs.map g := by
  rw [mapM_eq_ok] at h
  induction h with
  | nil => rfl
  | cons hy _ ih =>
    rw [map_cons, hg _ mem_cons_self _ hy, ih fun x hx => hg x (mem_cons_of_mem _ hx)]

variable {f : β → α → Except ε β} {I : β → List α → Prop}

theorem foldlM_eq_foldl {g : β → α → β} (xs : List α)
    (h : ∀ x ∈ xs, ∀ s, f s x = .ok (g s x)) (s : β) : xs.foldlM f s = .ok (xs.foldl g s) := by
  induction xs generalizing s with
  | nil => rfl
  | cons x xs ih =>
    rw [forall_mem_cons] at h
    rw [foldlM_cons, h.1 s]
    exact ih h.2 (g s x)

/-- The rule for a fallible loop: the invariant sees the elements already visited. -/
theorem foldlM_visited
    (hstep : ∀ s done x s', I s done → f s x = .ok s' → I s' (done ++ [x])) (xs : List α)
    {s s' : β} {done : List α} (h : xs.foldlM f s = .ok s') (hs : I s done) :
    I s' (done ++ xs) := by
  induction xs generalizing s done with
  | nil =>
    cases h
    rwa [append_nil]
  | cons x xs ih =>
    rw [foldlM_cons, bind_eq_ok] at h
    obtain ⟨t, ht, h⟩ := h
    have hrest := ih h (hstep s done x t hs ht)
    rwa [append_assoc] at hrest

theorem foldlM_inv {I : β → Prop}
    (hstep : ∀ s x s', I s → f s x = .ok s' → I s') (xs : List α) {s' : β}
    (h : xs.foldlM f s = .ok s') (hs : I s) : I s' :=
  @foldlM_visited _ _ _ f (fun s _ => I s) (fun s _ => hstep s) xs s s' [] h hs

theorem foldlM_eq_error (h : xs.foldlM f s = .error e) : ∃ s', ∃ x ∈ xs, f s' x = .error e := by
  induction xs generalizing s with
  | nil => cases h
  | cons x xs ih =>
    rw [foldlM_cons] at h
    rcases hx : f s x with e' | s'
    · rw [hx] at h
      cases h
      exact ⟨s, x, mem_cons_self, hx⟩
    · rw [hx] at h
      obtain ⟨t, y, hy, hfail⟩ := ih h
      exact ⟨t, y, mem_cons_of_mem _ hy, hfail⟩

theorem foldlM_keyed {κ : Type} {key : α → Except ε κ} {f : β → κ → Except ε β} {s' : β} :
    xs.foldlM (fun s x => do f s (← key x)) s = .ok s' ↔
      ∃ ks, xs.mapM key = .ok ks ∧ ks.foldlM f s = .ok s' := by
  induction xs generalizing s with
  | nil =>
    constructor
    · exact fun h => ⟨[], rfl, h⟩
    · rintro ⟨ks, hks, h⟩
      cases hks
      exact h
  | cons x xs ih =>
    simp only [foldlM_cons, mapM_cons, bind_eq_ok, ih]
    constructor
    · rintro ⟨t, ⟨k, hk, ht⟩, ks, hks, h⟩
      refine ⟨k :: ks, ⟨k, hk, ks, hks, rfl⟩, ?_⟩
      rw [foldlM_cons, bind_eq_ok]
      exact ⟨t, ht, h⟩
    · rintro ⟨_, ⟨k, hk, ks, hks, hcons⟩, h⟩
      cases hcons
      rw [foldlM_cons, bind_eq_ok] at h
      obtain ⟨t, ht, h⟩ := h
      exact ⟨t, ⟨k, hk, ht⟩, ks, hks, h⟩

theorem foldlM_rest (hstep : ∀ s x rest, I s (x :: rest) → ∃ s', f s x = .ok s' ∧ I s' rest)
    (xs : List α) {s : β} (hs : I s xs) : ∃ s', xs.foldlM f s = .ok s' ∧ I s' [] := by
  induction xs generalizing s with
  | nil => exact ⟨s, rfl, hs⟩
  | cons x xs ih =>
    obtain ⟨t, ht, hinv⟩ := hstep s x xs hs
    obtain ⟨s', hs', hinv'⟩ := ih hinv
    exact ⟨s', by rw [foldlM_cons, bind_eq_ok]; exact ⟨t, ht, hs'⟩, hinv'⟩

end Checks

section Alike
variable {ε α β γ : Type} {R : α → β → Prop}

/-- Two computations fail with the same error, or give related results. -/
def Alike (R : α → β → Prop) : Except ε α → Except ε β → Prop
  | .ok a, .ok b => R a b
  | .error e, .error e' => e = e'
  | _, _ => False

theorem Alike.bind {α' β' : Type} {S : α' → β' → Prop} {x : Except ε α} {y : Except ε β}
    {f : α → Except ε α'} {g : β → Except ε β'} (h : Alike R x y)
    (hf : ∀ a b, R a b → Alike S (f a) (g b)) : Alike S (x >>= f) (y >>= g) := by
  match x, y, h with
  | .ok a, .ok b, h => exact hf a b h
  | .error _, .error _, h => exact h

theorem Alike.refl (x : Except ε α) : Alike (· = ·) x x := by
  cases x with
  | error e | ok a => rfl

theorem Alike.foldlM {f : α → γ → Except ε α} {g : β → γ → Except ε β}
    (hstep : ∀ a b x, R a b → Alike R (f a x) (g b x)) (xs : List γ) {a : α} {b : β}
    (h : R a b) : Alike R (xs.foldlM f a) (xs.foldlM g b) := by
  induction xs generalizing a b with
  | nil => exact h
  | cons x xs ih =>
    exact (hstep a b x h).bind fun a' b' h' => ih h'

theorem Alike.bind_eq {x : Except ε α} {y : Except ε β} {f : α → β} (h : Alike R x y)
    (hf : ∀ a b, R a b → f a = b) : (x >>= fun a => pure (f a)) = y := by
  match x, y, h with
  | .ok a, .ok b, h => exact congrArg Except.ok (hf a b h)
  | .error _, .error _, h => exact congrArg Except.error h

end Alike

end Cfmd.Lib
