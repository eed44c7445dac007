import Cfmd.Lib.Decoder

/-! Writers that append to a byte string and readers that consume one, with a counter kept in step.
`Emits`: what a writer appends is read back as a value. `Reads`: what was consumed between two
states is what a writer appends, as long as the whole fits into a limit. Fuel for as many bytes as
there are is enough. -/

namespace Cfmd.Lib
open List
variable {ε σ α β : Type} {b : β} {a : α}

/-- The bytes written so far, or those still to be read, and the counter. -/
abbrev Coder (ε σ α : Type) := StateT (List UInt8 × σ) (Except ε) α

namespace Coder

variable {s s' : List UInt8 × σ}

theorem bind_eq_ok {d : Coder ε σ α} {f : α → Coder ε σ β} :
    (d >>= f) s = .ok (b, s') ↔ ∃ a mid, d s = .ok (a, mid) ∧ f a mid = .ok (b, s') := by
  show (d s >>= fun p => f p.1 p.2) = .ok (b, s') ↔ _
  rw [Lib.bind_eq_ok, Prod.exists]

theorem pure_eq_ok {b : α} : (pure a : Coder ε σ α) s = .ok (b, s') ↔ a = b ∧ s = s' := by
  show Except.ok (a, s) = .ok (b, s') ↔ _
  rw [Except.ok.injEq, Prod.mk.injEq]

theorem throw_eq_ok {e : ε} : (throw e : Coder ε σ α) s = .ok (a, s') ↔ False := by
  exact ⟨nofun, False.elim⟩

theorem map_eq_ok {d : Coder ε σ α} {f : α → β} :
    (d >>= fun a => pure (f a)) s = .ok (b, s') ↔ ∃ a, d s = .ok (a, s') ∧ f a = b := by
  rw [bind_eq_ok]
  constructor
  · rintro ⟨a, mid, ha, h⟩
    obtain ⟨rfl, rfl⟩ := pure_eq_ok.mp h
    exact ⟨a, ha, rfl⟩
  · rintro ⟨a, ha, rfl⟩
    exact ⟨a, s', ha, rfl⟩

def times (d : Coder ε σ α) : ℕ → Coder ε σ (List α)
  | 0 => pure []
  | n + 1 => do
    let a ← d
    let as ← times d n
    pure (a :: as)

end Coder

/-! ### What is written is read back -/

/-- What the writer appends within the limit is read back as `a`, with enough fuel and
whatever follows. -/
def Emits (limit : ℕ) (e : Coder ε σ Unit) (d : ℕ → Coder ε σ α) (a : α) : Prop :=
  ∀ s s', e s = .ok ((), s') → s.1.length ≤ limit → s'.1.length ≤ limit ∧ ∃ b, s'.1 = s.1 ++ b ∧
    ∀ fuel rest, b.length ≤ fuel → d fuel (b ++ rest, s.2) = .ok (a, (rest, s'.2))

namespace Emits
variable {limit : ℕ} {e e' : Coder ε σ Unit} {d : ℕ → Coder ε σ α} {a : α} {f : ℕ → α → Coder ε σ β}

theorem pure (a : α) : Emits limit (Pure.pure () : Coder ε σ Unit) (fun _ => Pure.pure a) a := by
  intro s s' h hfits
  cases h
  exact ⟨hfits, [], (append_nil _).symm, fun fuel rest _ => rfl⟩

theorem throw (err : ε) : Emits limit (MonadExcept.throw err : Coder ε σ Unit) d a := by
  intro s s' h
  cases h

theorem bind (h : Emits limit e d a) (h' : Emits limit e' (fun fuel => f fuel a) b) :
    Emits limit (e >>= fun _ => e') (fun fuel => d fuel >>= f fuel) b := by
  intro s s' heq hfits
  obtain ⟨⟨⟩, mid, hfst, hsnd⟩ := Coder.bind_eq_ok.mp heq
  obtain ⟨hfits, b₁, hb₁, hread₁⟩ := h s mid hfst hfits
  obtain ⟨hfits, b₂, hb₂, hread₂⟩ := h' mid s' hsnd hfits
  refine ⟨hfits, b₁ ++ b₂, by rw [hb₂, hb₁, append_assoc], fun fuel rest hfuel => ?_⟩
  rw [length_append] at hfuel
  rw [Coder.bind_eq_ok, append_assoc]
  exact ⟨a, _, hread₁ fuel _ (by omega), hread₂ fuel rest (by omega)⟩

theorem last (h : Emits limit e d a) (hf : ∀ fuel, f fuel a = Pure.pure b) :
    Emits limit e (fun fuel => d fuel >>= f fuel) b := by
  intro s s' heq hfits
  obtain ⟨hfits, bytes, hbytes, hread⟩ := h s s' heq hfits
  refine ⟨hfits, bytes, hbytes, fun fuel rest hfuel => ?_⟩
  rw [Coder.bind_eq_ok]
  refine ⟨a, _, hread fuel rest hfuel, ?_⟩
  rw [hf]
  rfl

theorem map {f : α → β} (h : Emits limit e d a) :
    Emits limit e (fun fuel => d fuel >>= fun x => Pure.pure (f x)) (f a) :=
  h.last fun _ => rfl

theorem times {enc : α → Coder ε σ Unit} {as : List α} (h : ∀ a ∈ as, Emits limit (enc a) d a) :
    Emits limit (as.forM enc) (fun fuel => Coder.times (d fuel) as.length) as := by
  induction as with
  | nil => exact Emits.pure []
  | cons a as ih =>
    rw [forall_mem_cons] at h
    exact h.1.bind (ih h.2).map

/-- A step down: what comes first is not empty, so it pays for one unit of fuel. -/
theorem descend {head : Coder ε σ α} {d' : ℕ → Coder ε σ β}
    (hd : ∀ fuel, d' (fuel + 1) = head >>= f fuel) (h : Emits limit e (fun _ => head) a)
    (hpos : ∀ s s', e s = .ok ((), s') → s'.1.length ≠ s.1.length)
    (h' : Emits limit e' (fun fuel => f fuel a) b) : Emits limit (e >>= fun _ => e') d' b := by
  intro s s' heq hfits
  obtain ⟨⟨⟩, mid, hfst, hsnd⟩ := Coder.bind_eq_ok.mp heq
  obtain ⟨hfits, b₁, hb₁, hread₁⟩ := h s mid hfst hfits
  obtain ⟨hfits, b₂, hb₂, hread₂⟩ := h' mid s' hsnd hfits
  have hlen := hpos s mid hfst
  rw [hb₁, length_append] at hlen
  refine ⟨hfits, b₁ ++ b₂, by rw [hb₂, hb₁, append_assoc], fun fuel rest hfuel => ?_⟩
  rw [length_append] at hfuel
  cases fuel with
  | zero => omega
  | succ fuel =>
    rw [hd, Coder.bind_eq_ok, append_assoc]
    exact ⟨a, _, hread₁ b₁.length _ le_rfl, hread₂ fuel rest (by omega)⟩

end Emits

/-! ### What is read can be written -/

/-- The writer appends what was consumed from the first state to the second. -/
def Reads (limit : ℕ) (e : Coder ε σ Unit) (t t' : List UInt8 × σ) : Prop := ∃ b, t.1 = b ++ t'.1 ∧
    ∀ written, (written ++ b).length ≤ limit → e (written, t.2) = .ok ((), (written ++ b, t'.2))

namespace Reads
variable {limit : ℕ} {e e' : Coder ε σ Unit} {t t₁ t' : List UInt8 × σ}

theorem pure (t : List UInt8 × σ) : Reads limit (Pure.pure () : Coder ε σ Unit) t t := by
  refine ⟨[], rfl, fun written _ => ?_⟩
  rw [append_nil]
  rfl

theorem bind (h : Reads limit e t t₁) (h' : Reads limit e' t₁ t') :
    Reads limit (e >>= fun _ => e') t t' := by
  obtain ⟨b₁, hb₁, hwrite₁⟩ := h
  obtain ⟨b₂, hb₂, hwrite₂⟩ := h'
  refine ⟨b₁ ++ b₂, by rw [hb₁, hb₂, append_assoc], fun written hfits => ?_⟩
  rw [← append_assoc] at hfits ⊢
  rw [Coder.bind_eq_ok]
  refine ⟨(), _, hwrite₁ written ?_, hwrite₂ _ hfits⟩
  rw [length_append] at hfits
  omega

end Reads

/-- What was read between the states: the writer appends it if the reader keeps everything as
listed, and otherwise the value has a property. -/
def Reread (listed : Prop) (limit : ℕ) (e : Coder ε σ Unit) (t t' : List UInt8 × σ) (P : Prop) :
    Prop :=
  (listed → Reads limit e t t') ∧ (¬ listed → P)

/-- `Reread` for whatever the reader returns, after what `k` puts in front. -/
def RereadsAfter (listed : Prop) (limit : ℕ) (k : Coder ε σ Unit → Coder ε σ Unit)
    (d : Coder ε σ α) (enc : α → Coder ε σ Unit) (P : α → Prop) : Prop :=
  ∀ t₀ t, (listed → ∀ e t', Reads limit e t t' → Reads limit (k e) t₀ t') →
    ∀ a t', d t = .ok (a, t') → Reread listed limit (enc a) t₀ t' (P a)

def Rereads (listed : Prop) (limit : ℕ) (d : Coder ε σ α) (enc : α → Coder ε σ Unit)
    (P : α → Prop) : Prop :=
  RereadsAfter listed limit (fun e => e) d enc P

section
variable {listed : Prop} {limit : ℕ} {k : Coder ε σ Unit → Coder ε σ Unit} {d : Coder ε σ α}
  {enc : α → Coder ε σ Unit} {enc' : β → Coder ε σ Unit} {P : α → Prop} {Q : β → Prop}

theorem RereadsAfter.pure (h : k (Pure.pure ()) = enc a) (hP : ¬ listed → P a) :
    RereadsAfter listed limit k (Pure.pure a : Coder ε σ α) enc P := by
  intro t₀ t hk a' t' heq
  obtain ⟨rfl, rfl⟩ := Coder.pure_eq_ok.mp heq
  rw [← h]
  exact ⟨fun hl => hk hl _ _ (Reads.pure t), hP⟩

theorem RereadsAfter.throw (e : ε) :
    RereadsAfter listed limit k (MonadExcept.throw e : Coder ε σ α) enc P := by
  intro t₀ t _ a t' heq
  exact (Coder.throw_eq_ok.mp heq).elim

namespace Rereads

theorem intro (h : ∀ t a t', d t = .ok (a, t') → Reread listed limit (enc a) t t' (P a)) :
    Rereads listed limit d enc P :=
  fun _ t hk a t' heq => (h t a t' heq).imp_left fun hreads hl => hk hl _ _ (hreads hl)

variable {t t' : List UInt8 × σ}

section
variable (h : Rereads listed limit d enc P)
include h

theorem reads (heq : d t = .ok (a, t')) : Reread listed limit (enc a) t t' (P a) :=
  h t t (fun _ _ _ h => h) a t' heq

theorem bind {f : α → Coder ε σ β}
    (hf : ∀ a, (¬ listed → P a) → RereadsAfter listed limit (fun e => k (enc a >>= fun _ => e)) (f a) enc' Q)
    :
    RereadsAfter listed limit k (d >>= f) enc' Q := by
  intro t₀ t hk b t' heq
  obtain ⟨a, mid, ha, hb⟩ := Coder.bind_eq_ok.mp heq
  obtain ⟨hreads, hP⟩ := h.reads ha
  refine hf a hP t₀ mid (fun hl e t' hrest => ?_) b t' hb
  exact hk hl _ _ ((hreads hl).bind hrest)

theorem map {f : α → β} (hf : ∀ a, k (enc a) = enc' (f a)) (hQ : ∀ a, ¬ listed → P a → Q (f a)) :
    RereadsAfter listed limit k (d >>= fun a => Pure.pure (f a)) enc' Q := by
  intro t₀ t hk b t' heq
  obtain ⟨a, ha, rfl⟩ := Coder.map_eq_ok.mp heq
  obtain ⟨hreads, hP⟩ := h.reads ha
  rw [← hf a]
  exact ⟨fun hl => hk hl _ _ (hreads hl), fun hl => hQ a hl (hP hl)⟩

theorem times {n : ℕ} {as : List α} (heq : Coder.times d n t = .ok (as, t')) :
    as.length = n ∧ Reread listed limit (as.forM enc) t t' (∀ a ∈ as, P a) := by
  induction n generalizing t as with
  | zero =>
    obtain ⟨rfl, rfl⟩ := Coder.pure_eq_ok.mp heq
    exact ⟨rfl, fun _ => Reads.pure t, fun _ => nofun⟩
  | succ n ih =>
    obtain ⟨a, mid, ha, heq⟩ := Coder.bind_eq_ok.mp heq
    obtain ⟨as, has, rfl⟩ := Coder.map_eq_ok.mp heq
    obtain ⟨hreads, hP⟩ := h.reads ha
    obtain ⟨hlen, hrest, hrestP⟩ := ih has
    refine ⟨by rw [length_cons, hlen], fun hl => (hreads hl).bind (hrest hl), fun hl => ?_⟩
    exact forall_mem_cons.mpr ⟨hP hl, hrestP hl⟩

end

end Rereads

end

end Cfmd.Lib
