import Cfmd.Lib.Bytes
import Cfmd.Lib.Loop

/-! Decoders that consume a prefix of a byte string, and encoders that may fail. `Parses d W`: `d`
succeeds exactly on the byte strings that `W` allows for a value, whatever follows them, so it
reads back what an encoder of `W` writes and accepts nothing else. -/

namespace Cfmd.Lib
open List
variable {ε α β κ : Type} {bytes : List UInt8} {a : α} {key : α → κ} {as : List α}

abbrev Decoder (ε α : Type) := StateT (List UInt8) (Except ε) α

/-- The check on a key that follows another one in a strictly sorted list. -/
def ascends [Ord κ] (previous : Option κ) (key : κ) : Bool :=
  previous.all fun p => (compare p key).isLT

variable {f : α → Decoder ε β}

namespace Decoder

def take (truncated : ε) (n : ℕ) : Decoder ε (List UInt8) := fun bytes =>
  if bytes.length < n then .error truncated else .ok (bytes.take n, bytes.drop n)

def finish (trailing : ε) (d : Decoder ε α) (bytes : List UInt8) : Except ε α := match d bytes with
  | .error e => .error e
  | .ok (a, rest) => if rest.isEmpty then .ok a else .error trailing

def number (truncated : ε) (n : ℕ) (ofNat : ℕ → α) : Decoder ε α := do
  return ofNat (fromLeBytes (← take truncated n))

def bigNumber (truncated : ε) (n : ℕ) (ofNat : ℕ → α) : Decoder ε α := do
  return ofNat (fromBeBytes (← take truncated n))

def utf8 (invalid : ε) (bytes : List UInt8) : Decoder ε String :=
  match String.fromUTF8? ⟨bytes.toArray⟩ with
  | some text => pure text
  | none => throw invalid

def times (d : Decoder ε α) : ℕ → Decoder ε (List α)
  | 0 => pure []
  | n + 1 => do
    let a ← d
    let as ← times d n
    pure (a :: as)

/-- `n` entries, each read with the key of the one before it at hand. -/
def keyed (key : α → κ) (entry : Option κ → Decoder ε α) : ℕ → Option κ → Decoder ε (List α)
  | 0, _ => pure []
  | n + 1, previous => do
    let a ← entry previous
    let as ← keyed key entry n (some (key a))
    pure (a :: as)

/-- Reads with `d`, and only what `enc` writes for the value read. -/
def reencoded {ε' : Type} (other : ε) (enc : α → Except ε' (List UInt8)) (d : Decoder ε α) :
    Decoder ε α := fun bytes => do
  let (a, rest) ← d bytes
  if (enc a).toOption.map (· ++ rest) ≠ some bytes then .error other else .ok (a, rest)

theorem bind_eq_ok {d : Decoder ε α} {r : β × List UInt8} : (d >>= f) bytes = .ok r ↔
      ∃ a mid, d bytes = .ok (a, mid) ∧ f a mid = .ok r := by
  show (d bytes >>= fun p => f p.1 p.2) = .ok r ↔ _
  rw [Lib.bind_eq_ok, Prod.exists]

def Yields (d : Decoder ε α) (P : α → Prop) : Prop := ∀ bytes a rest, d bytes = .ok (a, rest) → P a

namespace Yields
variable {d : Decoder ε α} {P : α → Prop}

theorem pure (h : P a) : Yields (Pure.pure a : Decoder ε α) P := by
  intro bytes a' rest heq
  cases heq
  exact h

theorem throw (e : ε) : Yields (MonadExcept.throw e : Decoder ε α) P := by
  intro bytes a rest heq
  cases heq

theorem bind {c : Decoder ε β} {f : β → Decoder ε α} (h : ∀ b, Yields (f b) P) :
    Yields (c >>= f) P := by
  intro bytes a rest heq
  obtain ⟨b, mid, _, hf⟩ := bind_eq_ok.mp heq
  exact h b _ _ _ hf

theorem finish {trailing : ε} (h : Yields d P) (heq : Decoder.finish trailing d bytes = .ok a) :
    P a := by
  unfold Decoder.finish at heq
  split at heq
  · cases heq
  rename_i a' rest hd
  split at heq
  · cases heq
    exact h _ _ _ hd
  · cases heq

end Yields

end Decoder

def writeAll (enc : α → Except ε (List UInt8)) : List α → Except ε (List UInt8)
  | [] => .ok []
  | a :: as => do return (← enc a) ++ (← writeAll enc as)

/-- The bytes of a list whose keys have to be strictly increasing. -/
def writeAscending [Ord κ] (unsorted : ε) (key : α → κ) (enc : α → Except ε (List UInt8)) :
    Option κ → List α → Except ε (List UInt8)
  | _, [] => .ok []
  | previous, a :: as =>
    if ascends previous (key a) then do
      return (← enc a) ++ (← writeAscending unsorted key enc (some (key a)) as)
    else
      .error unsorted

def Written (W : α → List UInt8 → Prop) : List α → List UInt8 → Prop
  | [], bytes => bytes = []
  | a :: as, bytes => ∃ b bs, W a b ∧ Written W as bs ∧ bytes = b ++ bs

def Ascending [Ord κ] (key : α → κ) : Option κ → List α → Prop
  | _, [] => True
  | previous, a :: as => ascends previous (key a) ∧ Ascending key (some (key a)) as

theorem ascending_iff_pairwise [Ord κ] [Std.TransOrd κ] :
    Ascending key none as ↔ as.Pairwise fun a b => compare (key a) (key b) = .lt := by
  have hfrom : ∀ (as : List α) (k : κ), Ascending key (some k) as ↔
      (∀ a ∈ as, compare k (key a) = .lt) ∧ as.Pairwise fun a b => compare (key a) (key b) = .lt := by
    intro as
    induction as with
    | nil => exact fun k => ⟨fun _ => ⟨nofun, .nil⟩, fun _ => trivial⟩
    | cons a as ih =>
      intro k
      rw [Ascending, ih, forall_mem_cons, pairwise_cons]
      have hhead : ascends (some k) (key a) = true ↔ compare k (key a) = .lt := by
        rw [ascends, Option.all_some, Ordering.isLT_iff_eq_lt]
      rw [hhead]
      constructor
      · rintro ⟨hlt, hall, hpairs⟩
        exact ⟨⟨hlt, fun b hb => Std.TransCmp.lt_trans hlt (hall b hb)⟩, hall, hpairs⟩
      · rintro ⟨⟨hlt, -⟩, hall, hpairs⟩
        exact ⟨hlt, hall, hpairs⟩
  cases as with
  | nil => exact ⟨fun _ => .nil, fun _ => trivial⟩
  | cons a as =>
    rw [Ascending, hfrom, pairwise_cons]
    exact and_iff_right rfl

section Written
variable {W V : α → List UInt8 → Prop} {enc : α → Except ε (List UInt8)}

theorem Written.mono (h : ∀ a ∈ as, ∀ b, W a b → V a b) (hW : Written W as bytes) :
    Written V as bytes := by
  induction as generalizing bytes with
  | nil => exact hW
  | cons a as ih =>
    obtain ⟨b, bs, ha, has, rfl⟩ := hW
    exact ⟨b, bs, h a mem_cons_self b ha, ih (fun x hx => h x (mem_cons_of_mem _ hx)) has, rfl⟩

theorem Written.exists (hW : Written W as bytes) : ∀ a ∈ as, ∃ b, W a b := by
  induction as generalizing bytes with
  | nil => exact nofun
  | cons a as ih =>
    obtain ⟨b, bs, ha, has, rfl⟩ := hW
    exact forall_mem_cons.mpr ⟨⟨b, ha⟩, ih has⟩

theorem written_map {f : β → α} {bs : List β} :
    Written W (bs.map f) bytes ↔ Written (fun b => W (f b)) bs bytes := by
  induction bs generalizing bytes with
  | nil => exact Iff.rfl
  | cons b bs ih => simp only [map_cons, Written, ih]

theorem written_iff {P : α → Prop} {enc : α → List UInt8} :
    Written (fun a b => P a ∧ b = enc a) as bytes ↔ (∀ a ∈ as, P a) ∧ bytes = as.flatMap enc := by
  induction as generalizing bytes with
  | nil => exact ⟨fun h => ⟨nofun, h⟩, fun h => h.2⟩
  | cons a as ih =>
    simp only [Written, ih, forall_mem_cons, flatMap_cons]
    grind

theorem writeAll_eq_ok :
    writeAll enc as = .ok bytes ↔ Written (fun a b => enc a = .ok b) as bytes := by
  induction as generalizing bytes with
  | nil => exact ⟨fun h => by cases h; rfl, fun h => by rw [writeAll]; cases h; rfl⟩
  | cons a as ih =>
    simp only [writeAll, bind_eq_ok, ih, Written]
    constructor
    · rintro ⟨b, hb, bs, hbs, h⟩
      cases h
      exact ⟨b, bs, hb, hbs, rfl⟩
    · rintro ⟨b, bs, hb, hbs, rfl⟩
      exact ⟨b, hb, bs, hbs, rfl⟩

theorem writeAscending_eq_ok [Ord κ] {unsorted : ε} {previous : Option κ} :
    writeAscending unsorted key enc previous as = .ok bytes ↔
      Ascending key previous as ∧ Written (fun a b => enc a = .ok b) as bytes := by
  induction as generalizing previous bytes with
  | nil =>
    exact ⟨fun h => by cases h; exact ⟨trivial, rfl⟩,
      fun h => by rw [writeAscending]; cases h.2; rfl⟩
  | cons a as ih =>
    by_cases hkey : ascends previous (key a)
    · simp only [writeAscending, hkey, if_true, bind_eq_ok, ih, Written, Ascending, true_and]
      constructor
      · rintro ⟨b, hb, bs, ⟨has, hbs⟩, h⟩
        cases h
        exact ⟨has, b, bs, hb, hbs, rfl⟩
      · rintro ⟨has, b, bs, hb, hbs, rfl⟩
        exact ⟨b, hb, bs, ⟨has, hbs⟩, rfl⟩
    · rw [writeAscending, if_neg hkey]
      exact ⟨nofun, fun h => absurd h.1.1 hkey⟩

end Written

/-- `d` succeeds exactly on what `W` allows and leaves what follows. -/
def Parses (d : Decoder ε α) (W : α → List UInt8 → Prop) : Prop :=
  ∀ bytes a rest, d bytes = .ok (a, rest) ↔ ∃ b, W a b ∧ bytes = b ++ rest

namespace Parses
variable {d : Decoder ε α} {W V : α → List UInt8 → Prop}

theorem congr (h : Parses d W) (hW : ∀ a b, W a b ↔ V a b) : Parses d V := by
  intro bytes a rest
  simp only [h bytes a rest, hW]

theorem unique (h : Parses d W) {a' : α} (ha : W a bytes) (ha' : W a' bytes) : a = a' := by
  have hread := (h (bytes ++ []) a []).mpr ⟨bytes, ha, rfl⟩
  have hread' := (h (bytes ++ []) a' []).mpr ⟨bytes, ha', rfl⟩
  rw [hread] at hread'
  cases hread'
  rfl

theorem pure (a : α) : Parses (Pure.pure a : Decoder ε α) fun x b => x = a ∧ b = [] := by
  intro bytes x rest
  constructor
  · intro h
    cases h
    exact ⟨[], ⟨rfl, rfl⟩, rfl⟩
  · rintro ⟨_, ⟨rfl, rfl⟩, rfl⟩
    rfl

theorem throw (e : ε) : Parses (MonadExcept.throw e : Decoder ε α) fun _ _ => False := by
  intro bytes a rest
  exact ⟨nofun, fun ⟨_, h, _⟩ => h.elim⟩

theorem bind {V : α → β → List UInt8 → Prop} (hd : Parses d W) (hf : ∀ a, Parses (f a) (V a)) :
    Parses (d >>= f) fun y b => ∃ a b₁ b₂, W a b₁ ∧ V a y b₂ ∧ b = b₁ ++ b₂ := by
  intro bytes y rest
  rw [Decoder.bind_eq_ok]
  constructor
  · rintro ⟨a, mid, hfst, hsnd⟩
    obtain ⟨b₁, hW, rfl⟩ := (hd _ _ _).mp hfst
    obtain ⟨b₂, hV, rfl⟩ := (hf a _ _ _).mp hsnd
    exact ⟨b₁ ++ b₂, ⟨a, b₁, b₂, hW, hV, rfl⟩, (append_assoc ..).symm⟩
  · rintro ⟨_, ⟨a, b₁, b₂, hW, hV, rfl⟩, rfl⟩
    rw [append_assoc]
    exact ⟨a, b₂ ++ rest, (hd _ _ _).mpr ⟨b₁, hW, rfl⟩, (hf a _ _ _).mpr ⟨b₂, hV, rfl⟩⟩

theorem bind_pure {f : α → β} (hd : Parses d W) :
    Parses (d >>= fun a => Pure.pure (f a)) fun y b => ∃ a, W a b ∧ y = f a := by
  apply (hd.bind fun a => Parses.pure (f a)).congr
  intro y b
  simp

section Headed
variable {k : Decoder ε κ} {enc : κ → List UInt8}

theorem headed {g : κ → α → β} (hk : Parses k fun x b => b = enc x) (hd : Parses d W) :
    Parses (do return g (← k) (← d)) fun y b => ∃ x a c, y = g x a ∧ W a c ∧ b = enc x ++ c := by
  apply (hk.bind fun x => hd.bind_pure).congr
  intro y b
  grind

theorem twoKeys {g : κ → κ → β} (hk : Parses k fun x b => b = enc x) :
    Parses (do return g (← k) (← k)) fun y b => ∃ x x', y = g x x' ∧ b = enc x ++ enc x' := by
  apply (hk.headed hk).congr
  intro y b
  simp

end Headed

theorem lift (x : Except ε α) : Parses (liftM x : Decoder ε α) fun a b => x = .ok a ∧ b = [] := by
  intro bytes a rest
  cases x with
  | error e => exact ⟨nofun, nofun⟩
  | ok x =>
    constructor
    · intro h
      cases h
      exact ⟨[], ⟨rfl, rfl⟩, rfl⟩
    · rintro ⟨_, ⟨hx, rfl⟩, rfl⟩
      cases hx
      rfl

theorem guard {c : Prop} [Decidable c] {e : ε} (hd : Parses d W) :
    Parses (if c then d else MonadExcept.throw e) fun a b => c ∧ W a b := by
  by_cases h : c
  · rw [if_pos h]
    exact hd.congr fun a b => (and_iff_right h).symm
  · rw [if_neg h]
    exact (Parses.throw e).congr fun a b => ⟨False.elim, fun hc => h hc.1⟩

theorem reencoded {ε' : Type} {other : ε} {enc : α → Except ε' (List UInt8)} (hd : Parses d W) :
    Parses (d.reencoded other enc) fun a b => W a b ∧ enc a = .ok b := by
  intro bytes a rest
  rw [Decoder.reencoded, bind_eq_ok, Prod.exists]
  constructor
  · rintro ⟨a', rest', hread, h⟩
    obtain ⟨b, hW, rfl⟩ := (hd _ _ _).mp hread
    obtain ⟨hsame, h⟩ := ite_error_eq_ok.mp h
    cases h
    obtain ⟨b', hb', heq⟩ := Option.map_eq_some_iff.mp (not_not.mp hsame)
    rw [append_cancel_right heq] at hb'
    exact ⟨b, ⟨hW, toOption_eq_some.mp hb'⟩, rfl⟩
  · rintro ⟨b, ⟨hW, henc⟩, rfl⟩
    exact ⟨a, rest, (hd _ _ _).mpr ⟨b, hW, rfl⟩, if_neg (not_not_intro (by rw [henc]; rfl))⟩

/-- A check of what is left that refuses nothing `d` could read. -/
theorem peek {c : List UInt8 → Prop} [DecidablePred c] {e : ε} (hd : Parses d W)
    (hc : ∀ a b rest, W a b → ¬ c (b ++ rest)) :
    Parses (do
      let remaining ← get
      if c remaining then MonadExcept.throw e else d) W := by
  intro bytes a rest
  show (if c bytes then MonadExcept.throw e else d) bytes = .ok (a, rest) ↔ _
  split
  · rename_i hrefused
    refine ⟨nofun, ?_⟩
    rintro ⟨b, hW, rfl⟩
    exact absurd hrefused (hc a b rest hW)
  · exact hd bytes a rest

theorem take (truncated : ε) (n : ℕ) :
    Parses (Decoder.take truncated n) fun x b => x = b ∧ b.length = n := by
  intro bytes x rest
  unfold Decoder.take
  split
  · rename_i hshort
    refine ⟨nofun, ?_⟩
    rintro ⟨b, ⟨rfl, rfl⟩, rfl⟩
    rw [length_append] at hshort
    omega
  · constructor
    · intro h
      cases h
      exact ⟨bytes.take n, ⟨rfl, length_take_of_le (by omega)⟩, (take_append_drop n bytes).symm⟩
    · rintro ⟨b, ⟨rfl, rfl⟩, rfl⟩
      rw [take_left, drop_left]

section
variable (truncated : ε) (n : ℕ) {ofNat : ℕ → α} {toNat : α → ℕ} (hlt : ∀ a, toNat a < 256 ^ n)
  (hof : ∀ a, ofNat (toNat a) = a) (hto : ∀ x < 256 ^ n, toNat (ofNat x) = x)
include hlt hof hto

theorem number :
    Parses (Decoder.number truncated n ofNat) fun a b => b = toLeBytes n (toNat a) := by
  apply ((Parses.take truncated n).bind_pure).congr
  intro a b
  constructor
  · rintro ⟨bytes, ⟨rfl, rfl⟩, rfl⟩
    rw [hto _ (fromLeBytes_lt bytes), toLeBytes_fromLeBytes]
  · rintro rfl
    refine ⟨_, ⟨rfl, length_toLeBytes n _⟩, ?_⟩
    rw [fromLeBytes_toLeBytes_of_lt (hlt a), hof]

theorem bigNumber :
    Parses (Decoder.bigNumber truncated n ofNat) fun a b => b = toBeBytes n (toNat a) := by
  apply ((Parses.take truncated n).bind_pure).congr
  intro a b
  constructor
  · rintro ⟨bytes, ⟨rfl, rfl⟩, rfl⟩
    rw [hto _ (fromBeBytes_lt bytes), toBeBytes_fromBeBytes]
  · rintro rfl
    refine ⟨_, ⟨rfl, length_toBeBytes n _⟩, ?_⟩
    rw [fromBeBytes_toBeBytes_of_lt (hlt a), hof]

end

theorem utf8 (invalid : ε) (bytes : List UInt8) :
    Parses (Decoder.utf8 invalid bytes) fun t b => t.toByteArray.data.toList = bytes ∧ b = [] := by
  unfold Decoder.utf8 String.fromUTF8?
  by_cases hvalid : ByteArray.IsValidUTF8 ⟨bytes.toArray⟩
  · rw [dif_pos hvalid]
    apply (Parses.pure _).congr
    intro t b
    aesop
  · rw [dif_neg hvalid]
    apply (Parses.throw _).congr
    rintro ⟨⟩ b
    aesop

theorem takeUtf8 (truncated invalid : ε) (n : ℕ) :
    Parses (Decoder.take truncated n >>= Decoder.utf8 invalid) fun t b =>
      t.toByteArray.data.toList.length = n ∧ b = t.toByteArray.data.toList := by
  apply ((Parses.take truncated n).bind fun bytes => Parses.utf8 invalid bytes).congr
  intro t b
  simp

theorem times (hd : Parses d W) (n : ℕ) :
    Parses (Decoder.times d n) fun as b => as.length = n ∧ Written W as b := by
  induction n with
  | zero =>
    apply (Parses.pure []).congr
    intro as b
    aesop
  | succ n ih =>
    apply (hd.bind fun a => ih.bind_pure).congr
    intro as b
    constructor
    · rintro ⟨a, b₁, b₂, hW, ⟨as, ⟨rfl, has⟩, rfl⟩, rfl⟩
      exact ⟨rfl, b₁, b₂, hW, has, rfl⟩
    · rintro ⟨hlen, has⟩
      cases as with
      | nil => cases hlen
      | cons a as =>
        obtain ⟨b₁, b₂, hW, has, rfl⟩ := has
        exact ⟨a, b₁, b₂, hW, ⟨as, ⟨by simpa using hlen, has⟩, rfl⟩, rfl⟩

theorem keyed [Ord κ] {entry : Option κ → Decoder ε α}
    (hentry : ∀ previous, Parses (entry previous) fun a b => ascends previous (key a) ∧ W a b)
    (n : ℕ) (previous : Option κ) :
    Parses (Decoder.keyed key entry n previous) fun as b =>
      as.length = n ∧ Ascending key previous as ∧ Written W as b := by
  induction n generalizing previous with
  | zero =>
    apply (Parses.pure []).congr
    intro as b
    rw [length_eq_zero_iff]
    constructor
    · rintro ⟨rfl, rfl⟩
      exact ⟨rfl, trivial, rfl⟩
    · rintro ⟨rfl, -, rfl⟩
      exact ⟨rfl, rfl⟩
  | succ n ih =>
    apply ((hentry previous).bind fun a => (ih (some (key a))).bind_pure).congr
    intro as b
    constructor
    · rintro ⟨a, b₁, b₂, ⟨hkey, hW⟩, ⟨as, ⟨rfl, hsorted, has⟩, rfl⟩, rfl⟩
      exact ⟨rfl, ⟨hkey, hsorted⟩, b₁, b₂, hW, has, rfl⟩
    · rintro ⟨hlen, hsorted, has⟩
      cases as with
      | nil => cases hlen
      | cons a as =>
        obtain ⟨b₁, b₂, hW, has, rfl⟩ := has
        exact ⟨a, b₁, b₂, ⟨hsorted.1, hW⟩, ⟨as, ⟨by simpa using hlen, hsorted.2, has⟩, rfl⟩, rfl⟩

theorem finish {trailing : ε} (hd : Parses d W) :
    Decoder.finish trailing d bytes = .ok a ↔ W a bytes := by
  have hend : Decoder.finish trailing d bytes = .ok a ↔ d bytes = .ok (a, []) := by
    unfold Decoder.finish
    cases d bytes with
    | error e => exact ⟨nofun, nofun⟩
    | ok p =>
      obtain ⟨x, rest⟩ := p
      cases rest with
      | nil | cons byte rest => simp
  rw [hend, hd]
  constructor
  · rintro ⟨b, hW, rfl⟩
    rwa [append_nil]
  · intro hW
    exact ⟨bytes, hW, (append_nil bytes).symm⟩

end Parses

/-! ### Parts written one after the other -/

variable {ε' : Type} {x y part : Except ε' (List UInt8)} {d : Decoder ε α} {b : β}

/-- Whatever was written is read as `a`, with what follows left unread. -/
def Restores (written : Except ε' (List UInt8)) (d : Decoder ε α) (a : α) : Prop :=
  ∀ bytes, written = .ok bytes → ∀ suffix, d (bytes ++ suffix) = .ok (a, suffix)

def pushAll (parts : List (Except ε' (List UInt8))) : Except ε' (List UInt8) := writeAll id parts

namespace Restores

theorem of_parses {W : α → List UInt8 → Prop} (hd : Parses d W) (hW : ∀ b, x = .ok b → W a b) :
    Restores x d a := by
  intro bytes hbytes suffix
  exact (hd _ _ _).mpr ⟨bytes, hW bytes hbytes, rfl⟩

theorem nil (a : α) :
    Restores (pushAll ([] : List (Except ε' (List UInt8)))) (pure a : Decoder ε α) a := by
  intro bytes hbytes suffix
  cases hbytes
  rfl

theorem join (hx : Restores x d a) (hy : Restores y (f a) b) :
    Restores (do return (← x) ++ (← y)) (d >>= f) b := by
  intro bytes hbytes suffix
  obtain ⟨head, hhead, hbytes⟩ := bind_eq_ok.mp hbytes
  obtain ⟨tail, htail, hbytes⟩ := bind_eq_ok.mp hbytes
  cases hbytes
  rw [append_assoc]
  exact Decoder.bind_eq_ok.mpr ⟨a, _, hx head hhead _, hy tail htail suffix⟩

theorem cons {parts : List (Except ε' (List UInt8))} (hpart : Restores part d a)
    (hparts : Restores (pushAll parts) (f a) b) :
    Restores (pushAll (part :: parts)) (d >>= f) b :=
  hpart.join hparts

theorem map (g : α → β) (hx : Restores x d a) : Restores x (d >>= fun a => pure (g a)) (g a) := by
  intro bytes hbytes suffix
  exact Decoder.bind_eq_ok.mpr ⟨a, suffix, hx bytes hbytes suffix, rfl⟩

theorem last (hpart : Restores part d a) : Restores (pushAll [part]) d a := by
  have h := hpart.cons (.nil a)
  rwa [bind_pure] at h

end Restores

end Cfmd.Lib
