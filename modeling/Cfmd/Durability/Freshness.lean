import Cfmd.Durability.FileWal

/-! The walk over a WAL that the freshness authority relies on. It stops at a torn tail
where recovery classifies it, and knows nothing of keys and payloads; on every region that
recovery accepts, the two describe the same bytes. -/

namespace Cfmd.Durability
open Lib List

/-- The region of the file at `path` that holds the WAL. -/
structure WalFreshnessSource where
  startOffset : ℕ
  endOffset : ℕ
  firstLsn : UInt64

/-- One round of the walk on `rest = region[offset..]`: the LSN and the bytes of a whole
frame, or nothing where the walk breaks off. -/
def walFreshnessFrame (rest : List UInt8) (offset : ℕ) (expectedLsn : UInt64) :
    Except DurabilityError (Option (UInt64 × List UInt8)) :=
  if rest.length < headerLen then .ok none
  else
    let header := rest.take headerLen
    if header.take 4 ≠ magic then
      .error (.corruption offset "non-frame bytes large enough to hide a complete frame")
    else do
      validateFrameHeader header offset expectedLsn
      let payloadLen := (readU32 (slice header 8 12)).toNat
      if payloadLen > maxPayloadLen then
        .error (.corruption offset "payload length exceeds hard limit")
      else
        let frameLen := headerLen + payloadLen
        if rest.length < frameLen then .ok none
        else
          let payload := slice rest headerLen frameLen
          if crc32c payload ≠ readU32 (slice header 28 32) then
            .error (.corruption offset "payload checksum mismatch")
          else .ok (some (readU64 (slice header 12 20), header ++ payload))

/-- `expected_lsn.saturating_sub(1)`. -/
def precedingLsn (lsn : UInt64) : UInt64 := if lsn = 0 then 0 else lsn - 1

/-- What the walk returns where it breaks off: its head, unless it looked for an LSN. -/
def walFreshnessEnd (targetLsn : Option UInt64) (hashed : List UInt8) (offset : ℕ)
    (expectedLsn : UInt64) : Fallible DurabilityError (UInt64 × List UInt8) :=
  if targetLsn.isSome then
    .error (.error (.protocol offset
      "external freshness WAL head is beyond valid local WAL prefix"))
  else .ok (precedingLsn expectedLsn, hashed)

/-- The loop, with what the hasher has absorbed. No frame is empty, so as many rounds as there are
bytes are enough. -/
def walFreshnessLoop (region : List UInt8) (targetLsn : Option UInt64) :
    ℕ → List UInt8 → ℕ → UInt64 → Fallible DurabilityError (UInt64 × List UInt8)
  | 0, _, _, _ => .error (.panic "walk does not end")
  | fuel + 1, hashed, offset, expectedLsn =>
    if offset < region.length then do
      match ← Fallible.lift (walFreshnessFrame (region.drop offset) offset expectedLsn) with
      | none => walFreshnessEnd targetLsn hashed offset expectedLsn
      | some (lsn, bytes) =>
        let hashed := hashed ++ bytes
        if targetLsn = some lsn then return (lsn, hashed)
        else do
          let expectedLsn ← Fallible.lift (successorLsn expectedLsn)
          walFreshnessLoop region targetLsn fuel hashed (offset + bytes.length) expectedLsn
    else walFreshnessEnd targetLsn hashed offset expectedLsn

section
variable {δ : Type} (sha256 : List UInt8 → δ) (backing : List UInt8)

def walFreshnessPrefix (source : WalFreshnessSource) (targetLsn : Option UInt64) :
    Fallible DurabilityError (UInt64 × δ) :=
  if source.firstLsn = 0 then .error (.error (.protocol 0 "WAL first LSN must be nonzero"))
  else if source.endOffset < source.startOffset then
    .error (.error (.corruption 0 "external freshness WAL region is inverted"))
  else if source.endOffset > backing.length then
    .error (.error (.corruption 0 "external freshness WAL region exceeds file length"))
  else do
    let region := slice backing source.startOffset source.endOffset
    let (lsn, hashed) ← walFreshnessLoop region targetLsn (region.length + 1)
      walFreshnessPrefixDomain 0 source.firstLsn
    return (lsn, sha256 hashed)

def walPrefixDigest (bytes : List UInt8) : δ := sha256 (walFreshnessPrefixDomain ++ bytes)

namespace WalFreshnessSource

def head (source : WalFreshnessSource) : Fallible DurabilityError (UInt64 × δ) :=
  walFreshnessPrefix sha256 backing source none

def digestAtLsn (source : WalFreshnessSource) (targetLsn : UInt64) : Fallible DurabilityError δ :=
  if targetLsn < source.firstLsn then .ok (walPrefixDigest sha256 [])
  else do return (← walFreshnessPrefix sha256 backing source (some targetLsn)).2

end WalFreshnessSource

end

/-! ### Whole frames -/

variable {region region' : List UInt8} {offset offset' : ℕ} {lsn lsn' : UInt64}

/-- What the walk takes for a whole frame. -/
structure WholeFrame (offset : ℕ) (expectedLsn : UInt64) (bytes : List UInt8) : Prop where
  magic : (bytes.take headerLen).take 4 = magic
  valid : validateFrameHeader (bytes.take headerLen) offset expectedLsn = .ok ()
  payloadLen_le : (readU32 (slice (bytes.take headerLen) 8 12)).toNat ≤ maxPayloadLen
  length_eq : bytes.length = headerLen + (readU32 (slice (bytes.take headerLen) 8 12)).toNat
  crc : crc32c (bytes.drop headerLen) = readU32 (slice (bytes.take headerLen) 28 32)

theorem lsn_of_validateFrameHeader {header : List UInt8}
    (h : validateFrameHeader header offset lsn = .ok ()) : readU64 (slice header 12 20) = lsn := by
  unfold validateFrameHeader at h
  repeat' split at h
  all_goals cases h
  rename_i hlsn
  exact not_not.mp hlsn

theorem walFreshnessFrame_eq_some {rest bytes : List UInt8} {expectedLsn : UInt64} :
    walFreshnessFrame rest offset expectedLsn = .ok (some (lsn, bytes)) ↔
      lsn = expectedLsn ∧ bytes <+: rest ∧ WholeFrame offset expectedLsn bytes := by
  constructor
  · intro h
    unfold walFreshnessFrame at h
    split at h
    · cases h
    dsimp only at h
    split at h
    · cases h
    rename_i hmagic
    obtain ⟨_, hvalid, h⟩ := bind_eq_ok.mp h
    split at h
    · cases h
    rename_i hmax
    split at h
    · cases h
    rename_i hfits
    split_ifs at h with hcrc
    cases h
    rw [take_append_slice]
    have htake : ∀ n, (rest.take (headerLen + n)).take headerLen = rest.take headerLen := by
      intro n
      rw [take_take, Nat.min_eq_left (Nat.le_add_right ..)]
    have hdrop : ∀ n, (rest.take (headerLen + n)).drop headerLen =
        slice rest headerLen (headerLen + n) := by
      intro n
      rw [slice, drop_take]
    refine ⟨lsn_of_validateFrameHeader hvalid, take_prefix .., ?_, ?_, ?_, ?_, ?_⟩
    · rw [htake]
      exact not_not.mp hmagic
    · rw [htake]
      exact hvalid
    · rw [htake]
      exact Nat.le_of_not_lt hmax
    · rw [htake, length_take_of_le (Nat.le_of_not_lt hfits)]
    · rw [htake, hdrop]
      exact not_not.mp hcrc
  · rintro ⟨rfl, ⟨after, rfl⟩, hwhole⟩
    have hlen := hwhole.length_eq
    have hheader : (bytes ++ after).take headerLen = bytes.take headerLen :=
      take_append_of_le_length (by omega)
    have hpayload : slice (bytes ++ after) headerLen bytes.length = bytes.drop headerLen := by
      rw [slice, drop_append_of_le_length (by omega), take_left' length_drop]
    unfold walFreshnessFrame
    simp only [hheader, ← hlen, hpayload]
    rw [if_neg (by rw [length_append]; omega), if_neg (not_not_intro hwhole.magic), hwhole.valid]
    show (if _ then _ else _) = _
    rw [if_neg (Nat.not_lt.mpr hwhole.payloadLen_le),
      if_neg (by rw [length_append]; omega), if_neg (not_not_intro hwhole.crc),
      lsn_of_validateFrameHeader hwhole.valid, take_append_drop]

/-- A whole frame of this LSN stands between the two offsets. -/
def FrameEnds (region : List UInt8) (offset : ℕ) (lsn : UInt64) (offset' : ℕ) : Prop :=
  ∃ bytes, offset < region.length ∧
    walFreshnessFrame (region.drop offset) offset lsn = .ok (some (lsn, bytes)) ∧
    offset' = offset + bytes.length

/-- Whole frames lead from one offset to the other, and from one expected LSN to the other. -/
inductive Walk (region : List UInt8) : ℕ → UInt64 → ℕ → UInt64 → Prop
  | here {offset : ℕ} {lsn : UInt64} : Walk region offset lsn offset lsn
  | frame {offset mid offset' : ℕ} {lsn next lsn' : UInt64} (hframe : FrameEnds region offset lsn mid)
      (hlsn : successorLsn lsn = .ok next) (hrest : Walk region mid next offset' lsn') :
      Walk region offset lsn offset' lsn'

def BreaksOff (region : List UInt8) (offset : ℕ) (lsn : UInt64) : Prop := region.length ≤ offset ∨
    (offset < region.length ∧ walFreshnessFrame (region.drop offset) offset lsn = .ok none)

theorem successorLsn_eq_ok : successorLsn lsn = .ok lsn' ↔ lsn'.toNat = lsn.toNat + 1 := by
  unfold successorLsn
  split
  · rename_i hlt
    have hsucc : (lsn + 1).toNat = lsn.toNat + 1 := by
      exact Nat.mod_eq_of_lt hlt
    rw [Except.ok.injEq, ← UInt64.toNat_inj, hsucc, eq_comm]
  · have hlt := lsn'.toNat_lt
    constructor
    · exact nofun
    · intro h
      omega

theorem FrameEnds.lt (h : FrameEnds region offset lsn offset') :
    offset < offset' ∧ offset' ≤ region.length := by
  obtain ⟨bytes, hopen, hread, rfl⟩ := h
  obtain ⟨-, hbegins, hwhole⟩ := walFreshnessFrame_eq_some.mp hread
  have hlen := hwhole.length_eq
  have hle := hbegins.length_le
  rw [length_drop] at hle
  unfold headerLen at hlen
  omega

theorem take_append_of_read {bytes : List UInt8}
    (h : walFreshnessFrame (region.drop offset) offset lsn = .ok (some (lsn', bytes))) :
    region.take offset ++ bytes = region.take (offset + bytes.length) := by
  obtain ⟨-, hbegins, -⟩ := walFreshnessFrame_eq_some.mp h
  rw [take_add, ← prefix_iff_eq_take.mp hbegins]

theorem FrameEnds.congr (h : FrameEnds region offset lsn offset')
    (hsame : region'.take offset' = region.take offset') : FrameEnds region' offset lsn offset' := by
  have hlt := h.lt
  have hlen := congrArg List.length hsame
  rw [length_take, length_take] at hlen
  obtain ⟨bytes, _, hread, rfl⟩ := h
  refine ⟨bytes, by omega, ?_, rfl⟩
  obtain ⟨_, hbegins, hwhole⟩ := walFreshnessFrame_eq_some.mp hread
  refine walFreshnessFrame_eq_some.mpr ⟨rfl, ?_, hwhole⟩
  have hdrop := congrArg (List.drop offset) hsame
  rw [drop_take, drop_take, Nat.add_sub_cancel_left, ← prefix_iff_eq_take.mp hbegins] at hdrop
  rw [← hdrop]
  exact take_prefix ..

namespace Walk

section
variable (h : Walk region offset lsn offset' lsn')
include h

theorem le : offset ≤ offset' ∧ lsn.toNat ≤ lsn'.toNat := by
  induction h with
  | here => exact ⟨le_rfl, le_rfl⟩
  | frame hframe hlsn _ ih =>
    have hoffset := hframe.lt
    rw [successorLsn_eq_ok] at hlsn
    omega

theorem stop_le (hstart : offset ≤ region.length) : offset' ≤ region.length := by
  induction h with
  | here => exact hstart
  | frame hframe _ _ ih => exact ih hframe.lt.2

theorem congr
    (hsame : region'.take offset' = region.take offset') : Walk region' offset lsn offset' lsn' := by
  induction h with
  | here => exact .here
  | @frame offset mid offset' lsn next lsn' hframe hlsn hrest ih =>
    have hmid : region'.take mid = region.take mid := by
      have hle := hrest.le.1
      have htake := congrArg (List.take mid) hsame
      rwa [take_take, take_take, Nat.min_eq_left hle] at htake
    exact .frame (hframe.congr hmid) hlsn (ih hsame)

end

end Walk

/-! ### What the loop returns -/

section
variable {base hashed : List UInt8} {t result : UInt64} {targetLsn : Option UInt64}

theorem walFreshnessLoop_frame {fuel : ℕ} {bytes : List UInt8}
    {next : UInt64} (hopen : offset < region.length)
    (hread : walFreshnessFrame (region.drop offset) offset lsn = .ok (some (lsn, bytes)))
    (htarget : targetLsn ≠ some lsn) (hlsn : successorLsn lsn = .ok next) :
    walFreshnessLoop region targetLsn (fuel + 1) hashed offset lsn =
      walFreshnessLoop region targetLsn fuel (hashed ++ bytes) (offset + bytes.length) next := by
  rw [walFreshnessLoop, if_pos hopen, hread]
  show (if targetLsn = some lsn then _ else _) = _
  rw [if_neg htarget, hlsn]
  rfl

theorem walFreshnessLoop_head (base : List UInt8) {fuel : ℕ} (hfuel : region.length - offset < fuel)
    (hwalk : Walk region offset lsn offset' lsn') (hbreaks : BreaksOff region offset' lsn') :
    walFreshnessLoop region none fuel (base ++ region.take offset) offset lsn =
      .ok (precedingLsn lsn', base ++ region.take offset') := by
  induction hwalk generalizing fuel with
  | @here offset lsn =>
    obtain ⟨fuel, rfl⟩ := Nat.exists_eq_add_one.mpr (by omega : 0 < fuel)
    rcases hbreaks with hend | ⟨hopen, hread⟩
    · rw [walFreshnessLoop, if_neg (by omega)]
      rfl
    · rw [walFreshnessLoop, if_pos hopen, hread]
      rfl
  | frame hframe hlsn _ ih =>
    have hlt := hframe.lt
    obtain ⟨fuel, rfl⟩ := Nat.exists_eq_add_one.mpr (by omega : 0 < fuel)
    obtain ⟨bytes, hopen, hread, rfl⟩ := hframe
    rw [walFreshnessLoop_frame hopen hread (Option.some_ne_none _).symm hlsn, append_assoc,
      take_append_of_read hread]
    exact ih (by omega) hbreaks

theorem walFreshnessLoop_target (base : List UInt8) {fuel stop : ℕ} (hfuel : region.length - offset < fuel)
    (hwalk : Walk region offset lsn offset' t) (hframe : FrameEnds region offset' t stop) :
    walFreshnessLoop region (some t) fuel (base ++ region.take offset) offset lsn =
      .ok (t, base ++ region.take stop) := by
  induction hwalk generalizing fuel with
  | @here offset lsn =>
    obtain ⟨fuel, rfl⟩ := Nat.exists_eq_add_one.mpr (by omega : 0 < fuel)
    obtain ⟨bytes, hopen, hread, rfl⟩ := hframe
    rw [walFreshnessLoop, if_pos hopen, hread]
    show (if some lsn = some lsn then _ else _) = _
    rw [if_pos rfl, append_assoc, take_append_of_read hread]
    rfl
  | @frame offset mid offset' lsn next t hfirst hlsn hrest ih =>
    have hlt := hfirst.lt
    have hnext := successorLsn_eq_ok.mp hlsn
    have htarget : some t ≠ some lsn := by
      intro heq
      have hle := hrest.le
      rw [Option.some.inj heq] at hle
      omega
    obtain ⟨fuel, rfl⟩ := Nat.exists_eq_add_one.mpr (by omega : 0 < fuel)
    obtain ⟨bytes, hopen, hread, rfl⟩ := hfirst
    rw [walFreshnessLoop_frame hopen hread htarget hlsn, append_assoc, take_append_of_read hread]
    exact ih (by omega) hframe

theorem walFreshnessLoop_sound {out : List UInt8} (fuel : ℕ)
    (h : walFreshnessLoop region targetLsn fuel (base ++ region.take offset) offset lsn =
      .ok (result, out)) :
    ∃ offset' lsn', Walk region offset lsn offset' lsn' ∧
      ((targetLsn = none ∧ BreaksOff region offset' lsn' ∧ result = precedingLsn lsn' ∧
          out = base ++ region.take offset') ∨
        ∃ stop, targetLsn = some lsn' ∧ FrameEnds region offset' lsn' stop ∧
          out = base ++ region.take stop) := by
  induction fuel generalizing offset lsn with
  | zero => cases h
  | succ fuel ih =>
    have hend : BreaksOff region offset lsn →
        walFreshnessEnd targetLsn (base ++ region.take offset) offset lsn = .ok (result, out) →
        targetLsn = none ∧ BreaksOff region offset lsn ∧ result = precedingLsn lsn ∧
          out = base ++ region.take offset := by
      intro hbreaks h
      cases targetLsn with
      | some t => cases h
      | none =>
        cases h
        exact ⟨rfl, hbreaks, rfl, rfl⟩
    unfold walFreshnessLoop at h
    split at h
    · rename_i hopen
      obtain ⟨read, hread, h⟩ := bind_eq_ok.mp h
      rw [Fallible.lift_eq_ok] at hread
      cases read with
      | none => exact ⟨offset, lsn, .here, .inl (hend (.inr ⟨hopen, hread⟩) h)⟩
      | some frame =>
        obtain ⟨found, bytes⟩ := frame
        obtain rfl := (walFreshnessFrame_eq_some.mp hread).1
        have hframe : FrameEnds region offset _ (offset + bytes.length) :=
          ⟨bytes, hopen, hread, rfl⟩
        dsimp only at h
        rw [append_assoc, take_append_of_read hread] at h
        split at h
        · rename_i htarget
          cases h
          exact ⟨offset, _, .here, .inr ⟨_, htarget, hframe, rfl⟩⟩
        obtain ⟨next, hlsn, h⟩ := bind_eq_ok.mp h
        rw [Fallible.lift_eq_ok] at hlsn
        obtain ⟨offset', lsn', hwalk, hresult⟩ := ih h
        exact ⟨offset', lsn', .frame hframe hlsn hwalk, hresult⟩
    · rename_i hclosed
      exact ⟨offset, lsn, .here, .inl (hend (.inl (Nat.le_of_not_lt hclosed)) h)⟩

end

/-! ### Recovery and freshness -/

/-- The walk takes what recovery reads for whole frames, and looks at neither kind nor key. -/
theorem walFreshnessFrame_of_readFrame {rest : List UInt8} {read : FrameRead}
    (h : readFrame rest offset lsn = .ok read) :
    walFreshnessFrame rest offset lsn = .ok (match read with
      | .tail _ => none
      | .complete f => some (f.lsn, rest.take f.frameLen)) := by
  have hmagic : (rest.take headerLen).take 4 = rest.take 4 := by
    rw [take_take]
    rfl
  unfold readFrame at h
  unfold walFreshnessFrame
  simp only [hmagic]
  split at h
  · rename_i hshort
    rw [if_pos hshort]
    dsimp only at h
    split at h <;> cases h <;> rfl
  · rename_i hlong
    rw [if_neg hlong]
    split_ifs at h with hbegins
    rw [if_neg hbegins]
    obtain ⟨_, hvalid, h⟩ := bind_eq_ok.mp h
    rw [hvalid]
    show (if _ then _ else _) = _
    dsimp only at h
    split at h
    · cases h
    rename_i hmax
    rw [if_neg hmax]
    split at h
    · rename_i htorn
      cases h
      rw [if_pos htorn]
    rename_i hwhole
    rw [if_neg hwhole]
    split_ifs at h with hcrc
    rw [if_neg hcrc, take_append_slice]
    split at h
    · cases h
    · cases h
      rfl

section
variable {backing hashed hashed' : List UInt8} {startOffset endOffset : ℕ}
  {crypto : Option StorageAeadCodec}

theorem regionFrame_read (hend : endOffset ≤ backing.length) {read : FrameRead}
    (h : regionFrame backing startOffset endOffset crypto hashed offset lsn = .ok (read, hashed')) :
    match read with
    | .tail _ => hashed' = hashed ∧
        walFreshnessFrame ((slice backing startOffset endOffset).drop offset) offset lsn = .ok none
    | .complete f => f.offset = offset ∧ f.lsn = lsn ∧ ∃ bytes, hashed' = hashed ++ bytes ∧
        f.frameLen = bytes.length ∧
        walFreshnessFrame ((slice backing startOffset endOffset).drop offset) offset lsn =
          .ok (some (lsn, bytes)) := by
  have hrest : (backing.drop (startOffset + offset)).take (endOffset - (startOffset + offset)) =
      (slice backing startOffset endOffset).drop offset := by
    rw [slice, drop_take, drop_drop, Nat.sub_sub]
  obtain ⟨⟨owned, after⟩, hread, h⟩ := bind_eq_ok.mp h
  obtain ⟨unread, heq⟩ := readWalReaderFrame_eq offset lsn crypto hrest (by rw [length_drop]; omega)
  rw [heq] at hread
  split at hread
  · cases hread
  · rename_i status hmemory
    cases hread
    cases h
    exact ⟨rfl, walFreshnessFrame_of_readFrame hmemory⟩
  · rename_i f hmemory
    obtain ⟨payload, _, hread⟩ := bind_eq_ok.mp hread
    cases hread
    cases h
    have hwalk : _ = Except.ok (some (f.lsn, _)) := walFreshnessFrame_of_readFrame hmemory
    have hlsn : f.lsn = lsn := (walFreshnessFrame_eq_some.mp hwalk).1
    have hfrom := readFrom_of_readFrame hmemory
    refine ⟨rfl, hlsn, _, rfl, ?_, ?_⟩
    · show f.frameLen = (List.take headerLen _ ++ f.payload).length
      rw [hfrom.bytes_eq, length_take_of_le hfrom.frameLen_le]
    · show _ = Except.ok (some (lsn, List.take headerLen _ ++ f.payload))
      rw [hwalk, hfrom.bytes_eq, hlsn]

/-- The frames of a scan, as the walk meets them. -/
structure Meets (region : List UInt8) (offset : ℕ) (lsn : UInt64) (frames : List DecodedFrame)
    (offset' : ℕ) (lsn' : UInt64) : Prop where
  walk : Walk region offset lsn offset' lsn'
  breaks : BreaksOff region offset' lsn'
  each : ∀ f ∈ frames, Walk region offset lsn f.offset f.lsn ∧
    FrameEnds region f.offset f.lsn (f.offset + f.frameLen) ∧ f.offset + f.frameLen ≤ offset'
  lsns : ∀ t : UInt64, lsn.toNat ≤ t.toNat → t.toNat < lsn'.toNat → ∃ f ∈ frames, f.lsn = t

theorem meets_of_trace (hend : endOffset ≤ backing.length)
    {frames : List DecodedFrame} {status : TailStatus}
    (h : Trace (regionFrame backing startOffset endOffset crypto)
      (slice backing startOffset endOffset).length hashed offset lsn frames offset' lsn' status
      hashed')
    (hhashed : hashed = walFreshnessPrefixDomain ++
      (slice backing startOffset endOffset).take offset) :
    Meets (slice backing startOffset endOffset) offset lsn frames offset' lsn' ∧
      hashed' = walFreshnessPrefixDomain ++ (slice backing startOffset endOffset).take offset' := by
  induction h with
  | clean hclosed => exact ⟨⟨.here, .inl hclosed, nofun, fun t hfrom hto => by omega⟩, hhashed⟩
  | tail hopen hnext =>
    obtain ⟨hsame, hwalk⟩ := regionFrame_read hend hnext
    exact ⟨⟨.here, .inr ⟨hopen, hwalk⟩, nofun, fun t hfrom hto => by omega⟩, hsame.trans hhashed⟩
  | @frame hashed mid hashed' offset offset' lsn next lsn' status f frames hopen hnext hlsn hrest ih =>
    obtain ⟨hoffset, hfound, bytes, hmid, hlen, hread⟩ := regionFrame_read hend hnext
    have hframe : FrameEnds (slice backing startOffset endOffset) offset lsn
        (offset + f.frameLen) := ⟨bytes, hopen, hread, by rw [hlen]⟩
    have habsorbed : mid = walFreshnessPrefixDomain ++
        (slice backing startOffset endOffset).take (offset + f.frameLen) := by
      rw [hmid, hhashed, append_assoc, take_append_of_read hread, hlen]
    obtain ⟨hmeets, hfinal⟩ := ih habsorbed
    refine ⟨⟨.frame hframe hlsn hmeets.walk, hmeets.breaks, ?_, ?_⟩, hfinal⟩
    · rw [forall_mem_cons]
      refine ⟨?_, fun g hg => ⟨.frame hframe hlsn (hmeets.each g hg).1, (hmeets.each g hg).2⟩⟩
      rw [hoffset, hfound]
      exact ⟨.here, hframe, hmeets.walk.le.1⟩
    · intro t hfrom hto
      by_cases hhere : lsn = t
      · exact ⟨f, mem_cons_self, hfound.trans hhere⟩
      have hne : lsn.toNat ≠ t.toNat := fun heq => hhere (UInt64.toNat_inj.mp heq)
      have hstep := successorLsn_eq_ok.mp hlsn
      obtain ⟨g, hg, hfound'⟩ := hmeets.lsns t (by omega) hto
      exact ⟨g, mem_cons_of_mem f hg, hfound'⟩

end

section
variable {δ : Type} (sha256 : List UInt8 → δ) {backing : List UInt8} {source : WalFreshnessSource}

/-- A source whose region lies in the file. -/
structure WalFreshnessSource.Readable (backing : List UInt8) (source : WalFreshnessSource) :
    Prop where
  firstLsn : source.firstLsn ≠ 0
  start_le : source.startOffset ≤ source.endOffset
  end_le : source.endOffset ≤ backing.length

def WalFreshnessSource.bytes (backing : List UInt8) (source : WalFreshnessSource) : List UInt8 :=
  slice backing source.startOffset source.endOffset

section
variable (h : source.Readable backing)
include h

theorem walFreshnessPrefix_eq (targetLsn : Option UInt64) :
    walFreshnessPrefix sha256 backing source targetLsn =
      (walFreshnessLoop (source.bytes backing) targetLsn ((source.bytes backing).length + 1)
        walFreshnessPrefixDomain 0 source.firstLsn >>= fun walked =>
          .ok (walked.1, sha256 walked.2)) := by
  have hstart := h.start_le
  have hend := h.end_le
  unfold walFreshnessPrefix
  rw [if_neg h.firstLsn, if_neg (by omega), if_neg (by omega)]
  rfl

section
variable (hwalk : Walk (source.bytes backing) 0 source.firstLsn offset lsn)
include hwalk

theorem WalFreshnessSource.head_eq (hbreaks : BreaksOff (source.bytes backing) offset lsn) :
    source.head sha256 backing = .ok (precedingLsn lsn,
      walPrefixDigest sha256 ((source.bytes backing).take offset)) := by
  have hloop := walFreshnessLoop_head walFreshnessPrefixDomain
    (by omega : (source.bytes backing).length - 0 < (source.bytes backing).length + 1)
    hwalk hbreaks
  rw [take_zero, append_nil] at hloop
  unfold head
  rw [walFreshnessPrefix_eq sha256 h, hloop]
  rfl

theorem WalFreshnessSource.head_cut :
    (mk source.startOffset (source.startOffset + offset) source.firstLsn).head
        sha256 (backing.take (source.startOffset + offset)) =
      .ok (precedingLsn lsn, walPrefixDigest sha256 ((source.bytes backing).take offset)) := by
  have hstart := h.start_le
  have hend := h.end_le
  have hstop : offset ≤ source.endOffset - source.startOffset := by
    have hle := hwalk.stop_le (Nat.zero_le _)
    rw [bytes, slice, length_take] at hle
    omega
  have hcut : slice (backing.take (source.startOffset + offset)) source.startOffset
      (source.startOffset + offset) = (source.bytes backing).take offset := by
    rw [bytes, slice, slice, Nat.add_sub_cancel_left, drop_take,
      take_take, take_take, Nat.add_sub_cancel_left, Nat.min_self, Nat.min_eq_left hstop]
  have hsame : ((source.bytes backing).take offset).take offset =
      (source.bytes backing).take offset := by rw [take_take, Nat.min_self]
  have hreadable : WalFreshnessSource.Readable (backing.take (source.startOffset + offset))
      ⟨source.startOffset, source.startOffset + offset, source.firstLsn⟩ := by
    refine ⟨h.firstLsn, Nat.le_add_right .., ?_⟩
    show source.startOffset + offset ≤ _
    rw [length_take]
    omega
  have hwalk' := hwalk.congr hsame
  rw [← hcut] at hwalk'
  rw [head_eq sha256 hreadable hwalk' (.inl ?_)]
  · rw [bytes, hcut, hsame]
  · rw [bytes, hcut]
    exact length_take_le ..

end

theorem WalFreshnessSource.digestAtLsn_eq {stop : ℕ}
    (hwalk : Walk (source.bytes backing) 0 source.firstLsn offset lsn)
    (hframe : FrameEnds (source.bytes backing) offset lsn stop) :
    source.digestAtLsn sha256 backing lsn =
      .ok (walPrefixDigest sha256 ((source.bytes backing).take stop)) := by
  have hloop := walFreshnessLoop_target walFreshnessPrefixDomain
    (by omega : (source.bytes backing).length - 0 < (source.bytes backing).length + 1)
    hwalk hframe
  rw [take_zero, append_nil] at hloop
  have hle := hwalk.le.2
  unfold digestAtLsn
  rw [if_neg (by rw [UInt64.lt_iff_toNat_lt]; omega), walFreshnessPrefix_eq sha256 h, hloop]
  rfl

end

/-- On a region that recovery accepts, the head of the walk is that of the scan, over the bytes it
hashed, before and after the tail is cut off; at every LSN up to it, the walk has the frames up to
there. -/
theorem freshness_describes_recovered [PayloadCodec] (spec : WalRegionScanSpec)
    (scan : RecoveryScan) (hashed : List UInt8)
    (hscan : scanWalReaderRegionSeeded backing spec = .ok (scan, hashed)) :
    let source : WalFreshnessSource := ⟨spec.startOffset, spec.endOffset, spec.firstLsn⟩
    let region := slice backing spec.startOffset spec.endOffset
    hashed = walFreshnessPrefixDomain ++ region.take scan.lastGoodOffset ∧
    scan.nextLsn ≠ 0 ∧
    source.head sha256 backing = .ok (scan.nextLsn - 1, sha256 hashed) ∧
    (WalFreshnessSource.mk spec.startOffset (spec.startOffset + scan.lastGoodOffset)
      spec.firstLsn).head sha256 (backing.take (spec.startOffset + scan.lastGoodOffset)) =
        .ok (scan.nextLsn - 1, sha256 hashed) ∧
    ∃ frames, Trace (regionFrame backing spec.startOffset spec.endOffset spec.crypto)
        region.length walFreshnessPrefixDomain 0 spec.firstLsn frames scan.lastGoodOffset
        scan.nextLsn scan.tailStatus hashed ∧
      ∀ lsn, spec.firstLsn ≤ lsn → lsn ≤ scan.nextLsn - 1 → ∃ f ∈ frames, f.lsn = lsn ∧
        f.offset + f.frameLen ≤ scan.lastGoodOffset ∧
        source.digestAtLsn sha256 backing lsn =
          .ok (walPrefixDigest sha256 (region.take (f.offset + f.frameLen))) := by
  intro source region
  unfold scanWalReaderRegionSeeded at hscan
  split_ifs at hscan with hfirst hrange
  have hreadable : source.Readable backing :=
    ⟨hfirst, by show spec.startOffset ≤ spec.endOffset; omega,
      by show spec.endOffset ≤ backing.length; omega⟩
  have hlen : region.length = spec.endOffset - spec.startOffset := by
    show (slice backing spec.startOffset spec.endOffset).length = _
    rw [slice, length_take, length_drop]
    omega
  rw [← hlen] at hscan
  obtain ⟨frames, events, hscans⟩ := scanFrom_sound hscan
  obtain ⟨hmeets, hhashed⟩ := meets_of_trace hreadable.end_le hscans.trace
    (by rw [take_zero, append_nil])
  -- LSNs only grow from the first one, which is not zero
  have hgrows := hmeets.walk.le.2
  have hpos : spec.firstLsn.toNat ≠ 0 := fun h => hfirst (UInt64.toNat_inj.mp h)
  have hnext : scan.nextLsn ≠ 0 := by
    intro h
    rw [h] at hgrows
    exact hpos (Nat.le_zero.mp hgrows)
  have hprevious : (scan.nextLsn - 1).toNat = scan.nextLsn.toNat - 1 := by
    rw [UInt64.toNat_sub_of_le _ _ (by rw [UInt64.le_iff_toNat_le]; show 1 ≤ _; omega)]
    rfl
  have hhead : precedingLsn scan.nextLsn = scan.nextLsn - 1 := if_neg hnext
  refine ⟨hhashed, hnext, ?_, ?_, frames, hscans.trace, ?_⟩
  · rw [WalFreshnessSource.head_eq sha256 hreadable hmeets.walk hmeets.breaks, hhead, hhashed]
    rfl
  · have hcut := WalFreshnessSource.head_cut sha256 hreadable hmeets.walk
    rw [hhead] at hcut
    rw [hcut, hhashed]
    rfl
  · intro lsn hfrom hto
    rw [UInt64.le_iff_toNat_le] at hfrom hto
    obtain ⟨f, hf, rfl⟩ := hmeets.lsns lsn hfrom (by omega)
    obtain ⟨hwalk, hframe, hle⟩ := hmeets.each f hf
    exact ⟨f, hf, rfl, hle, WalFreshnessSource.digestAtLsn_eq sha256 hreadable hwalk hframe⟩

end

section
attribute [local instance] emptyRelationCodec

/-- A prepared and committed step, and the first byte of one more frame. -/
def tornStep : WalRegionScanSpec where
  startOffset := 0
  endOffset := (stepBytes 1).length + 1
  baseRevision := 5
  firstLsn := 1
  seededPrepares := []
  crypto := none

set_option maxRecDepth 100000 in
theorem freshness_describes_tornStep :
    ∃ scan hashed, scanWalReaderRegionSeeded (stepBytes 1 ++ [0x43]) tornStep = .ok (scan, hashed) ∧
      scan.nextLsn = 3 ∧
      (WalFreshnessSource.mk 0 ((stepBytes 1).length + 1) 1).head id (stepBytes 1 ++ [0x43]) =
        .ok (2, hashed) := by
  have hscan : ((scanWalReaderRegionSeeded (stepBytes 1 ++ [0x43]) tornStep).toOption.map
      fun scanned => scanned.1.nextLsn) = some 3 := by decide +kernel
  obtain ⟨⟨scan, hashed⟩, hscan, hnext⟩ := Option.map_eq_some_iff.mp hscan
  have hscan := toOption_eq_some.mp hscan
  obtain ⟨-, -, hhead, -⟩ := freshness_describes_recovered id tornStep scan hashed hscan
  refine ⟨scan, hashed, hscan, hnext, hhead.trans ?_⟩
  rw [hnext]
  rfl

end

end Cfmd.Durability
