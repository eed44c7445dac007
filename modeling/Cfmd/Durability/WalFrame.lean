import Cfmd.Durability.BinaryCodec

/-! WAL frames: what `encode_frame` writes, what `read_frame` makes of a byte
string, and what a torn write leaves of a frame. -/

namespace Cfmd.Durability
open Lib List Nat

/-- `bytes[start..stop]`. -/
def slice (bytes : List UInt8) (start stop : ℕ) : List UInt8 := (bytes.drop start).take (stop - start)

theorem take_append_slice (bytes : List UInt8) (m n : ℕ) :
    bytes.take m ++ slice bytes m (m + n) = bytes.take (m + n) := by
  rw [slice, Nat.add_sub_cancel_left, take_add]

def readU16 (bytes : List UInt8) : UInt16 := UInt16.ofNat (fromLeBytes bytes)

def readU32 (bytes : List UInt8) : UInt32 := UInt32.ofNat (fromLeBytes bytes)

def readU64 (bytes : List UInt8) : UInt64 := UInt64.ofNat (fromLeBytes bytes)

def crc32cStep (crc : UInt32) : UInt32 := (crc >>> 1) ^^^ (0x82F63B78 &&& (0 - (crc &&& 1)))

def crc32cUpdate (crc : UInt32) (bytes : List UInt8) : UInt32 :=
  bytes.foldl (fun crc byte => crc32cStep^[8] (crc ^^^ byte.toUInt32)) crc

def crc32c (bytes : List UInt8) : UInt32 := ~~~crc32cUpdate (~~~0) bytes

/-- `b"CFMW"`. -/
def magic : List UInt8 := [0x43, 0x46, 0x4D, 0x57]

def walFrameFormatVersion : UInt16 := 1

def headerLen : ℕ := 36

def maxPayloadLen : ℕ := 64 * 1024 * 1024

inductive RecordKind
  | prepareRevision
  | commitRevision
  | replicationAuthority
  | sealClientIntent
deriving DecidableEq

namespace RecordKind

def toU8 : RecordKind → UInt8
  | prepareRevision => 1
  | commitRevision => 2
  | replicationAuthority => 3
  | sealClientIntent => 4

def tryFrom : UInt8 → Option RecordKind
  | 1 => some prepareRevision
  | 2 => some commitRevision
  | 3 => some replicationAuthority
  | 4 => some sealClientIntent
  | _ => none

theorem tryFrom_toU8 (kind : RecordKind) : tryFrom kind.toU8 = some kind := by
  cases kind <;> rfl

end RecordKind

structure EncodedFrame where
  lsn : UInt64
  payloadCrc32c : UInt32
  bytes : List UInt8
deriving DecidableEq

structure DecodedFrame where
  offset : ℕ
  kind : RecordKind
  lsn : UInt64
  revision : RevisionId
  payloadCrc : UInt32
  payload : List UInt8
  frameLen : ℕ
deriving DecidableEq

inductive TailStatus
  | clean
  | truncated (offset : ℕ)
  | garbage (offset : ℕ)
deriving DecidableEq

inductive FrameRead
  | complete (frame : DecodedFrame)
  | tail (status : TailStatus)
deriving DecidableEq

def validateFrameHeader (header : List UInt8) (offset : ℕ) (expectedLsn : UInt64) :
    Except DurabilityError Unit :=
  if readU16 (slice header 4 6) ≠ walFrameFormatVersion then
    .error (.corruption offset "unsupported/corrupt frame version")
  else if RecordKind.tryFrom (header.getD 6 0) = none then
    .error (.corruption offset "unknown frame kind")
  else if header.getD 7 0 ≠ 0 then .error (.corruption offset "unknown frame flags")
  else if crc32c (header.take 32) ≠ readU32 (slice header 32 36) then
    .error (.corruption offset "header checksum mismatch")
  else if readU64 (slice header 12 20) ≠ expectedLsn then
    .error (.protocol offset "non-monotone or gapped LSN")
  else .ok ()

/-- `read_frame` on `rest = bytes[offset..]`. -/
def readFrame (rest : List UInt8) (offset : ℕ) (expectedLsn : UInt64) :
    Except DurabilityError FrameRead :=
  if rest.length < headerLen then
    let prefixLen := min rest.length magic.length
    if rest.take prefixLen = magic.take prefixLen then .ok (.tail (.truncated offset))
    else .ok (.tail (.garbage offset))
  else if rest.take 4 ≠ magic then
    .error (.corruption offset "non-frame bytes large enough to hide a complete frame")
  else do
    let header := rest.take headerLen
    validateFrameHeader header offset expectedLsn
    let payloadLen := (readU32 (slice header 8 12)).toNat
    if payloadLen > maxPayloadLen then
      .error (.corruption offset "payload length exceeds hard limit")
    else
      let frameLen := headerLen + payloadLen
      if rest.length < frameLen then .ok (.tail (.truncated offset))
      else
        let payload := slice rest headerLen frameLen
        let payloadCrc := readU32 (slice header 28 32)
        if crc32c payload ≠ payloadCrc then
          .error (.corruption offset "payload checksum mismatch")
        else
          match RecordKind.tryFrom (header.getD 6 0) with
          | none => .error (.corruption offset "unknown frame kind")
          | some kind =>
            .ok (.complete
              { offset, kind, lsn := readU64 (slice header 12 20)
                revision := readU64 (slice header 20 28), payloadCrc, payload, frameLen })

/-- What a whole frame that was read takes of the bytes. -/
structure ReadFrom (rest : List UInt8) (offset : ℕ) (frame : DecodedFrame) : Prop where
  offset_eq : frame.offset = offset
  headerLen_le : headerLen ≤ frame.frameLen
  bytes_eq : rest.take headerLen ++ frame.payload = rest.take frame.frameLen
  frameLen_le : frame.frameLen ≤ rest.length

variable {offset : ℕ} {expectedLsn : UInt64}

section
variable {rest : List UInt8} {frame : DecodedFrame}
  (h : readFrame rest offset expectedLsn = .ok (.complete frame))
include h

theorem readFrom_of_readFrame : ReadFrom rest offset frame := by
  unfold readFrame at h
  split at h
  · simp only at h
    split at h <;> cases h
  split_ifs at h
  obtain ⟨_, _, h⟩ := bind_eq_ok.mp h
  simp only at h
  repeat' split at h
  all_goals cases h
  rename_i hlen _ _ _ _
  exact ⟨rfl, Nat.le_add_right .., take_append_slice .., Nat.le_of_not_lt hlen⟩

theorem frameLen_of_readFrame :
    headerLen ≤ frame.frameLen := (readFrom_of_readFrame h).headerLen_le

/-- A whole frame does not depend on what stands behind it. -/
theorem readFrame_take {n : ℕ} (hn : frame.frameLen ≤ n) :
    readFrame (rest.take n) offset expectedLsn = .ok (.complete frame) := by
  obtain ⟨-, hheader, -, hlen⟩ := readFrom_of_readFrame h
  have htake : ∀ m ≤ frame.frameLen, (rest.take n).take m = rest.take m := by
    intro m hm
    rw [take_take, min_eq_left (hm.trans hn)]
  have hlen' : frame.frameLen ≤ (rest.take n).length := by
    rw [length_take]
    omega
  have hslice : slice (rest.take n) headerLen frame.frameLen =
      slice rest headerLen frame.frameLen := by
    rw [slice, slice, drop_take, take_take, min_eq_left (by omega)]
  have hframe : headerLen + (readU32 (slice (rest.take headerLen) 8 12)).toNat =
      frame.frameLen := by
    unfold readFrame at h
    rw [if_neg (by omega)] at h
    split_ifs at h
    obtain ⟨_, _, h⟩ := bind_eq_ok.mp h
    simp only at h
    repeat' split at h
    all_goals cases h
    rfl
  rw [← h]
  simp only [readFrame, htake 4 (le_trans (by decide) hheader), htake headerLen hheader,
    hframe, hslice, if_neg (not_lt.mpr hlen), if_neg (not_lt.mpr hlen'),
    if_neg (not_lt.mpr (hheader.trans hlen)), if_neg (not_lt.mpr (hheader.trans hlen'))]

end

def headerFields (lsn : UInt64) (kind : RecordKind) (revision : RevisionId)
    (payload : List UInt8) : List UInt8 :=
  magic ++ (toLeBytes 2 walFrameFormatVersion.toNat ++ ([kind.toU8] ++ ([0] ++
    (pushU32 (UInt32.ofNat payload.length) ++ (pushU64 lsn ++ (pushU64 revision ++
      pushU32 (crc32c payload)))))))

def frameHeader (lsn : UInt64) (kind : RecordKind) (revision : RevisionId)
    (payload : List UInt8) : List UInt8 :=
  headerFields lsn kind revision payload ++ pushU32 (crc32c (headerFields lsn kind revision payload))

def encodeFrame (lsn : UInt64) (kind : RecordKind) (revision : RevisionId)
    (payload : List UInt8) : Except DurabilityError EncodedFrame :=
  if payload.length > maxPayloadLen then .error .payloadTooLarge
  else
    .ok
      { lsn, payloadCrc32c := crc32c payload
        bytes := frameHeader lsn kind revision payload ++ payload }

section
variable {lsn : UInt64} {kind : RecordKind} {revision : RevisionId} {payload : List UInt8}

@[simp] theorem length_pushU32 (x : UInt32) : (pushU32 x).length = 4 := length_toLeBytes 4 _

@[simp] theorem length_pushU64 (x : UInt64) : (pushU64 x).length = 8 := length_toLeBytes 8 _

@[simp] theorem readU32_pushU32 (x : UInt32) : readU32 (pushU32 x) = x := by
  rw [readU32, pushU32, fromLeBytes_toLeBytes_of_lt x.toNat_lt, UInt32.ofNat_toNat]

@[simp] theorem readU64_pushU64 (x : UInt64) : readU64 (pushU64 x) = x := by
  rw [readU64, pushU64, fromLeBytes_toLeBytes_of_lt x.toNat_lt, UInt64.ofNat_toNat]

@[simp] theorem length_headerFields : (headerFields lsn kind revision payload).length = 32 := by
  simp [headerFields, magic]

@[simp] theorem length_frameHeader : (frameHeader lsn kind revision payload).length = 36 := by
  simp [frameHeader]

theorem slice_lsn : slice (frameHeader lsn kind revision payload) 12 20 = pushU64 lsn := rfl

theorem slice_revision : slice (frameHeader lsn kind revision payload) 20 28 = pushU64 revision :=
  rfl

theorem slice_payloadLen : slice (frameHeader lsn kind revision payload) 8 12 =
    pushU32 (UInt32.ofNat payload.length) := rfl

theorem slice_payloadCrc : slice (frameHeader lsn kind revision payload) 28 32 =
    pushU32 (crc32c payload) := rfl

theorem validateFrameHeader_frameHeader (offset : ℕ) (expectedLsn : UInt64) :
    validateFrameHeader (frameHeader lsn kind revision payload) offset expectedLsn =
      if lsn ≠ expectedLsn then .error (.protocol offset "non-monotone or gapped LSN")
      else .ok () := by
  have hversion : readU16 (slice (frameHeader lsn kind revision payload) 4 6) =
      walFrameFormatVersion := rfl
  have hkind : (frameHeader lsn kind revision payload).getD 6 0 = kind.toU8 := rfl
  have hflags : (frameHeader lsn kind revision payload).getD 7 0 = 0 := rfl
  have hfields : (frameHeader lsn kind revision payload).take 32 =
      headerFields lsn kind revision payload := take_left' length_headerFields
  have hcrc : slice (frameHeader lsn kind revision payload) 32 36 =
      pushU32 (crc32c (headerFields lsn kind revision payload)) := rfl
  rw [validateFrameHeader, hversion, hkind, hflags, hfields, hcrc, slice_lsn, readU32_pushU32,
    readU64_pushU64, RecordKind.tryFrom_toU8]
  simp

theorem take_headerLen (body : List UInt8) :
    (frameHeader lsn kind revision payload ++ body).take headerLen =
      frameHeader lsn kind revision payload := take_left' length_frameHeader

theorem length_frameHeader_append (body : List UInt8) :
    (frameHeader lsn kind revision payload ++ body).length = headerLen + body.length := by
  rw [length_append, length_frameHeader, headerLen]

theorem lsn_of_readFrame {body : List UInt8} {read : FrameRead}
    (h : readFrame (frameHeader lsn kind revision payload ++ body) offset expectedLsn = .ok read) :
    lsn = expectedLsn := by
  unfold readFrame at h
  obtain ⟨_, hvalid, _⟩ := bind_eq_ok.mp h
  rw [take_headerLen, validateFrameHeader_frameHeader] at hvalid
  by_contra hne
  rw [if_pos hne] at hvalid
  cases hvalid

section
variable (hmax : payload.length ≤ maxPayloadLen)
include hmax

theorem readFrame_frameHeader (body : List UInt8)
    (offset : ℕ) :
    readFrame (frameHeader lsn kind revision payload ++ body) offset lsn =
      if body.length < payload.length then .ok (.tail (.truncated offset))
      else if crc32c (body.take payload.length) ≠ crc32c payload then
        .error (.corruption offset "payload checksum mismatch")
      else .ok (.complete
        { offset, kind, lsn, revision, payloadCrc := crc32c payload
          payload := body.take payload.length, frameLen := headerLen + payload.length }) := by
  have hlen : (frameHeader lsn kind revision payload ++ body).length = headerLen + body.length :=
    length_frameHeader_append body
  have hkind : (frameHeader lsn kind revision payload).getD 6 0 = kind.toU8 := rfl
  have hpayloadLen : (UInt32.ofNat payload.length).toNat = payload.length := by
    unfold maxPayloadLen at hmax
    rw [UInt32.toNat_ofNat', mod_eq_of_lt (by omega)]
  have hpayload : slice (frameHeader lsn kind revision payload ++ body) headerLen
      (headerLen + payload.length) = body.take payload.length := by
    have hdrop : (frameHeader lsn kind revision payload ++ body).drop headerLen = body :=
      drop_left' length_frameHeader
    rw [slice, hdrop, Nat.add_sub_cancel_left]
  unfold readFrame
  rw [if_neg (by omega)]
  simp only [take_headerLen, validateFrameHeader_frameHeader, ne_eq, not_true_eq_false, if_false,
    slice_lsn, slice_revision, slice_payloadLen,
    slice_payloadCrc, readU32_pushU32, readU64_pushU64, hpayloadLen, hpayload, hkind,
    RecordKind.tryFrom_toU8, hlen]
  show (if payload.length > maxPayloadLen then _ else _) = _
  rw [if_neg (by omega)]
  simp only [add_lt_add_iff_left]

theorem readFrame_encoded (rest : List UInt8)
    (offset : ℕ) :
    readFrame ((frameHeader lsn kind revision payload ++ payload) ++ rest) offset lsn =
      .ok (.complete
        { offset, kind, lsn, revision, payloadCrc := crc32c payload, payload
          frameLen := headerLen + payload.length }) := by
  rw [append_assoc, readFrame_frameHeader hmax, take_left]
  rw [if_neg (by rw [length_append]; omega), if_neg (not_not_intro rfl)]

theorem readFrame_torn {cut : ℕ}
    (hcut : cut < headerLen + payload.length) (offset : ℕ) :
    readFrame ((frameHeader lsn kind revision payload ++ payload).take cut) offset lsn =
      .ok (.tail (.truncated offset)) := by
  by_cases hheader : cut < headerLen
  · -- inside the header: what is there of the magic matches
    have hlen : ((frameHeader lsn kind revision payload ++ payload).take cut).length = cut := by
      rw [length_take, length_append, length_frameHeader]
      unfold headerLen at hheader
      omega
    have hmagic : ∀ n ≤ 4, (frameHeader lsn kind revision payload ++ payload).take n =
        magic.take n := by
      intro n hn
      have hframe : (frameHeader lsn kind revision payload ++ payload).take 4 = magic := rfl
      rw [← hframe, take_take, min_eq_left hn]
    unfold readFrame
    rw [if_pos (by rw [hlen]; exact hheader), hlen]
    have hbegins : min cut magic.length ≤ 4 := min_le_right _ _
    dsimp only
    rw [take_take, min_eq_left (min_le_left _ _), hmagic _ hbegins, if_pos rfl]
  · -- inside the payload: the header is whole and declares more than is there
    have hsplit : (frameHeader lsn kind revision payload ++ payload).take cut =
        frameHeader lsn kind revision payload ++ payload.take (cut - headerLen) := by
      rw [take_append, take_of_length_le]
      · rfl
      · rw [length_frameHeader]
        unfold headerLen at hheader
        omega
    rw [hsplit, readFrame_frameHeader hmax, if_pos]
    rw [length_take]
    omega

end

end

/-! ### Logs of frames -/

structure WalEntry where
  kind : RecordKind
  revision : RevisionId
  payload : List UInt8

namespace WalEntry

def frameLen (e : WalEntry) : ℕ := headerLen + e.payload.length

def bytes (e : WalEntry) (lsn : UInt64) : List UInt8 :=
  frameHeader lsn e.kind e.revision e.payload ++ e.payload

def frame (e : WalEntry) (offset : ℕ) (lsn : UInt64) : DecodedFrame where
  offset
  kind := e.kind
  lsn
  revision := e.revision
  payloadCrc := crc32c e.payload
  payload := e.payload
  frameLen := e.frameLen

end WalEntry

/-- Frames with consecutive LSNs, one after the other. -/
def encodeFrames : UInt64 → List WalEntry → Except DurabilityError (List UInt8)
  | _, [] => .ok []
  | lsn, e :: es => do
    let frame ← encodeFrame lsn e.kind e.revision e.payload
    return frame.bytes ++ (← encodeFrames (lsn + 1) es)

def framesFrom : ℕ → UInt64 → List WalEntry → List DecodedFrame
  | _, _, [] => []
  | offset, lsn, e :: es => e.frame offset lsn :: framesFrom (offset + e.frameLen) (lsn + 1) es

def framesLen (entries : List WalEntry) : ℕ := (entries.map WalEntry.frameLen).sum

@[simp] theorem framesLen_nil : framesLen [] = 0 := rfl

@[simp] theorem framesLen_cons (e : WalEntry) (es : List WalEntry) :
    framesLen (e :: es) = e.frameLen + framesLen es := rfl

@[simp] theorem length_bytes (e : WalEntry) (lsn : UInt64) : (e.bytes lsn).length = e.frameLen := by
  rw [WalEntry.bytes, length_append]
  rfl

theorem framesFrom_take (offset : ℕ) (lsn : UInt64) (entries : List WalEntry) (k : ℕ) :
    framesFrom offset lsn (entries.take k) = (framesFrom offset lsn entries).take k := by
  induction entries generalizing offset lsn k with
  | nil => simp [framesFrom]
  | cons e es ih =>
    cases k with
    | zero => rfl
    | succ k => rw [take_succ_cons, framesFrom, framesFrom, take_succ_cons, ih]

theorem encodeFrames_cons {lsn : UInt64} {e : WalEntry} {es : List WalEntry}
    {bytes : List UInt8} (h : encodeFrames lsn (e :: es) = .ok bytes) :
    e.payload.length ≤ maxPayloadLen ∧
      ∃ rest, encodeFrames (lsn + 1) es = .ok rest ∧ bytes = e.bytes lsn ++ rest := by
  obtain ⟨frame, hframe, h⟩ := bind_eq_ok.mp h
  obtain ⟨rest, hrest, h⟩ := bind_eq_ok.mp h
  cases h
  unfold encodeFrame at hframe
  split_ifs at hframe with hmax
  cases hframe
  exact ⟨Nat.le_of_not_lt hmax, rest, hrest, rfl⟩

end Cfmd.Durability
