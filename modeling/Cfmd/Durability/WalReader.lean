import Cfmd.Durability.Scan

/-! Scans that draw frames from a reader: a stream, and a region of a file. They
look at the stored payload before they accept a frame, and without a key they
refuse one that looks encrypted. -/

namespace Cfmd.Durability
open Lib List

/-- The storage codec of an encrypted WAL, of which a scan only uses `open`. -/
structure StorageAeadCodec where
  openWal : List UInt8 → List UInt8 → Except DurabilityError (List UInt8)

def walAadContext (kind : RecordKind) (lsn : UInt64) (revision : RevisionId) : List UInt8 :=
  kind.toU8 :: (pushU64 lsn ++ pushU64 revision)

/-- `b"CFMD-WAL-FRESHNESS-PREFIX-v1\0"`. -/
def walFreshnessPrefixDomain : List UInt8 :=
  "CFMD-WAL-FRESHNESS-PREFIX-v1".toByteArray.data.toList ++ [0]

/-- `b"CFAE"`. -/
def encryptedMagic : List UInt8 := [0x43, 0x46, 0x41, 0x45]

/-- `stored_payload.starts_with(b"CFAE")`. -/
def LooksEncrypted (payload : List UInt8) : Prop := payload.take 4 = encryptedMagic

instance (payload : List UInt8) : Decidable (LooksEncrypted payload) :=
  inferInstanceAs (Decidable (payload.take 4 = encryptedMagic))

structure OwnedWalFrame where
  header : List UInt8
  kind : RecordKind
  lsn : UInt64
  revision : RevisionId
  payloadCrc : UInt32
  payload : List UInt8
  storedPayload : List UInt8
  frameLen : ℕ

/-- The frame that a scan hands on. -/
def OwnedWalFrame.decoded (frame : OwnedWalFrame) (offset : ℕ) : DecodedFrame where
  offset
  kind := frame.kind
  lsn := frame.lsn
  revision := frame.revision
  payloadCrc := frame.payloadCrc
  payload := frame.payload
  frameLen := frame.frameLen

inductive ReaderFrameRead
  | complete (frame : OwnedWalFrame)
  | tail (status : TailStatus)

/-- Read exactly this many bytes; what is left of the reader comes second. -/
def readDeclaredRegionExact (reader : List UInt8) (n logicalOffset : ℕ) :
    Except DurabilityError (List UInt8 × List UInt8) :=
  if reader.length < n then
    .error (.corruption logicalOffset "WAL backing data ends before its declared region boundary")
  else .ok (reader.take n, reader.drop n)

/-- The payload of a stored frame, opened with the key if there is one. -/
def openStoredPayload (crypto : Option StorageAeadCodec) (logicalOffset : ℕ) (kind : RecordKind)
    (lsn : UInt64) (revision : RevisionId) (storedPayload : List UInt8) :
    Except DurabilityError (List UInt8) :=
  match crypto with
  | some crypto => crypto.openWal (walAadContext kind lsn revision) storedPayload
  | none =>
    if LooksEncrypted storedPayload then
      .error (.protocol logicalOffset "encrypted WAL frame requires a database key")
    else .ok storedPayload

def readWalReaderFrame (reader : List UInt8) (regionEnd absoluteOffset logicalOffset : ℕ)
    (expectedLsn : UInt64) (crypto : Option StorageAeadCodec) :
    Except DurabilityError (ReaderFrameRead × List UInt8) :=
  let remaining := regionEnd - absoluteOffset
  if remaining < headerLen then do
    let (tail, reader) ← readDeclaredRegionExact reader remaining logicalOffset
    let prefixLen := min tail.length magic.length
    if tail.take prefixLen = magic.take prefixLen then
      return (.tail (.truncated logicalOffset), reader)
    else return (.tail (.garbage logicalOffset), reader)
  else do
    let (header, reader) ← readDeclaredRegionExact reader headerLen logicalOffset
    if header.take 4 ≠ magic then
      .error (.corruption logicalOffset "non-frame bytes large enough to hide a complete frame")
    else do
      validateFrameHeader header logicalOffset expectedLsn
      let payloadLen := (readU32 (slice header 8 12)).toNat
      if payloadLen > maxPayloadLen then
        .error (.corruption logicalOffset "payload length exceeds hard limit")
      else
        let frameLen := headerLen + payloadLen
        if remaining < frameLen then return (.tail (.truncated logicalOffset), reader)
        else do
          let (storedPayload, reader) ← readDeclaredRegionExact reader payloadLen logicalOffset
          let payloadCrc := readU32 (slice header 28 32)
          if crc32c storedPayload ≠ payloadCrc then
            .error (.corruption logicalOffset "payload checksum mismatch")
          else
            match RecordKind.tryFrom (header.getD 6 0) with
            | none => .error (.corruption logicalOffset "unknown frame kind")
            | some kind => do
              let lsn := readU64 (slice header 12 20)
              let revision := readU64 (slice header 20 28)
              let payload ← openStoredPayload crypto logicalOffset kind lsn revision storedPayload
              return (.complete
                { header, kind, lsn, revision, payloadCrc, payload, storedPayload, frameLen }, reader)

/-- Frames of a stream of that many bytes. -/
def streamFrame (regionLen : ℕ) (crypto : Option StorageAeadCodec) (reader : List UInt8)
    (offset : ℕ) (expectedLsn : UInt64) : Except DurabilityError (FrameRead × List UInt8) := do
  match ← readWalReaderFrame reader regionLen offset offset expectedLsn crypto with
  | (.tail status, reader) => return (.tail status, reader)
  | (.complete frame, reader) => return (.complete (frame.decoded offset), reader)

/-- Frames of a region of a file, which the reader seeks each time; what the
freshness hasher has absorbed comes second. -/
def regionFrame (backing : List UInt8) (startOffset endOffset : ℕ)
    (crypto : Option StorageAeadCodec) (hashed : List UInt8) (offset : ℕ) (expectedLsn : UInt64) :
    Except DurabilityError (FrameRead × List UInt8) := do
  let absoluteOffset := startOffset + offset
  match ← readWalReaderFrame (backing.drop absoluteOffset) endOffset absoluteOffset offset
      expectedLsn crypto with
  | (.tail status, _) => return (.tail status, hashed)
  | (.complete frame, _) =>
    return (.complete (frame.decoded offset), hashed ++ (frame.header ++ frame.storedPayload))

section
variable [PayloadCodec]

def scanWalStreamSeeded (reader : List UInt8) (regionLen : ℕ) (baseRevision : RevisionId)
    (firstLsn : UInt64) (seededPrepares : List LoggedPrepare)
    (crypto : Option StorageAeadCodec) : Scanned RecoveryScan :=
  if firstLsn = 0 then .error (.error (.protocol 0 "WAL first LSN must be nonzero"))
  else do
    return (← scanFrom (streamFrame regionLen crypto) regionLen reader baseRevision firstLsn
      seededPrepares).1

structure WalRegionScanSpec where
  startOffset : ℕ
  endOffset : ℕ
  baseRevision : RevisionId
  firstLsn : UInt64
  seededPrepares : List LoggedPrepare
  crypto : Option StorageAeadCodec

/-- The scan of a region of a file, with what its freshness hasher absorbed. -/
def scanWalReaderRegionSeeded (backing : List UInt8) (spec : WalRegionScanSpec) :
    Scanned (RecoveryScan × List UInt8) :=
  if spec.firstLsn = 0 then .error (.error (.protocol 0 "WAL first LSN must be nonzero"))
  else if spec.startOffset > spec.endOffset ∨ spec.endOffset > backing.length then
    .error (.error (.corruption 0 "WAL region range is outside the backing file"))
  else
    scanFrom (regionFrame backing spec.startOffset spec.endOffset spec.crypto)
      (spec.endOffset - spec.startOffset) walFreshnessPrefixDomain spec.baseRevision spec.firstLsn
      spec.seededPrepares

end

/-! ### Reader and memory -/

/-- A frame in memory, as a reader without a key owns it. -/
def DecodedFrame.owned (frame : DecodedFrame) (header : List UInt8) : OwnedWalFrame where
  header
  kind := frame.kind
  lsn := frame.lsn
  revision := frame.revision
  payloadCrc := frame.payloadCrc
  payload := frame.payload
  storedPayload := frame.payload
  frameLen := frame.frameLen

variable {rest backing : List UInt8}

section
variable {reader : List UInt8} {regionEnd absoluteOffset logicalOffset : ℕ} {expectedLsn : UInt64}

theorem readDeclaredRegionExact_eq {n : ℕ} (h : n ≤ reader.length) :
    readDeclaredRegionExact reader n logicalOffset = .ok (reader.take n, reader.drop n) :=
  if_neg (Nat.not_lt.mpr h)

theorem readWalReaderFrame_eq (logicalOffset : ℕ) (expectedLsn : UInt64)
    (crypto : Option StorageAeadCodec) (hrest : reader.take (regionEnd - absoluteOffset) = rest)
    (h : regionEnd - absoluteOffset ≤ reader.length) :
    ∃ after, readWalReaderFrame reader regionEnd absoluteOffset logicalOffset expectedLsn crypto =
      match readFrame rest logicalOffset expectedLsn with
      | .error e => .error e
      | .ok (.tail status) => .ok (.tail status, after)
      | .ok (.complete f) => do
        let payload ← openStoredPayload crypto logicalOffset f.kind f.lsn f.revision f.payload
        return (.complete { f.owned (rest.take headerLen) with payload }, reader.drop f.frameLen) := by
  subst hrest
  generalize hremaining : regionEnd - absoluteOffset = remaining at h ⊢
  have hlen : (reader.take remaining).length = remaining := length_take_of_le h
  have htake : ∀ n ≤ remaining, (reader.take remaining).take n = reader.take n := by
    intro n hn
    rw [take_take, Nat.min_eq_left hn]
  unfold readWalReaderFrame readFrame
  simp only [hremaining, hlen]
  by_cases hshort : remaining < headerLen
  · rw [if_pos hshort, readDeclaredRegionExact_eq h]
    refine ⟨reader.drop remaining, ?_⟩
    simp only [hlen, bind, Except.bind]
    split <;> rfl
  · rw [if_neg hshort, readDeclaredRegionExact_eq (by omega)]
    have hheader := htake headerLen (by omega)
    have hmagic : (reader.take remaining).take 4 = (reader.take headerLen).take 4 := by
      rw [htake 4 (by unfold headerLen at hshort; omega), take_take]
      rfl
    have hpayload : ∀ n, headerLen + n ≤ remaining →
        slice (reader.take remaining) headerLen (headerLen + n) = (reader.drop headerLen).take n := by
      intro n hn
      rw [slice, Nat.add_sub_cancel_left, drop_take, take_take, Nat.min_eq_left (by omega)]
    refine ⟨reader.drop headerLen, ?_⟩
    simp only [hheader, hmagic, bind, Except.bind]
    split
    · rfl
    rcases validateFrameHeader (reader.take headerLen) logicalOffset expectedLsn with e | _
    · rfl
    simp only
    generalize (readU32 (slice (reader.take headerLen) 8 12)).toNat = payloadLen
    split
    · rfl
    split
    · rfl
    rename_i hwhole
    have hfit : headerLen + payloadLen ≤ remaining := Nat.le_of_not_lt hwhole
    rw [readDeclaredRegionExact_eq (by rw [length_drop]; omega), hpayload _ hfit]
    simp only
    split
    · rfl
    rcases RecordKind.tryFrom ((reader.take headerLen).getD 6 0) with _ | kind
    · rfl
    · simp only [drop_drop]
      rfl

/-- What was read in memory, as a reader without a key returns it. -/
def FrameRead.owned (header : List UInt8) : FrameRead → ReaderFrameRead
  | .tail status => .tail status
  | .complete f => .complete (f.owned header)

/-- A whole frame does not look encrypted. -/
def FrameRead.Plain (read : FrameRead) : Prop := ∀ f, read = .complete f → ¬ LooksEncrypted f.payload

section
variable (hrest : reader.take (regionEnd - absoluteOffset) = rest)
  (h : regionEnd - absoluteOffset ≤ reader.length)
include hrest h

theorem readWalReaderFrame_sound {owned : ReaderFrameRead} {after : List UInt8}
    (hread : readWalReaderFrame reader regionEnd absoluteOffset logicalOffset expectedLsn none =
      .ok (owned, after)) :
    ∃ read, readFrame rest logicalOffset expectedLsn = .ok read ∧
      owned = read.owned (rest.take headerLen) ∧ read.Plain ∧
      ∀ f, read = .complete f → after = reader.drop f.frameLen := by
  obtain ⟨unread, heq⟩ := readWalReaderFrame_eq logicalOffset expectedLsn none hrest h
  rw [heq] at hread
  split at hread
  · cases hread
  · rename_i status hmemory
    cases hread
    exact ⟨.tail status, hmemory, rfl, nofun, nofun⟩
  · rename_i f hmemory
    obtain ⟨payload, hopen, hread⟩ := bind_eq_ok.mp hread
    unfold openStoredPayload at hopen
    split_ifs at hopen with hplain
    cases hopen
    cases hread
    refine ⟨.complete f, hmemory, rfl, ?_, ?_⟩
    · rintro _ ⟨⟩
      exact hplain
    · rintro _ ⟨⟩
      rfl

theorem readWalReaderFrame_complete {read : FrameRead} (hplain : read.Plain)
    (hread : readFrame rest logicalOffset expectedLsn = .ok read) :
    ∃ after, readWalReaderFrame reader regionEnd absoluteOffset logicalOffset expectedLsn none =
      .ok (read.owned (rest.take headerLen), after) := by
  obtain ⟨unread, heq⟩ := readWalReaderFrame_eq logicalOffset expectedLsn none hrest h
  rw [heq, hread]
  cases read with
  | tail status => exact ⟨unread, rfl⟩
  | complete f =>
    simp only [openStoredPayload, if_neg (hplain f rfl)]
    exact ⟨_, rfl⟩

end

end

/-! ### Agreement -/

section
variable {ρ : Type} {next : ρ → ℕ → UInt64 → Except DurabilityError (FrameRead × ρ)}
  {I : ℕ → ρ → Prop} {bytes : List UInt8}

/-- A reader that is in step with a byte string reads its plain frames. -/
structure Mirrors (bytes : List UInt8)
    (next : ρ → ℕ → UInt64 → Except DurabilityError (FrameRead × ρ)) (I : ℕ → ρ → Prop) :
    Prop where
  sound : ∀ {reader offset lsn read reader'}, I offset reader → offset < bytes.length →
    next reader offset lsn = .ok (read, reader') →
      readFrame (bytes.drop offset) offset lsn = .ok read ∧ read.Plain ∧
        ∀ f, read = .complete f → I (offset + f.frameLen) reader'
  complete : ∀ {reader offset lsn read}, I offset reader → offset < bytes.length →
    readFrame (bytes.drop offset) offset lsn = .ok read → read.Plain →
      ∃ reader', next reader offset lsn = .ok (read, reader')

theorem memoryFrame_eq_ok {offset : ℕ} {lsn : UInt64} {read : FrameRead} :
    memoryFrame bytes () offset lsn = .ok (read, ()) ↔
      readFrame (bytes.drop offset) offset lsn = .ok read := by
  rw [memoryFrame, bind_eq_ok]
  constructor
  · rintro ⟨read', hread, heq⟩
    cases heq
    exact hread
  · intro hread
    exact ⟨read, hread, rfl⟩

namespace Mirrors
variable {reader : ρ} {offset offset' : ℕ} {lsn lsn' : UInt64} {status : TailStatus}
  {frames : List DecodedFrame}

theorem memory (h : Mirrors bytes next I) {reader' : ρ}
    (htrace : Trace next bytes.length reader offset lsn frames offset' lsn' status reader')
    (hI : I offset reader) :
    Trace (memoryFrame bytes) bytes.length () offset lsn frames offset' lsn' status () ∧
      ∀ f ∈ frames, ¬ LooksEncrypted f.payload := by
  induction htrace with
  | clean hend => exact ⟨.clean hend, nofun⟩
  | tail hopen hnext =>
    obtain ⟨hread, _⟩ := h.sound hI hopen hnext
    exact ⟨.tail hopen (memoryFrame_eq_ok.mpr hread), nofun⟩
  | frame hopen hnext hlsn _ ih =>
    obtain ⟨hread, hplain, hstep⟩ := h.sound hI hopen hnext
    obtain ⟨hrest, hplains⟩ := ih (hstep _ rfl)
    exact ⟨.frame hopen (memoryFrame_eq_ok.mpr hread) hlsn hrest,
      forall_mem_cons.mpr ⟨hplain _ rfl, hplains⟩⟩

theorem reader_of_memory (h : Mirrors bytes next I) {r r' : Unit}
    (htrace : Trace (memoryFrame bytes) bytes.length r offset lsn frames offset' lsn' status r')
    (hplain : ∀ f ∈ frames, ¬ LooksEncrypted f.payload) (hI : I offset reader) :
    ∃ reader', Trace next bytes.length reader offset lsn frames offset' lsn' status reader' := by
  induction htrace generalizing reader with
  | clean hend => exact ⟨reader, .clean hend⟩
  | tail hopen hnext =>
    obtain ⟨reader', hreader'⟩ := h.complete hI hopen (memoryFrame_eq_ok.mp hnext) nofun
    exact ⟨reader', .tail hopen hreader'⟩
  | frame hopen hnext hlsn _ ih =>
    rw [forall_mem_cons] at hplain
    obtain ⟨reader₁, hreader₁⟩ := h.complete hI hopen (memoryFrame_eq_ok.mp hnext)
      (by rintro _ ⟨⟩; exact hplain.1)
    obtain ⟨_, _, hstep⟩ := h.sound hI hopen hreader₁
    obtain ⟨reader', hrest⟩ := ih hplain.2 (hstep _ rfl)
    exact ⟨reader', .frame hopen hreader₁ hlsn hrest⟩

end Mirrors

/-- No whole frame of the byte string has a payload that looks encrypted. -/
def PlainFrames (bytes : List UInt8) (firstLsn : UInt64) : Prop := ∀ frames offset lsn status,
    Trace (memoryFrame bytes) bytes.length () 0 firstLsn frames offset lsn status () →
      ∀ f ∈ frames, ¬ LooksEncrypted f.payload

/-- A reader in step with a byte string scans it like memory, or refuses it. -/
theorem Mirrors.scanFrom_iff [PayloadCodec] (h : Mirrors bytes next I) {reader : ρ}
    (hI : I 0 reader) (base : RevisionId) (firstLsn : UInt64) (seeds : List LoggedPrepare)
    (scan : RecoveryScan) :
    (∃ reader', scanFrom next bytes.length reader base firstLsn seeds = .ok (scan, reader')) ↔
      scanFrom (memoryFrame bytes) bytes.length () base firstLsn seeds = .ok (scan, ()) ∧
        PlainFrames bytes firstLsn := by
  constructor
  · rintro ⟨reader', hscan⟩
    obtain ⟨state, hseeds, hloop⟩ := bind_eq_ok.mp hscan
    obtain ⟨frames, offset, lsn, status, state', htrace, hfold, hfinish⟩ := scanLoop_sound _ hloop
    obtain ⟨hmemory, hplain⟩ := h.memory htrace hI
    refine ⟨scanFrom_of_trace hmemory.frameLen_pos hseeds hmemory hfold hfinish, ?_⟩
    intro frames' offset' lsn' status' hmemory'
    obtain ⟨rfl, _⟩ := hmemory.unique hmemory'
    exact hplain
  · rintro ⟨hscan, hplain⟩
    obtain ⟨state, hseeds, hloop⟩ := bind_eq_ok.mp hscan
    obtain ⟨frames, offset, lsn, status, state', htrace, hfold, hfinish⟩ := scanLoop_sound _ hloop
    obtain ⟨reader', hreader'⟩ := h.reader_of_memory htrace (hplain _ _ _ _ htrace) hI
    exact ⟨reader', scanFrom_of_trace htrace.frameLen_pos hseeds hreader' hfold hfinish⟩

end

theorem decoded_owned {header : List UInt8} {offset : ℕ} {f : DecodedFrame}
    (h : ReadFrom rest offset f) : (f.owned header).decoded offset = f := by
  rw [← h.offset_eq]
  rfl

theorem streamFrame_mirrors (bytes : List UInt8) :
    Mirrors bytes (streamFrame bytes.length none) fun offset reader =>
      reader = bytes.drop offset := by
  have hlen : ∀ offset, bytes.length - offset = (bytes.drop offset).length := fun offset =>
    length_drop.symm
  have hall : ∀ offset, (bytes.drop offset).take (bytes.length - offset) = bytes.drop offset :=
    fun offset => take_of_length_le (hlen offset).ge
  constructor
  · rintro reader offset lsn read reader' rfl _ hnext
    obtain ⟨⟨owned, after⟩, hread, hnext⟩ := bind_eq_ok.mp hnext
    obtain ⟨read', hmemory, rfl, hplain, hafter⟩ :=
      readWalReaderFrame_sound (hall offset) (hlen offset).le hread
    cases read' with
    | tail status =>
      cases hnext
      exact ⟨hmemory, hplain, nofun⟩
    | complete f =>
      have hfrom := readFrom_of_readFrame hmemory
      cases hnext
      rw [decoded_owned hfrom]
      refine ⟨hmemory, hplain, ?_⟩
      rintro _ ⟨⟩
      rw [hafter f rfl, drop_drop]
  · rintro reader offset lsn read rfl _ hmemory hplain
    obtain ⟨after, hread⟩ :=
      readWalReaderFrame_complete (hall offset) (hlen offset).le hplain hmemory
    refine ⟨after, ?_⟩
    unfold streamFrame
    rw [hread]
    cases read with
    | tail status => rfl
    | complete f =>
      show Except.ok (FrameRead.complete ((f.owned _).decoded offset), after) = _
      rw [decoded_owned (readFrom_of_readFrame hmemory)]

/-- The hasher absorbs the frames as they stand in the region. -/
theorem regionFrame_mirrors (startOffset : ℕ) {endOffset : ℕ}
    (hregion : endOffset ≤ backing.length) :
    Mirrors (slice backing startOffset endOffset) (regionFrame backing startOffset endOffset none)
      fun offset hashed =>
        hashed = walFreshnessPrefixDomain ++ (slice backing startOffset endOffset).take offset := by
  have hlen : ∀ offset, endOffset - (startOffset + offset) ≤
      (backing.drop (startOffset + offset)).length := by
    intro offset
    rw [length_drop]
    omega
  have hrest : ∀ offset, (backing.drop (startOffset + offset)).take
      (endOffset - (startOffset + offset)) = (slice backing startOffset endOffset).drop offset := by
    intro offset
    rw [slice, drop_take, drop_drop, Nat.sub_sub]
  constructor
  · rintro hashed offset lsn read hashed' rfl _ hnext
    obtain ⟨⟨owned, after⟩, hread, hnext⟩ := bind_eq_ok.mp hnext
    obtain ⟨read', hmemory, rfl, hplain, _⟩ :=
      readWalReaderFrame_sound (hrest offset) (hlen offset) hread
    cases read' with
    | tail status =>
      cases hnext
      refine ⟨hmemory, hplain, ?_⟩
      rintro _ ⟨⟩
    | complete f =>
      have hfrom := readFrom_of_readFrame hmemory
      cases hnext
      rw [decoded_owned hfrom]
      refine ⟨hmemory, hplain, ?_⟩
      rintro _ ⟨⟩
      show _ ++ (List.take headerLen _ ++ f.payload) = _
      rw [hfrom.bytes_eq, append_assoc, take_add]
  · rintro hashed offset lsn read rfl _ hmemory hplain
    obtain ⟨after, hread⟩ := readWalReaderFrame_complete (hrest offset) (hlen offset) hplain hmemory
    unfold regionFrame
    simp only [hread]
    cases read with
    | tail status => exact ⟨_, rfl⟩
    | complete f =>
      exact ⟨_, congrArg (fun g => Except.ok (FrameRead.complete g, _))
        (decoded_owned (readFrom_of_readFrame hmemory))⟩

section
variable [PayloadCodec] {base : RevisionId} {firstLsn : UInt64} {seeds : List LoggedPrepare}
  {scan : RecoveryScan} {bytes : List UInt8}

theorem scanWalStreamSeeded_iff :
    scanWalStreamSeeded bytes bytes.length base firstLsn seeds none = .ok scan ↔
      scanWalSeeded bytes base firstLsn seeds = .ok scan ∧ PlainFrames bytes firstLsn := by
  have hmirrors := (streamFrame_mirrors bytes).scanFrom_iff (I := fun offset reader =>
    reader = bytes.drop offset) (drop_zero).symm base firstLsn seeds scan
  rw [scanWalSeeded_eq_ok, and_assoc, ← hmirrors]
  unfold scanWalStreamSeeded
  by_cases hzero : firstLsn = 0
  · simp [hzero]
  rw [if_neg hzero, bind_eq_ok]
  constructor
  · rintro ⟨⟨scan', reader'⟩, hscan, heq⟩
    cases heq
    exact ⟨hzero, reader', hscan⟩
  · rintro ⟨_, reader', hscan⟩
    exact ⟨(scan, reader'), hscan, rfl⟩

theorem scanWalReaderRegionSeeded_iff {startOffset endOffset : ℕ}
    (hstart : startOffset ≤ endOffset) (hend : endOffset ≤ backing.length) :
    (∃ hashed, scanWalReaderRegionSeeded backing
        { startOffset, endOffset, baseRevision := base, firstLsn, seededPrepares := seeds
          crypto := none } = .ok (scan, hashed)) ↔
      scanWalSeeded (slice backing startOffset endOffset) base firstLsn seeds = .ok scan ∧
        PlainFrames (slice backing startOffset endOffset) firstLsn := by
  have hlen : (slice backing startOffset endOffset).length = endOffset - startOffset := by
    rw [slice, length_take, length_drop]
    omega
  have hmirrors := (regionFrame_mirrors startOffset hend).scanFrom_iff
    (append_nil walFreshnessPrefixDomain).symm base firstLsn seeds scan
  rw [scanWalSeeded_eq_ok, and_assoc, ← hmirrors, hlen]
  unfold scanWalReaderRegionSeeded
  by_cases hzero : firstLsn = 0
  · simp [hzero]
  · dsimp only
    rw [if_neg hzero, if_neg (by omega)]
    exact ⟨fun h => ⟨hzero, h⟩, And.right⟩

/-- The scan of the bytes between two other parts of a file. -/
def scanRegionBetween (before bytes after : List UInt8) (base : RevisionId) (firstLsn : UInt64)
    (seeds : List LoggedPrepare) : Scanned (RecoveryScan × List UInt8) :=
  scanWalReaderRegionSeeded (before ++ (bytes ++ after))
    { startOffset := before.length, endOffset := before.length + bytes.length, baseRevision := base
      firstLsn, seededPrepares := seeds, crypto := none }

theorem scanRegionBetween_iff {before after : List UInt8} :
    (∃ hashed, scanRegionBetween before bytes after base firstLsn seeds = .ok (scan, hashed)) ↔
      scanWalSeeded bytes base firstLsn seeds = .ok scan ∧ PlainFrames bytes firstLsn := by
  have hslice : slice (before ++ (bytes ++ after)) before.length (before.length + bytes.length) =
      bytes := by
    rw [slice, drop_left, Nat.add_sub_cancel_left, take_left]
  unfold scanRegionBetween
  rw [scanWalReaderRegionSeeded_iff (Nat.le_add_right ..) (by simp only [length_append]; omega),
    hslice]

/-- The scans in memory, of a stream and of a region of a file all fail, or all
return the same. -/
def ScansAgree (before bytes after : List UInt8) (base : RevisionId) (firstLsn : UInt64)
    (seeds : List LoggedPrepare) : Prop :=
  (∃ scan hashed, scanWalSeeded bytes base firstLsn seeds = .ok scan ∧
    scanWalStreamSeeded bytes bytes.length base firstLsn seeds none = .ok scan ∧
    scanRegionBetween before bytes after base firstLsn seeds = .ok (scan, hashed)) ∨
  ((∀ scan, scanWalSeeded bytes base firstLsn seeds ≠ .ok scan) ∧
    (∀ scan, scanWalStreamSeeded bytes bytes.length base firstLsn seeds none ≠ .ok scan) ∧
    ∀ scan hashed, scanRegionBetween before bytes after base firstLsn seeds ≠ .ok (scan, hashed))

/-- If the frames of the bytes are a log, no payload among them looks encrypted. -/
def PlainLog (bytes : List UInt8) (base : RevisionId) (firstLsn : UInt64)
    (seeds : List LoggedPrepare) : Prop :=
  ∀ frames offset lsn status events,
    Trace (memoryFrame bytes) bytes.length () 0 firstLsn frames offset lsn status () →
      Says frames events → ScanAccepts base seeds events → ∀ f ∈ frames, ¬ LooksEncrypted f.payload

theorem plainFrames_of_plainLog (h : PlainLog bytes base firstLsn seeds)
    (hscan : scanWalSeeded bytes base firstLsn seeds = .ok scan) : PlainFrames bytes firstLsn := by
  obtain ⟨frames, events, hscans⟩ := scanFrom_sound (scanWalSeeded_eq_ok.mp hscan).2
  have hplain := h _ _ _ _ _ hscans.trace hscans.said hscans.accepts
  intro frames' offset lsn status htrace
  obtain ⟨rfl, _⟩ := hscans.trace.unique htrace
  exact hplain

theorem scansAgree_iff (before bytes after : List UInt8) :
    ScansAgree before bytes after base firstLsn seeds ↔
      (firstLsn ≠ 0 → PlainLog bytes base firstLsn seeds) := by
  constructor
  · intro hagree hzero frames offset lsn status events htrace hsaid haccepts
    obtain ⟨scan, hscan, _⟩ := scanFrom_complete htrace.frameLen_pos htrace hsaid haccepts
    have hmemory := scanWalSeeded_eq_ok.mpr ⟨hzero, hscan⟩
    rcases hagree with ⟨scan', hashed, _, hstream, _⟩ | ⟨hfails, _⟩
    · exact (scanWalStreamSeeded_iff.mp hstream).2 _ _ _ _ htrace
    · exact absurd hmemory (hfails scan)
  · intro hplain
    by_cases hmemory : ∃ scan, scanWalSeeded bytes base firstLsn seeds = .ok scan
    · obtain ⟨scan, hscan⟩ := hmemory
      have hframes := plainFrames_of_plainLog (hplain (scanWalSeeded_eq_ok.mp hscan).1) hscan
      obtain ⟨hashed, hregion⟩ := scanRegionBetween_iff.mpr ⟨hscan, hframes⟩
      exact .inl ⟨scan, hashed, hscan, scanWalStreamSeeded_iff.mpr ⟨hscan, hframes⟩, hregion⟩
    · refine .inr ⟨fun scan hscan => hmemory ⟨scan, hscan⟩, ?_, ?_⟩
      · intro scan hscan
        exact hmemory ⟨scan, (scanWalStreamSeeded_iff.mp hscan).1⟩
      · intro scan hashed hscan
        exact hmemory ⟨scan, (scanRegionBetween_iff.mp ⟨hashed, hscan⟩).1⟩

end

end Cfmd.Durability
