import Cfmd.Durability.Scan

/-! Torn writes: whatever part of a log reached the disk, a scan finds the
frames that are whole and stops where the next one breaks off. -/

namespace Cfmd.Durability
open Lib List Nat

theorem memoryFrame_append (before : List UInt8) (after : List UInt8) (lsn : UInt64) :
    memoryFrame (before ++ after) () before.length lsn =
      (do return (← readFrame after before.length lsn, ())) := by
  rw [memoryFrame, drop_left]

variable {e : WalEntry} {lsn : UInt64} {entries : List WalEntry}

theorem memoryFrame_encoded (hmax : e.payload.length ≤ maxPayloadLen) (before rest : List UInt8)
    (lsn : UInt64) :
    memoryFrame (before ++ (e.bytes lsn ++ rest)) () before.length lsn =
      .ok (.complete (e.frame before.length lsn), ()) := by
  rw [memoryFrame_append, WalEntry.bytes, readFrame_encoded hmax]
  rfl

theorem memoryFrame_torn (hmax : e.payload.length ≤ maxPayloadLen) (before : List UInt8)
    (lsn : UInt64) {cut : ℕ} (hcut : cut < e.frameLen) :
    memoryFrame (before ++ (e.bytes lsn).take cut) () before.length lsn =
      .ok (.tail (.truncated before.length), ()) := by
  rw [memoryFrame_append, WalEntry.bytes, readFrame_torn hmax hcut]
  rfl

theorem successorLsn_eq (h : lsn.toNat + 1 < 2 ^ 64) : successorLsn lsn = .ok (lsn + 1) := if_pos h

theorem toNat_successor (h : lsn.toNat + 1 < 2 ^ 64) : (lsn + 1).toNat = lsn.toNat + 1 := by
  exact mod_eq_of_lt h

/-- Where a part of the log ends: between two frames, or inside the next one. -/
def tailAt (offset : ℕ) (entries : List WalEntry) (k len : ℕ) : TailStatus :=
  if len = framesLen (entries.take k) then .clean
  else .truncated (offset + framesLen (entries.take k))

/-- The first `k` entries of a log are those that lie wholly inside a part of it
of that length. -/
structure WhollyInside (entries : List WalEntry) (len k : ℕ) : Prop where
  le : k ≤ entries.length
  inside : framesLen (entries.take k) ≤ len
  next : k < entries.length → len < framesLen (entries.take (k + 1))

theorem WhollyInside.zero {es : List WalEntry} {len : ℕ} (h : len < e.frameLen) :
    WhollyInside (e :: es) len 0 where
  le := zero_le _
  inside := zero_le _
  next := by
    intro _
    simpa using h

theorem WhollyInside.succ {es : List WalEntry} {len k : ℕ} (h : WhollyInside es len k) :
    WhollyInside (e :: es) (e.frameLen + len) (k + 1) where
  le := succ_le_succ h.le
  inside := Nat.add_le_add_left h.inside _
  next := fun hk => Nat.add_lt_add_left (h.next (lt_of_succ_lt_succ hk)) _

theorem tailAt_succ (offset : ℕ) (e : WalEntry) (es : List WalEntry) (k len : ℕ) :
    tailAt (offset + e.frameLen) es k len = tailAt offset (e :: es) (k + 1) (e.frameLen + len) := by
  simp only [tailAt, take_succ_cons, framesLen_cons, add_left_cancel_iff, add_assoc]

theorem trace_torn {log part : List UInt8}
    (hlog : encodeFrames lsn entries = .ok log) (hpart : part <+: log)
    (hlsn : lsn.toNat + entries.length < 2 ^ 64) (before : List UInt8) :
    ∃ k lsn', WhollyInside entries part.length k ∧ lsn'.toNat = lsn.toNat + k ∧
      Trace (memoryFrame (before ++ part)) (before ++ part).length () before.length lsn
        (framesFrom before.length lsn (entries.take k))
        (before.length + framesLen (entries.take k)) lsn'
        (tailAt before.length entries k part.length) () := by
  induction entries generalizing lsn log part before with
  | nil =>
    cases hlog
    rw [prefix_nil] at hpart
    subst hpart
    refine ⟨0, lsn, ⟨le_refl _, le_refl _, nofun⟩, rfl, ?_⟩
    exact .clean (by simp)
  | cons e es ih =>
    obtain ⟨hmax, rest, hrest, rfl⟩ := encodeFrames_cons hlog
    have hlt : lsn.toNat + 1 < 2 ^ 64 := by
      rw [length_cons] at hlsn
      omega
    by_cases hwhole : part.length < e.frameLen
    · -- the part ends in the first frame, or before it
      have hcut : part = (e.bytes lsn).take part.length := by
        have htake := prefix_iff_eq_take.mp hpart
        rwa [take_append_of_le_length (by rw [length_bytes]; omega)] at htake
      refine ⟨0, lsn, .zero hwhole, rfl, ?_⟩
      by_cases hempty : part.length = 0
      · rw [tailAt, if_pos (by simpa using hempty)]
        exact .clean (by simp [hempty])
      rw [tailAt, if_neg (by simpa using hempty)]
      refine .tail (by simp; omega) ?_
      have htorn := memoryFrame_torn hmax before lsn hwhole
      rwa [← hcut] at htorn
    · -- the first frame is whole
      obtain ⟨tail, rfl⟩ : ∃ tail, part = e.bytes lsn ++ tail := by
        have hfirst := prefix_of_prefix_length_le (prefix_append _ rest) hpart
          (by rw [length_bytes]; omega)
        obtain ⟨tail, htail⟩ := hfirst
        exact ⟨tail, htail.symm⟩
      rw [prefix_append_right_inj] at hpart
      obtain ⟨k, lsn', hinside, hlsn', htrace⟩ := ih hrest hpart
        (by rw [toNat_successor hlt]; rw [length_cons] at hlsn; omega) (before ++ e.bytes lsn)
      rw [toNat_successor hlt] at hlsn'
      have hoffset : (before ++ e.bytes lsn).length = before.length + e.frameLen := by
        rw [length_append, length_bytes]
      rw [hoffset, append_assoc] at htrace
      refine ⟨k + 1, lsn', ?_, by omega, ?_⟩
      · rw [length_append, length_bytes]
        exact hinside.succ
      · have hopen : before.length < (before ++ (e.bytes lsn ++ tail)).length := by
          have hpos : 0 < e.frameLen := lt_of_lt_of_le (by decide) (le_add_right headerLen _)
          rw [length_append, length_append, length_bytes]
          omega
        have hpartLen : (e.bytes lsn ++ tail).length = e.frameLen + tail.length := by
          rw [length_append, length_bytes]
        rw [hpartLen, ← tailAt_succ, take_succ_cons, framesLen_cons, ← add_assoc]
        exact .frame hopen (memoryFrame_encoded hmax before tail lsn) (successorLsn_eq hlt) htrace

/-- A scan that reads a log to its end started at the LSN of its first frame, and
had an LSN left after each frame. -/
theorem trace_encoded {start : UInt64} {log : List UInt8}
    (before : List UInt8) {frames : List DecodedFrame} {offset : ℕ} {lsn' : UInt64}
    {status : TailStatus} (hlog : encodeFrames start entries = .ok log)
    (h : Trace (memoryFrame (before ++ log)) (before ++ log).length () before.length lsn frames
      offset lsn' status ()) :
    (entries ≠ [] → start = lsn) ∧ lsn.toNat + entries.length < 2 ^ 64 ∧
      frames = framesFrom before.length lsn entries := by
  induction entries generalizing start lsn log before frames with
  | nil =>
    cases hlog
    refine ⟨fun hne => absurd rfl hne, lsn.toNat_lt, ?_⟩
    cases h with
    | clean => rfl
    | tail hopen | frame hopen => simp at hopen
  | cons e es ih =>
    obtain ⟨hmax, rest, hrest, rfl⟩ := encodeFrames_cons hlog
    -- whatever the scan reads here, it reads under the LSN of the frame
    have hstart : ∀ {read}, memoryFrame (before ++ (e.bytes start ++ rest)) () before.length lsn =
        .ok (read, ()) → start = lsn := by
      intro read hread
      rw [memoryFrame_append] at hread
      obtain ⟨_, hread, _⟩ := bind_eq_ok.mp hread
      exact lsn_of_readFrame hread
    have hopen : before.length < (before ++ (e.bytes start ++ rest)).length := by
      have hpos : 0 < e.frameLen := lt_of_lt_of_le (by decide) (le_add_right headerLen _)
      rw [length_append, length_append, length_bytes]
      omega
    cases h with
    | clean hend => omega
    | tail _ hnext =>
      have heq := hstart hnext
      subst heq
      rw [memoryFrame_encoded hmax] at hnext
      cases hnext
    | frame _ hnext hlsn htail =>
      have heq := hstart hnext
      subst heq
      rw [memoryFrame_encoded hmax] at hnext
      cases hnext
      have hlt : start.toNat + 1 < 2 ^ 64 := by
        unfold successorLsn at hlsn
        split at hlsn
        · assumption
        · cases hlsn
      rw [successorLsn_eq hlt] at hlsn
      cases hlsn
      have hoffset : (before ++ e.bytes start).length = before.length + e.frameLen := by
        rw [length_append, length_bytes]
      rw [← append_assoc] at htail
      obtain ⟨_, hbound, hframes⟩ := ih (before ++ e.bytes start) hrest (hoffset ▸ htail)
      rw [toNat_successor hlt] at hbound
      refine ⟨fun _ => rfl, by rw [length_cons]; omega, ?_⟩
      rw [hframes, hoffset]
      rfl

theorem Trace.cut {bytes : List UInt8} {offset offset' : ℕ} {lsn' : UInt64} {status : TailStatus}
    {frames : List DecodedFrame} {reader reader' : Unit}
    (h : Trace (memoryFrame bytes) bytes.length reader offset lsn frames offset' lsn' status
      reader')
    (hstart : offset ≤ bytes.length) :
    offset ≤ offset' ∧ offset' ≤ bytes.length ∧
      Trace (memoryFrame (bytes.take offset')) offset' reader offset lsn frames offset' lsn' .clean
        reader' := by
  induction h with
  | clean | tail => exact ⟨le_rfl, hstart, .clean le_rfl⟩
  | @frame _ _ _ _ _ _ _ _ _ f _ hopen hnext hlsn _ ih =>
    obtain ⟨read, hread, heq⟩ := bind_eq_ok.mp hnext
    cases heq
    obtain ⟨-, hheader, -, hlen⟩ := readFrom_of_readFrame hread
    rw [length_drop] at hlen
    obtain ⟨hle, hend, hrest⟩ := ih (by omega)
    have hpos : 0 < f.frameLen := lt_of_lt_of_le (by decide) hheader
    refine ⟨by omega, hend, .frame (by omega) ?_ hlsn hrest⟩
    rw [memoryFrame, drop_take, readFrame_take hread (by omega)]
    rfl

section
variable [PayloadCodec]

/-- Recovery is idempotent: once its tail is cut off, a log is scanned with the same result. -/
theorem scan_of_cut {bytes : List UInt8} {base : RevisionId} {firstLsn : UInt64}
    {seeds : List LoggedPrepare} {scan : RecoveryScan}
    (h : scanWalSeeded bytes base firstLsn seeds = .ok scan) :
    scanWalSeeded (bytes.take scan.lastGoodOffset) base firstLsn seeds =
      .ok { scan with tailStatus := .clean } := by
  obtain ⟨hzero, h⟩ := scanWalSeeded_eq_ok.mp h
  obtain ⟨state, hseeds, h⟩ := bind_eq_ok.mp h
  obtain ⟨frames, offset, lsn, status, state', htrace, hfold, hfinish⟩ := scanLoop_sound _ h
  obtain ⟨-, hend, hcut⟩ := htrace.cut (zero_le _)
  -- the state is finished alike, whatever the tail is
  unfold ScanState.finish at hfinish
  obtain ⟨unresolved, hunresolved, hfinish⟩ := bind_eq_ok.mp hfinish
  obtain ⟨published, hpublished, hfinish⟩ := bind_eq_ok.mp hfinish
  obtain ⟨transactions, htransactions, hfinish⟩ := bind_eq_ok.mp hfinish
  cases hfinish
  refine scanWalSeeded_eq_ok.mpr ⟨hzero, ?_⟩
  rw [length_take, min_eq_left hend]
  apply scanFrom_of_trace htrace.frameLen_pos hseeds hcut hfold
  rw [ScanState.finish, hunresolved, Fallible.ok_bind, hpublished, Fallible.ok_bind, htransactions]
  rfl

/-- The scan accepts whatever part of an accepted log reached the disk: it reports the log of the
frames wholly inside, ends after the last of them, and takes the rest for a torn write. -/
theorem scan_recovers_whole_frames {start firstLsn : UInt64} {entries : List WalEntry}
    {log part : List UInt8} {base : RevisionId} {seeds : List LoggedPrepare}
    {whole : RecoveryScan} (hlog : encodeFrames start entries = .ok log)
    (hwhole : scanWalSeeded log base firstLsn seeds = .ok whole) (hpart : part <+: log) :
    ∃ k scan events, WhollyInside entries part.length k ∧
      scanWalSeeded part base firstLsn seeds = .ok scan ∧
      Says (framesFrom 0 firstLsn (entries.take k)) events ∧
      Recovers (scannedLog base seeds events) scan ∧
      scan.lastGoodOffset = framesLen (entries.take k) ∧
      scan.nextLsn.toNat = firstLsn.toNat + k ∧
      scan.tailStatus = if part.length = framesLen (entries.take k) then .clean
        else .truncated (framesLen (entries.take k)) := by
  obtain ⟨hzero, hscan⟩ := scanWalSeeded_eq_ok.mp hwhole
  obtain ⟨frames, events, h⟩ := scanFrom_sound hscan
  obtain ⟨hstart, hbound, hframes⟩ := trace_encoded [] hlog h.trace
  have hlog' : encodeFrames firstLsn entries = .ok log := by
    cases entries with
    | nil => exact hlog
    | cons e es => rwa [← hstart (cons_ne_nil _ _)]
  obtain ⟨k, lsn', hinside, hlsn', htrace⟩ := trace_torn hlog' hpart hbound []
  have hsaid : Says (framesFrom 0 firstLsn (entries.take k)) (events.take k) := by
    rw [framesFrom_take]
    exact List.forall₂_take k (hframes ▸ h.said)
  have haccepts : ScanAccepts base seeds (events.take k) := by
    have hall := h.accepts
    rw [ScanAccepts, ← take_append_drop k events, ← append_assoc] at hall
    exact (Log.accepts_append.mp hall).1
  obtain ⟨scan, hscan', hscans, hoffset, hnext, hstatus⟩ :=
    scanFrom_complete htrace.frameLen_pos htrace hsaid haccepts
  refine ⟨k, scan, events.take k, hinside, scanWalSeeded_eq_ok.mpr ⟨hzero, hscan'⟩, hsaid,
    hscans.recovers, ?_, ?_, ?_⟩
  · rw [hoffset, length_nil, zero_add]
  · rw [hnext, hlsn']
  · rw [hstatus, tailAt, length_nil, zero_add]

end

section
attribute [local instance] emptyRelationCodec

/-- The log loses its last byte: the first two frames are left. -/
theorem scan_recovers_whole_frames_of_two :
    ∃ k scan events, WhollyInside committedAndPrepared
        (committedAndPreparedBytes.take (committedAndPreparedBytes.length - 1)).length k ∧
      scanWalSeeded (committedAndPreparedBytes.take (committedAndPreparedBytes.length - 1)) 5 1 [] =
        .ok scan ∧
      Recovers (scannedLog 5 [] events) scan ∧ scan.nextLsn.toNat = 1 + k := by
  obtain ⟨whole, hwhole, _⟩ := scan_committedAndPrepared
  obtain ⟨k, scan, events, hinside, hscan, _, hrecovers, _, hnext, _⟩ :=
    scan_recovers_whole_frames encodeFrames_committedAndPrepared hwhole
      ⟨_, take_append_drop (committedAndPreparedBytes.length - 1) _⟩
  exact ⟨k, scan, events, hinside, hscan, hrecovers, hnext⟩

theorem scan_of_cut_two :
    let torn := committedAndPreparedBytes.take (committedAndPreparedBytes.length - 1)
    ∃ scan, scanWalSeeded torn 5 1 [] = .ok scan ∧ scan.tailStatus ≠ .clean ∧
      scanWalSeeded (torn.take scan.lastGoodOffset) 5 1 [] =
        .ok { scan with tailStatus := .clean } := by
  have htorn : (scanWalSeeded (committedAndPreparedBytes.take (committedAndPreparedBytes.length - 1))
      5 1 []).toOption.map (fun scan => decide (scan.tailStatus = .clean)) = some false := by
    decide +kernel
  obtain ⟨scan, hscan, htail⟩ := Option.map_eq_some_iff.mp htorn
  have hscan := toOption_eq_some.mp hscan
  exact ⟨scan, hscan, of_decide_eq_false htail, scan_of_cut hscan⟩

end

end Cfmd.Durability
