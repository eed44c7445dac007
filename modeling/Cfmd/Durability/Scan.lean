import Cfmd.Durability.LogRecovery

/-! The scan of a WAL from its first LSN: the frames it reads, and that its
result is the log of exactly these frames. -/

namespace Cfmd.Durability
open Lib WalEvent Fallible List

section
variable [PayloadCodec]

/-- `expected_lsn.checked_add(1)`. -/
def successorLsn (lsn : UInt64) : Except DurabilityError UInt64 :=
  if lsn.toNat + 1 < 2 ^ 64 then .ok (lsn + 1) else .error .lsnExhausted

variable {state' : ScanState} {scan : RecoveryScan} {frames : List DecodedFrame} {offset : ℕ}
  {lsn : UInt64} {status : TailStatus} {events : List WalEvent}

section
variable {ρ : Type}

/-- The loop of a scan over `len` bytes, with the reader it draws frames from. No frame is empty,
so `len` rounds are enough. -/
def scanLoop (next : ρ → ℕ → UInt64 → Except DurabilityError (FrameRead × ρ)) (len : ℕ) :
    ℕ → ρ → ScanState → ℕ → UInt64 → Scanned (RecoveryScan × ρ)
  | 0, _, _, _, _ => .error (.panic "scan does not end")
  | fuel + 1, reader, state, offset, expectedLsn =>
    if offset < len then do
      match ← lift (next reader offset expectedLsn) with
      | (.tail status, reader) => return (← state.finish offset expectedLsn status, reader)
      | (.complete frame, reader) =>
        let state ← state.accept frame
        let expectedLsn ← lift (successorLsn expectedLsn)
        scanLoop next len fuel reader state (offset + frame.frameLen) expectedLsn
    else do
      return (← state.finish offset expectedLsn .clean, reader)

/-- The start that every scan has in common. -/
def scanFrom (next : ρ → ℕ → UInt64 → Except DurabilityError (FrameRead × ρ)) (len : ℕ)
    (reader : ρ) (baseRevision : RevisionId) (firstLsn : UInt64)
    (seededPrepares : List LoggedPrepare) : Scanned (RecoveryScan × ρ) := do
  let state ← seededPrepares.foldlM ScanState.seedPrepare (ScanState.new baseRevision)
  scanLoop next len (len + 1) reader state 0 firstLsn

def memoryFrame (bytes : List UInt8) (_ : Unit) (offset : ℕ) (expectedLsn : UInt64) :
    Except DurabilityError (FrameRead × Unit) := do
  return (← readFrame (bytes.drop offset) offset expectedLsn, ())

def scanWalSeeded (bytes : List UInt8) (baseRevision : RevisionId) (firstLsn : UInt64)
    (seededPrepares : List LoggedPrepare) : Scanned RecoveryScan :=
  if firstLsn = 0 then .error (.error (.protocol 0 "WAL first LSN must be nonzero"))
  else do
    return (← scanFrom (memoryFrame bytes) bytes.length () baseRevision firstLsn seededPrepares).1

/-! ### Frames read -/

/-- The frames that a scan reads from here on, and where, at which LSN and how it
stops. -/
inductive Trace (next : ρ → ℕ → UInt64 → Except DurabilityError (FrameRead × ρ)) (len : ℕ) :
    ρ → ℕ → UInt64 → List DecodedFrame → ℕ → UInt64 → TailStatus → ρ → Prop
  | clean {reader : ρ} {offset : ℕ} {lsn : UInt64} (hend : len ≤ offset) :
      Trace next len reader offset lsn [] offset lsn .clean reader
  | tail {reader reader' : ρ} {offset : ℕ} {lsn : UInt64} {status : TailStatus}
      (hopen : offset < len) (hnext : next reader offset lsn = .ok (.tail status, reader')) :
      Trace next len reader offset lsn [] offset lsn status reader'
  | frame {reader reader' reader'' : ρ} {offset offset' : ℕ} {lsn lsn' lsn'' : UInt64}
      {status : TailStatus} {f : DecodedFrame} {frames : List DecodedFrame}
      (hopen : offset < len) (hnext : next reader offset lsn = .ok (.complete f, reader'))
      (hlsn : successorLsn lsn = .ok lsn')
      (hrest : Trace next len reader' (offset + f.frameLen) lsn' frames offset' lsn'' status
        reader'') :
      Trace next len reader offset lsn (f :: frames) offset' lsn'' status reader''

variable {next : ρ → ℕ → UInt64 → Except DurabilityError (FrameRead × ρ)} {len : ℕ}
  {reader reader' : ρ} {offset offset' : ℕ} {lsn lsn' : UInt64} {status : TailStatus}
  {frames : List DecodedFrame} {state : ScanState} {scan : RecoveryScan}

omit [PayloadCodec] in
theorem Trace.unique {frames' : List DecodedFrame} {offset'' : ℕ} {lsn'' : UInt64}
    {status' : TailStatus} {reader'' : ρ}
    (h : Trace next len reader offset lsn frames offset' lsn' status reader')
    (h' : Trace next len reader offset lsn frames' offset'' lsn'' status' reader'') :
    frames = frames' ∧ offset' = offset'' ∧ lsn' = lsn'' ∧ status = status' ∧ reader' = reader'' := by
  induction h generalizing frames' with
  | clean hend =>
    cases h' with
    | clean => exact ⟨rfl, rfl, rfl, rfl, rfl⟩
    | tail hopen | frame hopen => omega
  | tail hopen hnext =>
    cases h' with
    | clean => omega
    | tail _ hnext' =>
      rw [hnext] at hnext'
      cases hnext'
      exact ⟨rfl, rfl, rfl, rfl, rfl⟩
    | frame _ hnext' =>
      rw [hnext] at hnext'
      cases hnext'
  | frame hopen hnext hlsn _ ih =>
    cases h' with
    | clean => omega
    | tail _ hnext' =>
      rw [hnext] at hnext'
      cases hnext'
    | frame _ hnext' hlsn' hrest =>
      rw [hnext] at hnext'
      cases hnext'
      rw [hlsn] at hlsn'
      cases hlsn'
      obtain ⟨rfl, hsame⟩ := ih hrest
      exact ⟨rfl, hsame⟩

theorem scanLoop_sound (fuel : ℕ)
    (h : scanLoop next len fuel reader state offset lsn = .ok (scan, reader')) :
    ∃ frames offset' lsn' status state',
      Trace next len reader offset lsn frames offset' lsn' status reader' ∧
      frames.foldlM ScanState.accept state = .ok state' ∧
      state'.finish offset' lsn' status = .ok scan := by
  induction fuel generalizing reader state offset lsn with
  | zero => cases h
  | succ fuel ih =>
    unfold scanLoop at h
    split at h
    · rename_i hopen
      obtain ⟨⟨read, reader₁⟩, hnext, h⟩ := bind_eq_ok.mp h
      rw [lift_eq_ok] at hnext
      cases read with
      | tail status =>
        obtain ⟨scan', hfinish, h⟩ := bind_eq_ok.mp h
        cases h
        exact ⟨[], offset, lsn, status, state, .tail hopen hnext, rfl, hfinish⟩
      | complete f =>
        obtain ⟨state₁, haccept, h⟩ := bind_eq_ok.mp h
        obtain ⟨lsn₁, hlsn, h⟩ := bind_eq_ok.mp h
        rw [lift_eq_ok] at hlsn
        obtain ⟨frames, offset', lsn', status, state', htrace, hfold, hfinish⟩ := ih h
        refine ⟨f :: frames, offset', lsn', status, state', .frame hopen hnext hlsn htrace, ?_,
          hfinish⟩
        rw [foldlM_cons, haccept]
        exact hfold
    · rename_i hend
      obtain ⟨scan', hfinish, h⟩ := bind_eq_ok.mp h
      cases h
      exact ⟨[], offset, lsn, .clean, state, .clean (Nat.le_of_not_lt hend), rfl, hfinish⟩

theorem scanLoop_frame {fuel : ℕ} {f : DecodedFrame} (hopen : offset < len)
    (hnext : next reader offset lsn = .ok (.complete f, reader'))
    (haccept : state.accept f = .ok state') (hlsn : successorLsn lsn = .ok lsn') :
    scanLoop next len (fuel + 1) reader state offset lsn =
      scanLoop next len fuel reader' state' (offset + f.frameLen) lsn' := by
  rw [scanLoop, if_pos hopen, hnext]
  show (state.accept f >>= _) = _
  rw [haccept]
  rw [hlsn]
  rfl

theorem scanLoop_complete (fuel : ℕ) (hadvance : ∀ f ∈ frames, 0 < f.frameLen)
    (htrace : Trace next len reader offset lsn frames offset' lsn' status reader')
    (hfold : frames.foldlM ScanState.accept state = .ok state')
    (hfinish : state'.finish offset' lsn' status = .ok scan) (hfuel : len - offset < fuel) :
    scanLoop next len fuel reader state offset lsn = .ok (scan, reader') := by
  induction htrace generalizing state fuel with
  | clean hend =>
    obtain ⟨fuel, rfl⟩ := Nat.exists_eq_add_one.mpr (by omega : 0 < fuel)
    cases hfold
    rw [scanLoop, if_neg (Nat.not_lt.mpr hend), hfinish]
    rfl
  | tail hopen hnext =>
    obtain ⟨fuel, rfl⟩ := Nat.exists_eq_add_one.mpr (by omega : 0 < fuel)
    cases hfold
    rw [scanLoop, if_pos hopen, hnext]
    show (state'.finish _ _ _ >>= _) = _
    rw [hfinish]
    rfl
  | frame hopen hnext hlsn _ ih =>
    obtain ⟨fuel, rfl⟩ := Nat.exists_eq_add_one.mpr (by omega : 0 < fuel)
    rw [foldlM_cons, bind_eq_ok] at hfold
    obtain ⟨state₁, haccept, hfold⟩ := hfold
    rw [forall_mem_cons] at hadvance
    rw [scanLoop_frame hopen hnext haccept hlsn]
    exact ih fuel hadvance.2 hfold hfinish (by omega)

end

/-! ### The log of the frames -/

def Says (frames : List DecodedFrame) (events : List WalEvent) : Prop :=
  List.Forall₂ (fun f e => ofFrame f = some e) frames events

section
variable {state : ScanState} {log : Log}

theorem accept_run (h : Represents state log) (frames : List DecodedFrame) :
    Decides (frames.foldlM ScanState.accept state)
      (∃ events, Says frames events ∧ log.Accepts events)
      fun state' => ∀ events, Says frames events → Represents state' (log.run events) := by
  induction frames generalizing state log with
  | nil =>
    refine .ok ⟨[], .nil, trivial⟩ ?_
    intro events hevents
    cases hevents
    exact h
  | cons f frames ih =>
    apply (accept_decides h f).bind
    · rintro ⟨events, hevents, haccepts⟩
      cases hevents with
      | cons he _ => exact ⟨_, he, haccepts.1⟩
    · rintro state₁ ⟨e, he, hallowed⟩ hfollows
      apply (ih (hfollows e he)).congr
      · constructor
        · rintro ⟨events, hevents, haccepts⟩
          exact ⟨e :: events, .cons he hevents, hallowed, haccepts⟩
        · rintro ⟨events, hevents, haccepts⟩
          cases hevents with
          | cons he' hevents =>
            rw [he, Option.some.injEq] at he'
            subst he'
            exact ⟨_, hevents, haccepts.2⟩
      · intro state₂ hstate₂ events hevents
        cases hevents with
        | cons he' hevents =>
          rw [he, Option.some.injEq] at he'
          subst he'
          exact hstate₂ _ hevents

theorem seed_run (h : Represents state log) (hseals : log.seals = [])
    (seeds : List LoggedPrepare) :
    Decides (seeds.foldlM ScanState.seedPrepare state) (log.Accepts (seeds.map .prepare))
      fun state' => Represents state' (log.run (seeds.map .prepare)) := by
  induction seeds generalizing state log with
  | nil => exact .ok trivial h
  | cons p seeds ih =>
    have hfree : ∀ s ∈ log.seals, s.key ≠ p.descriptor.key := by
      rw [hseals]
      exact nofun
    apply (insertPrepare_decides h capsuleConflicts 0 hfree).bind
    · exact fun haccepts => haccepts.1.1
    · intro state₁ hallowed hstate₁
      apply (ih hstate₁ hseals).congr
      · exact ⟨fun haccepts => ⟨⟨hallowed, hfree⟩, haccepts⟩, And.right⟩
      · exact fun _ => id

end

/-- The log of the seeds and of what the frames of a scan say. -/
def scannedLog (base : RevisionId) (seeds : List LoggedPrepare) (events : List WalEvent) : Log :=
  (Log.empty base).run (seeds.map .prepare ++ events)

def ScanAccepts (base : RevisionId) (seeds : List LoggedPrepare) (events : List WalEvent) : Prop :=
  (Log.empty base).Accepts (seeds.map .prepare ++ events)

section
variable {ρ : Type} {next : ρ → ℕ → UInt64 → Except DurabilityError (FrameRead × ρ)} {len : ℕ}
  {reader reader' : ρ} {base : RevisionId} {firstLsn : UInt64} {seeds : List LoggedPrepare}

/-- What a scan returns: the log of the frames it read, and where it stopped. -/
structure Scans (next : ρ → ℕ → UInt64 → Except DurabilityError (FrameRead × ρ)) (len : ℕ)
    (reader reader' : ρ) (base : RevisionId) (firstLsn : UInt64) (seeds : List LoggedPrepare)
    (frames : List DecodedFrame) (events : List WalEvent) (scan : RecoveryScan) : Prop where
  trace : Trace next len reader 0 firstLsn frames scan.lastGoodOffset scan.nextLsn
    scan.tailStatus reader'
  said : Says frames events
  accepts : ScanAccepts base seeds events
  recovers : Recovers (scannedLog base seeds events) scan

theorem scanFrom_sound (h : scanFrom next len reader base firstLsn seeds = .ok (scan, reader')) :
    ∃ frames events, Scans next len reader reader' base firstLsn seeds frames events scan := by
  obtain ⟨state, hseeds, h⟩ := bind_eq_ok.mp h
  obtain ⟨hseeded, hstate⟩ := (seed_run (.new base) rfl seeds).of_eq_ok hseeds
  obtain ⟨frames, offset, lsn, status, state', htrace, hfold, hfinish⟩ := scanLoop_sound _ h
  obtain ⟨⟨events, hsaid, haccepts⟩, hrun⟩ := (accept_run hstate frames).of_eq_ok hfold
  obtain ⟨scan', hscan', hrecovers, hoffset, hlsn, hstatus⟩ :=
    finish_recovers (hrun events hsaid) offset lsn status
  rw [hscan', Except.ok.injEq] at hfinish
  subst hfinish
  refine ⟨frames, events, ?_, hsaid, Log.accepts_append.mpr ⟨hseeded, haccepts⟩, ?_⟩
  · rwa [hoffset, hlsn, hstatus]
  · rwa [scannedLog, Log.run_append]

theorem scanFrom_of_trace {state : ScanState} (hadvance : ∀ f ∈ frames, 0 < f.frameLen)
    (hseeds : seeds.foldlM ScanState.seedPrepare (ScanState.new base) = .ok state)
    (htrace : Trace next len reader 0 firstLsn frames offset lsn status reader')
    (hfold : frames.foldlM ScanState.accept state = .ok state')
    (hfinish : state'.finish offset lsn status = .ok scan) :
    scanFrom next len reader base firstLsn seeds = .ok (scan, reader') := by
  rw [scanFrom, hseeds]
  exact scanLoop_complete (len + 1) hadvance htrace hfold hfinish (by omega)

theorem scanFrom_complete (hadvance : ∀ f ∈ frames, 0 < f.frameLen)
    (htrace : Trace next len reader 0 firstLsn frames offset lsn status reader')
    (hsaid : Says frames events) (haccepts : ScanAccepts base seeds events) :
    ∃ scan, scanFrom next len reader base firstLsn seeds = .ok (scan, reader') ∧
      Scans next len reader reader' base firstLsn seeds frames events scan ∧
      scan.lastGoodOffset = offset ∧ scan.nextLsn = lsn ∧ scan.tailStatus = status := by
  obtain ⟨hseeded, hevents⟩ := Log.accepts_append.mp haccepts
  obtain ⟨state, hseeds, hstate⟩ := (seed_run (.new base) rfl seeds).exists_ok hseeded
  obtain ⟨state', hfold, hrun⟩ := (accept_run hstate frames).exists_ok ⟨events, hsaid, hevents⟩
  obtain ⟨scan, hfinish, hrecovers, rfl, rfl, rfl⟩ :=
    finish_recovers (hrun events hsaid) offset lsn status
  refine ⟨scan, scanFrom_of_trace hadvance hseeds htrace hfold hfinish,
    ⟨htrace, hsaid, haccepts, ?_⟩, rfl, rfl, rfl⟩
  rwa [scannedLog, Log.run_append]

theorem scanLoop_ne_panic {state : ScanState} {log : Log} (fuel : ℕ)
    (hadvance : ∀ reader offset lsn f reader',
      next reader offset lsn = .ok (.complete f, reader') → 0 < f.frameLen)
    (h : Represents state log) (hfuel : len - offset < fuel) (message : String) :
    scanLoop next len fuel reader state offset lsn ≠ .error (.panic message) := by
  induction fuel generalizing reader state log offset lsn with
  | zero => omega
  | succ fuel ih =>
    have hend : ∀ status reader', (do return (← state.finish offset lsn status, reader') :
        Scanned (RecoveryScan × ρ)) ≠ .error (.panic message) := by
      intro status reader'
      obtain ⟨scan, hfinish, _⟩ := finish_recovers h offset lsn status
      rw [hfinish]
      exact nofun
    intro hpanic
    unfold scanLoop at hpanic
    split at hpanic
    · rcases bind_eq_error.mp hpanic with hnext | ⟨⟨read, reader₁⟩, hnext, hpanic⟩
      · exact lift_ne_panic _ _ hnext
      cases read with
      | tail status => exact hend status reader₁ hpanic
      | complete f =>
        rcases bind_eq_error.mp hpanic with haccept | ⟨state₁, haccept, hpanic⟩
        · exact (accept_decides h f).ne_panic message haccept
        rcases bind_eq_error.mp hpanic with hlsn | ⟨lsn₁, _, hpanic⟩
        · exact lift_ne_panic _ _ hlsn
        obtain ⟨⟨e, he, _⟩, hfollows⟩ := (accept_decides h f).of_eq_ok haccept
        have hlen := hadvance _ _ _ _ _ (lift_eq_ok.mp hnext)
        exact ih (hfollows e he) (by omega) hpanic
    · exact hend .clean reader hpanic

theorem scanFrom_ne_panic
    (hadvance : ∀ reader offset lsn f reader',
      next reader offset lsn = .ok (.complete f, reader') → 0 < f.frameLen)
    (message : String) :
    scanFrom next len reader base firstLsn seeds ≠ .error (.panic message) := by
  intro hpanic
  have hseed := seed_run (.new base) rfl seeds
  rcases bind_eq_error.mp hpanic with hseeds | ⟨state, hseeds, hpanic⟩
  · exact hseed.ne_panic message hseeds
  · exact scanLoop_ne_panic (len + 1) hadvance (hseed.of_eq_ok hseeds).2 (by omega) message hpanic

end

def loggedPrepares (frames : List DecodedFrame) : List LoggedPrepare :=
  frames.filterMap fun f => (ofFrame f).bind prepare?

def loggedSeals (frames : List DecodedFrame) : List IntentSealRecord :=
  frames.filterMap fun f => (ofFrame f).bind seal?

theorem Says.filterMap {γ : Type} (h : Says frames events) (g : WalEvent → Option γ) :
    events.filterMap g = frames.filterMap fun f => (ofFrame f).bind g := by
  induction h with
  | nil => rfl
  | cons he _ ih => rw [filterMap_cons, filterMap_cons, he, ih, Option.bind_some]

theorem filterMap_prepare? (seeds : List LoggedPrepare) :
    (seeds.map prepare).filterMap prepare? = seeds := by
  rw [filterMap_map]
  exact filterMap_some

theorem filterMap_seal? (seeds : List LoggedPrepare) :
    (seeds.map prepare).filterMap seal? = [] := by
  rw [filterMap_map]
  exact filterMap_none seeds

section
variable (h : Says frames events) (base : RevisionId) (seeds : List LoggedPrepare)
include h

theorem prepares_scannedLog :
    (scannedLog base seeds events).prepares = seeds ++ loggedPrepares frames := by
  rw [scannedLog, Log.prepares_run, filterMap_append, filterMap_prepare?, h.filterMap]
  rfl

theorem seals_scannedLog : (scannedLog base seeds events).seals = loggedSeals frames := by
  rw [scannedLog, Log.seals_run, filterMap_append, filterMap_seal?, h.filterMap]
  rfl

end

theorem committed_seeds (base : RevisionId) (seeds : List LoggedPrepare) :
    ((Log.empty base).run (seeds.map .prepare)).committed = [] := by
  apply foldl_inv (I := fun log : Log => log.committed = [])
  · intro log e he hlog
    obtain ⟨p, _, rfl⟩ := mem_map.mp he
    exact hlog
  · rfl

omit [PayloadCodec] in
theorem memoryFrame_advances (bytes : List UInt8) (reader : Unit) (offset : ℕ) (lsn : UInt64)
    (f : DecodedFrame) (reader' : Unit)
    (h : memoryFrame bytes reader offset lsn = .ok (.complete f, reader')) : 0 < f.frameLen := by
  obtain ⟨read, hread, h⟩ := bind_eq_ok.mp h
  cases h
  have hlen := frameLen_of_readFrame hread
  unfold headerLen at hlen
  omega

omit [PayloadCodec] in
theorem Trace.frameLen_pos {bytes : List UInt8} {reader reader' : Unit} {offset' : ℕ}
    {lsn' : UInt64}
    (h : Trace (memoryFrame bytes) bytes.length reader offset lsn frames offset' lsn' status
      reader') : ∀ f ∈ frames, 0 < f.frameLen := by
  induction h with
  | clean | tail => exact nofun
  | frame _ hnext _ _ ih =>
    exact forall_mem_cons.mpr ⟨memoryFrame_advances bytes _ _ _ _ _ hnext, ih⟩

theorem scanWalSeeded_eq_ok {bytes : List UInt8} {base : RevisionId} {firstLsn : UInt64}
    {seeds : List LoggedPrepare} :
    scanWalSeeded bytes base firstLsn seeds = .ok scan ↔ firstLsn ≠ 0 ∧
        scanFrom (memoryFrame bytes) bytes.length () base firstLsn seeds = .ok (scan, ()) := by
  unfold scanWalSeeded
  split
  · rename_i hzero
    simp [hzero]
  rename_i hzero
  rw [bind_eq_ok]
  constructor
  · rintro ⟨⟨scan', _⟩, hscan, heq⟩
    cases heq
    exact ⟨hzero, hscan⟩
  · rintro ⟨_, hscan⟩
    exact ⟨(scan, ()), hscan, rfl⟩

theorem scanWalSeeded_ne_panic (bytes : List UInt8) (base : RevisionId) (firstLsn : UInt64)
    (seeds : List LoggedPrepare) (message : String) :
    scanWalSeeded bytes base firstLsn seeds ≠ .error (.panic message) := by
  unfold scanWalSeeded
  split
  · exact nofun
  intro hpanic
  rcases bind_eq_error.mp hpanic with hscan | ⟨_, _, hpanic⟩
  · exact scanFrom_ne_panic (memoryFrame_advances bytes) message hscan
  · cases hpanic

/-- The frames of a byte string, as far as a scan from this LSN reads them. -/
def FramesOf (bytes : List UInt8) (firstLsn : UInt64) (frames : List DecodedFrame)
    (scan : RecoveryScan) : Prop :=
  Trace (memoryFrame bytes) bytes.length () 0 firstLsn frames scan.lastGoodOffset scan.nextLsn
    scan.tailStatus ()

/-- A scan never panics. What it accepts commits a chain of revisions from the base, each with a
prepare that was seeded or logged before; no key is both sealed and prepared, and the unresolved
prepares are those never committed. -/
theorem recovered_commits_form_chain (bytes : List UInt8) (base : RevisionId) (firstLsn : UInt64)
    (seeds : List LoggedPrepare) :
    (∀ message, scanWalSeeded bytes base firstLsn seeds ≠ .error (.panic message)) ∧
    ∀ scan, scanWalSeeded bytes base firstLsn seeds = .ok scan →
      ∃ frames, FramesOf bytes firstLsn frames scan ∧ Chained base scan.committed ∧
        (scan.committed.map (·.descriptor.targetRevision)).Nodup ∧
        (scan.committed.map (·.descriptor.key)).Nodup ∧
        (∀ c ∈ scan.committed, ∃ before frame after, frames = before ++ frame :: after ∧
          frame.kind = .commitRevision ∧ frame.lsn = c.commitLsn ∧
          decodeCommitPayload frame.revision frame.payload = .ok c.record ∧
          ∃ p ∈ seeds ++ loggedPrepares before, p.commitAt c.commitLsn = c) ∧
        (∀ before frame after, frames = before ++ frame :: after →
          frame.kind = .commitRevision → ∃ p ∈ seeds ++ loggedPrepares before,
            decodeCommitPayload frame.revision frame.payload = .ok p.record) ∧
        (∀ s ∈ loggedSeals frames, ∀ p ∈ seeds ++ loggedPrepares frames, s.key ≠ p.descriptor.key) ∧
        (∀ p, p ∈ scan.unresolvedPrepares ↔ p ∈ seeds ++ loggedPrepares frames ∧
          ∀ c ∈ scan.committed, c.descriptor ≠ p.descriptor) ∧
        scan.unresolvedPrepares.Pairwise fun p q => p.lsn < q.lsn := by
  refine ⟨scanWalSeeded_ne_panic bytes base firstLsn seeds, ?_⟩
  intro scan hscan
  obtain ⟨frames, events, h⟩ := scanFrom_sound (scanWalSeeded_eq_ok.mp hscan).2
  have hwell := (Log.WellFormed.empty base).run h.accepts
  have hprepares := prepares_scannedLog h.said base seeds
  have hseals := seals_scannedLog h.said base seeds
  have hcommitted := h.recovers.committed
  obtain ⟨hseeded, hevents⟩ := Log.accepts_append.mp h.accepts
  have hstart := (Log.WellFormed.empty base).run hseeded
  have hbefore : ∀ {before events'}, Says before events' →
      (((Log.empty base).run (seeds.map .prepare)).run events').prepares =
        seeds ++ loggedPrepares before := by
    intro before events' hsaid
    rw [← Log.run_append]
    exact prepares_scannedLog hsaid base seeds
  refine ⟨frames, h.trace, ?_, ?_, ?_, ?_, ?_, ?_, ?_, h.recovers.unresolved_sorted⟩
  · have hchained := hwell.chained
    rw [Log.base_run] at hchained
    rwa [hcommitted]
  · rw [hcommitted]
    exact hwell.targets
  · rw [hcommitted]
    exact hwell.keys_nodup
  · intro c hc
    rw [hcommitted, scannedLog, Log.run_append] at hc
    rcases hstart.committed_run hevents hc with hc | ⟨before, after, rfl, p, hp, hpc⟩
    · -- seeds alone commit nothing
      rw [committed_seeds] at hc
      cases hc
    obtain ⟨framesBefore, frame, framesAfter, rfl, hsaid, hframe⟩ := forall₂_split h.said
    have hkind := WalEvent.kind_of_commit hframe
    obtain ⟨record, hrecord, hdecode⟩ := WalEvent.ofFrame_of_commit hframe hkind
    rw [WalEvent.commit.injEq] at hrecord
    refine ⟨framesBefore, frame, framesAfter, rfl, hkind, hrecord.1.symm, ?_, p, ?_, hpc⟩
    · rw [hdecode, hrecord.2]
    rwa [← hbefore hsaid]
  · rintro before frame after rfl hkind
    obtain ⟨eventsBefore, e, eventsAfter, rfl, hsaid, hframe⟩ := forall₂_split_left h.said
    obtain ⟨record, rfl, hdecode⟩ := WalEvent.ofFrame_of_commit hframe hkind
    obtain ⟨p, hp, hrecord, _⟩ := (Log.accepts_append.mp hevents).2.1
    refine ⟨p, ?_, by rw [hdecode, hrecord]⟩
    rwa [← hbefore hsaid]
  · rw [← hseals, ← hprepares]
    exact hwell.sealedNotPrepared
  · intro p
    rw [h.recovers.unresolved_iff, hprepares, hcommitted]

end

section
attribute [local instance] emptyRelationCodec

/-- A prepare of 5 → 6 with its commit, and a prepare of 6 → 7. -/
def committedAndPrepared : List WalEntry := [⟨.prepareRevision, 6, emptyStepPayload 5 6 1⟩,
    ⟨.commitRevision, 6, encodeCommitPayload ⟨6, 1, crc32c (emptyStepPayload 5 6 1)⟩⟩,
    ⟨.prepareRevision, 7, emptyStepPayload 6 7 2⟩]

def committedAndPreparedBytes : List UInt8 := (encodeFrames 1 committedAndPrepared).toOption.getD []

set_option maxRecDepth 100000 in
theorem encodeFrames_committedAndPrepared :
    encodeFrames 1 committedAndPrepared = .ok committedAndPreparedBytes := rfl

set_option maxRecDepth 100000 in
theorem scan_committedAndPrepared :
    ∃ scan, scanWalSeeded committedAndPreparedBytes 5 1 [] = .ok scan ∧
      scan.committed.map (·.commitLsn) = [2] ∧ scan.unresolvedPrepares.map (·.lsn) = [3] := by
  have haccepted : (scanWalSeeded committedAndPreparedBytes 5 1 []).toOption.map (fun scan =>
      (scan.committed.map (·.commitLsn), scan.unresolvedPrepares.map (·.lsn))) =
        some ([2], [3]) := by decide +kernel
  rcases hscan : scanWalSeeded committedAndPreparedBytes 5 1 [] with e | scan
  · rw [hscan] at haccepted
    cases haccepted
  · rw [hscan] at haccepted
    have hfields := Prod.mk.injEq .. ▸ Option.some.inj haccepted
    exact ⟨scan, rfl, hfields.1, hfields.2⟩

theorem recovered_commits_form_chain_of_one :
    ∃ scan, scanWalSeeded committedAndPreparedBytes 5 1 [] = .ok scan ∧
      scan.committed.map (·.commitLsn) = [2] ∧ scan.unresolvedPrepares.map (·.lsn) = [3] ∧
      Chained 5 scan.committed := by
  obtain ⟨scan, hscan, hcommitted, hunresolved⟩ := scan_committedAndPrepared
  obtain ⟨_, _, hchained, _⟩ :=
    (recovered_commits_form_chain committedAndPreparedBytes 5 1 []).2 scan hscan
  exact ⟨scan, hscan, hcommitted, hunresolved, hchained⟩

end

end Cfmd.Durability
