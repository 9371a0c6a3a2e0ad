import PacificDb.Wal.Recovery

/-!
# Crashes of the log

When a batch needs a second file, in terms of the sizes of its frames
(`Spans`), and the recovery theorem over runs of the log: appends, crashes in
the middle of a batch, and restarts.
-/

namespace PacificDb.Wal

open Lib

variable {config : WalConfig}

/-! ## The size of a batch -/

def batchSize (batch : Batch config) : Nat := (batch.map fun entry => entry.1.frameSize).sum

/-- No entry is too long, and none is of another namespace than the log or
another entry. -/
def LogicalWalState.Accepts (position : LogicalWalState) (batch : Batch config) : Prop :=
  (∀ entry ∈ batch, FitsFrame entry.1) ∧
    (position.identityHash :: batch.map fun entry => walIdentityHash entry.1.entry).Pairwise
      OneNamespace

/-- Where in its segment a first frame of this size starts. -/
def LogicalWalState.startBytes (config : WalConfig) (position : LogicalWalState) (size : Nat) : Nat :=
  if position.activeSegment = 0 ∨ (kSegmentHeaderBytes < position.activeBytes ∧
    config.segmentMaxBytes < position.activeBytes + size) then kSegmentHeaderBytes
  else position.activeBytes

/-- The log takes the batch, and not all of it fits the segment its first frame
goes to. -/
def LogicalWalState.Spans (position : LogicalWalState) : Batch config → Prop
  | [] => False
  | first :: rest => position.Accepts (first :: rest) ∧ rest ≠ [] ∧
      config.segmentMaxBytes < position.startBytes config first.1.frameSize + batchSize (first :: rest)

variable {cursor next : Cursor} {entry : PendingWalEntry config × Nat} {batch : Batch config}

/-! ## Which batches the log takes -/

theorem pairwise_oneNamespace {log first : Nat} {rest : List Nat} :
    (log :: first :: rest).Pairwise OneNamespace ↔
      OneNamespace first (if log = 0 then first else log) ∧
        ((if log = 0 then first else log) :: rest).Pairwise OneNamespace := by
  simp only [List.pairwise_cons, List.mem_cons, forall_eq_or_imp]
  by_cases none : log = 0
  · rw [if_pos none]
    refine ⟨fun all => ⟨fun _ _ => rfl, all.2⟩, fun all => ⟨⟨?_, ?_⟩, all.2⟩⟩
    · exact fun known => absurd none known
    · exact fun _ _ known => absurd none known
  · rw [if_neg none]
    constructor
    · intro ⟨⟨own, others⟩, firstOthers, rest⟩
      exact ⟨fun known filed => (own filed known).symm, others, rest⟩
    · intro ⟨own, others, rest⟩
      refine ⟨⟨fun filed known => (own known filed).symm, others⟩, ?_, rest⟩
      intro other member known otherKnown
      exact (own known none).trans (others other member none otherKnown)

theorem layOut_ok_iff :
    (∃ next, batch.foldlM placeEntry cursor = .ok next) ↔ cursor.toLogicalWalState.Accepts batch := by
  induction batch generalizing cursor with
  | nil =>
    refine iff_of_true ⟨cursor, rfl⟩ ⟨fun _ member => (nomatch member), ?_⟩
    exact List.pairwise_singleton _ _
  | cons entry rest ih =>
    rw [LogicalWalState.Accepts, List.map_cons, pairwise_oneNamespace, List.forall_mem_cons]
    constructor
    · rintro ⟨next, done⟩
      rw [List.foldlM_cons, bind_eq_ok] at done
      obtain ⟨middle, first, done⟩ := done
      obtain ⟨fits, same, rfl⟩ := placeEntry_ok_iff.mp first
      obtain ⟨fitsRest, sameRest⟩ := ih.mp ⟨next, done⟩
      exact ⟨⟨fits, fitsRest⟩, same, sameRest⟩
    · rintro ⟨⟨fits, fitsRest⟩, same, sameRest⟩
      have first := placeEntry_ok_iff.mpr ⟨fits, same, rfl⟩
      obtain ⟨next, done⟩ := (@ih ((cursor.turn config entry.1.frameSize).put
        (cursor.identityFor entry.1.entry) (frameBytes entry.1 cursor.nextLsn entry.2))).mpr
          ⟨fitsRest, sameRest⟩
      refine ⟨next, ?_⟩
      rw [List.foldlM_cons, first]
      exact done

/-! ## How many files a batch needs -/

/-- The cursor after its first frame: the active segment has the last chunk. -/
structure Underway (cursor : Cursor) : Prop where
  active : cursor.activeSegment ≠ 0
  used : kSegmentHeaderBytes < cursor.activeBytes
  chunk : ∃ init bytes, cursor.chunks = init ++ [(cursor.activeSegment, bytes)]

theorem rollsOver_iff {size : Nat} : cursor.rollsOver config size = true ↔
    cursor.activeSegment = 0 ∨ (kSegmentHeaderBytes < cursor.activeBytes ∧
      config.segmentMaxBytes < cursor.activeBytes + size) := by
  simp [Cursor.rollsOver]

theorem addToChunks_other {init : List (Nat × Bytes)} {name other : Nat} {bytes more : Bytes}
    (ne : other ≠ name) :
    addToChunks (init ++ [(other, bytes)]) name more = init ++ [(other, bytes)] ++ [(name, more)] := by
  simp [addToChunks, ne]

/-- One more frame stays in the segment or opens the next one. -/
theorem Underway.step (underway : Underway cursor) (done : placeEntry cursor entry = .ok next) :
    Underway next ∧
      ((next.chunks.length = cursor.chunks.length ∧
          next.activeBytes = cursor.activeBytes + entry.1.frameSize ∧
          cursor.activeBytes + entry.1.frameSize ≤ config.segmentMaxBytes) ∨
        (cursor.chunks.length < next.chunks.length ∧
          config.segmentMaxBytes < cursor.activeBytes + entry.1.frameSize)) := by
  obtain ⟨-, -, rfl⟩ := placeEntry_ok_iff.mp done
  obtain ⟨active, used, init, bytes, chunks⟩ := underway
  have size : (frameBytes entry.1 cursor.nextLsn entry.2).length = entry.1.frameSize :=
    length_frameBytes
  have positive : 0 < entry.1.frameSize := by
    rw [PendingWalEntry.frameSize]
    omega
  rw [Cursor.turn]
  split
  next rolls =>
    rw [rollsOver_iff] at rolls
    have full : config.segmentMaxBytes < cursor.activeBytes + entry.1.frameSize :=
      (rolls.resolve_left active).2
    rw [Cursor.put]
    dsimp only
    rw [if_pos rfl, if_pos rfl, chunks, addToChunks_other (Nat.ne_of_lt (Nat.lt_succ_self _)), size]
    refine ⟨⟨Nat.succ_ne_zero _, ?_, _, _, rfl⟩, .inr ⟨?_, full⟩⟩
    · dsimp only
      omega
    · simp only [List.length_append, List.length_singleton]
      omega
  next stays =>
    rw [rollsOver_iff] at stays
    have started : cursor.activeBytes ≠ 0 := by omega
    rw [Cursor.put, if_neg started, if_neg started, chunks, addToChunks_concat, size]
    refine ⟨⟨active, ?_, _, _, rfl⟩, .inl ⟨?_, rfl, by omega⟩⟩
    · dsimp only
      omega
    · rw [List.length_append, List.length_append, List.length_singleton, List.length_singleton]

/-- The frames after the first one need no new file exactly if they all fit. -/
theorem Underway.chunks_eq_iff (underway : Underway cursor)
    (done : batch.foldlM placeEntry cursor = .ok next) :
    cursor.chunks.length ≤ next.chunks.length ∧
      (next.chunks.length = cursor.chunks.length ↔
        batch = [] ∨ cursor.activeBytes + batchSize batch ≤ config.segmentMaxBytes) := by
  induction batch generalizing cursor with
  | nil =>
    cases done
    exact ⟨le_rfl, iff_of_true rfl (.inl rfl)⟩
  | cons entry rest ih =>
    rw [List.foldlM_cons, bind_eq_ok] at done
    obtain ⟨middle, first, done⟩ := done
    obtain ⟨underway, step⟩ := underway.step first
    obtain ⟨grows, same⟩ := ih underway done
    have sizes : batchSize (entry :: rest) = entry.1.frameSize + batchSize rest := by
      rw [batchSize, List.map_cons, List.sum_cons]
      rfl
    have some : entry :: rest ≠ [] := List.cons_ne_nil _ _
    rw [sizes, or_iff_right some]
    obtain ⟨count, bytes, fits⟩ | ⟨more, full⟩ := step
    · refine ⟨count ▸ grows, ?_⟩
      rw [← count, same, bytes, Nat.add_assoc]
      refine ⟨fun either => either.elim (fun none => ?_) id, .inr⟩
      rw [none]
      exact fits
    · exact ⟨by omega, iff_of_false (by omega) (by omega)⟩

variable {segments : List (Segment config)} {position : LogicalWalState}

theorem Ready.header_le (ready : Ready segments position) (active : position.activeSegment ≠ 0) :
    kSegmentHeaderBytes ≤ position.activeBytes := by
  rcases List.eq_nil_or_concat' segments with rfl | ⟨init, last, rfl⟩
  · exact absurd (ready.none rfl) active
  · rw [(ready.active init last rfl).2.1, last.length_bytes]
    exact Nat.le_add_right _ _

/-- The first frame of a batch. -/
theorem Ready.first (ready : Ready segments position)
    (done : placeEntry ({ position with } : Cursor) entry = .ok next) :
    Underway next ∧ next.chunks.length = 1 ∧
      next.activeBytes = position.startBytes config entry.1.frameSize + entry.1.frameSize := by
  obtain ⟨-, -, rfl⟩ := placeEntry_ok_iff.mp done
  have size : (frameBytes entry.1 position.nextLsn entry.2).length = entry.1.frameSize :=
    length_frameBytes
  have positive : 0 < entry.1.frameSize := by
    rw [PendingWalEntry.frameSize]
    omega
  rw [Cursor.turn, LogicalWalState.startBytes]
  split
  next rolls =>
    rw [if_pos (rollsOver_iff.mp rolls), Cursor.put]
    dsimp only
    rw [if_pos rfl, if_pos rfl, size]
    refine ⟨⟨Nat.succ_ne_zero _, ?_, [], _, rfl⟩, rfl, rfl⟩
    dsimp only
    omega
  next stays =>
    rw [rollsOver_iff] at stays
    have active : position.activeSegment ≠ 0 := fun none => stays (.inl none)
    have header := ready.header_le active
    have started : position.activeBytes ≠ 0 := by
      rw [kSegmentHeaderBytes] at header
      omega
    rw [if_neg stays, Cursor.put]
    dsimp only
    rw [if_neg started, if_neg started, size]
    refine ⟨⟨active, ?_, [], _, rfl⟩, rfl, rfl⟩
    dsimp only
    omega

/-- A batch goes to more than one file exactly if it spans segments. -/
theorem Ready.chunks_le_one_iff {wal : LogicalWal} (ready : Ready segments wal.state)
    (batch : Batch config) : (wal.chunks batch).length ≤ 1 ↔ ¬wal.state.Spans batch := by
  cases batch with
  | nil => exact iff_of_true (Nat.zero_le 1) not_false
  | cons entry rest =>
    rw [LogicalWal.chunks, LogicalWalState.Spans]
    cases done : layOut wal.state (entry :: rest) with
    | error reason =>
      refine iff_of_true (Nat.zero_le 1) fun spans => ?_
      have start : ({ wal.state with } : Cursor).toLogicalWalState.Accepts (entry :: rest) :=
        spans.1
      obtain ⟨next, laid⟩ := layOut_ok_iff.mpr start
      rw [layOut, laid] at done
      cases done
    | ok cursor =>
      have accepts : wal.state.Accepts (entry :: rest) := layOut_ok_iff.mp ⟨cursor, done⟩
      rw [layOut, List.foldlM_cons, bind_eq_ok] at done
      obtain ⟨middle, first, done⟩ := done
      obtain ⟨underway, one, bytes⟩ := ready.first first
      obtain ⟨grows, same⟩ := underway.chunks_eq_iff done
      have sizes : batchSize (entry :: rest) = entry.1.frameSize + batchSize rest := by
        rw [batchSize, List.map_cons, List.sum_cons]
        rfl
      have single : cursor.chunks.length ≤ 1 ↔ cursor.chunks.length = middle.chunks.length := by
        omega
      dsimp only
      rw [single, same, bytes, sizes, Nat.add_assoc, ← Nat.not_lt, not_and, not_and_or,
        not_ne_iff]
      exact ⟨fun either _ => either, fun either => either accepts⟩

/-! ## LSNs -/

theorem consecutive_allRecords {state : ScanState} (follow : SegmentsFollow state segments) :
    Consecutive state.lastLsn (allRecords segments) := by
  induction segments generalizing state with
  | nil => trivial
  | cons segment rest ih =>
    obtain ⟨follows, follow⟩ := follow
    rw [allRecords, List.flatMap_cons, Consecutive.append]
    exact ⟨follows.consecutive, ih follow⟩

theorem Consecutive.sorted {lastLsn : Nat} {records : List (Placed config)}
    (consecutive : Consecutive lastLsn records) :
    ((records.map Placed.record).map WalReplayRecord.lsn).Pairwise (· < ·) ∧
      ∀ placed ∈ records, lastLsn < placed.lsn := by
  induction records generalizing lastLsn with
  | nil => exact ⟨.nil, fun _ member => nomatch member⟩
  | cons placed rest ih =>
    obtain ⟨next, consecutive⟩ := consecutive
    obtain ⟨sorted, above⟩ := ih consecutive
    refine ⟨?_, ?_⟩
    · refine List.pairwise_cons.mpr ⟨?_, sorted⟩
      intro lsn member
      rw [List.map_map] at member
      obtain ⟨other, isOther, rfl⟩ := List.mem_map.mp member
      have after := above other isOther
      rw [← next] at after
      exact after
    · intro other member
      rcases List.mem_cons.mp member with rfl | member
      · omega
      · exact (Nat.lt_succ_self _).trans (above other member)

/-! ## Runs -/

/-- Opening a log after a restart. What it finds on disk is durable. -/
def openLogicalWal (config : WalConfig) (files : List SegmentFile) : Except String LogicalWal :=
  match initializeLogicalWal config files with
  | .error reason => .error reason
  | .ok (files, state, records) =>
      .ok { disk := files.map fun file => WalFile.sync { file with }
            state
            acknowledged := records }

inductive WalEvent (config : WalConfig) where
  | append (batch : Batch config)
  | crash (batch : Batch config) (stage : Stage) (kept : Nat → Nat)

/-- A batch is acknowledged, or the process dies in the middle of one and the
log is opened again. -/
def walStep (wal : LogicalWal) : WalEvent config → Option LogicalWal
  | .append batch => some (wal.append batch)
  | .crash batch stage kept =>
      (openLogicalWal config
        (afterCrash (inFlight wal.disk (wal.chunks batch) stage) kept)).toOption

/-- The LSNs do not run out, and no crash hits a batch that spans segments. -/
def OneFile (wal : LogicalWal) : WalEvent config → Prop
  | .append batch => wal.state.nextLsn + batch.length < 2 ^ 64
  | .crash batch _ _ => wal.state.nextLsn + batch.length < 2 ^ 64 ∧ ¬wal.state.Spans batch

/-- Every log so reached holds whole, synced segments. -/
theorem intact_of_reach {wal : LogicalWal} (reached : Reach (@walStep config) OneFile {} wal) :
    ∃ segments : List (Segment config), Intact wal segments := by
  refine @Reach.invariant _ _ _ _ _ _ (fun wal => ∃ segments : List (Segment config), Intact wal segments)
    reached ⟨[], intact_start⟩ ?_
  rintro wal after event ⟨segments, intact⟩ allowed taken
  cases event with
  | append batch =>
    obtain rfl := Option.some.inj taken
    exact intact.append allowed
  | crash batch stage kept =>
    obtain ⟨room, inside⟩ := allowed
    obtain ⟨left, n, opens, -⟩ := intact.crash room
      ((intact.ready.chunks_le_one_iff batch).mpr inside) stage kept
    have opened := opens.opened
    rw [walStep, openLogicalWal, opened] at taken
    obtain rfl := Option.some.inj taken
    refine ⟨left, ?_, ready_adoptScan opens.follow, rfl⟩
    rw [List.map_map]
    rfl

/-- **Crash recovery.** A log recovers from every crash during a batch exactly
if the batch goes to one segment file. -/
theorem wal_recovers_iff {wal : LogicalWal} (reached : Reach (@walStep config) OneFile {} wal)
    (batch : Batch config) (room : wal.state.nextLsn + batch.length < 2 ^ 64) :
    wal.Recovers batch ↔ ¬wal.state.Spans batch := by
  obtain ⟨segments, intact⟩ := intact_of_reach reached
  rw [← intact.ready.chunks_le_one_iff batch]
  constructor
  · exact intact.single_of_recovers room
  · intro single stage kept
    obtain ⟨left, n, opens, shown⟩ := intact.crash room single stage kept
    refine ⟨_, _, n, shown ▸ opens.opened, ?_⟩
    rw [← shown]
    exact (consecutive_allRecords opens.follow).sorted.1

/-- The smallest segments the settings allow, and MessagePack on the empty object. -/
def smallSegments : WalConfig where
  toMsgpack _ := [0x80]
  fromMsgpack bytes := if bytes = [0x80] then some (.object []) else none
  dump _ := []
  parse _ := none
  crc32 _ := 0
  crcEnabled := false
  segmentMaxBytes := 32 + 1024

def emptyEntry : PendingWalEntry smallSegments where
  op := .insert
  entry := .object []
  notMarker := insert_notMarker
  isObject := noMembers_isObject
  encodes := List.cons_ne_nil _ _
  decodes := rfl

/-- After one acknowledged record, a batch of two recovers from every crash. -/
theorem wal_recovers_iff_twoRecords :
    (({} : LogicalWal).append [(emptyEntry, 7)]).Recovers [(emptyEntry, 8), (emptyEntry, 9)] := by
  have reached : Reach (@walStep smallSegments) OneFile {} (({} : LogicalWal).append [(emptyEntry, 7)]) :=
    .tail (e := .append [(emptyEntry, 7)]) .refl (by decide : 1 + 1 < 2 ^ 64) rfl
  refine (wal_recovers_iff reached [(emptyEntry, 8), (emptyEntry, 9)] (by decide)).mpr ?_
  rintro ⟨-, -, large⟩
  exact absurd large (by decide)

/-- Thirty-three records need two segments. A crash after both files were
written and before either was synced can leave both empty: the first one is then
torn and not the last, and the log cannot be opened. -/
theorem wal_unreadable_after_crash :
    ¬({} : LogicalWal).Recovers (List.replicate 33 (emptyEntry, 0)) := by
  intro recovers
  obtain ⟨files, state, n, opened, -⟩ := recovers ⟨2, none, 0⟩ fun _ => 0
  have fails : (initializeLogicalWal smallSegments (afterCrash (inFlight [] (LogicalWal.chunks {}
      (List.replicate 33 (emptyEntry, 0))) ⟨2, none, 0⟩) fun _ => 0)).toOption.isNone = true := by
    decide +kernel
  rw [opened] at fails
  cases fails

end PacificDb.Wal
