import PacificDb.Wal.Surviving

/-!
# What a log holds

What a log holds at any time of its life (`Standing`): the legacy file or nothing,
and whole segments from an origin on. A scan shows the records of both, and the next
append goes on from the last of them.
-/

namespace PacificDb.Wal

open Lib

variable {config : WalConfig} {truncate : Nat → Int} {start : ScanState}
  {segments : List (Segment config)} {origin : Nat} {file? : Option ScannedWalFile}

/-! ## The files a scan notes -/

/-- What the scan notes of the segment files after `lastLsn`. -/
def scannedAll : Nat → List (Segment config) → List ScannedWalFile
  | _, [] => []
  | lastLsn, segment :: rest =>
      segment.scanned lastLsn :: scannedAll (lastLsn + segment.records.length) rest

theorem files_afterAll (state : ScanState) (segments : List (Segment config)) :
    (state.afterAll segments).files = state.files ++ scannedAll state.lastLsn segments := by
  induction segments generalizing state with
  | nil => exact (List.append_nil _).symm
  | cons segment rest ih =>
    have noted : (state.after segment).files = state.files ++ [segment.scanned state.lastLsn] := rfl
    have reached : (state.after segment).lastLsn = state.lastLsn + segment.records.length := rfl
    rw [ScanState.afterAll, List.foldl_cons, ← ScanState.afterAll, ih, noted, reached,
      List.append_assoc]
    rfl

theorem scannedAll_append (lastLsn : Nat) (first second : List (Segment config)) :
    scannedAll lastLsn (first ++ second) =
      scannedAll lastLsn first ++ scannedAll (lastLsn + (allRecords first).length) second := by
  induction first generalizing lastLsn with
  | nil => rfl
  | cons segment rest ih =>
    have total : (allRecords (segment :: rest)).length =
        segment.records.length + (allRecords rest).length := by
      rw [allRecords, List.flatMap_cons, List.length_append, ← allRecords]
    rw [List.cons_append, scannedAll, scannedAll, ih, total, List.cons_append, Nat.add_assoc]

theorem mem_scannedAll {lastLsn : Nat} {file : ScannedWalFile}
    (member : file ∈ scannedAll lastLsn segments) :
    ∃ segment ∈ segments, file.segmentId = segment.id ∧ (file.endLsn = 0 ∨ lastLsn < file.endLsn) := by
  induction segments generalizing lastLsn with
  | nil => cases member
  | cons segment rest ih =>
    rcases List.mem_cons.mp member with rfl | later
    · refine ⟨segment, .head _, rfl, ?_⟩
      have ends : (segment.scanned lastLsn).endLsn =
          if segment.records = [] then 0 else lastLsn + segment.records.length := rfl
      rw [ends]
      split
      · exact .inl rfl
      next some =>
        have positive := List.length_pos_iff.mpr some
        exact .inr (by omega)
    · obtain ⟨other, inside, id, ends⟩ := ih later
      exact ⟨other, .tail _ inside, id, ends.imp_right (by omega)⟩

/-! ## Opening -/

/-- The legacy file as it was found, or none. -/
inductive LegacyRead (config : WalConfig) (truncate : Nat → Int) :
    Option Bytes → Option ScannedWalFile → ScanState → Prop
  | none : LegacyRead config truncate none none {}
  | some {bytes : Bytes} {state : ScanState} {file : ScannedWalFile}
      (reads : scanLegacyFile config truncate true bytes = .ok (state, file)) :
      LegacyRead config truncate (some bytes) (some file) state

theorem LegacyRead.shown {legacy : Option Bytes} (read : LegacyRead config truncate legacy file? start) :
    ∃ file, LegacyShown start file ∧ ∀ found ∈ file?, found = file := by
  cases read with
  | none => exact ⟨_, .start, fun _ member => nomatch member⟩
  | some reads =>
    exact ⟨_, (scanLegacyFile_ok reads).1, fun _ member => (Option.some.inj member).symm⟩

/-- What the process kept of the position is not past these segments. -/
structure Behind (segments : List (Segment config)) (position : LogicalWalState) : Prop where
  none : segments = [] → position.activeSegment = 0
  active : ∀ init last, segments = init ++ [last] → position.activeSegment ≤ last.id
  identity_lt : position.identityHash < 2 ^ 64

theorem AtEnd.behind {lastLsn : Nat} {position : LogicalWalState}
    (atEnd : AtEnd segments lastLsn position) : Behind segments position where
  none := atEnd.none
  active init last split := (atEnd.active init last split).1.le
  identity_lt := atEnd.identity_lt

/-- A log with these whole segments after an origin. -/
structure Standing (truncate : Nat → Int) (log : LogicalLog) (segments : List (Segment config))
    (file? : Option ScannedWalFile) (start : ScanState) (origin : Nat) : Prop where
  legacy : LegacyRead config truncate log.legacy file? start
  holds : Holds log.disk segments
  low : start.lastLsn ≤ origin
  none : segments = [] → start.lastLsn = origin
  whole : Whole (start.from origin) segments
  behind : Behind segments log.state
  ready : log.initialized = true →
    AtEnd segments (lastLsnOf (start.from origin) segments) log.state

variable {log : LogicalLog}

/-- The scan of a standing log. -/
theorem Standing.scan (standing : Standing truncate log segments file? start origin) :
    log.scan config truncate = .ok ⟨file?, (start.from origin).afterAll segments⟩ := by
  have files : log.files = segments.map Segment.file := standing.holds
  have sorted : sortedSegmentFiles log.files = segments.map Segment.file := by
    rw [files]
    exact sortedSegmentFiles_eq (List.pairwise_map.mpr standing.whole.follow.pairwise.1)
  have segmentsScan := scanFiles_jump standing.low standing.none standing.whole.follow
  have legacy := standing.legacy
  unfold LogicalLog.scan scanLogicalWal
  rw [sorted]
  generalize log.legacy = found at legacy
  cases legacy with
  | none =>
    dsimp only
    rw [segmentsScan]
  | some reads =>
    dsimp only
    rw [(scanLegacyFile_ok reads).2]
    dsimp only
    rw [segmentsScan]

theorem foldl_adopt (files : List ScannedWalFile) (position : LogicalWalState) {bound : Nat}
    (low : position.activeSegment ≤ bound) (below : ∀ file ∈ files, file.segmentId ≤ bound) :
    (files.foldl LogicalWalState.adopt position).activeSegment ≤ bound ∧
      (files.foldl LogicalWalState.adopt position).nextLsn = position.nextLsn := by
  induction files generalizing position with
  | nil => exact ⟨low, rfl⟩
  | cons file files ih =>
    obtain ⟨first, below⟩ := List.forall_mem_cons.mp below
    have kept : (position.adopt file).nextLsn = position.nextLsn := by
      rw [LogicalWalState.adopt]
      split <;> rfl
    have next : (position.adopt file).activeSegment ≤ bound := by
      rw [LogicalWalState.adopt]
      split
      · exact first
      · exact low
    rw [List.foldl_cons, ← kept]
    exact ih (position.adopt file) next below

/-- The position after a scan is at the end of the segments. -/
theorem Whole.adoptAll {position : LogicalWalState} (whole : Whole start segments)
    (none : start.files = []) (behind : Behind segments position) :
    AtEnd segments (lastLsnOf start segments)
      (position.adoptAll ⟨file?, start.afterAll segments⟩) := by
  have files : (start.afterAll segments).files = scannedAll start.lastLsn segments := by
    rw [files_afterAll, none, List.nil_append]
  have last : (start.afterAll segments).lastLsn = lastLsnOf start segments :=
    ScanState.lastLsn_afterAll segments
  rw [LogicalWalState.adoptAll, files, last]
  rcases List.eq_nil_or_concat' segments with rfl | ⟨init, final, rfl⟩
  · exact ⟨rfl, fun _ => behind.none rfl, fun init last split => by simp at split,
      behind.identity_lt⟩
  · have noted : scannedAll start.lastLsn (init ++ [final]) = scannedAll start.lastLsn init ++
        [final.scanned (start.lastLsn + (allRecords init).length)] := scannedAll_append _ _ _
    have below : ∀ file ∈ scannedAll start.lastLsn init, file.segmentId ≤ final.id := by
      intro file member
      obtain ⟨segment, inside, id, -⟩ := mem_scannedAll member
      rw [id]
      exact (whole.last_gt segment inside).le
    obtain ⟨low, number⟩ := foldl_adopt (scannedAll start.lastLsn init)
      { position with nextLsn := (lastLsnOf start (init ++ [final]) + 1) % 2 ^ 64 }
      (behind.active init final rfl) below
    have follows := (SegmentsFollow.concat.mp whole.follow).2
    have newest (lastLsn : Nat) : (final.scanned lastLsn).segmentId = final.id := rfl
    rw [noted, List.foldl_append, List.foldl_cons, List.foldl_nil, LogicalWalState.adopt,
      if_pos (newest _ ▸ low)]
    constructor
    case nextLsn => exact number
    case none => exact fun empty => absurd empty (by simp)
    case active =>
      intro others last split
      obtain rfl : final = last := List.singleton_inj.mp (List.append_inj' split rfl).2
      exact ⟨rfl, final.validBytes_scanned (start.lastLsn + (allRecords init).length),
        fun _ => rfl⟩
    case identity_lt => exact follows.identity_lt

/-- Opening a standing log. -/
theorem Standing.initialize (standing : Standing truncate log segments file? start origin) :
    ∃ state, log.initialize config truncate = .ok { log with state, initialized := true } ∧
      AtEnd segments (lastLsnOf (start.from origin) segments) state := by
  rw [ LogicalLog.initialize]
  by_cases opened : log.initialized = true
  · refine ⟨log.state, ?_, standing.ready opened⟩
    rw [if_pos opened, ← opened]
  · obtain ⟨file, shown, -⟩ := standing.legacy.shown
    have atEnd := @Whole.adoptAll config _ _ file? _ standing.whole shown.files standing.behind
    refine ⟨_, ?_, atEnd⟩
    rw [if_neg opened, standing.scan]
    dsimp only
    rw [LogicalLog.adopt, standing.scan]

theorem Standing.nextLsn (standing : Standing truncate log segments file? start origin) :
    log.nextLsn config truncate = (lastLsnOf (start.from origin) segments + 1) % 2 ^ 64 := by
  obtain ⟨state, opened, atEnd⟩ := standing.initialize
  rw [LogicalLog.nextLsn, opened]
  exact atEnd.nextLsn

/-! ## Appending -/

/-- The records a scan shows. -/
def shownRecords (start : ScanState) (segments : List (Segment config)) : List WalReplayRecord :=
  start.records ++ (allRecords segments).map Placed.record

theorem Holds.syncChunks {disk : List WalFile} (holds : Holds disk segments)
    (chunks : List (Nat × Bytes)) : Holds (syncChunks disk chunks) segments := by
  rw [Holds, ← holds, syncChunks_eq, List.map_map]
  refine List.map_congr_left fun file _ => ?_
  rw [Function.comp_apply]
  split <;> rfl

/-- A batch that is acknowledged adds its records, and one that is not adds none. -/
theorem Standing.append (standing : Standing truncate log segments file? start origin)
    {batch : Batch config}
    (room : batch ≠ [] → lastLsnOf (start.from origin) segments + batch.length < 2 ^ 64) :
    ∃ after : List (Segment config),
      Standing truncate (log.append config truncate batch).2 after file? start origin ∧
      shownRecords start after = shownRecords start segments ++
        if (log.append config truncate batch).1 then
          batchRecords (lastLsnOf (start.from origin) segments + 1) batch else [] := by
  cases batch with
  | nil => exact ⟨segments, standing, (List.append_nil _).symm⟩
  | cons entry rest =>
    have fits := room (List.cons_ne_nil _ _)
    obtain ⟨state, opened, atEnd⟩ := standing.initialize
    have same : Standing truncate { log with state, initialized := true } segments file? start
        origin := { standing with behind := atEnd.behind, ready := fun _ => atEnd }
    cases done : layOut state (entry :: rest) with
    | error reason =>
      have refused : log.append config truncate (entry :: rest) =
          (false, { log with state, initialized := true }) := by
        rw [LogicalLog.append, List.isEmpty_cons, if_neg Bool.false_ne_true, opened]
        dsimp only
        rw [done]
      rw [refused]
      exact ⟨segments, same, (List.append_nil _).symm⟩
    | ok cursor =>
      have taken : log.append config truncate (entry :: rest) = (true, { log with
          disk := Wal.syncChunks (writeChunks log.disk cursor.chunks) cursor.chunks
          state := cursor.toLogicalWalState
          initialized := true }) := by
        rw [LogicalLog.append, List.isEmpty_cons, if_neg Bool.false_ne_true, opened]
        dsimp only
        rw [done]
      have laid : (entry :: rest).foldlM placeEntry { state with } = .ok cursor := done
      obtain ⟨added, after, isBatch, records, whole, ends, writes⟩ :=
        @Whole.layOut config _ _ _ _ _ standing.whole atEnd fits laid
      have number : lastLsnOf (start.from origin) segments + 1 = state.nextLsn := by
        rw [atEnd.nextLsn]
        refine (Nat.mod_eq_of_lt ?_).symm
        rw [List.length_cons] at fits
        omega
      rw [taken]
      refine ⟨after, ?_, ?_⟩
      · constructor
        case legacy => exact standing.legacy
        case holds => exact (writes log.disk standing.holds).syncChunks cursor.chunks
        case low => exact standing.low
        case none =>
          intro empty
          have none : allRecords segments ++ added = [] := by
            rw [← records, empty]
            rfl
          have count := congrArg List.length isBatch
          rw [(List.append_eq_nil_iff.mp none).2, batchRecords, List.length_mapIdx] at count
          cases count
        case whole => exact whole
        case behind => exact ends.behind
        case ready => exact fun _ => ends
      · rw [shownRecords, shownRecords, records, List.map_append, isBatch, if_pos rfl,
          List.append_assoc]

end PacificDb.Wal
