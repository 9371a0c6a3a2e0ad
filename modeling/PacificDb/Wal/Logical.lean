import PacificDb.Lib.Machine
import PacificDb.Wal.Append
import PacificDb.Wal.Legacy

/-!
# The log over its lifetime

A log with its legacy file, under appends, reclaims and restarts. `reclaimThrough`
removes the files that a checkpoint covers, but never the newest segment: the next
LSN is found again by scanning what is left. For a log that is only a legacy file it
leaves a segment with a header and no records as the anchor of the LSNs.

A JSON value stands for what the library reads back of it, as in `PendingWalEntry`:
the members of an object in the library's order, and a number that is not negative
as an unsigned one.
-/

namespace PacificDb.Wal

open Lib

variable (config : WalConfig) (truncate : Nat → Int)

/-! ## Scanning the legacy file and the segments -/

/-- What a scan found: the legacy file, if there is one, and the segment files. -/
structure LogicalScan where
  legacy : Option ScannedWalFile
  segments : ScanState

/-- A failed scan, and whether it failed in the legacy file. -/
structure LogicalFailure where
  inLegacy : Bool
  failure : ScanFailure

/-- `scanWalFiles`. -/
def scanLogicalWal (legacy : Option Bytes) (files : List SegmentFile) :
    Except LogicalFailure LogicalScan :=
  let scanSegments (file : Option ScannedWalFile) (state : ScanState) :=
    match scanFiles config state (sortedSegmentFiles files) with
    | .error failure => .error ⟨false, failure⟩
    | .ok state => .ok ⟨file, state⟩
  match legacy with
  | none => scanSegments none {}
  | some bytes =>
      match scanLegacyFile config truncate files.isEmpty bytes with
      | .error failure => .error ⟨true, failure⟩
      | .ok (state, file) => scanSegments (some file) state

/-! ## The state of a log -/

/-- The files of a log, and what the process keeps of it. -/
structure LogicalLog where
  legacy : Option Bytes := none
  disk : List WalFile := []
  state : LogicalWalState := {}
  initialized : Bool := false

def LogicalLog.files (log : LogicalLog) : List SegmentFile := log.disk.map WalFile.toSegmentFile

def LogicalLog.scan (log : LogicalLog) : Except LogicalFailure LogicalScan :=
  scanLogicalWal config truncate log.legacy log.files

/-- The file that ends in a partial record is removed or resized, and synced. -/
def LogicalLog.truncateTail (log : LogicalLog) (inLegacy : Bool) (tail : ScannedWalFile) :
    LogicalLog :=
  if inLegacy then
    { log with legacy := if tail.validBytes = 0 then none
                         else log.legacy.map fun bytes => bytes.take tail.validBytes }
  else if tail.validBytes = 0 then
    { log with disk := log.disk.filter fun file => file.name != tail.path }
  else
    { log with disk := log.disk.map fun file =>
        if file.name = tail.path then
          WalFile.sync { file with bytes := file.bytes.take tail.validBytes }
        else file }

/-- The append position after a scan, over what the process had before. -/
def LogicalWalState.adoptAll (position : LogicalWalState) (scan : LogicalScan) : LogicalWalState :=
  scan.segments.files.foldl LogicalWalState.adopt
    { position with nextLsn := (scan.segments.lastLsn + 1) % 2 ^ 64 }

/-- The last scan of `initializeLogicalWal`. -/
def LogicalLog.adopt (log : LogicalLog) : Except String LogicalLog :=
  match log.scan config truncate with
  | .error failed =>
      .error ("cannot append after invalid WAL scan: " ++ failed.failure.error)
  | .ok scan => .ok { log with state := log.state.adoptAll scan, initialized := true }

/-- `initializeLogicalWal`. -/
def LogicalLog.initialize (log : LogicalLog) : Except String LogicalLog :=
  if log.initialized then .ok log
  else
    match log.scan config truncate with
    | .error ⟨inLegacy, .partialTail, error, state⟩ =>
        match state.files.getLast? with
        | some tail => (log.truncateTail inLegacy tail).adopt config truncate
        | none => .error ("cannot append after invalid WAL scan: " ++ error)
    | _ => log.adopt config truncate

/-- `appendEntries` when every write and sync works: whether the entries are
acknowledged, and the log after. -/
def LogicalLog.append (log : LogicalLog) (batch : Batch config) : Bool × LogicalLog :=
  if batch.isEmpty then (true, log)
  else
    match log.initialize config truncate with
    | .error _ => (false, log)
    | .ok log =>
        match layOut log.state batch with
        | .error _ => (false, log)
        | .ok cursor => (true, { log with
            disk := syncChunks (writeChunks log.disk cursor.chunks) cursor.chunks
            state := cursor.toLogicalWalState })

/-! ## Reclaiming -/

/-- Sealed, not empty, and covered by the checkpoint. -/
def ScannedWalFile.coveredSealed (highestSegment coveredLsn : Nat) (file : ScannedWalFile) : Bool :=
  decide (file.segmentId < highestSegment) && file.endLsn != 0 && decide (file.endLsn ≤ coveredLsn)

/-- A legacy file with records, all of them covered. -/
def ScannedWalFile.coveredLegacy (coveredLsn : Nat) (file : ScannedWalFile) : Bool :=
  file.endLsn != 0 && decide (file.endLsn ≤ coveredLsn)

def highestSegment (scan : ScanState) : Nat :=
  scan.files.foldl (fun highest file => max highest file.segmentId) 0

/-- The anchor that takes the place of the legacy file. -/
def anchorSegment (coveredLsn : Nat) (file : ScannedWalFile) : Bytes :=
  segmentHeader 1 (coveredLsn + 1) file.identityHash

/-- The covered files are removed, and the position is taken anew at the next append. -/
def LogicalLog.remove (log : LogicalLog) (scan : LogicalScan) (coveredLsn : Nat) : LogicalLog :=
  let covered := scan.segments.files.filter
    (ScannedWalFile.coveredSealed (highestSegment scan.segments) coveredLsn)
  { log with
    legacy := if scan.legacy.any (ScannedWalFile.coveredLegacy coveredLsn) then none else log.legacy
    disk := log.disk.filter fun file => !(covered.map ScannedWalFile.path).contains file.name
    initialized := false }

/-- `reclaimThrough` when writing, syncing and removing work. -/
def LogicalLog.reclaimThrough (log : LogicalLog) (coveredLsn : UInt64) : Bool × LogicalLog :=
  match log.scan config truncate with
  | .error _ => (false, log)
  | .ok scan =>
      match scan.legacy.filter (ScannedWalFile.coveredLegacy coveredLsn.toNat) with
      | some file =>
          if highestSegment scan.segments = 0 then
            -- "checkpoint WAL LSN cannot advance beyond uint64 max"
            if coveredLsn.toNat = 2 ^ 64 - 1 then (false, log)
            else
              let anchored := appendWalBytes log.disk 1 (anchorSegment coveredLsn.toNat file)
              (true, { log with disk := syncWalFile anchored 1 }.remove scan coveredLsn.toNat)
          else (true, log.remove scan coveredLsn.toNat)
      | none => (true, log.remove scan coveredLsn.toNat)

/-- The process ends, and another one finds the files. -/
def LogicalLog.restart (log : LogicalLog) : LogicalLog :=
  { log with state := {}, initialized := false }

/-! ## The calls that log -/

inductive WalCall where
  | log (entry : Json)
  | logBatch (entries : List Json)
  | logPutBatch (userId database collection : String) (documents : List Json)

/-- The object of a batch. -/
def batchEntry (op : String) (userId database collection dataField : String) (rows : List Json) :
    Json :=
  .object [("_wal_batch_format", .unsigned 1), ("op", .string op), ("userId", .string userId),
    ("db", .string database), ("collection", .string collection), (dataField, .array rows)]

/-- What the call hands to `preparePendingEntry`; none for an empty batch, and for
one whose first entry has no namespace to read. -/
def WalCall.prepare? : WalCall → Option (WalOp × Json)
  | .log entry => some (.insert, entry)
  | .logBatch [] => none
  | .logBatch (first :: rest) =>
      if first.isObject then do
        let userId ← stringMember? first "userId"
        let database ← stringMember? first "db"
        let collection ← stringMember? first "collection"
        some (.batchCompressed,
          batchEntry "WAL_BATCH" userId database collection "mutations" (first :: rest))
      else none
  | .logPutBatch _ _ _ [] => none
  | .logPutBatch userId database collection (first :: rest) =>
      some (.batchCompressed,
        batchEntry "PUT_BATCH" userId database collection "data" (first :: rest))

/-- A call on its way to the log, with the clock reading its frame takes. -/
structure Submission (config : WalConfig) where
  call : WalCall
  pending : PendingWalEntry config
  prepared : call.prepare? = some (pending.op, pending.entry)
  timestampMs : Nat

/-! ## Runs -/

/-- A log with its history: the records found at first or acknowledged since, as
they were logged, and the largest LSN through which it was reclaimed. -/
structure LogRun where
  log : LogicalLog
  history : List WalReplayRecord
  covered : Nat := 0

inductive LogEvent (config : WalConfig) where
  /-- Calls that are flushed together. -/
  | append (calls : List (Submission config))
  | reclaimThrough (coveredLsn : UInt64)
  | restart

variable {config}

/-- The calls as one batch for `appendEntries`. -/
def batchOf (calls : List (Submission config)) : Batch config :=
  calls.map fun call => (call.pending, call.timestampMs)

/-- The records of a batch as they were logged, with the LSNs it was acknowledged for. -/
def loggedRecords (nextLsn : Nat) (batch : Batch config) : List WalReplayRecord :=
  batch.mapIdx fun i entry => ⟨entry.1.op, (nextLsn + i) % 2 ^ 64, entry.1.entry⟩

variable (config)

/-- The LSN the next record gets: the one the process keeps, or what a scan finds. -/
def LogicalLog.nextLsn (log : LogicalLog) : Nat :=
  match log.initialize config truncate with
  | .error _ => 0
  | .ok log => log.state.nextLsn

def logStep (run : LogRun) : LogEvent config → Option LogRun
  | .append calls =>
      match run.log.append config truncate (batchOf calls) with
      | (false, log) => some { run with log }
      | (true, log) => some { run with
          log
          history := run.history ++
            loggedRecords (run.log.nextLsn config truncate) (batchOf calls) }
  | .reclaimThrough coveredLsn =>
      match run.log.reclaimThrough config truncate coveredLsn with
      | (false, log) => some { run with log }
      | (true, log) => some { run with log, covered := max run.covered coveredLsn.toNat }
  | .restart => some { run with log := run.log.restart }

/-- An empty log, or one whose legacy file is read to its end. -/
inductive LogStart : LogRun → Prop
  | empty : LogStart ⟨{}, [], 0⟩
  | legacy {bytes : Bytes} {state : ScanState} {file : ScannedWalFile}
      (reads : scanLegacyFile config truncate true bytes = .ok (state, file)) :
      LogStart ⟨{ legacy := some bytes }, state.records, 0⟩

/-! ## The round trip -/

/-- The members that `stampEntry` writes. -/
def stampFields : List String := ["_wal_lsn", "_wal_seq", "_wal_ts_ms"]

/-- The scan shows a logged record, up to its stamp. -/
structure ShowsLogged (shown logged : WalReplayRecord) : Prop where
  op : shown.op = logged.op
  lsn : shown.lsn = logged.lsn
  entry : ∀ name, name ∉ stampFields → shown.entry.field? name = logged.entry.field? name

def recordLsns (records : List WalReplayRecord) : List Nat := records.map WalReplayRecord.lsn

/-- The records a reclaim through this LSN must leave. -/
def recordsAbove (coveredLsn : Nat) (records : List WalReplayRecord) : List WalReplayRecord :=
  records.filter fun record => decide (coveredLsn < record.lsn)

/-- A scan works, and shows the history less a part at its start that reclaims
covered; no LSN of the history comes twice; and a reclaim leaves what it does not
cover. -/
structure LogRun.RoundTrips (run : LogRun) (scan : LogicalScan) : Prop where
  scans : run.log.scan config truncate = .ok scan
  shows : ∃ reclaimed, List.Forall₂ ShowsLogged scan.segments.records
    (run.history.drop reclaimed) ∧
      ∀ record ∈ run.history.take reclaimed, record.lsn ≤ run.covered
  increasing : (recordLsns scan.segments.records).Pairwise (· < ·)
  fresh : (recordLsns run.history).Pairwise (· < ·)
  survives : ∀ coveredLsn : UInt64, ∃ left,
    (run.log.reclaimThrough config truncate coveredLsn).2.scan config truncate = .ok left ∧
      recordsAbove coveredLsn.toNat left.segments.records =
        recordsAbove coveredLsn.toNat scan.segments.records

end PacificDb.Wal
