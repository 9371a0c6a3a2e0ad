import PacificDb.Wal.Segments

/-!
# Appending batches

`appendEntries`: a batch is laid out into one chunk per segment file it touches,
then every chunk is written, then every file is synced, and only then is the
batch acknowledged. A crash in between finds each file with some prefix of what
was written, at least as long as at its last sync.

A batch laid out is some records added to the active segment and some new
segments after it (`Planned`).
-/

namespace PacificDb.Wal

open Lib

variable {config : WalConfig}

/-! ## The code -/

/-- A batch: the entries, each with the clock reading its frame takes. -/
abbrev Batch (config : WalConfig) := List (PendingWalEntry config × Nat)

/-- The working copy of the append position, with the chunks laid out so far. -/
structure Cursor extends LogicalWalState where
  chunks : List (Nat × Bytes) := []

/-- Bytes for a file go to the last chunk if it is for the same file. -/
def addToChunks (chunks : List (Nat × Bytes)) (name : Nat) (bytes : Bytes) : List (Nat × Bytes) :=
  match chunks.getLast? with
  | some last =>
      if last.1 = name then chunks.dropLast ++ [(name, last.2 ++ bytes)] else chunks ++ [(name, bytes)]
  | none => [(name, bytes)]

/-- The namespace an entry is filed under: that of the log once it has one. -/
def Cursor.identityFor (cursor : Cursor) (entry : Json) : Nat :=
  if cursor.identityHash = 0 then walIdentityHash entry else cursor.identityHash

/-- A frame of this size goes to a new segment. -/
def Cursor.rollsOver (config : WalConfig) (cursor : Cursor) (size : Nat) : Bool :=
  cursor.activeSegment == 0 || (decide (kSegmentHeaderBytes < cursor.activeBytes) &&
    decide (config.segmentMaxBytes < cursor.activeBytes + size))

/-- The active segment for a frame of this size. -/
def Cursor.turn (config : WalConfig) (cursor : Cursor) (size : Nat) : Cursor :=
  if cursor.rollsOver config size then
    { cursor with activeSegment := cursor.activeSegment + 1, activeBytes := 0 }
  else cursor

/-- Put a frame into the active segment, after a header if it is new. -/
def Cursor.put (cursor : Cursor) (identityHash : Nat) (frame : Bytes) : Cursor :=
  let header :=
    if cursor.activeBytes = 0 then segmentHeader cursor.activeSegment cursor.nextLsn identityHash
    else []
  { nextLsn := (cursor.nextLsn + 1) % 2 ^ 64
    activeSegment := cursor.activeSegment
    activeBytes :=
      (if cursor.activeBytes = 0 then kSegmentHeaderBytes else cursor.activeBytes) + frame.length
    identityHash
    chunks := addToChunks cursor.chunks cursor.activeSegment (header ++ frame) }

/-- One round of the layout loop. -/
def placeEntry (cursor : Cursor) (entry : PendingWalEntry config × Nat) : Except String Cursor :=
  let entryIdentity := walIdentityHash entry.1.entry
  let identityHash := cursor.identityFor entry.1.entry
  if entryIdentity ≠ 0 ∧ identityHash ≠ 0 ∧ entryIdentity ≠ identityHash then
    .error "collection WAL namespace identity changed"
  else
    match framePreparedRecord entry.1 cursor.nextLsn entry.2 with
    | .error reason => .error reason
    | .ok frame => .ok ((cursor.turn config frame.length).put identityHash frame)

/-- The layout of a batch: the chunks to write and the position after them. -/
def layOut (state : LogicalWalState) (batch : Batch config) : Except String Cursor :=
  batch.foldlM placeEntry { state with }

/-- A segment file with its length at its last successful sync. -/
structure WalFile extends SegmentFile where
  synced : Nat := 0

/-- `appendWalBytes`: opens the file, creating it if need be, and appends. -/
def appendWalBytes (disk : List WalFile) (name : Nat) (bytes : Bytes) : List WalFile :=
  if disk.any fun file => file.name == name then
    disk.map fun file =>
      if file.name = name then { file with bytes := file.bytes ++ bytes } else file
  else disk ++ [{ name := name, bytes := bytes }]

def WalFile.sync (file : WalFile) : WalFile := { file with synced := file.bytes.length }

def syncWalFile (disk : List WalFile) (name : Nat) : List WalFile :=
  disk.map fun file => if file.name = name then file.sync else file

def writeChunks (disk : List WalFile) (chunks : List (Nat × Bytes)) : List WalFile :=
  chunks.foldl (fun disk chunk => appendWalBytes disk chunk.1 chunk.2) disk

def syncChunks (disk : List WalFile) (chunks : List (Nat × Bytes)) : List WalFile :=
  chunks.foldl (fun disk chunk => syncWalFile disk chunk.1) disk

/-- An opened log: its files, its append position, and the records acknowledged
since, or found when, it was opened. -/
structure LogicalWal where
  disk : List WalFile := []
  state : LogicalWalState := {}
  acknowledged : List WalReplayRecord := []

/-- The record a scan shows of an entry. -/
def replayRecord (lsn : Nat) (entry : PendingWalEntry config × Nat) : WalReplayRecord where
  op := entry.1.op
  lsn
  entry := stampEntry entry.1.entry lsn (entry.2 % 2 ^ 64)

/-- The records of a batch, numbered from the append position. -/
def batchRecords (nextLsn : Nat) (batch : Batch config) : List WalReplayRecord :=
  batch.mapIdx fun i entry => replayRecord (nextLsn + i) entry

/-- `appendEntries` when every write and sync works. A batch that cannot be laid
out is refused and changes nothing. -/
def LogicalWal.append (wal : LogicalWal) (batch : Batch config) : LogicalWal :=
  match layOut wal.state batch with
  | .error _ => wal
  | .ok cursor =>
      { disk := syncChunks (writeChunks wal.disk cursor.chunks) cursor.chunks
        state := cursor.toLogicalWalState
        acknowledged := wal.acknowledged ++ batchRecords wal.state.nextLsn batch }

/-! ## Crashes -/

/-- The chunks `appendEntries` writes for a batch. -/
def LogicalWal.chunks (wal : LogicalWal) (batch : Batch config) : List (Nat × Bytes) :=
  match layOut wal.state batch with
  | .error _ => []
  | .ok cursor => cursor.chunks

/-- The records a batch would add. -/
def LogicalWal.records (wal : LogicalWal) (batch : Batch config) : List WalReplayRecord :=
  match layOut wal.state batch with
  | .error _ => []
  | .ok _ => batchRecords wal.state.nextLsn batch

/-- How far `appendEntries` came: so many chunks written, so many bytes of the
next one (its file is open), and so many files synced once all are written. A
write or sync that fails stops it there and poisons the log, so that nothing
more is written until the restart. -/
structure Stage where
  written : Nat
  part : Option Nat
  synced : Nat

def inFlight (disk : List WalFile) (chunks : List (Nat × Bytes)) (stage : Stage) : List WalFile :=
  let whole := writeChunks disk (chunks.take stage.written)
  match chunks[stage.written]?, stage.part with
  | some chunk, some length => appendWalBytes whole chunk.1 (chunk.2.take length)
  | some _, none => whole
  | none, _ => syncChunks whole (chunks.take stage.synced)

/-- The files after a crash: of each at least what was synced. -/
def afterCrash (disk : List WalFile) (kept : Nat → Nat) : List SegmentFile :=
  disk.map fun file => ⟨file.name, file.bytes.take (max file.synced (kept file.name))⟩

/-- Whatever a crash during `appendEntries` leaves, opening the log succeeds and
shows the acknowledged records and then some prefix of the batch, in the order
of their LSNs. -/
def LogicalWal.Recovers (wal : LogicalWal) (batch : Batch config) : Prop :=
  ∀ stage kept, ∃ files state n,
    initializeLogicalWal config (afterCrash (inFlight wal.disk (wal.chunks batch) stage) kept) =
      .ok (files, state, wal.acknowledged ++ (wal.records batch).take n) ∧
    ((wal.acknowledged ++ (wal.records batch).take n).map WalReplayRecord.lsn).Pairwise (· < ·)

end PacificDb.Wal
