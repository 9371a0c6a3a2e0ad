import Mathlib.Data.List.Sort
import PacificDb.Lib.Checks
import PacificDb.Wal.Format

/-!
# Scanning the log

`scanWalFiles` over the segment files of a logical WAL in the order of their
names, and `initializeLogicalWal`, which cuts a partial tail off the last file,
scans again, and takes the append position from the result. The log here has no
legacy file: `appendEntries` never writes one.
-/

namespace PacificDb.Wal

open Lib

/-- A physical file: the number in its name, and its bytes. -/
structure SegmentFile where
  name : Nat
  bytes : Bytes
  deriving DecidableEq

structure WalReplayRecord where
  op : WalOp
  lsn : Nat
  entry : Json

inductive WalScanStatus where
  | partialTail
  | corrupt
  deriving Repr, DecidableEq

structure ScannedWalFile where
  path : Nat
  segmentId : Nat := 0
  firstLsn : Nat := 0
  endLsn : Nat := 0
  validBytes : Nat := 0
  identityHash : Nat := 0
  deriving DecidableEq

/-- What the scan carries from file to file, with the records it has shown the
visitor. -/
structure ScanState where
  records : List WalReplayRecord := []
  lastLsn : Nat := 0
  validBytes : Nat := 0
  segmentIdentity : Nat := 0
  previousSegmentId : Nat := 0
  files : List ScannedWalFile := []

structure ScanFailure where
  status : WalScanStatus
  error : String
  state : ScanState

variable (config : WalConfig)

/-- `setFileScanFailure`: a partial record is forgiven in the last file only. -/
def fileScanFailure (finalFile : Bool) (state : ScanState) (file : ScannedWalFile)
    (error : String) : ScanFailure :=
  if finalFile then
    { status := .partialTail, error
      state := { state with validBytes := state.validBytes + file.validBytes
                            files := state.files ++ [file] } }
  else { status := .corrupt, error, state }

def verifyWalPayloadCrc (entry : Json) : Bool :=
  if !entry.isObject then false
  else
    match entry.field? "_wal_crc32" with
    | none => true
    | some value =>
        match value.asUInt64? with
        | none => false
        | some crc =>
            let forCrc := entry.erase "_wal_crc32"
            match stringMember? forCrc "_wal_crc_encoding" with
            | none => false
            | some encoding =>
                let packed :=
                  if encoding = "msgpack-v1" then config.toMsgpack forCrc else config.dump forCrc
                crc % 2 ^ 32 == (config.crc32 packed).toNat

/-- The entry of a payload, in the prepared or in the older form. -/
def decodeFramePayload (payload : Bytes) : Option Json :=
  if payload.take 5 = preparedMarker then decodePreparedPayload config payload
  else
    match decodeWalPayload config payload with
    | some entry => if verifyWalPayloadCrc config entry then some entry else none
    | none => none

/-- `readEntryLsn` for a segment file. -/
def readEntryLsn (entry : Json) : Option Nat :=
  if entry.isObject then (entry.field? "_wal_lsn").bind Json.asUInt64? else none

/-- The record loop of one segment file. The fuel is the length of the file:
each round consumes a frame. -/
def scanFrames (finalFile : Bool) :
    Nat → ScanState → ScannedWalFile → Bool → Bytes → Except ScanFailure (ScanState × ScannedWalFile)
  | 0, state, _, _, _ => .error ⟨.corrupt, "WAL scanner made no progress", state⟩
  | fuel + 1, state, file, firstSegmentRecord, bytes =>
      match readFrame config bytes with
      | .atEnd => .ok (state, file)
      | .cut error => .error (fileScanFailure finalFile state file error)
      | .invalid => .error ⟨.corrupt, "invalid WAL frame", state⟩
      | .frame op payload rest =>
          match decodeFramePayload config payload with
          | none => .error ⟨.corrupt, "invalid or checksummed WAL payload", state⟩
          | some entry =>
              let identity := walIdentityHash entry
              match readEntryLsn entry with
              | none => .error
                  ⟨.corrupt, "non-increasing WAL LSN or invalid segment boundary", state⟩
              | some lsn =>
                  if lsn = 0 ∨ lsn ≤ state.lastLsn ∨
                      (file.identityHash ≠ 0 ∧ identity ≠ 0 ∧ identity ≠ file.identityHash) ∨
                      (firstSegmentRecord = true ∧ lsn ≠ file.firstLsn) then
                    .error ⟨.corrupt, "non-increasing WAL LSN or invalid segment boundary", state⟩
                  else
                    scanFrames finalFile fuel
                      { state with records := state.records ++ [⟨op, lsn, entry⟩], lastLsn := lsn }
                      { file with
                        firstLsn := if file.firstLsn = 0 then lsn else file.firstLsn
                        endLsn := lsn
                        validBytes := file.validBytes + (5 + payload.length) }
                      false rest

/-- One segment file. -/
def scanFile (finalFile : Bool) (state : ScanState) (physical : SegmentFile) :
    Except ScanFailure ScanState :=
  let file : ScannedWalFile := { path := physical.name }
  let bytes := physical.bytes
  if bytes.length < kSegmentHeaderBytes then
    .error (fileScanFailure finalFile state file "partial WAL segment header")
  else if bytes.take 8 ≠ segmentMagic then .error ⟨.corrupt, "invalid WAL segment header", state⟩
  else
    let segmentId := readLe ((bytes.drop 8).take 8)
    let firstLsn := readLe ((bytes.drop 16).take 8)
    let identityHash := readLe ((bytes.drop 24).take 8)
    if segmentId = 0 ∨ segmentId ≠ physical.name ∨ segmentId ≤ state.previousSegmentId ∨
        firstLsn = 0 ∨ (state.segmentIdentity ≠ 0 ∧ identityHash ≠ state.segmentIdentity) then
      .error ⟨.corrupt, "inconsistent WAL segment identity or range", state⟩
    else
      match scanFrames config finalFile (bytes.length + 1)
          { state with previousSegmentId := segmentId, segmentIdentity := identityHash }
          { file with segmentId, firstLsn, identityHash, validBytes := kSegmentHeaderBytes } true
          (bytes.drop kSegmentHeaderBytes) with
      | .error failure => .error failure
      | .ok (state, file) => .ok { state with
          lastLsn := if file.endLsn = 0 ∧ 0 < file.firstLsn then max state.lastLsn (file.firstLsn - 1)
            else state.lastLsn
          validBytes := state.validBytes + file.validBytes
          files := state.files ++ [file] }

def scanFiles : ScanState → List SegmentFile → Except ScanFailure ScanState
  | state, [] => .ok state
  | state, file :: rest => do
      let state ← scanFile config rest.isEmpty state file
      scanFiles state rest

/-- The names are zero-padded, so sorting paths sorts by number. -/
def sortedSegmentFiles (files : List SegmentFile) : List SegmentFile :=
  files.insertionSort fun first second => first.name ≤ second.name

def scanWalFiles (files : List SegmentFile) : Except ScanFailure ScanState :=
  scanFiles config {} (sortedSegmentFiles files)

/-! ## Opening the log -/

/-- The append position of an opened log. -/
structure LogicalWalState where
  nextLsn : Nat := 1
  activeSegment : Nat := 0
  activeBytes : Nat := 0
  identityHash : Nat := 0
  deriving Repr, DecidableEq

/-- `fs::remove` or `fs::resize_file` on the file that ends in a partial record. -/
def truncateTail (files : List SegmentFile) (tail : ScannedWalFile) : List SegmentFile :=
  if tail.validBytes = 0 then files.filter fun file => file.name != tail.path
  else files.map fun file =>
    if file.name = tail.path then { file with bytes := file.bytes.take tail.validBytes } else file

/-- The newest segment is the active one. -/
def LogicalWalState.adopt (position : LogicalWalState) (file : ScannedWalFile) : LogicalWalState :=
  if position.activeSegment ≤ file.segmentId then
    { position with activeSegment := file.segmentId, activeBytes := file.validBytes
                    identityHash := file.identityHash }
  else position

/-- The append position after a scan. -/
def adoptScan (scan : ScanState) : LogicalWalState :=
  scan.files.foldl LogicalWalState.adopt { nextLsn := scan.lastLsn + 1 }

/-- `initializeLogicalWal` when removing, resizing and syncing the tail work: the
files it leaves, the append position, and the records a scan now shows. -/
def initializeLogicalWal (files : List SegmentFile) :
    Except String (List SegmentFile × LogicalWalState × List WalReplayRecord) :=
  let adopt (files : List SegmentFile) : Except String _ :=
    match scanWalFiles config files with
    | .ok scan => .ok (files, adoptScan scan, scan.records)
    | .error failure => .error ("cannot append after invalid WAL scan: " ++ failure.error)
  match scanWalFiles config files with
  | .error ⟨.partialTail, error, state⟩ =>
      match state.files.getLast? with
      | some tail => adopt (truncateTail files tail)
      | none => .error ("cannot append after invalid WAL scan: " ++ error)
  | _ => adopt files

end PacificDb.Wal
