import PacificDb.Wal.Scan

/-!
# Segments on disk

A segment as the appender means it: a header and a run of records. Here is what
the scanner makes of the bytes of segments that follow each other, of a segment
that ends in a torn record, and of a torn header.
-/

namespace PacificDb.Wal

open Lib

variable {config : WalConfig}

/-- A record with its place in the log. -/
structure Placed (config : WalConfig) where
  pending : PendingWalEntry config
  lsn : Nat
  timestampMs : Nat
  fits : FitsFrame pending
  lsn_lt : lsn < 2 ^ 64

namespace Placed

def bytes (placed : Placed config) : Bytes :=
  frameBytes placed.pending placed.lsn placed.timestampMs

/-- The record a scan shows. -/
def record (placed : Placed config) : WalReplayRecord where
  op := placed.pending.op
  lsn := placed.lsn
  entry := stampEntry placed.pending.entry placed.lsn (placed.timestampMs % 2 ^ 64)

/-- The namespace of the record goes with that of its segment. -/
def Compatible (identityHash : Nat) (placed : Placed config) : Prop :=
  identityHash = 0 ∨ walIdentityHash placed.pending.entry = 0 ∨
    walIdentityHash placed.pending.entry = identityHash

theorem length_bytes (placed : Placed config) :
    placed.bytes.length = 5 + (preparedBytes placed.pending placed.lsn placed.timestampMs).length := by
  rw [bytes, length_frameBytes, length_preparedBytes]

theorem bytes_ne_nil (placed : Placed config) : placed.bytes ≠ [] := by
  rw [bytes, frameBytes]
  exact List.cons_ne_nil _ _

end Placed

/-- The records carry on from `lastLsn` without a gap. -/
def Consecutive : Nat → List (Placed config) → Prop
  | _, [] => True
  | lastLsn, placed :: rest => placed.lsn = lastLsn + 1 ∧ Consecutive (lastLsn + 1) rest

theorem Consecutive.append {lastLsn : Nat} {first second : List (Placed config)} :
    Consecutive lastLsn (first ++ second) ↔
      Consecutive lastLsn first ∧ Consecutive (lastLsn + first.length) second := by
  induction first generalizing lastLsn with
  | nil => simp [Consecutive]
  | cons placed rest ih =>
    rw [List.cons_append, Consecutive, ih, Consecutive, List.length_cons, and_assoc,
      Nat.add_assoc, Nat.add_comm 1]

/-- The bytes of a run of records. -/
def recordBytes (records : List (Placed config)) : Bytes := (records.map Placed.bytes).flatten

theorem recordBytes_append (first second : List (Placed config)) :
    recordBytes (first ++ second) = recordBytes first ++ recordBytes second := by
  rw [recordBytes, List.map_append, List.flatten_append, recordBytes, recordBytes]

theorem length_le_recordBytes (records : List (Placed config)) :
    records.length ≤ (recordBytes records).length := by
  induction records with
  | nil => exact le_rfl
  | cons placed rest ih =>
    rw [recordBytes, List.map_cons, List.flatten_cons, List.length_append, ← recordBytes,
      List.length_cons]
    have := List.length_pos_iff.mpr placed.bytes_ne_nil
    omega

structure Segment (config : WalConfig) where
  id : Nat
  firstLsn : Nat
  identityHash : Nat
  records : List (Placed config)

namespace Segment

def header (segment : Segment config) : Bytes :=
  segmentHeader segment.id segment.firstLsn segment.identityHash

def bytes (segment : Segment config) : Bytes := segment.header ++ recordBytes segment.records

def file (segment : Segment config) : SegmentFile := ⟨segment.id, segment.bytes⟩

theorem length_header (segment : Segment config) : segment.header.length = kSegmentHeaderBytes :=
  length_segmentHeader _ _ _

end Segment

/-! ## One record -/

theorem readEntryLsn_stampEntry {entry : Json} {lsn timestampMs : Nat}
    (object : entry.isObject = true) (small : lsn < 2 ^ 64) :
    readEntryLsn (stampEntry entry lsn timestampMs) = some lsn := by
  have stamped : (stampEntry entry lsn timestampMs).field? "_wal_lsn" = some (.unsigned lsn) := by
    rw [stampEntry, Json.field?_set_ne (by decide), Json.field?_set_ne (by decide),
      Json.field?_set_self object]
  rw [readEntryLsn, stamped, if_pos (by simp [stampEntry, object]), Option.bind_some,
    Json.asUInt64?, Json.wrapUInt64]
  congr 1
  omega

theorem walIdentityHash_stampEntry (entry : Json) (lsn timestampMs : Nat) :
    walIdentityHash (stampEntry entry lsn timestampMs) = walIdentityHash entry := by
  rw [stampEntry, walIdentityHash_set (by decide) (by decide) (by decide),
    walIdentityHash_set (by decide) (by decide) (by decide),
    walIdentityHash_set (by decide) (by decide) (by decide)]

theorem decodeFramePayload_preparedBytes (placed : Placed config) :
    decodeFramePayload config (preparedBytes placed.pending placed.lsn placed.timestampMs) =
      some placed.record.entry := by
  have marker : (preparedBytes placed.pending placed.lsn placed.timestampMs).take 5 =
      preparedMarker := rfl
  rw [decodeFramePayload, if_pos marker, decodePreparedPayload_preparedBytes,
    Nat.mod_eq_of_lt placed.lsn_lt]
  rfl

/-- The scan after some records of a file. -/
def ScanState.push (state : ScanState) (records : List (Placed config)) : ScanState :=
  { state with
    records := state.records ++ records.map Placed.record
    lastLsn := state.lastLsn + records.length }

def ScannedWalFile.push (file : ScannedWalFile) (lastLsn : Nat) (records : List (Placed config)) :
    ScannedWalFile :=
  { file with
    endLsn := if records = [] then file.endLsn else lastLsn + records.length
    validBytes := file.validBytes + (recordBytes records).length }

variable {finalFile : Bool} {state : ScanState} {file : ScannedWalFile} {first : Bool}

/-- A record above the last one is shown and passed. -/
theorem scanFrames_above {placed : Placed config} (fuel : Nat) (rest : Bytes)
    (above : state.lastLsn < placed.lsn) (compatible : placed.Compatible file.identityHash)
    (starts : first = true → placed.lsn = file.firstLsn) (ranged : file.firstLsn ≠ 0) :
    scanFrames config finalFile (fuel + 1) state file first (placed.bytes ++ rest) =
      scanFrames config finalFile fuel
        { state with records := state.records ++ [placed.record], lastLsn := placed.lsn }
        { file with endLsn := placed.lsn
                    validBytes := file.validBytes + (recordBytes [placed]).length } false rest := by
  have sizes : (recordBytes [placed]).length =
      5 + (preparedBytes placed.pending placed.lsn placed.timestampMs).length := by
    rw [recordBytes, List.map_singleton, List.flatten_singleton, Placed.length_bytes]
  rw [scanFrames, Placed.bytes, readFrame_frameBytes placed.fits]
  dsimp only
  rw [decodeFramePayload_preparedBytes]
  dsimp only
  rw [Placed.record, readEntryLsn_stampEntry placed.pending.isObject placed.lsn_lt]
  dsimp only
  rw [walIdentityHash_stampEntry, if_neg]
  · rw [if_neg ranged, sizes]
  · rintro (zero | old | ⟨strict, known, other⟩ | ⟨isFirst, elsewhere⟩)
    · omega
    · omega
    · rcases compatible with none | unknown | same
      · exact strict none
      · exact known unknown
      · exact other same
    · exact elsewhere (starts isFirst)

/-- A record in its place is shown and passed. -/
theorem scanFrames_placed {placed : Placed config} (fuel : Nat) (rest : Bytes)
    (next : placed.lsn = state.lastLsn + 1) (compatible : placed.Compatible file.identityHash)
    (starts : first = true → placed.lsn = file.firstLsn) (ranged : file.firstLsn ≠ 0) :
    scanFrames config finalFile (fuel + 1) state file first (placed.bytes ++ rest) =
      scanFrames config finalFile fuel (state.push [placed]) (file.push state.lastLsn [placed]) false
        rest := by
  rw [scanFrames_above fuel rest (by omega) compatible starts ranged, ScanState.push,
    ScannedWalFile.push, if_neg (List.cons_ne_nil _ _), List.length_singleton, next]
  rfl

theorem ScanState.push_nil : state.push ([] : List (Placed config)) = state := by
  simp [ScanState.push]

theorem ScannedWalFile.push_nil (lastLsn : Nat) :
    file.push lastLsn ([] : List (Placed config)) = file := by
  simp [ScannedWalFile.push, recordBytes]

theorem ScanState.push_push (placed : Placed config) (rest : List (Placed config)) :
    (state.push [placed]).push rest = state.push (placed :: rest) := by
  simp [ScanState.push, Nat.add_assoc, Nat.add_comm 1]

theorem ScannedWalFile.push_push {lastLsn : Nat} (placed : Placed config)
    (rest : List (Placed config)) :
    (file.push lastLsn [placed]).push (lastLsn + 1) rest = file.push lastLsn (placed :: rest) := by
  have sizes : (recordBytes [placed]).length + (recordBytes rest).length =
      (recordBytes (placed :: rest)).length := by
    rw [← List.length_append, ← recordBytes_append, List.singleton_append]
  cases rest with
  | nil => simp [ScannedWalFile.push, recordBytes]
  | cons other rest =>
    rw [ScannedWalFile.push, ScannedWalFile.push, ScannedWalFile.push]
    simp [← sizes, Nat.add_assoc, Nat.add_comm 1]

/-- The record loop over a run of records arrives at what follows them. -/
theorem scanFrames_records {records : List (Placed config)} (fuel : Nat) (tail : Bytes)
    (consecutive : Consecutive state.lastLsn records)
    (compatible : ∀ placed ∈ records, placed.Compatible file.identityHash)
    (starts : first = true → file.firstLsn = state.lastLsn + 1) (ranged : file.firstLsn ≠ 0) :
    scanFrames config finalFile (records.length + fuel) state file first
        (recordBytes records ++ tail) =
      scanFrames config finalFile fuel (state.push records) (file.push state.lastLsn records)
        (first && records.isEmpty) tail := by
  induction records generalizing state file first with
  | nil =>
    rw [ScanState.push_nil, ScannedWalFile.push_nil, List.length_nil, Nat.zero_add,
      List.isEmpty_nil, Bool.and_true]
    rfl
  | cons placed rest ih =>
    obtain ⟨next, consecutive⟩ := consecutive
    obtain ⟨own, compatible⟩ := List.forall_mem_cons.mp compatible
    have bytes : recordBytes (placed :: rest) ++ tail =
        placed.bytes ++ (recordBytes rest ++ tail) := by
      rw [recordBytes, List.map_cons, List.flatten_cons, List.append_assoc, ← recordBytes]
    have fuels : (placed :: rest).length + fuel = rest.length + fuel + 1 := by
      rw [List.length_cons]
      omega
    rw [fuels, bytes, scanFrames_placed _ _ next own (fun isFirst => next.trans (starts isFirst).symm)
      ranged]
    have last : (state.push [placed]).lastLsn = state.lastLsn + 1 := rfl
    have onward := @ih (state.push [placed]) (file.push state.lastLsn [placed]) false consecutive
      compatible (fun isFirst => absurd isFirst Bool.false_ne_true) ranged
    rw [onward, last, ScanState.push_push, ScannedWalFile.push_push, Bool.false_and,
      List.isEmpty_cons, Bool.and_false]

/-! ## One file -/

/-- The segment is what a scan in this state expects next. -/
structure Segment.Follows (state : ScanState) (segment : Segment config) : Prop where
  id_gt : state.previousSegmentId < segment.id
  id_le : segment.id ≤ segment.firstLsn
  identity_lt : segment.identityHash < 2 ^ 64
  identity : state.segmentIdentity ≠ 0 → segment.identityHash = state.segmentIdentity
  firstLsn : segment.firstLsn = state.lastLsn + 1
  firstLsn_lt : segment.firstLsn < 2 ^ 64
  consecutive : Consecutive state.lastLsn segment.records
  compatible : ∀ placed ∈ segment.records, placed.Compatible segment.identityHash

/-- What the scan notes of a segment file. -/
def Segment.scanned (lastLsn : Nat) (segment : Segment config) : ScannedWalFile :=
  ScannedWalFile.push
    { path := segment.id, segmentId := segment.id, firstLsn := segment.firstLsn
      identityHash := segment.identityHash, validBytes := kSegmentHeaderBytes }
    lastLsn segment.records

/-- The scan inside a segment, its records passed. -/
def ScanState.inside (state : ScanState) (segment : Segment config) : ScanState :=
  ScanState.push { state with previousSegmentId := segment.id
                              segmentIdentity := segment.identityHash } segment.records

/-- The scan after a segment file. -/
def ScanState.after (state : ScanState) (segment : Segment config) : ScanState :=
  { state.inside segment with
    validBytes := state.validBytes + (segment.scanned state.lastLsn).validBytes
    files := state.files ++ [segment.scanned state.lastLsn] }

theorem Segment.length_bytes (segment : Segment config) :
    segment.bytes.length = kSegmentHeaderBytes + (recordBytes segment.records).length := by
  rw [bytes, List.length_append, length_header]

theorem Segment.validBytes_scanned (lastLsn : Nat) (segment : Segment config) :
    (segment.scanned lastLsn).validBytes = segment.bytes.length := by
  rw [segment.length_bytes]
  rfl

/-- The file of a segment before its records are passed. -/
def Segment.entered (segment : Segment config) : ScannedWalFile :=
  { path := segment.id, segmentId := segment.id, firstLsn := segment.firstLsn
    identityHash := segment.identityHash, validBytes := kSegmentHeaderBytes }

/-- What a scan takes from a file that was read to its end. -/
def finishFile : Except ScanFailure (ScanState × ScannedWalFile) → Except ScanFailure ScanState
  | .error failure => .error failure
  | .ok (state, file) => .ok { state with
      lastLsn := if file.endLsn = 0 ∧ 0 < file.firstLsn then max state.lastLsn (file.firstLsn - 1)
        else state.lastLsn
      validBytes := state.validBytes + file.validBytes
      files := state.files ++ [file] }

/-- A header in its place is passed. -/
theorem scanFile_header (finalFile : Bool) {segment : Segment config}
    (newer : state.previousSegmentId < segment.id) (idLt : segment.id < 2 ^ 64)
    (ranged : segment.firstLsn ≠ 0) (lsnLt : segment.firstLsn < 2 ^ 64)
    (identityLt : segment.identityHash < 2 ^ 64)
    (identity : state.segmentIdentity ≠ 0 → segment.identityHash = state.segmentIdentity)
    (tail : Bytes) :
    scanFile config finalFile state ⟨segment.id, segment.bytes ++ tail⟩ =
      finishFile (scanFrames config finalFile ((segment.bytes ++ tail).length + 1)
        { state with previousSegmentId := segment.id, segmentIdentity := segment.identityHash }
        segment.entered true (recordBytes segment.records ++ tail)) := by
  have layout : segment.bytes ++ tail = segmentMagic ++ (leBytes 8 segment.id ++
      (leBytes 8 segment.firstLsn ++ (leBytes 8 segment.identityHash ++
        (recordBytes segment.records ++ tail)))) := by
    simp only [Segment.bytes, Segment.header, segmentHeader, List.append_assoc]
  have fromId : (segment.bytes ++ tail).drop 8 = leBytes 8 segment.id ++
      (leBytes 8 segment.firstLsn ++ (leBytes 8 segment.identityHash ++
        (recordBytes segment.records ++ tail))) := by
    rw [layout]
    rfl
  have fromLsn : (segment.bytes ++ tail).drop 16 = leBytes 8 segment.firstLsn ++
      (leBytes 8 segment.identityHash ++ (recordBytes segment.records ++ tail)) := by
    rw [show 16 = 8 + 8 from rfl, ← List.drop_drop, fromId, List.drop_left' (length_leBytes 8 _)]
  have fromIdentity : (segment.bytes ++ tail).drop 24 = leBytes 8 segment.identityHash ++
      (recordBytes segment.records ++ tail) := by
    rw [show 24 = 16 + 8 from rfl, ← List.drop_drop, fromLsn, List.drop_left' (length_leBytes 8 _)]
  have body : (segment.bytes ++ tail).drop kSegmentHeaderBytes =
      recordBytes segment.records ++ tail := by
    rw [show kSegmentHeaderBytes = 24 + 8 from rfl, ← List.drop_drop, fromIdentity,
      List.drop_left' (length_leBytes 8 _)]
  have long : (segment.bytes ++ tail).length =
      kSegmentHeaderBytes + (recordBytes segment.records).length + tail.length := by
    rw [List.length_append, segment.length_bytes]
  unfold scanFile
  dsimp only
  rw [if_neg (by rw [long]; omega), if_neg (by rw [layout]; exact not_not.mpr rfl), fromId, fromLsn,
    fromIdentity, body]
  simp only [List.take_left' (length_leBytes _ _)]
  rw [readLe_leBytes_of_lt idLt, readLe_leBytes_of_lt lsnLt, readLe_leBytes_of_lt identityLt, if_neg]
  · rfl
  · rintro (zero | other | old | none | ⟨known, differs⟩)
    · omega
    · exact other rfl
    · omega
    · omega
    · exact differs (identity known)

/-- Past its header, a segment file is scanned up to whatever follows its records. -/
theorem scanFile_segment (finalFile : Bool) {segment : Segment config}
    (follows : segment.Follows state) (tail : Bytes) :
    ∃ fuel, scanFile config finalFile state ⟨segment.id, segment.bytes ++ tail⟩ =
      finishFile (scanFrames config finalFile (fuel + 1) (state.inside segment)
          (segment.scanned state.lastLsn) segment.records.isEmpty tail) := by
  have starts := follows.firstLsn
  have ranged : segment.firstLsn ≠ 0 := by omega
  have enough := length_le_recordBytes segment.records
  have long : (segment.bytes ++ tail).length =
      kSegmentHeaderBytes + (recordBytes segment.records).length + tail.length := by
    rw [List.length_append, segment.length_bytes]
  have fuels : (segment.bytes ++ tail).length + 1 = segment.records.length +
      ((segment.bytes ++ tail).length - segment.records.length + 1) := by
    rw [long]
    omega
  have passes := @scanFrames_records config finalFile
    { state with previousSegmentId := segment.id, segmentIdentity := segment.identityHash }
    segment.entered true segment.records
    ((segment.bytes ++ tail).length - segment.records.length + 1) tail follows.consecutive
    follows.compatible (fun _ => starts) ranged
  refine ⟨(segment.bytes ++ tail).length - segment.records.length, ?_⟩
  rw [scanFile_header finalFile follows.id_gt (follows.id_le.trans_lt follows.firstLsn_lt) ranged
    follows.firstLsn_lt follows.identity_lt follows.identity tail, fuels, passes, Bool.true_and]
  rfl

/-- A whole segment is scanned to its end. -/
theorem scanFile_whole {segment : Segment config} (follows : segment.Follows state) :
    scanFile config finalFile state segment.file = .ok (state.after segment) := by
  obtain ⟨fuel, scans⟩ := scanFile_segment finalFile follows []
  rw [List.append_nil] at scans
  rw [Segment.file, scans, scanFrames, readFrame]
  dsimp only
  have last : (if (segment.scanned state.lastLsn).endLsn = 0 ∧
      0 < (segment.scanned state.lastLsn).firstLsn then
        max (state.inside segment).lastLsn ((segment.scanned state.lastLsn).firstLsn - 1)
      else (state.inside segment).lastLsn) = (state.inside segment).lastLsn := by
    have starts : (segment.scanned state.lastLsn).firstLsn = state.lastLsn + 1 := follows.firstLsn
    have reached : (state.inside segment).lastLsn = state.lastLsn + segment.records.length := rfl
    split
    · rw [starts, reached]
      omega
    · rfl
  rw [finishFile, last]
  rfl

/-- A segment that ends in a torn record is a failed file, and forgiven only as
the last one. -/
theorem scanFile_torn {segment : Segment config} (follows : segment.Follows state)
    {placed : Placed config} {torn : Bytes} (some : torn ≠ []) (isTorn : Torn torn placed.bytes) :
    ∃ error, scanFile config finalFile state ⟨segment.id, segment.bytes ++ torn⟩ =
      .error (fileScanFailure finalFile (state.inside segment) (segment.scanned state.lastLsn)
        error) := by
  obtain ⟨fuel, scans⟩ := scanFile_segment finalFile follows torn
  obtain ⟨error, cut⟩ := readFrame_torn placed.fits some isTorn
  refine ⟨error, ?_⟩
  rw [scans, scanFrames, cut]
  rfl

/-- So is a file that ends inside its header. -/
theorem scanFile_tornHeader {name : Nat} {bytes : Bytes} (short : bytes.length < kSegmentHeaderBytes) :
    scanFile config finalFile state ⟨name, bytes⟩ =
      .error (fileScanFailure finalFile state { path := name } "partial WAL segment header") := by
  rw [scanFile, if_pos short]

/-! ## All files -/

/-- The segments follow each other. -/
def SegmentsFollow : ScanState → List (Segment config) → Prop
  | _, [] => True
  | state, segment :: rest => segment.Follows state ∧ SegmentsFollow (state.after segment) rest

def ScanState.afterAll (state : ScanState) (segments : List (Segment config)) : ScanState :=
  segments.foldl ScanState.after state

/-- The scan passes whole segments, whatever comes after them. -/
theorem scanFiles_segments {segments : List (Segment config)} (rest : List SegmentFile)
    (follow : SegmentsFollow state segments) :
    scanFiles config state (segments.map Segment.file ++ rest) =
      scanFiles config (state.afterAll segments) rest := by
  induction segments generalizing state with
  | nil => rfl
  | cons segment segments ih =>
    obtain ⟨follows, follow⟩ := follow
    rw [List.map_cons, List.cons_append, scanFiles, scanFile_whole follows]
    exact ih follow

end PacificDb.Wal
