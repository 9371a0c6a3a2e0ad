import Mathlib.Data.List.Induction
import PacificDb.Lib.Machine
import PacificDb.Wal.Layout

/-!
# Recovery of the log

Over whole segments, with the position at their end (`Intact`), a batch keeps
the log intact, and a crash while its bytes go to one file leaves whole segments
and a torn tail of the last one: opening the log cuts the tail and shows a
prefix of the batch. A batch over two files can leave a tail inside the log.
-/

namespace PacificDb.Wal

open Lib

variable {config : WalConfig} {segments init : List (Segment config)}

/-! ## Opening files that hold whole segments -/

theorem sortedSegmentFiles_eq {files : List SegmentFile}
    (sorted : files.Pairwise fun first second => first.name < second.name) :
    sortedSegmentFiles files = files :=
  (sorted.imp fun below => below.le).insertionSort_eq

theorem SegmentsFollow.sorted_files (follow : SegmentsFollow {} segments) :
    (segments.map Segment.file).Pairwise fun first second => first.name < second.name :=
  List.pairwise_map.mpr follow.pairwise.1

theorem scanWalFiles_segments (follow : SegmentsFollow {} segments) :
    scanWalFiles config (segments.map Segment.file) = .ok (({} : ScanState).afterAll segments) := by
  have scans := scanFiles_segments [] follow
  rw [List.append_nil] at scans
  rw [scanWalFiles, sortedSegmentFiles_eq follow.sorted_files, scans]
  rfl

def LogicalWalState.at (position : LogicalWalState) (nextLsn : Nat) : LogicalWalState :=
  { position with nextLsn }

theorem LogicalWalState.adopt_at (position : LogicalWalState) (nextLsn : Nat)
    (file : ScannedWalFile) : (position.at nextLsn).adopt file = (position.adopt file).at nextLsn := by
  unfold LogicalWalState.adopt
  split <;> split <;> first | rfl | contradiction

theorem foldl_adopt_at (files : List ScannedWalFile) (position : LogicalWalState) (nextLsn : Nat) :
    files.foldl LogicalWalState.adopt (position.at nextLsn) =
      (files.foldl LogicalWalState.adopt position).at nextLsn := by
  induction files generalizing position with
  | nil => rfl
  | cons file files ih => rw [List.foldl_cons, List.foldl_cons, LogicalWalState.adopt_at, ih]

theorem adoptScan_eq (scan : ScanState) :
    adoptScan scan = (scan.files.foldl LogicalWalState.adopt {}).at (scan.lastLsn + 1) :=
  foldl_adopt_at scan.files {} (scan.lastLsn + 1)

theorem adoptScan_afterAll_concat (init : List (Segment config)) (last : Segment config) :
    adoptScan (({} : ScanState).afterAll (init ++ [last])) =
      ((adoptScan (({} : ScanState).afterAll init)).adopt
        (last.scanned (({} : ScanState).afterAll init).lastLsn)).at
          ((({} : ScanState).afterAll (init ++ [last])).lastLsn + 1) := by
  have files : (({} : ScanState).afterAll (init ++ [last])).files =
      (({} : ScanState).afterAll init).files ++
        [last.scanned (({} : ScanState).afterAll init).lastLsn] := by
    rw [ScanState.afterAll_concat]
    rfl
  rw [adoptScan_eq, adoptScan_eq, files, List.foldl_append, List.foldl_cons, List.foldl_nil,
    LogicalWalState.adopt_at]
  rfl

/-- The position `adoptScan` takes is at the end of the segments. -/
theorem ready_adoptScan (follow : SegmentsFollow {} segments) :
    Ready segments (adoptScan (({} : ScanState).afterAll segments)) := by
  have count := lastLsn_afterAll_start segments
  induction segments using List.reverseRec with
  | nil =>
    exact ⟨follow, rfl, fun _ => rfl, fun init last split => by simp at split, Nat.two_pow_pos 64⟩
  | append_singleton init last ih =>
    obtain ⟨before, follows⟩ := SegmentsFollow.concat.mp follow
    have ready := ih before (lastLsn_afterAll_start init)
    have newer := follows.id_gt
    rw [previousSegmentId_afterAll rfl ready.none fun init last split =>
      (ready.active init last split).1] at newer
    have adopts : (adoptScan (({} : ScanState).afterAll init)).activeSegment ≤
        (last.scanned (({} : ScanState).afterAll init).lastLsn).segmentId := newer.le
    rw [adoptScan_afterAll_concat, LogicalWalState.adopt, if_pos adopts]
    constructor
    case follow => exact follow
    case nextLsn =>
      rw [LogicalWalState.at, count]
    case none => exact fun empty => absurd empty (by simp)
    case active =>
      intro others final split
      obtain rfl : last = final := List.singleton_inj.mp (List.append_inj' split rfl).2
      exact ⟨rfl, last.validBytes_scanned (({} : ScanState).afterAll init).lastLsn,
        fun _ => rfl⟩
    case identity_lt => exact follows.identity_lt

/-- Files of whole segments open as they are. -/
theorem initializeLogicalWal_whole (follow : SegmentsFollow {} segments) :
    initializeLogicalWal config (segments.map Segment.file) =
      .ok (segments.map Segment.file, adoptScan (({} : ScanState).afterAll segments),
        (allRecords segments).map Placed.record) := by
  have records := @ScanState.records_afterAll config {} segments
  rw [initializeLogicalWal, scanWalFiles_segments follow]
  dsimp only
  rw [scanWalFiles_segments follow]
  dsimp only
  rw [records]
  rfl

/-- A partial tail is cut off once, and what is then left is opened. -/
theorem initializeLogicalWal_cut {files : List SegmentFile} {error : String} {state : ScanState}
    {tail : ScannedWalFile}
    (cut : scanWalFiles config files =
      .error (fileScanFailure true state tail error))
    (left : truncateTail files tail = segments.map Segment.file)
    (follow : SegmentsFollow {} segments) :
    initializeLogicalWal config files =
      .ok (segments.map Segment.file, adoptScan (({} : ScanState).afterAll segments),
        (allRecords segments).map Placed.record) := by
  have opened := initializeLogicalWal_whole follow
  rw [initializeLogicalWal, scanWalFiles_segments follow] at opened
  rw [initializeLogicalWal, cut, fileScanFailure, if_pos rfl]
  dsimp only
  rw [List.getLast?_concat]
  dsimp only
  rw [left, scanWalFiles_segments follow]
  dsimp only at opened ⊢
  rwa [scanWalFiles_segments follow] at opened

/-- A tail inside the log is not forgiven. -/
theorem initializeLogicalWal_corrupt {files : List SegmentFile} {error : String} {state : ScanState}
    {tail : ScannedWalFile}
    (torn : scanWalFiles config files = .error (fileScanFailure false state tail error)) :
    ∃ reason, initializeLogicalWal config files = .error reason := by
  rw [initializeLogicalWal, torn, fileScanFailure, if_neg Bool.false_ne_true]
  dsimp only
  rw [torn, fileScanFailure, if_neg Bool.false_ne_true]
  exact ⟨_, rfl⟩

theorem Segment.bytes_ne_nil (segment : Segment config) : segment.bytes ≠ [] := by
  intro empty
  have length := segment.length_bytes
  rw [empty, List.length_nil, kSegmentHeaderBytes] at length
  omega

/-- The scan of whole segments followed by other files. -/
theorem scanWalFiles_append {rest : List SegmentFile} (follow : SegmentsFollow {} segments)
    (sorted : (segments.map Segment.file ++ rest).Pairwise
      fun first second => first.name < second.name) :
    scanWalFiles config (segments.map Segment.file ++ rest) =
      scanFiles config (({} : ScanState).afterAll segments) rest := by
  rw [scanWalFiles, sortedSegmentFiles_eq sorted, scanFiles_segments rest follow]

/-- More files after whole segments, with larger numbers, keep the order. -/
theorem SegmentsFollow.sorted_append (follow : SegmentsFollow {} segments) {rest : List SegmentFile}
    (sorted : rest.Pairwise fun first second => first.name < second.name)
    (above : ∀ segment ∈ segments, ∀ file ∈ rest, segment.id < file.name) :
    (segments.map Segment.file ++ rest).Pairwise fun first second => first.name < second.name := by
  refine List.pairwise_append.mpr ⟨follow.sorted_files, sorted, ?_⟩
  intro first isFirst second isSecond
  obtain ⟨segment, member, rfl⟩ := List.mem_map.mp isFirst
  exact above segment member second isSecond

theorem SegmentsFollow.last_gt {last : Segment config} (follow : SegmentsFollow {} (init ++ [last])) :
    ∀ segment ∈ init, segment.id < last.id := fun segment member =>
  (List.pairwise_append.mp follow.pairwise.1).2.2 segment member last (.head _)

/-- The tail of the last file is resized to its whole records. -/
theorem truncateTail_last {files : List SegmentFile} {tail : ScannedWalFile} {bytes torn : Bytes}
    (others : ∀ file ∈ files, file.name ≠ tail.path) (size : tail.validBytes = bytes.length)
    (started : bytes ≠ []) :
    truncateTail (files ++ [⟨tail.path, bytes ++ torn⟩]) tail = files ++ [⟨tail.path, bytes⟩] := by
  have some : bytes.length ≠ 0 := fun empty => started (List.length_eq_zero_iff.mp empty)
  rw [truncateTail, size, if_neg some, List.map_append, List.map_singleton, if_pos rfl,
    List.take_left' rfl]
  congr 1
  refine (List.map_congr_left fun file member => ?_).trans (List.map_id files)
  rw [if_neg (others file member), id_eq]

/-- A log whose last file ends in a torn record. -/
theorem initializeLogicalWal_torn {base : Segment config} (follow : SegmentsFollow {} (init ++ [base]))
    {placed : Placed config} {torn : Bytes} (some : torn ≠ []) (isTorn : Torn torn placed.bytes) :
    initializeLogicalWal config (init.map Segment.file ++ [⟨base.id, base.bytes ++ torn⟩]) =
      .ok ((init ++ [base]).map Segment.file,
        adoptScan (({} : ScanState).afterAll (init ++ [base])),
        (allRecords (init ++ [base])).map Placed.record) := by
  obtain ⟨before, follows⟩ := SegmentsFollow.concat.mp follow
  have above : ∀ segment ∈ init, ∀ file ∈ [SegmentFile.mk base.id (base.bytes ++ torn)],
      segment.id < file.name := by
    intro segment member file isFile
    rw [List.mem_singleton.mp isFile]
    exact follow.last_gt segment member
  obtain ⟨error, fails⟩ := @scanFile_torn config true _ base follows placed torn some isTorn
  have cut : scanWalFiles config (init.map Segment.file ++ [⟨base.id, base.bytes ++ torn⟩]) =
      .error (fileScanFailure true ((({} : ScanState).afterAll init).inside base)
        (base.scanned (({} : ScanState).afterAll init).lastLsn) error) := by
    rw [scanWalFiles_append before (before.sorted_append (List.pairwise_singleton _ _) above),
      scanFiles, List.isEmpty_nil, fails]
    rfl
  refine initializeLogicalWal_cut cut ?_ follow
  have others : ∀ file ∈ init.map Segment.file,
      file.name ≠ (base.scanned (({} : ScanState).afterAll init).lastLsn).path := by
    intro file member
    obtain ⟨segment, isSegment, rfl⟩ := List.mem_map.mp member
    exact (follow.last_gt segment isSegment).ne
  rw [List.map_append, List.map_singleton]
  exact truncateTail_last others (base.validBytes_scanned _) base.bytes_ne_nil

/-- A log whose last file ends in its header. -/
theorem initializeLogicalWal_tornHeader (follow : SegmentsFollow {} segments) {name : Nat}
    {bytes : Bytes} (above : ∀ segment ∈ segments, segment.id < name)
    (short : bytes.length < kSegmentHeaderBytes) :
    initializeLogicalWal config (segments.map Segment.file ++ [⟨name, bytes⟩]) =
      .ok (segments.map Segment.file, adoptScan (({} : ScanState).afterAll segments),
        (allRecords segments).map Placed.record) := by
  have ordered : ∀ segment ∈ segments, ∀ file ∈ [SegmentFile.mk name bytes],
      segment.id < file.name := by
    intro segment member file isFile
    rw [List.mem_singleton.mp isFile]
    exact above segment member
  have cut : scanWalFiles config (segments.map Segment.file ++ [⟨name, bytes⟩]) =
      .error (fileScanFailure true (({} : ScanState).afterAll segments) { path := name }
        "partial WAL segment header") := by
    rw [scanWalFiles_append follow (follow.sorted_append (List.pairwise_singleton _ _) ordered),
      scanFiles, List.isEmpty_nil, scanFile_tornHeader short]
    rfl
  refine initializeLogicalWal_cut cut ?_ follow
  rw [truncateTail, if_pos rfl, List.filter_append]
  have gone : [SegmentFile.mk name bytes].filter (fun file => file.name != name) = [] := by simp
  rw [gone, List.append_nil]
  refine List.filter_eq_self.mpr fun file member => ?_
  obtain ⟨segment, isSegment, rfl⟩ := List.mem_map.mp member
  exact bne_iff_ne.mpr (above segment isSegment).ne

theorem Segment.Follows.take {state : ScanState} {base : Segment config}
    {more : List (Placed config)} (follows : (base.add more).Follows state) (m : Nat) :
    (base.add (more.take m)).Follows state where
  id_gt := follows.id_gt
  id_le := follows.id_le
  identity_lt := follows.identity_lt
  identity := follows.identity
  firstLsn := follows.firstLsn
  firstLsn_lt := follows.firstLsn_lt
  consecutive := by
    have all : Consecutive state.lastLsn (base.records ++ (more.take m ++ more.drop m)) := by
      rw [List.take_append_drop]
      exact follows.consecutive
    rw [← List.append_assoc] at all
    exact (Consecutive.append.mp all).1
  compatible := by
    intro placed member
    refine follows.compatible placed ?_
    rcases List.mem_append.mp member with old | new
    · exact List.mem_append_left _ old
    · exact List.mem_append_right _ (List.mem_of_mem_take new)

/-- A log whose last segment is followed by part of a run of records opens with
the whole records of that part. -/
theorem initializeLogicalWal_part {base : Segment config} {more : List (Placed config)}
    (follow : SegmentsFollow {} (init ++ [base.add more])) (k : Nat) :
    ∃ m, SegmentsFollow {} (init ++ [base.add (more.take m)]) ∧
      initializeLogicalWal config
          (init.map Segment.file ++ [⟨base.id, base.bytes ++ (recordBytes more).take k⟩]) =
        .ok ((init ++ [base.add (more.take m)]).map Segment.file,
          adoptScan (({} : ScanState).afterAll (init ++ [base.add (more.take m)])),
          (allRecords (init ++ [base.add (more.take m)])).map Placed.record) := by
  obtain ⟨before, follows⟩ := SegmentsFollow.concat.mp follow
  have followPart (m : Nat) : SegmentsFollow {} (init ++ [base.add (more.take m)]) :=
    SegmentsFollow.concat.mpr ⟨before, follows.take m⟩
  have opens (m : Nat) {torn : Bytes} {placed : Placed config} (isTorn : Torn torn placed.bytes) :
      initializeLogicalWal config (init.map Segment.file ++
          [⟨base.id, base.bytes ++ (recordBytes (more.take m) ++ torn)⟩]) =
        .ok ((init ++ [base.add (more.take m)]).map Segment.file,
          adoptScan (({} : ScanState).afterAll (init ++ [base.add (more.take m)])),
          (allRecords (init ++ [base.add (more.take m)])).map Placed.record) := by
    rw [← List.append_assoc, ← Segment.bytes_add]
    by_cases some : torn = []
    · have whole := initializeLogicalWal_whole (followPart m)
      rw [List.map_append, List.map_singleton] at whole ⊢
      rw [some, List.append_nil]
      exact whole
    · exact initializeLogicalWal_torn (followPart m) some isTorn
  rcases take_flatten (more.map Placed.bytes) k with ⟨m, torn, split, block, isBlock, isTorn⟩ | all
  · rw [List.getElem?_map, Option.map_eq_some_iff] at isBlock
    obtain ⟨placed, -, rfl⟩ := isBlock
    refine ⟨m, followPart m, ?_⟩
    rw [recordBytes, split, ← List.map_take]
    exact opens m isTorn
  · refine ⟨more.length, followPart _, ?_⟩
    have whole := initializeLogicalWal_whole (followPart more.length)
    rw [List.map_append, List.map_singleton, Segment.file, Segment.bytes_add] at whole
    rw [recordBytes, all, ← recordBytes, List.map_append, List.map_singleton, Segment.file,
      Segment.bytes_add]
    rw [List.take_length] at whole ⊢
    exact whole

/-! ## Files while a batch is written -/

/-- The file of a segment, all of it synced. -/
def Segment.syncedFile (segment : Segment config) : WalFile :=
  WalFile.sync { segment.file with }

/-- The file of a new segment before its first sync. -/
def Segment.newFile (segment : Segment config) : WalFile := { segment.file with }

/-- The file of a segment that was synced before these records were added. -/
def Segment.grownFile (segment : Segment config) (records : List (Placed config)) : WalFile :=
  { (segment.add records).file with synced := segment.bytes.length }

theorem appendWalBytes_last {disk : List WalFile} (file : WalFile) (bytes : Bytes)
    (others : ∀ other ∈ disk, other.name ≠ file.name) :
    appendWalBytes (disk ++ [file]) file.name bytes =
      disk ++ [{ file with bytes := file.bytes ++ bytes }] := by
  have found : ((disk ++ [file]).any fun other => other.name == file.name) = true := by simp
  rw [appendWalBytes, if_pos found, List.map_append, List.map_singleton, if_pos rfl]
  congr 1
  refine (List.map_congr_left fun other member => ?_).trans (List.map_id disk)
  rw [if_neg (others other member), id_eq]

theorem appendWalBytes_new {disk : List WalFile} {name : Nat} (bytes : Bytes)
    (others : ∀ other ∈ disk, other.name ≠ name) :
    appendWalBytes disk name bytes = disk ++ [{ name := name, bytes := bytes }] := by
  refine if_neg ?_
  rw [Bool.not_eq_true, List.any_eq_false]
  intro other member
  rw [beq_iff_eq]
  exact others other member

theorem writeChunks_fresh {disk : List WalFile} {fresh : List (Segment config)}
    (distinct : fresh.Pairwise fun first second => first.id < second.id)
    (above : ∀ file ∈ disk, ∀ segment ∈ fresh, file.name < segment.id) :
    writeChunks disk (fresh.map Segment.chunk) = disk ++ fresh.map Segment.newFile := by
  induction fresh generalizing disk with
  | nil => exact (List.append_nil disk).symm
  | cons segment fresh ih =>
    obtain ⟨first, distinct⟩ := List.pairwise_cons.mp distinct
    have opened : appendWalBytes disk segment.id segment.bytes = disk ++ [segment.newFile] :=
      appendWalBytes_new segment.bytes fun file member => (above file member segment (.head _)).ne
    have onward := @ih (disk ++ [segment.newFile]) distinct (by
      intro file member other isOther
      rcases List.mem_append.mp member with old | new
      · exact above file old other (.tail _ isOther)
      · rw [List.mem_singleton.mp new]
        exact first other isOther)
    rw [List.map_cons, writeChunks, List.foldl_cons, Segment.chunk, opened, ← writeChunks, onward,
      List.map_cons, List.append_assoc, List.singleton_append]

theorem syncChunks_eq (disk : List WalFile) (chunks : List (Nat × Bytes)) :
    syncChunks disk chunks =
      disk.map fun file => if file.name ∈ chunks.map Prod.fst then file.sync else file := by
  induction chunks generalizing disk with
  | nil =>
    refine ((List.map_congr_left fun file _ => ?_).trans (List.map_id disk)).symm
    rw [List.map_nil, if_neg List.not_mem_nil, id_eq]
  | cons chunk chunks ih =>
    rw [syncChunks, List.foldl_cons, ← syncChunks, ih, syncWalFile, List.map_map]
    refine List.map_congr_left fun file _ => ?_
    by_cases here : file.name = chunk.1
    · have first : (if file.name = chunk.1 then file.sync else file) = file.sync := if_pos here
      have named : file.name ∈ (chunk :: chunks).map Prod.fst := here ▸ .head _
      rw [Function.comp_apply, first, if_pos named]
      split <;> rfl
    · have first : (if file.name = chunk.1 then file.sync else file) = file := if_neg here
      have same : file.name ∈ (chunk :: chunks).map Prod.fst ↔
          file.name ∈ chunks.map Prod.fst := by simp [here]
      rw [Function.comp_apply, first]
      exact if_congr same.symm rfl rfl

theorem afterCrash_synced (segments : List (Segment config)) (kept : Nat → Nat) :
    afterCrash (segments.map Segment.syncedFile) kept = segments.map Segment.file := by
  rw [afterCrash, List.map_map]
  refine List.map_congr_left fun segment _ => ?_
  have whole : segment.bytes.length ≤ max segment.bytes.length (kept segment.id) := le_max_left _ _
  have kept : segment.bytes.take (max segment.bytes.length (kept segment.id)) = segment.bytes :=
    List.take_of_length_le whole
  exact congrArg (SegmentFile.mk segment.id) kept

/-! ## A batch for one file -/

/-- Until the batch is acknowledged its only file has some part of the chunk. -/
theorem inFlight_single (disk : List WalFile) (name : Nat) (bytes : Bytes) (stage : Stage) :
    inFlight disk [(name, bytes)] stage = disk ∨
      ∃ k, inFlight disk [(name, bytes)] stage = appendWalBytes disk name (bytes.take k) ∨
        inFlight disk [(name, bytes)] stage =
          syncWalFile (appendWalBytes disk name (bytes.take k)) name := by
  obtain ⟨written, part, synced⟩ := stage
  cases written with
  | zero =>
    cases part with
    | none => exact .inl rfl
    | some length => exact .inr ⟨length, .inl rfl⟩
  | succ written =>
    refine .inr ⟨bytes.length, ?_⟩
    rw [List.take_length]
    cases synced with
    | zero =>
      refine .inl ?_
      simp [inFlight, writeChunks, syncChunks]
    | succ synced =>
      refine .inr ?_
      simp [inFlight, writeChunks, syncChunks]

/-- A crash cuts a file that grew somewhere in the growth. -/
theorem take_grown (old more : Bytes) (synced j k : Nat) (kept : old.length ≤ synced) :
    ∃ m, (old ++ more.take k).take (max synced j) = old ++ more.take m := by
  refine ⟨min (max synced j - old.length) k, ?_⟩
  rw [List.take_append, List.take_of_length_le (kept.trans (le_max_left _ _)), List.take_take]

theorem afterCrash_concat (segments : List (Segment config)) (file : WalFile) (kept : Nat → Nat) :
    afterCrash (segments.map Segment.syncedFile ++ [file]) kept = segments.map Segment.file ++
      [⟨file.name, file.bytes.take (max file.synced (kept file.name))⟩] := by
  rw [← afterCrash_synced segments kept, afterCrash, List.map_append]
  rfl

theorem syncWalFile_last {disk : List WalFile} (file : WalFile)
    (others : ∀ other ∈ disk, other.name ≠ file.name) :
    syncWalFile (disk ++ [file]) file.name = disk ++ [file.sync] := by
  rw [syncWalFile, List.map_append, List.map_singleton, if_pos rfl]
  congr 1
  refine (List.map_congr_left fun other member => ?_).trans (List.map_id disk)
  rw [if_neg (others other member), id_eq]

theorem names_syncedFile {name : Nat} (above : ∀ segment ∈ segments, segment.id < name) :
    ∀ file ∈ segments.map Segment.syncedFile, file.name ≠ name := by
  intro file member
  obtain ⟨segment, isSegment, rfl⟩ := List.mem_map.mp member
  exact (above segment isSegment).ne

/-- A file of which so much was synced, and which then got part of a chunk, after
a crash. -/
theorem afterCrash_grown {name : Nat} (above : ∀ segment ∈ segments, segment.id < name)
    (old more : Bytes) (k : Nat) (kept : Nat → Nat) {disk : List WalFile}
    (grown : disk = segments.map Segment.syncedFile ++
        [{ name := name, bytes := old ++ more.take k, synced := old.length }] ∨
      disk = syncWalFile (segments.map Segment.syncedFile ++
        [{ name := name, bytes := old ++ more.take k, synced := old.length }]) name) :
    ∃ m, afterCrash disk kept = segments.map Segment.file ++ [⟨name, old ++ more.take m⟩] := by
  rcases grown with rfl | rfl
  · rw [afterCrash_concat]
    obtain ⟨m, cut⟩ := take_grown old more old.length (kept name) k le_rfl
    exact ⟨m, by rw [cut]⟩
  · have synced := syncWalFile_last
      { name := name, bytes := old ++ more.take k, synced := old.length } (names_syncedFile above)
    rw [synced, afterCrash_concat]
    have longer : old.length ≤ (old ++ more.take k).length := by
      rw [List.length_append]
      omega
    obtain ⟨m, cut⟩ := take_grown old more (old ++ more.take k).length (kept name) k longer
    refine ⟨m, ?_⟩
    dsimp only [WalFile.sync]
    rw [cut]

/-- A crash while one chunk goes to the last file. -/
theorem afterCrash_last {last : Segment config} (above : ∀ segment ∈ init, segment.id < last.id)
    (bytes : Bytes) (stage : Stage) (kept : Nat → Nat) :
    ∃ k, afterCrash (inFlight ((init ++ [last]).map Segment.syncedFile) [(last.id, bytes)] stage)
        kept = init.map Segment.file ++ [⟨last.id, last.bytes ++ bytes.take k⟩] := by
  have append (k : Nat) : appendWalBytes ((init ++ [last]).map Segment.syncedFile) last.id
      (bytes.take k) = init.map Segment.syncedFile ++
        [{ name := last.id, bytes := last.bytes ++ bytes.take k, synced := last.bytes.length }] := by
    rw [List.map_append, List.map_singleton]
    exact appendWalBytes_last last.syncedFile (bytes.take k) (names_syncedFile above)
  rcases inFlight_single ((init ++ [last]).map Segment.syncedFile) last.id bytes stage with
    same | ⟨k, grown⟩
  · refine ⟨0, ?_⟩
    rw [same, afterCrash_synced, List.map_append, List.map_singleton, List.take_zero, List.append_nil]
    rfl
  · rw [append] at grown
    exact afterCrash_grown above last.bytes bytes k kept grown

/-- A crash while one chunk goes to a new file. -/
theorem afterCrash_new {name : Nat} (above : ∀ segment ∈ segments, segment.id < name)
    (bytes : Bytes) (stage : Stage) (kept : Nat → Nat) :
    afterCrash (inFlight (segments.map Segment.syncedFile) [(name, bytes)] stage) kept =
        segments.map Segment.file ∨
      ∃ k, afterCrash (inFlight (segments.map Segment.syncedFile) [(name, bytes)] stage) kept =
        segments.map Segment.file ++ [⟨name, bytes.take k⟩] := by
  have append (k : Nat) : appendWalBytes (segments.map Segment.syncedFile) name (bytes.take k) =
      segments.map Segment.syncedFile ++
        [{ name := name, bytes := [] ++ bytes.take k, synced := ([] : Bytes).length }] :=
    appendWalBytes_new (bytes.take k) (names_syncedFile above)
  rcases inFlight_single (segments.map Segment.syncedFile) name bytes stage with same | ⟨k, grown⟩
  · rw [same]
    exact .inl (afterCrash_synced segments kept)
  · rw [append] at grown
    exact .inr (afterCrash_grown above [] bytes k kept grown)

/-! ## The invariant -/

/-- The log holds these segments, all synced, is at their end, and has shown
their records. -/
structure Intact (wal : LogicalWal) (segments : List (Segment config)) : Prop where
  disk : wal.disk = segments.map Segment.syncedFile
  ready : Ready segments wal.state
  acknowledged : wal.acknowledged = (allRecords segments).map Placed.record

theorem intact_start : Intact {} ([] : List (Segment config)) where
  disk := rfl
  ready := ⟨trivial, rfl, fun _ => rfl, fun init last split => by simp at split, Nat.two_pow_pos 64⟩
  acknowledged := rfl

variable {wal : LogicalWal} {batch : Batch config} {cursor : Cursor} {added : List (Placed config)}
  {fresh : List (Segment config)}

/-- What the layout of a batch over an intact log is. -/
theorem Intact.planned (intact : Intact wal segments)
    (room : wal.state.nextLsn + batch.length < 2 ^ 64) (done : layOut wal.state batch = .ok cursor) :
    ∃ added fresh, Planned segments cursor added fresh ∧
      (added ++ allRecords fresh).map Placed.record = batchRecords wal.state.nextLsn batch := by
  obtain ⟨added, fresh, planned, records⟩ := intact.ready.planned.layOut room done
  exact ⟨added, fresh, planned, records⟩

theorem Planned.fresh_above (planned : Planned segments cursor added fresh) :
    fresh.Pairwise (fun first second => first.id < second.id) ∧
      ∀ segment ∈ segments, ∀ new ∈ fresh, segment.id < new.id := by
  obtain ⟨-, sorted, above⟩ := List.pairwise_append.mp planned.ready.follow.pairwise.1
  refine ⟨sorted, fun segment member new isNew => ?_⟩
  rcases List.eq_nil_or_concat' segments with rfl | ⟨init, last, rfl⟩
  · cases member
  · rw [extendLast_concat] at above
    rcases List.mem_append.mp member with inside | isLast
    · exact above segment (List.mem_append_left _ inside) new isNew
    · rw [List.mem_singleton.mp isLast]
      exact above (last.add added) (List.mem_append_right _ (.head _)) new isNew

/-- The files once every chunk of a batch is written. -/
theorem Planned.writeChunks_concat {last : Segment config}
    (planned : Planned (init ++ [last]) cursor added fresh) :
    writeChunks ((init ++ [last]).map Segment.syncedFile) cursor.chunks =
      init.map Segment.syncedFile ++ [last.grownFile added] ++ fresh.map Segment.newFile := by
  obtain ⟨sorted, above⟩ := planned.fresh_above
  have before : ∀ segment ∈ init, segment.id < last.id := by
    have follow := planned.ready.follow
    rw [extendLast_concat] at follow
    exact (SegmentsFollow.append.mp follow).1.last_gt
  have extended : writeChunks ((init ++ [last]).map Segment.syncedFile)
      (extendChunk (init ++ [last]) added) =
        init.map Segment.syncedFile ++ [last.grownFile added] := by
    rw [List.map_append, List.map_singleton]
    cases added with
    | nil =>
      rw [extendChunk_nil, Segment.grownFile, Segment.add_nil]
      rfl
    | cons placed rest =>
      rw [extendChunk_concat init last (List.cons_ne_nil _ _), Segment.grownFile, Segment.file,
        Segment.bytes_add]
      exact appendWalBytes_last last.syncedFile _ (names_syncedFile before)
  have split : writeChunks ((init ++ [last]).map Segment.syncedFile)
      (extendChunk (init ++ [last]) added ++ fresh.map Segment.chunk) =
        writeChunks (writeChunks ((init ++ [last]).map Segment.syncedFile)
          (extendChunk (init ++ [last]) added)) (fresh.map Segment.chunk) := List.foldl_append
  rw [planned.chunks, split, extended]
  refine writeChunks_fresh sorted fun file member new isNew => ?_
  rcases List.mem_append.mp member with old | isLast
  · obtain ⟨segment, inside, rfl⟩ := List.mem_map.mp old
    exact above segment (List.mem_append_left _ inside) new isNew
  · rw [List.mem_singleton.mp isLast]
    exact above last (List.mem_append_right _ (.head _)) new isNew

theorem Planned.writeChunks_nil (planned : Planned [] cursor added fresh) :
    writeChunks [] cursor.chunks = fresh.map Segment.newFile := by
  rw [planned.chunks, planned.none rfl]
  exact writeChunks_fresh planned.fresh_above.1 fun _ member => nomatch member

/-- The files once every one of them is synced. -/
theorem Planned.syncChunks (planned : Planned segments cursor added fresh) :
    syncChunks (writeChunks (segments.map Segment.syncedFile) cursor.chunks) cursor.chunks =
      (extendLast segments added ++ fresh).map Segment.syncedFile := by
  have names : cursor.chunks.map Prod.fst =
      (extendChunk segments added).map Prod.fst ++ fresh.map Segment.id := by
    rw [planned.chunks, List.map_append, List.map_map]
    rfl
  have news : (fresh.map Segment.newFile).map (fun file =>
      if file.name ∈ cursor.chunks.map Prod.fst then file.sync else file) =
        fresh.map Segment.syncedFile := by
    rw [List.map_map]
    refine List.map_congr_left fun segment member => if_pos ?_
    rw [names]
    exact List.mem_append_right _ (List.mem_map_of_mem member)
  rw [syncChunks_eq, List.map_append]
  rcases List.eq_nil_or_concat' segments with rfl | ⟨init, last, rfl⟩
  · rw [List.map_nil, planned.writeChunks_nil, news]
    rfl
  · rw [planned.writeChunks_concat, List.map_append, news, extendLast_concat, List.map_append,
      List.map_append, List.map_singleton, List.map_singleton]
    congr 2
    · rw [List.map_map]
      refine List.map_congr_left fun segment _ => ?_
      rw [Function.comp_apply]
      split <;> rfl
    · congr 1
      cases added with
      | nil =>
        rw [Segment.grownFile, Segment.add_nil]
        split <;> rfl
      | cons placed rest =>
        refine if_pos ?_
        rw [names, extendChunk_concat init last (List.cons_ne_nil _ _)]
        exact .head _

theorem Planned.records_laid (planned : Planned segments cursor added fresh) :
    allRecords (extendLast segments added ++ fresh) =
      allRecords segments ++ (added ++ allRecords fresh) := by
  rw [allRecords_append, ← List.append_assoc]
  congr 1
  rcases List.eq_nil_or_concat' segments with rfl | ⟨init, last, rfl⟩
  · rw [planned.none rfl, List.append_nil]
    rfl
  · rw [extendLast_concat, allRecords_append, allRecords_append, allRecords_singleton,
      allRecords_singleton, List.append_assoc]
    rfl

/-- An acknowledged batch leaves the log intact. -/
theorem Intact.append (intact : Intact wal segments)
    (room : wal.state.nextLsn + batch.length < 2 ^ 64) :
    ∃ segments : List (Segment config), Intact (wal.append batch) segments := by
  unfold LogicalWal.append
  cases done : layOut wal.state batch with
  | error reason => exact ⟨segments, intact⟩
  | ok cursor =>
    obtain ⟨added, fresh, planned, records⟩ := intact.planned room done
    refine ⟨extendLast segments added ++ fresh, ?_, planned.ready, ?_⟩
    · rw [intact.disk]
      exact planned.syncChunks
    · rw [intact.acknowledged, ← records, ← List.map_append, planned.records_laid]

/-! ## A crash -/

/-- Opening the files succeeds, leaves these segments, and shows their records. -/
structure Opens (files : List SegmentFile) (segments : List (Segment config)) : Prop where
  follow : SegmentsFollow {} segments
  opened : initializeLogicalWal config files =
    .ok (segments.map Segment.file, adoptScan (({} : ScanState).afterAll segments),
      (allRecords segments).map Placed.record)

/-- A crash while a batch goes to the last file. -/
theorem Planned.crash_last {last : Segment config}
    (planned : Planned (init ++ [last]) cursor added fresh) (stage : Stage) (kept : Nat → Nat) :
    ∃ m, Opens (afterCrash (inFlight ((init ++ [last]).map Segment.syncedFile)
        [(last.id, recordBytes added)] stage) kept) (init ++ [last.add (added.take m)]) := by
  have follow := planned.ready.follow
  rw [extendLast_concat] at follow
  have kept_follow := (SegmentsFollow.append.mp follow).1
  obtain ⟨k, crashed⟩ := @afterCrash_last config init last kept_follow.last_gt (recordBytes added)
    stage kept
  obtain ⟨m, partFollow, opened⟩ := initializeLogicalWal_part kept_follow k
  exact ⟨m, partFollow, crashed ▸ opened⟩

/-- A crash while a batch goes to a new file. -/
theorem Planned.crash_new {new : Segment config} (planned : Planned segments cursor [] [new])
    (stage : Stage) (kept : Nat → Nat) :
    ∃ left m, Opens (afterCrash (inFlight (segments.map Segment.syncedFile) [new.chunk] stage) kept)
        left ∧ allRecords left = allRecords segments ++ new.records.take m := by
  have follow := planned.ready.follow
  rw [extendLast_nil] at follow
  have before := (SegmentsFollow.append.mp follow).1
  have nothing : allRecords segments = allRecords segments ++ new.records.take 0 := by
    rw [List.take_zero, List.append_nil]
  rcases afterCrash_new follow.last_gt new.bytes stage kept with same | ⟨k, grown⟩
  · refine ⟨segments, 0, ⟨before, ?_⟩, nothing⟩
    rw [Segment.chunk, same]
    exact initializeLogicalWal_whole before
  · rw [Segment.chunk, grown]
    by_cases short : k < kSegmentHeaderBytes
    · refine ⟨segments, 0, ⟨before, ?_⟩, nothing⟩
      refine initializeLogicalWal_tornHeader before follow.last_gt ?_
      rw [List.length_take]
      omega
    · -- The header is whole: an empty segment followed by part of the records.
      have base : ({ new with records := [] } : Segment config).add new.records = new := rfl
      have bytes : new.bytes.take k = ({ new with records := [] } : Segment config).bytes ++
          (recordBytes new.records).take (k - kSegmentHeaderBytes) := by
        have empty : ({ new with records := [] } : Segment config).bytes = new.header :=
          List.append_nil _
        rw [empty, Segment.bytes, List.take_append, new.length_header,
          List.take_of_length_le (by rw [new.length_header]; omega)]
      rw [← base] at follow
      obtain ⟨m, partFollow, opened⟩ := initializeLogicalWal_part follow (k - kSegmentHeaderBytes)
      refine ⟨_, m, ⟨partFollow, ?_⟩, ?_⟩
      · rw [bytes]
        exact opened
      · rw [allRecords_append, allRecords_singleton]
        rfl

theorem afterCrash_nil (follow : SegmentsFollow {} segments) (stage : Stage) (kept : Nat → Nat) :
    Opens (afterCrash (inFlight (segments.map Segment.syncedFile) [] stage) kept) segments := by
  refine ⟨follow, ?_⟩
  have same : inFlight (segments.map Segment.syncedFile) [] stage =
      segments.map Segment.syncedFile := by simp [inFlight, writeChunks, syncChunks]
  rw [same, afterCrash_synced]
  exact initializeLogicalWal_whole follow

/-- A crash during a batch for one file. -/
theorem Planned.crash (planned : Planned segments cursor added fresh)
    (follow : SegmentsFollow {} segments) (single : cursor.chunks.length ≤ 1) (stage : Stage)
    (kept : Nat → Nat) :
    ∃ left n,
      Opens (afterCrash (inFlight (segments.map Segment.syncedFile) cursor.chunks stage) kept) left ∧
      allRecords left = allRecords segments ++ (added ++ allRecords fresh).take n := by
  rw [planned.chunks] at single ⊢
  cases fresh with
  | nil =>
    rw [List.map_nil, List.append_nil] at single ⊢
    rcases List.eq_nil_or_concat' segments with rfl | ⟨init, last, rfl⟩
    · rw [planned.none rfl]
      exact ⟨[], 0, afterCrash_nil follow stage kept, rfl⟩
    · by_cases some : added = []
      · rw [some, extendChunk_nil]
        exact ⟨_, 0, afterCrash_nil follow stage kept, (List.append_nil _).symm⟩
      · rw [extendChunk_concat init last some]
        obtain ⟨m, opens⟩ := planned.crash_last stage kept
        refine ⟨_, m, opens, ?_⟩
        rw [allRecords_append, allRecords_append, allRecords_singleton, allRecords_singleton,
          List.append_assoc, show allRecords ([] : List (Segment config)) = [] from rfl,
          List.append_nil]
        rfl
  | cons new others =>
    obtain ⟨none, rfl⟩ : extendChunk segments added = [] ∧ others = [] := by
      rw [List.length_append, List.map_cons, List.length_cons, List.length_map] at single
      exact ⟨List.length_eq_zero_iff.mp (by omega), List.length_eq_zero_iff.mp (by omega)⟩
    obtain rfl : added = [] := by
      rcases List.eq_nil_or_concat' segments with rfl | ⟨init, last, rfl⟩
      · exact planned.none rfl
      · by_contra some
        rw [extendChunk_concat init last some] at none
        cases none
    rw [none]
    obtain ⟨left, m, opens, records⟩ := planned.crash_new stage kept
    refine ⟨left, m, opens, ?_⟩
    rw [records, allRecords_singleton, List.nil_append]

theorem Intact.crash (intact : Intact wal segments)
    (room : wal.state.nextLsn + batch.length < 2 ^ 64) (single : (wal.chunks batch).length ≤ 1)
    (stage : Stage) (kept : Nat → Nat) :
    ∃ (left : List (Segment config)) (n : Nat),
      Opens (afterCrash (inFlight wal.disk (wal.chunks batch) stage) kept) left ∧
      (allRecords left).map Placed.record = wal.acknowledged ++ (wal.records batch).take n := by
  rw [intact.acknowledged, intact.disk]
  rw [LogicalWal.chunks] at single
  rw [LogicalWal.chunks, LogicalWal.records]
  cases done : layOut wal.state batch with
  | error reason =>
    exact ⟨segments, 0, afterCrash_nil intact.ready.follow stage kept, (List.append_nil _).symm⟩
  | ok cursor =>
    rw [done] at single
    obtain ⟨added, fresh, planned, records⟩ := intact.planned room done
    obtain ⟨left, n, opens, shown⟩ := planned.crash intact.ready.follow single stage kept
    refine ⟨left, n, opens, ?_⟩
    rw [shown, List.map_append, List.map_take, records]

/-- A torn file that is not the last one makes the log unreadable. -/
theorem initializeLogicalWal_tornInside {torn : SegmentFile} {rest : List SegmentFile}
    {state : ScanState} {file : ScannedWalFile} {error : String} (follow : SegmentsFollow {} segments)
    (sorted : (torn :: rest).Pairwise fun first second => first.name < second.name)
    (above : ∀ segment ∈ segments, ∀ file ∈ torn :: rest, segment.id < file.name)
    (notLast : rest ≠ [])
    (fails : scanFile config false (({} : ScanState).afterAll segments) torn =
      .error (fileScanFailure false state file error)) :
    ∃ reason, initializeLogicalWal config (segments.map Segment.file ++ torn :: rest) =
      .error reason := by
  refine @initializeLogicalWal_corrupt config _ error state file ?_
  rw [scanWalFiles_append follow (follow.sorted_append sorted above), scanFiles,
    List.isEmpty_eq_false_iff.mpr notLast, fails]
  rfl

theorem afterCrash_append (first second : List WalFile) (kept : Nat → Nat) :
    afterCrash (first ++ second) kept = afterCrash first kept ++ afterCrash second kept :=
  List.map_append

/-- A file that was created and of which nothing was kept. -/
def Segment.lostFile (segment : Segment config) : SegmentFile := ⟨segment.id, []⟩

theorem afterCrash_lost {kept : Nat → Nat} (lost : ∀ segment ∈ fresh, kept segment.id = 0) :
    afterCrash (fresh.map Segment.newFile) kept = fresh.map Segment.lostFile := by
  rw [afterCrash, List.map_map]
  refine List.map_congr_left fun segment member => ?_
  have none : segment.bytes.take (max 0 (kept segment.id)) = [] := by
    rw [lost segment member, max_self, List.take_zero]
  exact congrArg (SegmentFile.mk segment.id) none

theorem Planned.sorted_lost (planned : Planned segments cursor added fresh) :
    (fresh.map Segment.lostFile).Pairwise fun first second => first.name < second.name :=
  List.pairwise_map.mpr planned.fresh_above.1

/-- Every chunk written and none synced. -/
theorem inFlight_written (disk : List WalFile) (chunks : List (Nat × Bytes)) :
    inFlight disk chunks ⟨chunks.length, none, 0⟩ = writeChunks disk chunks := by
  simp [inFlight, syncChunks]

theorem take_one_torn (placed : Placed config) (rest : List (Placed config)) :
    (recordBytes (placed :: rest)).take 1 ≠ [] ∧
      Torn ((recordBytes (placed :: rest)).take 1) placed.bytes := by
  have length := placed.length_bytes
  have first : (recordBytes (placed :: rest)).take 1 = placed.bytes.take 1 := by
    rw [recordBytes, List.map_cons, List.flatten_cons, List.take_append_of_le_length (by omega)]
  rw [first]
  refine ⟨fun empty => ?_, 1, by omega, rfl⟩
  have short := congrArg List.length empty
  rw [List.length_take, List.length_nil] at short
  omega

/-- The file that a batch goes on from can be torn when the next one is there. -/
theorem Planned.crash_extending {last : Segment config}
    (planned : Planned (init ++ [last]) cursor added fresh)
    (follow : SegmentsFollow {} (init ++ [last])) (some : added ≠ []) (more : fresh ≠ []) :
    ∃ kept reason, initializeLogicalWal config
      (afterCrash (writeChunks ((init ++ [last]).map Segment.syncedFile) cursor.chunks) kept) =
        .error reason := by
  obtain ⟨before, follows⟩ := SegmentsFollow.concat.mp follow
  obtain ⟨-, above⟩ := planned.fresh_above
  have lastBelow : ∀ new ∈ fresh, last.id < new.id := above last (List.mem_append_right _ (.head _))
  let kept (name : Nat) : Nat := if name = last.id then last.bytes.length + 1 else 0
  have lost : afterCrash (fresh.map Segment.newFile) kept = fresh.map Segment.lostFile :=
    afterCrash_lost fun new isNew => if_neg (lastBelow new isNew).ne'
  have torn : (last.add added).bytes.take (max last.bytes.length (kept last.id)) =
      last.bytes ++ (recordBytes added).take 1 := by
    have one : max last.bytes.length (kept last.id) = last.bytes.length + 1 := by
      rw [show kept last.id = last.bytes.length + 1 from if_pos rfl]
      exact max_eq_right (Nat.le_succ _)
    rw [one, Segment.bytes_add, List.take_length_add_append]
  have grown : afterCrash (init.map Segment.syncedFile ++ [last.grownFile added]) kept =
      init.map Segment.file ++ [⟨last.id, last.bytes ++ (recordBytes added).take 1⟩] := by
    rw [afterCrash_concat, ← torn]
    rfl
  have crashed : afterCrash (writeChunks ((init ++ [last]).map Segment.syncedFile) cursor.chunks)
      kept = init.map Segment.file ++ ⟨last.id, last.bytes ++ (recordBytes added).take 1⟩ ::
        fresh.map Segment.lostFile := by
    rw [planned.writeChunks_concat, afterCrash_append, grown, lost, List.append_assoc,
      List.singleton_append]
  refine ⟨kept, ?_⟩
  rw [crashed]
  cases added with
  | nil => exact absurd rfl some
  | cons placed rest =>
    obtain ⟨someBytes, isTorn⟩ := take_one_torn placed rest
    obtain ⟨error, fails⟩ := @scanFile_torn config false _ last follows placed _ someBytes isTorn
    refine initializeLogicalWal_tornInside before ?_ ?_ (by simpa using more) fails
    · refine List.pairwise_cons.mpr ⟨fun file member => ?_, planned.sorted_lost⟩
      obtain ⟨new, isNew, rfl⟩ := List.mem_map.mp member
      exact lastBelow new isNew
    · intro segment inside file member
      rcases List.mem_cons.mp member with rfl | member
      · exact follow.last_gt segment inside
      · obtain ⟨new, isNew, rfl⟩ := List.mem_map.mp member
        exact above segment (List.mem_append_left _ inside) new isNew

/-- The first of several new files can be torn when the next one is there. -/
theorem Planned.crash_opening {first second : Segment config}
    (planned : Planned segments cursor [] (first :: second :: fresh))
    (follow : SegmentsFollow {} segments) :
    ∃ kept reason, initializeLogicalWal config
      (afterCrash (writeChunks (segments.map Segment.syncedFile) cursor.chunks) kept) =
        .error reason := by
  obtain ⟨sorted, above⟩ := planned.fresh_above
  have written : writeChunks (segments.map Segment.syncedFile) cursor.chunks =
      segments.map Segment.syncedFile ++ (first :: second :: fresh).map Segment.newFile := by
    rw [planned.chunks, extendChunk_nil, List.nil_append]
    refine writeChunks_fresh sorted fun file member new isNew => ?_
    obtain ⟨segment, inside, rfl⟩ := List.mem_map.mp member
    exact above segment inside new isNew
  refine ⟨fun _ => 0, ?_⟩
  rw [written, afterCrash_append, afterCrash_synced, afterCrash_lost fun _ _ => rfl]
  refine initializeLogicalWal_tornInside follow planned.sorted_lost ?_ (by simp)
    (scanFile_tornHeader (Nat.zero_lt_succ 31))
  intro segment inside file member
  have lost : file ∈ (first :: second :: fresh).map Segment.lostFile := member
  obtain ⟨new, isNew, rfl⟩ := List.mem_map.mp lost
  exact above segment inside new isNew

/-- A batch for several files: the first of them can be torn while the next one
is there. -/
theorem Planned.crash_spanning (planned : Planned segments cursor added fresh)
    (follow : SegmentsFollow {} segments) (several : 1 < cursor.chunks.length) :
    ∃ kept reason, initializeLogicalWal config
      (afterCrash (writeChunks (segments.map Segment.syncedFile) cursor.chunks) kept) =
        .error reason := by
  have count := congrArg List.length planned.chunks
  rw [List.length_append, List.length_map] at count
  by_cases some : added = []
  · subst some
    rw [extendChunk_nil, List.length_nil] at count
    match fresh, planned with
    | [], _ =>
      rw [List.length_nil] at count
      omega
    | [_], _ =>
      rw [List.length_singleton] at count
      omega
    | first :: second :: fresh, planned => exact planned.crash_opening follow
  · rcases List.eq_nil_or_concat' segments with rfl | ⟨init, last, rfl⟩
    · exact absurd (planned.none rfl) some
    · refine planned.crash_extending follow some fun none => ?_
      rw [extendChunk_concat init last some, none, List.length_singleton, List.length_nil] at count
      omega

/-- A log that recovers from every crash of a batch writes it to one file. -/
theorem Intact.single_of_recovers (intact : Intact wal segments)
    (room : wal.state.nextLsn + batch.length < 2 ^ 64) (recovers : wal.Recovers batch) :
    (wal.chunks batch).length ≤ 1 := by
  by_contra several
  rw [Nat.not_le] at several
  have fails : ∃ kept reason, initializeLogicalWal config
      (afterCrash (inFlight wal.disk (wal.chunks batch) ⟨(wal.chunks batch).length, none, 0⟩) kept) =
        .error reason := by
    rw [inFlight_written]
    rw [LogicalWal.chunks] at several ⊢
    cases done : layOut wal.state batch with
    | error reason =>
      rw [done] at several
      exact absurd several (by simp)
    | ok cursor =>
      rw [done] at several
      obtain ⟨added, fresh, planned, -⟩ := intact.planned room done
      rw [intact.disk]
      exact planned.crash_spanning intact.ready.follow several
  obtain ⟨kept, reason, fails⟩ := fails
  obtain ⟨files, state, n, opened, -⟩ := recovers ⟨(wal.chunks batch).length, none, 0⟩ kept
  rw [fails] at opened
  cases opened

end PacificDb.Wal
