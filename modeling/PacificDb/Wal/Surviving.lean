import Mathlib.Data.List.Induction
import PacificDb.Wal.Logical
import PacificDb.Wal.Crash

/-!
# What is left of a log

A reclaim removes the oldest segments, so that the first one left need not carry on
from the legacy file, or from the start of the log: the LSNs jump there, to an
origin. From the origin on the segments follow each other as in a log that was never
reclaimed.
-/

namespace PacificDb.Wal

open Lib

variable {config : WalConfig} {truncate : Nat → Int} {state start : ScanState}
  {segments : List (Segment config)} {finalFile : Bool} {origin : Nat}

/-! ## Scanning over a jump -/

def ScanState.from (state : ScanState) (origin : Nat) : ScanState := { state with lastLsn := origin }

/-- The first segment after a jump is scanned as if its LSNs carried on. -/
theorem scanFile_jump {segment : Segment config} (low : state.lastLsn ≤ origin)
    (follows : segment.Follows (state.from origin)) :
    scanFile config finalFile state segment.file = .ok ((state.from origin).after segment) := by
  have starts : segment.firstLsn = origin + 1 := follows.firstLsn
  have ranged : segment.firstLsn ≠ 0 := by omega
  have idLt := follows.id_le.trans_lt follows.firstLsn_lt
  have whole := @scanFile_whole config finalFile (state.from origin) segment follows
  have here := @scanFile_header config state finalFile segment follows.id_gt idLt ranged
    follows.firstLsn_lt follows.identity_lt follows.identity []
  have there := @scanFile_header config (state.from origin) finalFile segment follows.id_gt idLt
    ranged follows.firstLsn_lt follows.identity_lt follows.identity []
  rw [List.append_nil] at here there
  rw [Segment.file] at whole ⊢
  rw [← whole, here, there]
  cases split : segment.records with
  | nil =>
    have entered : segment.entered.firstLsn = origin + 1 := starts
    have max₁ : max state.lastLsn (segment.entered.firstLsn - 1) = origin := by omega
    have max₂ : max origin (segment.entered.firstLsn - 1) = origin := by omega
    have none : segment.entered.endLsn = 0 ∧ 0 < segment.entered.firstLsn := ⟨rfl, by omega⟩
    rw [show recordBytes ([] : List (Placed config)) ++ [] = [] from rfl, scanFrames, scanFrames,
      readFrame]
    dsimp only [finishFile, ScanState.from]
    rw [if_pos none, if_pos none, max₁, max₂]
  | cons placed rest =>
    have bytes : recordBytes (placed :: rest) ++ [] = placed.bytes ++ recordBytes rest := by
      rw [List.append_nil, recordBytes, List.map_cons, List.flatten_cons, ← recordBytes]
    have consecutive := follows.consecutive
    have compatible := follows.compatible
    rw [split] at consecutive compatible
    have lsn : placed.lsn = origin + 1 := consecutive.1
    have own : placed.Compatible segment.entered.identityHash := compatible placed (.head _)
    have first : true = true → placed.lsn = segment.entered.firstLsn := fun _ =>
      lsn.trans starts.symm
    rw [bytes, scanFrames_above _ _ (by dsimp only; omega) own first ranged,
      scanFrames_above _ _ (by dsimp only [ScanState.from]; omega) own first ranged]
    rfl

/-- The segments after a jump. -/
theorem scanFiles_jump (low : state.lastLsn ≤ origin) (none : segments = [] → state.lastLsn = origin)
    (follow : SegmentsFollow (state.from origin) segments) :
    scanFiles config state (segments.map Segment.file) = .ok ((state.from origin).afterAll segments) := by
  cases segments with
  | nil =>
    have same : state.from origin = state := by rw [ScanState.from, ← none rfl]
    rw [List.map_nil, scanFiles, same]
    rfl
  | cons segment rest =>
    obtain ⟨follows, follow⟩ := follow
    have onward := scanFiles_segments [] follow
    rw [List.append_nil] at onward
    rw [List.map_cons, scanFiles, scanFile_jump low follows]
    exact onward

/-- Only the last LSN, segment and namespace matter for what follows. -/
theorem SegmentsFollow.congr {other : ScanState} (follow : SegmentsFollow state segments)
    (lastLsn : other.lastLsn = state.lastLsn)
    (previousSegmentId : other.previousSegmentId ≤ state.previousSegmentId)
    (identity : other.segmentIdentity ≠ 0 → other.segmentIdentity = state.segmentIdentity) :
    SegmentsFollow other segments := by
  induction segments generalizing state other with
  | nil => trivial
  | cons segment rest ih =>
    obtain ⟨follows, follow⟩ := follow
    refine ⟨?_, ih follow ?_ le_rfl fun _ => rfl⟩
    · constructor
      case id_gt => exact previousSegmentId.trans_lt follows.id_gt
      case id_le => exact follows.id_le
      case identity_lt => exact follows.identity_lt
      case identity =>
        intro known
        have same := identity known
        rw [same]
        exact follows.identity (same ▸ known)
      case firstLsn => rw [lastLsn]; exact follows.firstLsn
      case firstLsn_lt => exact follows.firstLsn_lt
      case consecutive => rw [lastLsn]; exact follows.consecutive
      case compatible => exact follows.compatible
    · have here : (other.after segment).lastLsn = other.lastLsn + segment.records.length := rfl
      have there : (state.after segment).lastLsn = state.lastLsn + segment.records.length := rfl
      rw [here, there, lastLsn]

/-! ## Appending to what is left -/

/-- Only the last segment can be without records. -/
def Filled (segments : List (Segment config)) : Prop :=
  ∀ init last, segments = init ++ [last] → ∀ segment ∈ init, segment.records ≠ []

/-- Segments after `start`, none of them known to it, with LSNs in range. -/
structure Whole (start : ScanState) (segments : List (Segment config)) : Prop where
  previousSegmentId : start.previousSegmentId = 0
  segmentIdentity : start.segmentIdentity = 0
  follow : SegmentsFollow start segments
  filled : Filled segments
  lsn_lt : start.lastLsn + (allRecords segments).length < 2 ^ 64

section Place

variable {cursor next : Cursor} {placed : Placed config} {identityHash : Nat}

/-- The segment a record opens. -/
theorem Whole.open (whole : Whole start segments)
    (atEnd : AtEnd segments (lastLsnOf start segments) cursor.toLogicalWalState)
    (room : lastLsnOf start segments + 1 < 2 ^ 64)
    (lsn : placed.lsn = cursor.nextLsn) (compatible : placed.Compatible identityHash)
    (small : identityHash < 2 ^ 64)
    (keeps : cursor.identityHash ≠ 0 → identityHash = cursor.identityHash)
    (rolls : cursor.rollsOver config placed.bytes.length = true) {fresh : Segment config}
    (opens : fresh = ⟨cursor.activeSegment + 1, cursor.nextLsn, identityHash, [placed]⟩) :
    Whole start (segments ++ [fresh]) ∧
    AtEnd (segments ++ [fresh]) (lastLsnOf start (segments ++ [fresh]))
      ((cursor.turn config placed.bytes.length).put identityHash placed.bytes).toLogicalWalState ∧
    ((cursor.turn config placed.bytes.length).put identityHash placed.bytes).chunks =
      addToChunks cursor.chunks fresh.id fresh.bytes := by
  obtain ⟨count, follow, ends, chunks⟩ := atEnd.open whole.follow whole.previousSegmentId
    whole.segmentIdentity room lsn compatible small keeps rolls opens
  refine ⟨⟨whole.previousSegmentId, whole.segmentIdentity, follow, ?_, ?_⟩, ends, chunks⟩
  · intro init final split segment member
    obtain ⟨rfl, -⟩ := List.append_inj' split rfl
    rcases List.eq_nil_or_concat' segments with rfl | ⟨begin, active, rfl⟩
    · cases member
    · rcases List.mem_append.mp member with sealed | isLast
      · exact whole.filled begin active rfl segment sealed
      · -- The active segment was left because it has records.
        rw [List.mem_singleton.mp isLast]
        intro empty
        obtain ⟨here, size, -⟩ := atEnd.active begin active rfl
        rw [rollsOver_iff] at rolls
        have length := active.length_bytes
        rw [empty] at length
        have positive := (SegmentsFollow.concat.mp whole.follow).2.id_gt
        rcases rolls with none | ⟨used, -⟩
        · omega
        · rw [size, length] at used
          exact absurd used (lt_irrefl _)
  · exact (count.trans_lt room :)

/-- The active segment a record extends. -/
theorem Whole.extend (whole : Whole start segments)
    (atEnd : AtEnd segments (lastLsnOf start segments) cursor.toLogicalWalState)
    (room : lastLsnOf start segments + 1 < 2 ^ 64)
    (lsn : placed.lsn = cursor.nextLsn) (compatible : placed.Compatible identityHash)
    (small : identityHash < 2 ^ 64)
    (keeps : cursor.identityHash ≠ 0 → identityHash = cursor.identityHash)
    (stays : cursor.rollsOver config placed.bytes.length = false) :
    ∃ init last, segments = init ++ [last] ∧ Whole start (init ++ [last.add [placed]]) ∧
    AtEnd (init ++ [last.add [placed]]) (lastLsnOf start (init ++ [last.add [placed]]))
      ((cursor.turn config placed.bytes.length).put identityHash placed.bytes).toLogicalWalState ∧
    ((cursor.turn config placed.bytes.length).put identityHash placed.bytes).chunks =
      addToChunks cursor.chunks last.id placed.bytes := by
  obtain ⟨init, last, rfl, count, follow, ends, chunks⟩ :=
    atEnd.extend whole.follow room lsn compatible small keeps stays
  refine ⟨init, last, rfl, ⟨whole.previousSegmentId, whole.segmentIdentity, follow, ?_, ?_⟩, ends, chunks⟩
  · intro others final split sealed member
    obtain ⟨rfl, -⟩ := List.append_inj' split rfl
    exact whole.filled init last rfl sealed member
  · exact (count.trans_lt room :)

/-! ## The files of a batch -/

/-- The files hold exactly these segments. -/
def Holds (disk : List WalFile) (segments : List (Segment config)) : Prop :=
  disk.map WalFile.toSegmentFile = segments.map Segment.file

theorem appendWalBytes_twice (disk : List WalFile) (name : Nat) (first second : Bytes) :
    appendWalBytes (appendWalBytes disk name first) name second =
      appendWalBytes disk name (first ++ second) := by
  by_cases found : disk.any (fun file => file.name == name) = true
  · have kept : (disk.map fun file =>
        if file.name = name then { file with bytes := file.bytes ++ first } else file).any
          (fun file => file.name == name) = true := by
      rw [List.any_map, ← found]
      congr 1
      funext file
      rw [Function.comp_apply]
      split <;> rfl
    rw [appendWalBytes, appendWalBytes, if_pos found, if_pos kept, appendWalBytes, if_pos found,
      List.map_map]
    refine List.map_congr_left fun file _ => ?_
    rw [Function.comp_apply]
    by_cases here : file.name = name
    · rw [if_pos here, if_pos here, if_pos here, List.append_assoc]
    · rw [if_neg here, if_neg here, if_neg here]
  · have others : ∀ file ∈ disk, file.name ≠ name := by
      rw [Bool.not_eq_true, List.any_eq_false] at found
      exact fun file member same => found file member (beq_iff_eq.mpr same)
    rw [appendWalBytes_new first others, appendWalBytes_new (first ++ second) others]
    exact appendWalBytes_last ⟨⟨name, first⟩, 0⟩ second others

/-- Chunks are written as their bytes come. -/
theorem writeChunks_addToChunks (disk : List WalFile) (chunks : List (Nat × Bytes)) (name : Nat)
    (bytes : Bytes) :
    writeChunks disk (addToChunks chunks name bytes) =
      appendWalBytes (writeChunks disk chunks) name bytes := by
  have split (first second : List (Nat × Bytes)) :
      writeChunks disk (first ++ second) = writeChunks (writeChunks disk first) second :=
    List.foldl_append
  rcases List.eq_nil_or_concat' chunks with rfl | ⟨init, chunk, rfl⟩
  · rfl
  · obtain ⟨other, before⟩ := chunk
    by_cases same : other = name
    · subst same
      rw [addToChunks_concat, split, split]
      exact (appendWalBytes_twice _ other before bytes).symm
    · rw [addToChunks_other same, split]
      rfl

/-- What is written to the last file is added to the last segment. -/
theorem Holds.extend {disk : List WalFile} {init : List (Segment config)} {last : Segment config}
    (holds : Holds disk (init ++ [last])) (below : ∀ segment ∈ init, segment.id < last.id)
    (placed : Placed config) :
    Holds (appendWalBytes disk last.id placed.bytes) (init ++ [last.add [placed]]) := by
  rw [Holds, List.map_append, List.map_singleton] at holds
  obtain ⟨before, tail, rfl, holdsInit, holdsLast⟩ := List.map_eq_append_iff.mp holds
  obtain ⟨file, rfl, isLast⟩ := List.map_eq_singleton_iff.mp holdsLast
  have others : ∀ other ∈ before, other.name ≠ file.name := by
    intro other member
    have name : file.name = last.id := congrArg SegmentFile.name isLast
    have inside : other.toSegmentFile ∈ init.map Segment.file := by
      rw [← holdsInit]
      exact List.mem_map_of_mem member
    obtain ⟨segment, isSegment, same⟩ := List.mem_map.mp inside
    have own : other.name = segment.id := (congrArg SegmentFile.name same).symm
    rw [own, name]
    exact (below segment isSegment).ne
  have name : last.id = file.name := (congrArg SegmentFile.name isLast).symm
  have bytes : file.bytes = last.bytes := congrArg SegmentFile.bytes isLast
  rw [name, appendWalBytes_last file placed.bytes others, Holds, List.map_append, List.map_append,
    holdsInit, List.map_singleton, List.map_singleton, Segment.file, Segment.bytes_add,
    recordBytes_singleton, ← bytes]
  exact congrArg (fun number => init.map Segment.file ++
    [SegmentFile.mk number (file.bytes ++ placed.bytes)]) name.symm

/-- A file that is not there yet is a new segment. -/
theorem Holds.open {disk : List WalFile} (holds : Holds disk segments) {fresh : Segment config}
    (above : ∀ segment ∈ segments, segment.id < fresh.id) :
    Holds (appendWalBytes disk fresh.id fresh.bytes) (segments ++ [fresh]) := by
  have others : ∀ file ∈ disk, file.name ≠ fresh.id := by
    intro file member
    have inside : file.toSegmentFile ∈ segments.map Segment.file := by
      rw [← holds]
      exact List.mem_map_of_mem member
    obtain ⟨segment, isSegment, same⟩ := List.mem_map.mp inside
    have own : file.name = segment.id := (congrArg SegmentFile.name same).symm
    rw [own]
    exact (above segment isSegment).ne
  rw [appendWalBytes_new fresh.bytes others, Holds, List.map_append, List.map_append, holds]
  rfl

theorem Whole.last_gt {init : List (Segment config)} {last : Segment config}
    (whole : Whole start (init ++ [last])) : ∀ segment ∈ init, segment.id < last.id :=
  fun segment member =>
    (List.pairwise_append.mp whole.follow.pairwise.1).2.2 segment member last (.head _)

/-- One entry of a batch. -/
theorem Whole.place {entry : PendingWalEntry config × Nat} (whole : Whole start segments)
    (atEnd : AtEnd segments (lastLsnOf start segments) cursor.toLogicalWalState)
    (room : lastLsnOf start segments + 1 < 2 ^ 64) (done : placeEntry cursor entry = .ok next) :
    ∃ placed after, placed.record = replayRecord (lastLsnOf start segments + 1) entry ∧
      allRecords after = allRecords segments ++ [placed] ∧ Whole start after ∧
      AtEnd after (lastLsnOf start after) next.toLogicalWalState ∧
      ∀ disk, Holds (writeChunks disk cursor.chunks) segments →
        Holds (writeChunks disk next.chunks) after := by
  have number : cursor.nextLsn = lastLsnOf start segments + 1 := by
    rw [atEnd.nextLsn]
    exact Nat.mod_eq_of_lt room
  obtain ⟨placed, record, lsn, compatible, rfl⟩ := placeEntry_eq_ok (number ▸ room) done
  have small := Cursor.identityFor_lt atEnd.identity_lt entry.1.entry
  have keeps : cursor.identityHash ≠ 0 →
      cursor.identityFor entry.1.entry = cursor.identityHash := fun known => by
    rw [Cursor.identityFor, if_neg known]
  rw [number] at record
  cases rolls : cursor.rollsOver config placed.bytes.length with
  | false =>
    obtain ⟨init, last, rfl, grown, ends, chunks⟩ :=
      whole.extend atEnd room lsn compatible small keeps rolls
    refine ⟨placed, init ++ [last.add [placed]], record, ?_, grown, ends, fun disk holds => ?_⟩
    · rw [allRecords_concat, allRecords_concat, List.append_assoc]
      rfl
    · rw [chunks, writeChunks_addToChunks]
      exact holds.extend whole.last_gt placed
  | true =>
    obtain ⟨grown, ends, chunks⟩ := whole.open atEnd room lsn compatible small keeps rolls rfl
    refine ⟨placed, _, record, ?_, grown, ends, fun disk holds => ?_⟩
    · rw [allRecords_concat]
    · rw [chunks, writeChunks_addToChunks]
      exact holds.open grown.last_gt

/-- A batch that is laid out and written adds its records. -/
theorem Whole.layOut {batch : Batch config} (whole : Whole start segments)
    (atEnd : AtEnd segments (lastLsnOf start segments) cursor.toLogicalWalState)
    (room : lastLsnOf start segments + batch.length < 2 ^ 64)
    (done : batch.foldlM placeEntry cursor = .ok next) :
    ∃ added after, added.map Placed.record = batchRecords (lastLsnOf start segments + 1) batch ∧
      allRecords after = allRecords segments ++ added ∧ Whole start after ∧
      AtEnd after (lastLsnOf start after) next.toLogicalWalState ∧
      ∀ disk, Holds (writeChunks disk cursor.chunks) segments →
        Holds (writeChunks disk next.chunks) after := by
  induction batch generalizing cursor segments with
  | nil =>
    cases done
    exact ⟨[], segments, rfl, (List.append_nil _).symm, whole, atEnd, fun _ holds => holds⟩
  | cons entry rest ih =>
    rw [List.foldlM_cons, bind_eq_ok] at done
    obtain ⟨middle, first, done⟩ := done
    rw [List.length_cons] at room
    obtain ⟨placed, between, record, records, grown, ends, writes⟩ :=
      whole.place atEnd (by omega) first
    have count : lastLsnOf start between = lastLsnOf start segments + 1 := by
      rw [lastLsnOf, lastLsnOf, records, List.length_append, List.length_singleton, Nat.add_assoc]
    obtain ⟨added, after, isBatch, all, finished, atLast, writesRest⟩ :=
      ih grown ends (by omega) done
    refine ⟨placed :: added, after, ?_, ?_, finished, atLast,
      fun disk holds => writesRest disk (writes disk holds)⟩
    · rw [List.map_cons, record, isBatch, count, batchRecords, batchRecords, List.mapIdx_cons]
      refine congrArg (List.cons _) (congrArg (fun place => rest.mapIdx place) ?_)
      funext i entry
      exact congrArg (fun lsn => replayRecord lsn entry) (by omega)
    · rw [all, records, List.append_assoc, List.singleton_append]

end Place

end PacificDb.Wal
