import PacificDb.Wal.Lifetime

/-!
# Reclaiming a log

A reclaim removes the oldest segments, as far as they are covered, and the legacy
file if it is covered. What it leaves is a standing log again, with its origin moved.
-/

namespace PacificDb.Wal

open Lib

variable {config : WalConfig} {truncate : Nat → Int} {start : ScanState}
  {segments : List (Segment config)} {origin : Nat} {file? : Option ScannedWalFile}
  {log : LogicalLog}

/-! ## The segments a reclaim removes -/

theorem Consecutive.bounded {lastLsn : Nat} {records : List (Placed config)}
    (consecutive : Consecutive lastLsn records) :
    ∀ placed ∈ records, placed.lsn ≤ lastLsn + records.length := by
  induction records generalizing lastLsn with
  | nil => exact fun _ member => nomatch member
  | cons placed rest ih =>
    obtain ⟨next, consecutive⟩ := consecutive
    intro other member
    rw [List.length_cons]
    rcases List.mem_cons.mp member with rfl | member
    · omega
    · have later := ih consecutive other member
      omega

theorem Filled.tail {segment : Segment config} {rest : List (Segment config)}
    (filled : Filled (segment :: rest)) : Filled rest := by
  intro init last split other member
  exact filled (segment :: init) last (congrArg (List.cons segment) split) other (.tail _ member)

/-- The covered segments are the oldest ones, and the newest one is left. -/
theorem coveredSealed_split {state : ScanState} {highest coveredLsn : Nat}
    (follow : SegmentsFollow state segments) (filled : Filled segments)
    (newest : ∀ init last, segments = init ++ [last] → last.id = highest) :
    ∃ gone kept, segments = gone ++ kept ∧ (segments ≠ [] → kept ≠ []) ∧
      ((scannedAll state.lastLsn segments).filter
        (ScannedWalFile.coveredSealed highest coveredLsn)).map ScannedWalFile.path =
          gone.map Segment.id ∧
      ∀ placed ∈ allRecords gone, placed.lsn ≤ coveredLsn := by
  induction segments generalizing state with
  | nil => exact ⟨[], [], rfl, fun some => absurd rfl some, rfl, fun _ member => nomatch member⟩
  | cons segment rest ih =>
    have pairwise := follow.pairwise.1
    obtain ⟨follows, onward⟩ := follow
    have ends : (segment.scanned state.lastLsn).endLsn =
        if segment.records = [] then 0 else state.lastLsn + segment.records.length := rfl
    have id : (segment.scanned state.lastLsn).segmentId = segment.id := rfl
    rcases List.eq_nil_or_concat' rest with rfl | ⟨init, last, rfl⟩
    · refine ⟨[], [segment], rfl, fun _ => List.cons_ne_nil _ _, ?_, fun _ member => nomatch member⟩
      have own : segment.id = highest := newest [] segment rfl
      have left : ScannedWalFile.coveredSealed highest coveredLsn
          (segment.scanned state.lastLsn) = false := by
        rw [ScannedWalFile.coveredSealed, id, own, decide_eq_false (lt_irrefl highest)]
        rfl
      rw [scannedAll, scannedAll, List.filter_cons, left]
      rfl
    · have below : segment.id < highest := by
        rw [← newest (segment :: init) last rfl]
        exact (List.pairwise_cons.mp pairwise).1 last (List.mem_append_right _ (.head _))
      have some : segment.records ≠ [] := filled (segment :: init) last rfl segment (.head _)
      rw [if_neg some] at ends
      have positive := List.length_pos_iff.mpr some
      have reached : (state.after segment).lastLsn = state.lastLsn + segment.records.length := rfl
      by_cases covered : state.lastLsn + segment.records.length ≤ coveredLsn
      · obtain ⟨gone, kept, split, more, paths, lsns⟩ := ih onward filled.tail
          fun others final same => newest (segment :: others) final (congrArg _ same)
        refine ⟨segment :: gone, kept, congrArg _ split, fun _ => more (by simp), ?_, ?_⟩
        · have taken : ScannedWalFile.coveredSealed highest coveredLsn
              (segment.scanned state.lastLsn) = true := by
            rw [ScannedWalFile.coveredSealed, id, ends, decide_eq_true below,
              decide_eq_true covered, Bool.and_true, Bool.true_and, bne_iff_ne]
            omega
          rw [reached] at paths
          rw [scannedAll, List.filter_cons, if_pos taken, List.map_cons, paths]
          rfl
        · intro placed member
          rw [allRecords, List.flatMap_cons] at member
          rcases List.mem_append.mp member with own | later
          · exact (follows.consecutive.bounded placed own).trans covered
          · exact lsns placed later
      · refine ⟨[], _, rfl, fun some => some, ?_, fun _ member => nomatch member⟩
        have none : ∀ file ∈ scannedAll state.lastLsn (segment :: (init ++ [last])),
            ¬ScannedWalFile.coveredSealed highest coveredLsn file = true := by
          intro file member taken
          rw [ScannedWalFile.coveredSealed, Bool.and_eq_true, Bool.and_eq_true, bne_iff_ne,
            decide_eq_true_eq, decide_eq_true_eq] at taken
          rcases List.mem_cons.mp member with rfl | later
          · omega
          · obtain ⟨-, -, -, empty | above⟩ := mem_scannedAll later
            · exact taken.1.2 empty
            · omega
        rw [List.filter_eq_nil_iff.mpr none]
        rfl

theorem foldl_max (files : List ScannedWalFile) (highest : Nat) {bound : Nat}
    (low : highest ≤ bound) (below : ∀ file ∈ files, file.segmentId ≤ bound) :
    files.foldl (fun highest file => max highest file.segmentId) highest ≤ bound := by
  induction files generalizing highest with
  | nil => exact low
  | cons file files ih =>
    obtain ⟨first, below⟩ := List.forall_mem_cons.mp below
    exact ih _ (max_le low first) below

theorem Whole.highestSegment {init : List (Segment config)} {last : Segment config}
    (whole : Whole start (init ++ [last])) (none : start.files = []) :
    highestSegment (start.afterAll (init ++ [last])) = last.id := by
  have noted : scannedAll start.lastLsn (init ++ [last]) = scannedAll start.lastLsn init ++
      [last.scanned (start.lastLsn + (allRecords init).length)] := scannedAll_append _ _ _
  have newest (lastLsn : Nat) : (last.scanned lastLsn).segmentId = last.id := rfl
  have below : ∀ file ∈ scannedAll start.lastLsn init, file.segmentId ≤ last.id := by
    intro file member
    obtain ⟨segment, inside, id, -⟩ := mem_scannedAll member
    rw [id]
    exact (whole.last_gt segment inside).le
  rw [Wal.highestSegment, files_afterAll, none, List.nil_append, noted, List.foldl_append,
    List.foldl_cons, List.foldl_nil, newest]
  exact max_eq_right (foldl_max _ 0 (Nat.zero_le _) below)

/-- Removing the files of the oldest segments. -/
theorem Holds.drop {disk : List WalFile} {gone kept : List (Segment config)}
    (holds : Holds disk (gone ++ kept))
    (sorted : (gone ++ kept).Pairwise fun first second => first.id < second.id) :
    Holds (disk.filter fun file => !(gone.map Segment.id).contains file.name) kept := by
  have pushed : (disk.filter fun file => !(gone.map Segment.id).contains file.name).map
      WalFile.toSegmentFile = (disk.map WalFile.toSegmentFile).filter
        fun file => !(gone.map Segment.id).contains file.name := by
    rw [List.filter_map]
    rfl
  have apart := (List.pairwise_append.mp sorted).2.2
  have left : ∀ file ∈ kept.map Segment.file, (!(gone.map Segment.id).contains file.name) = true := by
    intro file member
    obtain ⟨segment, inside, rfl⟩ := List.mem_map.mp member
    rw [Bool.not_eq_true', ← Bool.not_eq_true, List.contains_iff_mem]
    intro named
    obtain ⟨older, isGone, same⟩ := List.mem_map.mp named
    exact (apart older isGone segment inside).ne same
  have taken : ∀ file ∈ gone.map Segment.file,
      ¬(!(gone.map Segment.id).contains file.name) = true := by
    intro file member
    obtain ⟨segment, inside, rfl⟩ := List.mem_map.mp member
    rw [Bool.not_eq_true', ← Bool.not_eq_true, not_not, List.contains_iff_mem]
    exact List.mem_map_of_mem inside
  rw [Holds, pushed, holds, List.map_append, List.filter_append,
    List.filter_eq_nil_iff.mpr taken, List.filter_eq_self.mpr left, List.nil_append]

/-- The oldest segments are gone. -/
theorem Whole.drop {gone kept : List (Segment config)} {fresh : ScanState}
    (whole : Whole start (gone ++ kept)) (previousSegmentId : fresh.previousSegmentId = 0)
    (segmentIdentity : fresh.segmentIdentity = 0) :
    Whole (fresh.from (lastLsnOf start gone)) kept ∧
      lastLsnOf (fresh.from (lastLsnOf start gone)) kept = lastLsnOf start (gone ++ kept) := by
  have count : lastLsnOf (fresh.from (lastLsnOf start gone)) kept =
      lastLsnOf start (gone ++ kept) := by
    rw [lastLsnOf, ScanState.from, lastLsnOf, lastLsnOf, allRecords_append, List.length_append,
      Nat.add_assoc]
  refine ⟨?_, count⟩
  constructor
  case previousSegmentId => exact previousSegmentId
  case segmentIdentity => exact segmentIdentity
  case follow =>
    refine (SegmentsFollow.append.mp whole.follow).2.congr ?_ ?_ fun known => ?_
    · exact (ScanState.lastLsn_afterAll gone).symm
    · have zero : (fresh.from (lastLsnOf start gone)).previousSegmentId = 0 := previousSegmentId
      rw [zero]
      exact Nat.zero_le _
    · exact absurd segmentIdentity known
  case filled =>
    intro init last split segment member
    refine whole.filled (gone ++ init) last ?_ segment (List.mem_append_right _ member)
    rw [split, List.append_assoc]
  case lsn_lt =>
    have total : (fresh.from (lastLsnOf start gone)).lastLsn + (allRecords kept).length =
        lastLsnOf start (gone ++ kept) := count
    rw [total]
    exact whole.lsn_lt

theorem Behind.drop {gone kept : List (Segment config)} {position : LogicalWalState}
    (behind : Behind (gone ++ kept) position) (some : gone ++ kept ≠ [] → kept ≠ []) :
    Behind kept position where
  none empty := by
    refine behind.none ?_
    by_contra more
    exact some more empty
  active init last split := by
    refine behind.active (gone ++ init) last ?_
    rw [split, List.append_assoc]
  identity_lt := behind.identity_lt

/-- The segments a reclaim removes. -/
structure Dropped (standingSegments kept gone : List (Segment config)) (coveredLsn : Nat) : Prop where
  split : standingSegments = gone ++ kept
  some : standingSegments ≠ [] → kept ≠ []
  lsns : ∀ placed ∈ allRecords gone, placed.lsn ≤ coveredLsn

theorem Standing.dropped (standing : Standing truncate log segments file? start origin)
    (coveredLsn : Nat) : ∃ gone kept, Dropped segments kept gone coveredLsn ∧
      Holds (log.remove ⟨file?, (start.from origin).afterAll segments⟩ coveredLsn).disk kept := by
  obtain ⟨file, shown, -⟩ := standing.legacy.shown
  have none : (start.from origin).files = [] := shown.files
  have newest : ∀ init last, segments = init ++ [last] →
      last.id = highestSegment ((start.from origin).afterAll segments) := by
    rintro init last rfl
    exact (standing.whole.highestSegment none).symm
  obtain ⟨gone, kept, split, some, paths, lsns⟩ := @coveredSealed_split config segments
    (start.from origin) _ coveredLsn standing.whole.follow standing.whole.filled newest
  refine ⟨gone, kept, ⟨split, some, lsns⟩, ?_⟩
  have sorted := standing.whole.follow.pairwise.1
  have holds := standing.holds
  rw [LogicalLog.remove]
  dsimp only
  rw [files_afterAll, none, List.nil_append, paths]
  subst split
  exact holds.drop sorted

/-- A log that a reclaim leaves: standing, with a part of its oldest records gone. -/
structure Reclaimed (config : WalConfig) (truncate : Nat → Int) (log : LogicalLog)
    (before : List WalReplayRecord) (lastLsn coveredLsn : Nat) : Prop where
  intro ::
  left : ∃ (after : List (Segment config)) (file? : Option ScannedWalFile) (start : ScanState)
    (origin : Nat) (dropped : List WalReplayRecord),
      Standing truncate log after file? start origin ∧
      before = dropped ++ shownRecords start after ∧
      (∀ record ∈ dropped, record.lsn ≤ coveredLsn) ∧
      lastLsn ≤ lastLsnOf (start.from origin) after

/-- The legacy file stays: if it has records, they are not covered, and neither is
any segment after it. -/
theorem Standing.remove_uncovered (standing : Standing truncate log segments file? start origin)
    {coveredLsn : Nat} (stays : file?.any (ScannedWalFile.coveredLegacy coveredLsn) = false) :
    Reclaimed config truncate (log.remove ⟨file?, (start.from origin).afterAll segments⟩ coveredLsn)
      (shownRecords start segments) (lastLsnOf (start.from origin) segments) coveredLsn := by
  obtain ⟨file, shown, isFile⟩ := standing.legacy.shown
  obtain ⟨gone, kept, ⟨split, some, lsns⟩, holds⟩ := standing.dropped coveredLsn
  subst split
  obtain ⟨whole, count⟩ := @Whole.drop config (start.from origin) gone kept start standing.whole
    shown.previousSegmentId shown.segmentIdentity
  have above : ∀ placed ∈ allRecords gone, origin < placed.lsn :=
    (consecutive_allRecords (SegmentsFollow.append.mp standing.whole.follow).1).sorted.2
  have order : start.records = [] ∨ allRecords gone = [] := by
    by_cases empty : start.lastLsn = 0
    · exact .inl (shown.none empty)
    · refine .inr (List.eq_nil_iff_forall_not_mem.mpr fun placed member => ?_)
      have low := standing.low
      have covered := lsns placed member
      have after := above placed member
      cases file? with
      | none =>
        have legacy := standing.legacy
        generalize log.legacy = bytes at legacy
        cases legacy
        exact absurd rfl empty
      | some found =>
        rw [isFile found rfl, Option.any_some, ScannedWalFile.coveredLegacy, shown.endLsn,
          Bool.and_eq_false_iff] at stays
        rcases stays with zero | uncovered
        · rw [bne_eq_false_iff_eq] at zero
          exact empty zero
        · rw [decide_eq_false_iff_not] at uncovered
          omega
  refine ⟨kept, file?, start, lastLsnOf (start.from origin) gone,
    (allRecords gone).map Placed.record, ?_, ?_, ?_, count.ge⟩
  · constructor
    case legacy =>
      rw [LogicalLog.remove]
      dsimp only
      rw [stays, if_neg Bool.false_ne_true]
      exact standing.legacy
    case holds => exact holds
    case low => exact standing.low.trans (Nat.le_add_right _ _)
    case none =>
      intro empty
      have nothing : gone ++ kept = [] := by
        by_contra more
        exact some more empty
      rw [(List.append_eq_nil_iff.mp nothing).1]
      exact standing.none nothing
    case whole => exact whole
    case behind => exact standing.behind.drop some
    case ready => exact fun opened => nomatch opened
  · rw [shownRecords, shownRecords, allRecords_append, List.map_append]
    rcases order with none | none
    · rw [none, List.nil_append, List.nil_append]
    · rw [none, List.map_nil, List.nil_append, List.nil_append]
  · intro record member
    obtain ⟨placed, isGone, rfl⟩ := List.mem_map.mp member
    exact lsns placed isGone

/-- The legacy file goes and segments stay. -/
theorem Standing.remove_covered (standing : Standing truncate log segments file? start origin)
    {coveredLsn : Nat} (goes : file?.any (ScannedWalFile.coveredLegacy coveredLsn) = true)
    (more : segments ≠ []) :
    Reclaimed config truncate (log.remove ⟨file?, (start.from origin).afterAll segments⟩ coveredLsn)
      (shownRecords start segments) (lastLsnOf (start.from origin) segments) coveredLsn := by
  obtain ⟨file, shown, isFile⟩ := standing.legacy.shown
  obtain ⟨gone, kept, ⟨split, some, lsns⟩, holds⟩ := standing.dropped coveredLsn
  subst split
  obtain ⟨whole, count⟩ := @Whole.drop config (start.from origin) gone kept {} standing.whole rfl rfl
  refine ⟨kept, Option.none, {}, lastLsnOf (start.from origin) gone,
    start.records ++ (allRecords gone).map Placed.record, ?_, ?_, ?_, count.ge⟩
  · constructor
    case legacy =>
      rw [LogicalLog.remove]
      dsimp only
      rw [goes, if_pos rfl]
      exact .none
    case holds => exact holds
    case low => exact Nat.zero_le _
    case none => exact fun empty => absurd empty (some more)
    case whole => exact whole
    case behind => exact standing.behind.drop some
    case ready => exact fun opened => nomatch opened
  · rw [shownRecords, shownRecords, allRecords_append, List.map_append, List.append_assoc]
    rfl
  · intro record member
    rcases List.mem_append.mp member with legacy | isGone
    · have bounded := (shown.bounded record legacy).2
      cases file? with
      | none => cases goes
      | some found =>
        rw [isFile found rfl, Option.any_some, ScannedWalFile.coveredLegacy, shown.endLsn,
          Bool.and_eq_true, decide_eq_true_eq] at goes
        exact bounded.trans goes.2
    · obtain ⟨placed, isPlaced, rfl⟩ := List.mem_map.mp isGone
      exact lsns placed isPlaced

/-- The legacy file goes and its anchor stays. -/
theorem Standing.anchored (standing : Standing truncate log ([] : List (Segment config)) file? start
      origin) {coveredLsn : Nat} {file : ScannedWalFile} (isFile : file? = some file)
    (goes : file.coveredLegacy coveredLsn = true) (small : coveredLsn + 1 < 2 ^ 64) :
    Reclaimed config truncate (LogicalLog.remove { log with
        disk := syncWalFile (appendWalBytes log.disk 1 (anchorSegment coveredLsn file)) 1 }
          ⟨file?, (start.from origin).afterAll ([] : List (Segment config))⟩ coveredLsn)
      (shownRecords start ([] : List (Segment config)))
      (lastLsnOf (start.from origin) ([] : List (Segment config))) coveredLsn := by
  obtain ⟨found, shown, same⟩ := standing.legacy.shown
  obtain rfl : file = found := same file isFile
  have covered : start.lastLsn ≤ coveredLsn := by
    rw [ScannedWalFile.coveredLegacy, shown.endLsn, Bool.and_eq_true, decide_eq_true_eq] at goes
    exact goes.2
  have reached : start.lastLsn = origin := standing.none rfl
  have empty : log.disk = [] := List.map_eq_nil_iff.mp standing.holds
  let anchor : Segment config := ⟨1, coveredLsn + 1, file.identityHash, []⟩
  have bytes : anchorSegment coveredLsn file = anchor.bytes := (List.append_nil _).symm
  refine ⟨[anchor], Option.none, {}, coveredLsn, start.records, ?_, ?_, ?_, ?_⟩
  · constructor
    case legacy =>
      rw [LogicalLog.remove]
      dsimp only
      rw [isFile, Option.any_some, goes, if_pos rfl]
      exact .none
    case holds =>
      have none : ((start.from origin).afterAll ([] : List (Segment config))).files = [] :=
        shown.files
      rw [LogicalLog.remove, none, empty, bytes]
      rfl
    case low => exact Nat.zero_le _
    case none => exact fun nothing => absurd nothing (List.cons_ne_nil _ _)
    case whole =>
      constructor
      case previousSegmentId => rfl
      case segmentIdentity => rfl
      case follow =>
        refine ⟨?_, trivial⟩
        constructor
        case id_gt => exact Nat.zero_lt_one
        case id_le => exact Nat.le_add_left 1 coveredLsn
        case identity_lt => exact shown.identity_lt
        case identity => exact fun known => absurd rfl known
        case firstLsn => rfl
        case firstLsn_lt => exact small
        case consecutive => trivial
        case compatible => exact fun _ member => nomatch member
      case filled =>
        intro init last split segment member
        obtain ⟨rfl, -⟩ := @List.append_inj' _ [] [anchor] init [last] split rfl
        cases member
      case lsn_lt => exact Nat.lt_of_succ_lt small
    case behind =>
      refine ⟨fun nothing => absurd nothing (List.cons_ne_nil _ _), ?_, standing.behind.identity_lt⟩
      intro init last split
      have idle : log.state.activeSegment = 0 := standing.behind.none rfl
      rw [LogicalLog.remove]
      dsimp only
      rw [idle]
      exact Nat.zero_le _
    case ready => exact fun opened => nomatch opened
  · rfl
  · exact fun record member => (shown.bounded record member).2.trans covered
  · have last : lastLsnOf (start.from origin) ([] : List (Segment config)) = origin := rfl
    have anchorLast : lastLsnOf (({} : ScanState).from coveredLsn) [anchor] = coveredLsn := rfl
    omega

/-- What a reclaim leaves. -/
theorem Standing.reclaim (standing : Standing truncate log segments file? start origin)
    (coveredLsn : UInt64) :
    (log.reclaimThrough config truncate coveredLsn = (false, log)) ∨
    (log.reclaimThrough config truncate coveredLsn).1 = true ∧
      Reclaimed config truncate (log.reclaimThrough config truncate coveredLsn).2
        (shownRecords start segments) (lastLsnOf (start.from origin) segments)
        coveredLsn.toNat := by
  obtain ⟨found, shown, same⟩ := standing.legacy.shown
  unfold LogicalLog.reclaimThrough
  rw [standing.scan]
  dsimp only
  cases covered : file?.filter (ScannedWalFile.coveredLegacy coveredLsn.toNat) with
  | none =>
    refine .inr ⟨rfl, standing.remove_uncovered ?_⟩
    cases file? with
    | none => rfl
    | some file => simpa using covered
  | some file =>
    obtain ⟨isFile, goes⟩ := Option.filter_eq_some_iff.mp covered
    dsimp only
    rcases List.eq_nil_or_concat' segments with rfl | ⟨init, last, rfl⟩
    · have none : highestSegment ((start.from origin).afterAll ([] : List (Segment config))) = 0 := by
        have files : ((start.from origin).afterAll ([] : List (Segment config))).files = [] :=
          shown.files
        rw [highestSegment, files]
        rfl
      rw [if_pos none]
      split
      · exact .inl rfl
      next below =>
        have bounded := coveredLsn.toNat_lt
        exact .inr ⟨rfl, standing.anchored isFile goes (by omega)⟩
    · have highest := standing.whole.highestSegment shown.files
      have positive := (SegmentsFollow.concat.mp standing.whole.follow).2.id_gt
      rw [if_neg (by omega)]
      refine .inr ⟨rfl, standing.remove_covered ?_ (by simp)⟩
      rw [isFile, Option.any_some, goes]

end PacificDb.Wal
