import PacificDb.Wal.Reclaim

/-!
# The round trip of the log

The history of a log against what a scan shows of it, over runs of appends, reclaims
and restarts that do not exhaust the LSNs.
-/

namespace PacificDb.Wal

open Lib

variable {config : WalConfig} {truncate : Nat → Int} {start : ScanState}
  {segments : List (Segment config)} {origin : Nat} {file? : Option ScannedWalFile}

/-! ## Histories -/

theorem field?_stampEntry (entry : Json) (lsn timestampMs : Nat) {name : String}
    (other : name ∉ stampFields) :
    (stampEntry entry lsn timestampMs).field? name = entry.field? name := by
  simp only [stampFields, List.mem_cons, not_or] at other
  obtain ⟨lsnField, seqField, timeField, -⟩ := other
  rw [stampEntry, Json.field?_set_ne timeField, Json.field?_set_ne seqField,
    Json.field?_set_ne lsnField]

/-- A batch is shown as it was logged. -/
theorem forall₂_batchRecords (batch : Batch config) {nextLsn : Nat}
    (room : batch ≠ [] → nextLsn + batch.length ≤ 2 ^ 64) :
    List.Forall₂ ShowsLogged (batchRecords nextLsn batch) (loggedRecords nextLsn batch) := by
  rw [List.forall₂_iff_get]
  refine ⟨by rw [batchRecords, loggedRecords, List.length_mapIdx, List.length_mapIdx], ?_⟩
  intro i here _
  rw [batchRecords, List.length_mapIdx] at here
  have fits := room (List.ne_nil_of_length_pos (Nat.zero_lt_of_lt here))
  have number : (nextLsn + i) % 2 ^ 64 = nextLsn + i := Nat.mod_eq_of_lt (by omega)
  simp only [batchRecords, loggedRecords, List.get_eq_getElem, List.getElem_mapIdx, number]
  exact ⟨rfl, rfl, fun name other => field?_stampEntry _ _ _ other⟩

theorem recordLsns_eq {shown logged : List WalReplayRecord}
    (shows : List.Forall₂ ShowsLogged shown logged) : recordLsns shown = recordLsns logged := by
  induction shows with
  | nil => rfl
  | cons first _ ih =>
    rw [recordLsns, recordLsns, List.map_cons, List.map_cons, first.lsn]
    exact congrArg _ ih

/-- What is shown is the history less a covered part at its start. -/
structure Remembers (run : LogRun) (shown : List WalReplayRecord) (lastLsn : Nat) : Prop where
  shows : ∃ reclaimed ≤ run.history.length,
    List.Forall₂ ShowsLogged shown (run.history.drop reclaimed) ∧
      ∀ record ∈ run.history.take reclaimed, record.lsn ≤ run.covered
  fresh : (recordLsns run.history).Pairwise (· < ·)
  below : ∀ record ∈ run.history, record.lsn ≤ lastLsn

variable {run : LogRun} {shown : List WalReplayRecord} {lastLsn : Nat}

/-- A batch is acknowledged for the LSNs after the last one. -/
theorem Remembers.append (remembers : Remembers run shown lastLsn) {batch : Batch config}
    {log : LogicalLog} (room : batch ≠ [] → lastLsn + 1 + batch.length ≤ 2 ^ 64) :
    Remembers { run with log, history := run.history ++ loggedRecords (lastLsn + 1) batch }
      (shown ++ batchRecords (lastLsn + 1) batch) (lastLsn + batch.length) := by
  obtain ⟨reclaimed, inside, shows, covered⟩ := remembers.shows
  have isBatch := forall₂_batchRecords batch room
  have numbers : ∀ (i : Nat) (here : i < (loggedRecords (lastLsn + 1) batch).length),
      i < batch.length ∧ ((loggedRecords (lastLsn + 1) batch)[i]).lsn = lastLsn + 1 + i := by
    intro i here
    rw [loggedRecords, List.length_mapIdx] at here
    have fits := room (List.ne_nil_of_length_pos (Nat.zero_lt_of_lt here))
    simp only [loggedRecords, List.getElem_mapIdx]
    exact ⟨here, Nat.mod_eq_of_lt (by omega)⟩
  constructor
  case shows =>
    refine ⟨reclaimed, ?_, ?_, ?_⟩
    · rw [List.length_append]
      exact inside.trans (Nat.le_add_right _ _)
    · rw [List.drop_append_of_le_length inside]
      exact List.rel_append shows isBatch
    · rw [List.take_append_of_le_length inside]
      exact covered
  case fresh =>
    rw [recordLsns, List.map_append]
    refine List.pairwise_append.mpr ⟨remembers.fresh, ?_, ?_⟩
    · rw [List.pairwise_map, List.pairwise_iff_getElem]
      intro i j here there before
      rw [(numbers i here).2, (numbers j there).2]
      omega
    · intro lsn member other isNew
      obtain ⟨record, old, rfl⟩ := List.mem_map.mp member
      obtain ⟨added, new, rfl⟩ := List.mem_map.mp isNew
      obtain ⟨i, here, rfl⟩ := List.getElem_of_mem new
      have bounded := remembers.below record old
      rw [(numbers i here).2]
      omega
  case below =>
    intro record member
    rcases List.mem_append.mp member with old | new
    · exact (remembers.below record old).trans (Nat.le_add_right _ _)
    · obtain ⟨i, here, rfl⟩ := List.getElem_of_mem new
      obtain ⟨inBatch, lsn⟩ := numbers i here
      rw [lsn]
      omega

/-- Records that a reclaim covers are no longer shown. -/
theorem Remembers.reclaim {dropped left : List WalReplayRecord} {coveredLsn later : Nat}
    {log : LogicalLog} (remembers : Remembers run (dropped ++ left) lastLsn)
    (lsns : ∀ record ∈ dropped, record.lsn ≤ coveredLsn) (grows : lastLsn ≤ later) :
    Remembers { run with log, covered := max run.covered coveredLsn } left later := by
  obtain ⟨reclaimed, inside, shows, covered⟩ := remembers.shows
  have count := shows.length_eq
  rw [List.length_append, List.length_drop] at count
  have front := List.forall₂_take dropped.length shows
  have back := List.forall₂_drop dropped.length shows
  rw [List.take_left' rfl] at front
  rw [List.drop_left' rfl, List.drop_drop] at back
  constructor
  case shows =>
    refine ⟨reclaimed + dropped.length, by dsimp only; omega, back, ?_⟩
    intro record member
    dsimp only at member ⊢
    rw [List.take_add] at member
    rcases List.mem_append.mp member with old | gone
    · exact (covered record old).trans (le_max_left _ _)
    · have lsn : record.lsn ∈ recordLsns dropped := by
        rw [recordLsns_eq front]
        exact List.mem_map_of_mem gone
      obtain ⟨other, isDropped, same⟩ := List.mem_map.mp lsn
      rw [← same]
      exact (lsns other isDropped).trans (le_max_right _ _)
  case fresh => exact remembers.fresh
  case below => exact fun record member => (remembers.below record member).trans grows

/-! ## Runs -/

/-- The LSNs do not run out: those of the batch start above 0 and end below `2^64`. -/
def HasRoom (config : WalConfig) (truncate : Nat → Int) (run : LogRun) : LogEvent config → Prop
  | .append calls => calls = [] ∨ (0 < run.log.nextLsn config truncate ∧
      run.log.nextLsn config truncate + calls.length ≤ 2 ^ 64)
  | .reclaimThrough _ => True
  | .restart => True

/-- The log of a run stands, and its history is remembered. -/
def Lives (config : WalConfig) (truncate : Nat → Int) (run : LogRun) : Prop :=
  ∃ (segments : List (Segment config)) (file? : Option ScannedWalFile) (start : ScanState)
    (origin : Nat), Standing truncate run.log segments file? start origin ∧
      Remembers run (shownRecords start segments) (lastLsnOf (start.from origin) segments)

theorem lives_start (starts : LogStart config truncate run) : Lives config truncate run := by
  have whole {start : ScanState} {file : ScannedWalFile} (shown : LegacyShown start file) :
      Whole (start.from start.lastLsn) ([] : List (Segment config)) :=
    ⟨shown.previousSegmentId, shown.segmentIdentity, trivial,
      fun init last split => by simp at split, shown.lastLsn_lt⟩
  have behind : Behind ([] : List (Segment config)) {} :=
    ⟨fun _ => rfl, fun init last split => by simp at split, Nat.two_pow_pos 64⟩
  cases starts with
  | empty =>
    refine ⟨[], none, {}, 0, ⟨.none, rfl, le_rfl, fun _ => rfl, whole .start, behind,
      fun opened => nomatch opened⟩, ?_⟩
    exact ⟨⟨0, le_rfl, .nil, fun _ member => nomatch member⟩, .nil, fun _ member => nomatch member⟩
  | @legacy bytes state file reads =>
    obtain ⟨shown, -⟩ := scanLegacyFile_ok reads
    refine ⟨[], some file, state, state.lastLsn, ⟨.some reads, rfl, le_rfl, fun _ => rfl,
      whole shown, behind, fun opened => nomatch opened⟩, ?_⟩
    refine ⟨⟨0, Nat.zero_le _, ?_, fun _ member => nomatch member⟩, shown.sorted, ?_⟩
    · rw [shownRecords, List.drop_zero]
      have none : allRecords ([] : List (Segment config)) = [] := rfl
      rw [none, List.map_nil, List.append_nil]
      exact List.forall₂_same.mpr fun _ _ => ⟨rfl, rfl, fun _ _ => rfl⟩
    · exact fun record member => (shown.bounded record member).2

theorem lives_append {calls : List (Submission config)} (lives : Lives config truncate run)
    (room : HasRoom config truncate run (.append calls)) {after : LogRun}
    (taken : logStep config truncate run (.append calls) = some after) :
    Lives config truncate after := by
  obtain ⟨segments, file?, start, origin, standing, remembers⟩ := lives
  have lsnLt := standing.whole.lsn_lt
  have next := standing.nextLsn
  have count : (batchOf calls).length = calls.length := List.length_map _
  have fits : batchOf calls ≠ [] → lastLsnOf (start.from origin) segments + 1 +
      (batchOf calls).length ≤ 2 ^ 64 ∧
        run.log.nextLsn config truncate = lastLsnOf (start.from origin) segments + 1 := by
    intro some
    rcases room with none | ⟨positive, room⟩
    · exact absurd (List.map_eq_nil_iff.mpr none) some
    · rw [next] at positive room ⊢
      have inRange : lastLsnOf (start.from origin) segments < 2 ^ 64 := lsnLt
      have small : lastLsnOf (start.from origin) segments + 1 < 2 ^ 64 := by
        by_contra large
        have full : lastLsnOf (start.from origin) segments + 1 = 2 ^ 64 := by omega
        rw [full, Nat.mod_self] at positive
        exact absurd positive (lt_irrefl 0)
      rw [Nat.mod_eq_of_lt small] at room ⊢
      exact ⟨by omega, rfl⟩
  obtain ⟨grown, stands, shows⟩ := @Standing.append _ _ _ _ _ _ _ standing (batchOf calls)
      fun some => by
    have bounded := (fits some).1
    omega
  rw [logStep] at taken
  cases appended : run.log.append config truncate (batchOf calls) with
  | mk acknowledged log =>
    rw [appended] at stands shows taken
    cases acknowledged with
    | false =>
      obtain rfl := Option.some.inj taken
      have same : shownRecords start grown = shownRecords start segments := by
        rw [shows, if_neg Bool.false_ne_true, List.append_nil]
      have sameCount := congrArg List.length same
      have last : lastLsnOf (start.from origin) grown = lastLsnOf (start.from origin) segments := by
        rw [shownRecords, shownRecords, List.length_append, List.length_append, List.length_map,
          List.length_map, Nat.add_left_cancel_iff] at sameCount
        rw [lastLsnOf, lastLsnOf, sameCount]
      refine ⟨grown, file?, start, origin, stands, ?_⟩
      rw [same, last]
      exact ⟨remembers.shows, remembers.fresh, remembers.below⟩
    | true =>
      obtain rfl := Option.some.inj taken
      rw [if_pos rfl] at shows
      have newCount := congrArg List.length shows
      have last : lastLsnOf (start.from origin) grown =
          lastLsnOf (start.from origin) segments + (batchOf calls).length := by
        rw [shownRecords, shownRecords, batchRecords] at newCount
        simp only [List.length_append, List.length_map, List.length_mapIdx] at newCount
        rw [lastLsnOf, lastLsnOf]
        omega
      refine ⟨grown, file?, start, origin, stands, ?_⟩
      rw [shows, last]
      have logged : loggedRecords (run.log.nextLsn config truncate) (batchOf calls) =
          loggedRecords (lastLsnOf (start.from origin) segments + 1) (batchOf calls) := by
        by_cases none : batchOf calls = []
        · rw [none]
          rfl
        · rw [(fits none).2]
      rw [logged]
      exact remembers.append fun some => (fits some).1

theorem lives_step {after : LogRun} {event : LogEvent config} (lives : Lives config truncate run)
    (room : HasRoom config truncate run event)
    (taken : logStep config truncate run event = some after) : Lives config truncate after := by
  cases event with
  | append calls => exact lives_append lives room taken
  | reclaimThrough coveredLsn =>
    obtain ⟨segments, file?, start, origin, standing, remembers⟩ := lives
    rw [logStep] at taken
    rcases standing.reclaim coveredLsn with same | ⟨done, left⟩
    · rw [same] at taken
      obtain rfl := Option.some.inj taken
      exact ⟨segments, file?, start, origin, standing, remembers⟩
    · obtain ⟨grown, file?, start, origin, dropped, stands, split, lsns, last⟩ := left
      cases reclaimed : run.log.reclaimThrough config truncate coveredLsn with
      | mk success log =>
        rw [reclaimed] at done stands taken
        obtain rfl : success = true := done
        obtain rfl := Option.some.inj taken
        rw [split] at remembers
        exact ⟨grown, file?, start, origin, stands, remembers.reclaim lsns last⟩
  | restart =>
    obtain ⟨segments, file?, start, origin, standing, remembers⟩ := lives
    obtain rfl := Option.some.inj taken
    refine ⟨segments, file?, start, origin, { standing with behind := ?_, ready := ?_ },
      ⟨remembers.shows, remembers.fresh, remembers.below⟩⟩
    · exact ⟨fun _ => rfl, fun _ _ _ => Nat.zero_le _, Nat.two_pow_pos 64⟩
    · exact fun opened => nomatch opened

/-- A reclaim leaves the records above its LSN. -/
theorem recordsAbove_append {dropped left : List WalReplayRecord} {coveredLsn : Nat}
    (lsns : ∀ record ∈ dropped, record.lsn ≤ coveredLsn) :
    recordsAbove coveredLsn (dropped ++ left) = recordsAbove coveredLsn left := by
  have none : dropped.filter (fun record => decide (coveredLsn < record.lsn)) = [] := by
    refine List.filter_eq_nil_iff.mpr fun record member above => ?_
    rw [decide_eq_true_eq] at above
    exact absurd (lsns record member) (Nat.not_le.mpr above)
  rw [recordsAbove, List.filter_append, none, List.nil_append]
  rfl

theorem Lives.roundTrips (lives : Lives config truncate run) :
    ∃ scan, run.RoundTrips config truncate scan := by
  obtain ⟨segments, file?, start, origin, standing, remembers⟩ := lives
  have records {start : ScanState} {segments : List (Segment config)} {origin : Nat} :
      ((start.from origin).afterAll segments).records = shownRecords start segments :=
    ScanState.records_afterAll segments
  refine ⟨_, standing.scan, ?_, ?_, remembers.fresh, fun coveredLsn => ?_⟩
  · dsimp only
    rw [records]
    obtain ⟨reclaimed, -, shows, covered⟩ := remembers.shows
    exact ⟨reclaimed, shows, covered⟩
  · obtain ⟨reclaimed, -, shows, -⟩ := remembers.shows
    dsimp only
    rw [records, recordLsns_eq shows, recordLsns, List.map_drop]
    exact remembers.fresh.drop
  · dsimp only
    rw [records]
    rcases standing.reclaim coveredLsn with same | ⟨-, left⟩
    · rw [same]
      refine ⟨_, standing.scan, ?_⟩
      dsimp only
      rw [records]
    · obtain ⟨grown, file?, start, origin, dropped, stands, split, lsns, -⟩ := left
      refine ⟨_, stands.scan, ?_⟩
      dsimp only
      rw [records, split, recordsAbove_append lsns]

/-- **The round trip of the log.** In every run whose LSNs do not run out, a scan
works and shows the history less a part at its start that reclaims covered, no LSN
comes twice, and a reclaim leaves what it does not cover. -/
theorem wal_round_trips {first : LogRun} (starts : LogStart config truncate first)
    (reached : Reach (logStep config truncate) (HasRoom config truncate) first run) :
    ∃ scan, run.RoundTrips config truncate scan :=
  (reached.invariant (lives_start starts) lives_step).roundTrips

/-! ## Runs that show it -/

/-- The call that logs the empty object. -/
def emptySubmission : Submission smallSegments where
  call := .log (.object [])
  pending := emptyEntry
  prepared := rfl
  timestampMs := 7

/-- A legacy file of one record without a number, which takes LSN 1. -/
def oneRecordLegacy : Bytes := [1, 1, 0, 0, 0, 0x80]

def legacyRun : LogRun :=
  match scanLegacyFile smallSegments (fun _ => 0) true oneRecordLegacy with
  | .ok (state, _) => ⟨{ legacy := some oneRecordLegacy }, state.records, 0⟩
  | .error _ => ⟨{}, [], 0⟩

theorem legacyRun_start : LogStart smallSegments (fun _ => 0) legacyRun :=
  @LogStart.legacy _ _ _ _ { path := 0, firstLsn := 1, endLsn := 1, validBytes := 6 } rfl

/-- The state after an event, which is always defined. -/
def nextRun (run : LogRun) (event : LogEvent smallSegments) : LogRun :=
  (logStep smallSegments (fun _ => 0) run event).getD run

theorem logStep_nextRun (run : LogRun) (event : LogEvent smallSegments) :
    logStep smallSegments (fun _ => 0) run event = some (nextRun run event) := by
  have defined : (logStep smallSegments (fun _ => 0) run event).isSome = true := by
    cases event with
    | append calls =>
      rw [logStep]
      split <;> rfl
    | reclaimThrough coveredLsn =>
      rw [logStep]
      split <;> rfl
    | restart => rfl
  obtain ⟨after, taken⟩ := Option.isSome_iff_exists.mp defined
  rw [nextRun, taken, Option.getD_some]

/-- The legacy record is reclaimed, and the next one gets LSN 2. -/
theorem wal_round_trips_reclaimed : ∃ scan, LogRun.RoundTrips smallSegments (fun _ => 0)
    (nextRun (nextRun legacyRun (.reclaimThrough 1)) (.append [emptySubmission])) scan := by
  have reclaims : HasRoom smallSegments (fun _ => 0) legacyRun (.reclaimThrough 1) := trivial
  have appends : HasRoom smallSegments (fun _ => 0) (nextRun legacyRun (.reclaimThrough 1))
      (.append [emptySubmission]) := by
    have room : 0 < (nextRun legacyRun (.reclaimThrough 1)).log.nextLsn smallSegments (fun _ => 0) ∧
        (nextRun legacyRun (.reclaimThrough 1)).log.nextLsn smallSegments (fun _ => 0) + 1 ≤
          2 ^ 64 := by
      decide
    exact .inr room
  exact wal_round_trips legacyRun_start
    (.tail (.tail .refl reclaims (logStep_nextRun _ _)) appends (logStep_nextRun _ _))

/-- The checkpoint at the largest LSN but one is taken, and leaves one LSN: the second
record after it gets LSN 0, and the log is corrupt. -/
theorem wal_round_trip_exhausted :
    ¬∀ run, Reach (logStep smallSegments fun _ => 0) (fun _ _ => True) legacyRun run →
      ∃ scan, run.RoundTrips smallSegments (fun _ => 0) scan := by
  intro always
  obtain ⟨scan, roundTrips⟩ := always _ (.tail (.tail (.tail .refl trivial
    (logStep_nextRun legacyRun (.reclaimThrough (2 ^ 64 - 2)))) trivial
    (logStep_nextRun _ (.append [emptySubmission]))) trivial
    (logStep_nextRun _ (.append [emptySubmission])))
  have fails : ((nextRun (nextRun (nextRun legacyRun (.reclaimThrough (2 ^ 64 - 2)))
      (.append [emptySubmission])) (.append [emptySubmission])).log.scan smallSegments
        fun _ => 0).toOption.isNone = true := by
    decide +kernel
  rw [roundTrips.scans] at fails
  cases fails

end PacificDb.Wal
