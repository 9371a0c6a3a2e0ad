import PacificDb.Wal.Append

/-!
# The layout of a batch

The append position of a log whose files hold whole segments (`Ready`), and what
one entry, and then a batch, adds to them (`Planned`): some records to the
active segment, and new segments after it.
-/

namespace PacificDb.Wal

open Lib

variable {config : WalConfig} {state : ScanState} {segments : List (Segment config)}

/-! ## The scan after several segments -/

theorem ScanState.afterAll_append (first second : List (Segment config)) :
    state.afterAll (first ++ second) = (state.afterAll first).afterAll second :=
  List.foldl_append

theorem ScanState.afterAll_concat (init : List (Segment config)) (last : Segment config) :
    state.afterAll (init ++ [last]) = (state.afterAll init).after last :=
  ScanState.afterAll_append init [last]

theorem SegmentsFollow.append {first second : List (Segment config)} :
    SegmentsFollow state (first ++ second) ↔
      SegmentsFollow state first ∧ SegmentsFollow (state.afterAll first) second := by
  induction first generalizing state with
  | nil => simp [SegmentsFollow, ScanState.afterAll]
  | cons segment rest ih =>
    rw [List.cons_append, SegmentsFollow, ih, SegmentsFollow, and_assoc]
    rfl

theorem SegmentsFollow.concat {init : List (Segment config)} {last : Segment config} :
    SegmentsFollow state (init ++ [last]) ↔
      SegmentsFollow state init ∧ last.Follows (state.afterAll init) := by
  rw [SegmentsFollow.append, SegmentsFollow, SegmentsFollow, and_true]

/-- The records of all segments in order. -/
def allRecords (segments : List (Segment config)) : List (Placed config) :=
  segments.flatMap Segment.records

theorem ScanState.lastLsn_afterAll (segments : List (Segment config)) :
    (state.afterAll segments).lastLsn = state.lastLsn + (allRecords segments).length := by
  induction segments generalizing state with
  | nil => rfl
  | cons segment rest ih =>
    have inside : (state.after segment).lastLsn = state.lastLsn + segment.records.length := rfl
    rw [afterAll, List.foldl_cons, ← afterAll, ih, inside, allRecords, allRecords, List.flatMap_cons,
      List.length_append, Nat.add_assoc]

theorem ScanState.records_afterAll (segments : List (Segment config)) :
    (state.afterAll segments).records =
      state.records ++ (allRecords segments).map Placed.record := by
  induction segments generalizing state with
  | nil => exact (List.append_nil _).symm
  | cons segment rest ih =>
    have inside : (state.after segment).records =
        state.records ++ segment.records.map Placed.record := rfl
    rw [afterAll, List.foldl_cons, ← afterAll, ih, inside, allRecords, allRecords, List.flatMap_cons,
      List.map_append, List.append_assoc]

/-- Segment numbers grow. -/
theorem SegmentsFollow.pairwise (follow : SegmentsFollow state segments) :
    segments.Pairwise (fun first second => first.id < second.id) ∧
      ∀ segment ∈ segments, state.previousSegmentId < segment.id := by
  induction segments generalizing state with
  | nil => exact ⟨.nil, fun _ member => nomatch member⟩
  | cons segment rest ih =>
    obtain ⟨follows, follow⟩ := follow
    obtain ⟨sorted, above⟩ := ih follow
    have passed : (state.after segment).previousSegmentId = segment.id := rfl
    refine ⟨List.pairwise_cons.mpr ⟨fun other member => passed ▸ above other member, sorted⟩, ?_⟩
    intro other member
    rcases List.mem_cons.mp member with rfl | member
    · exact follows.id_gt
    · exact follows.id_gt.trans (passed ▸ above other member)

/-! ## The append position -/

/-- The log holds these whole segments, and the position is at their end. -/
structure Ready (segments : List (Segment config)) (position : LogicalWalState) : Prop where
  follow : SegmentsFollow {} segments
  nextLsn : position.nextLsn = (allRecords segments).length + 1
  none : segments = [] → position.activeSegment = 0
  active : ∀ init last, segments = init ++ [last] → position.activeSegment = last.id ∧
    position.activeBytes = last.bytes.length ∧
      (last.identityHash ≠ 0 → position.identityHash = last.identityHash)
  identity_lt : position.identityHash < 2 ^ 64

def Segment.add (segment : Segment config) (records : List (Placed config)) : Segment config :=
  { segment with records := segment.records ++ records }

theorem Segment.bytes_add (segment : Segment config) (records : List (Placed config)) :
    (segment.add records).bytes = segment.bytes ++ recordBytes records := by
  rw [bytes, add, recordBytes_append, bytes, List.append_assoc]
  rfl

theorem Segment.add_nil (segment : Segment config) : segment.add [] = segment := by
  rw [add, List.append_nil]

theorem Segment.add_add (segment : Segment config) (first second : List (Placed config)) :
    (segment.add first).add second = segment.add (first ++ second) := by
  rw [add, add, List.append_assoc]
  rfl

theorem recordBytes_singleton (placed : Placed config) : recordBytes [placed] = placed.bytes := by
  rw [recordBytes, List.map_singleton, List.flatten_singleton]

variable {cursor next : Cursor} {entry : PendingWalEntry config × Nat}

/-- One more record in the active segment. -/
theorem Segment.Follows.add {last : Segment config} (follows : last.Follows state)
    {placed : Placed config} (lsn : placed.lsn = state.lastLsn + last.records.length + 1)
    (compatible : placed.Compatible last.identityHash) : (last.add [placed]).Follows state where
  id_gt := follows.id_gt
  id_le := follows.id_le
  identity_lt := follows.identity_lt
  identity := follows.identity
  firstLsn := follows.firstLsn
  firstLsn_lt := follows.firstLsn_lt
  consecutive := Consecutive.append.mpr ⟨follows.consecutive, lsn, trivial⟩
  compatible := by
    intro other member
    rcases List.mem_append.mp member with old | new
    · exact follows.compatible other old
    · rw [List.mem_singleton.mp new]
      exact compatible

def PendingWalEntry.frameSize (pending : PendingWalEntry config) : Nat :=
  5 + (kPreparedPayloadHeaderBytes + pending.preparedPayload.length)

/-- Two namespaces that may meet in one log; 0 is none. -/
def OneNamespace (first second : Nat) : Prop := first ≠ 0 → second ≠ 0 → first = second

/-- What `placeEntry` checks, and what it then does. -/
theorem placeEntry_ok_iff : placeEntry cursor entry = .ok next ↔
    FitsFrame entry.1 ∧
      OneNamespace (walIdentityHash entry.1.entry) (cursor.identityFor entry.1.entry) ∧
      next = (cursor.turn config entry.1.frameSize).put (cursor.identityFor entry.1.entry)
        (frameBytes entry.1 cursor.nextLsn entry.2) := by
  unfold placeEntry
  dsimp only
  by_cases conflict : walIdentityHash entry.1.entry ≠ 0 ∧ cursor.identityFor entry.1.entry ≠ 0 ∧
      walIdentityHash entry.1.entry ≠ cursor.identityFor entry.1.entry
  · rw [if_pos conflict]
    refine iff_of_false (by simp) fun fits => ?_
    exact conflict.2.2 (fits.2.1 conflict.1 conflict.2.1)
  · have same : OneNamespace (walIdentityHash entry.1.entry) (cursor.identityFor entry.1.entry) := by
      intro known filed
      by_contra other
      exact conflict ⟨known, filed, other⟩
    rw [if_neg conflict]
    cases framed : framePreparedRecord entry.1 cursor.nextLsn entry.2 with
    | error reason =>
      refine iff_of_false (by simp) fun fits => ?_
      rw [framePreparedRecord_ok_iff.mpr ⟨fits.1, rfl⟩] at framed
      cases framed
    | ok frame =>
      obtain ⟨fits, rfl⟩ := framePreparedRecord_ok_iff.mp framed
      dsimp only
      rw [Except.ok.injEq, length_frameBytes]
      exact ⟨fun done => ⟨fits, same, done.symm⟩, fun all => all.2.2.symm⟩

/-- An entry that is laid out becomes a record of the log. -/
theorem placeEntry_eq_ok (room : cursor.nextLsn < 2 ^ 64) (done : placeEntry cursor entry = .ok next) :
    ∃ placed : Placed config, placed.record = replayRecord cursor.nextLsn entry ∧
      placed.lsn = cursor.nextLsn ∧ placed.Compatible (cursor.identityFor entry.1.entry) ∧
      next = (cursor.turn config placed.bytes.length).put (cursor.identityFor entry.1.entry)
        placed.bytes := by
  obtain ⟨fits, same, rfl⟩ := placeEntry_ok_iff.mp done
  refine ⟨⟨entry.1, cursor.nextLsn, entry.2, fits, room⟩, rfl, rfl, ?_, ?_⟩
  · by_cases unknown : walIdentityHash entry.1.entry = 0
    · exact .inr (.inl unknown)
    · by_cases none : cursor.identityFor entry.1.entry = 0
      · exact .inl none
      · exact .inr (.inr (same unknown none))
  · rw [Placed.bytes, length_frameBytes]
    rfl

theorem Cursor.identityFor_lt (small : cursor.identityHash < 2 ^ 64) (entry : Json) :
    cursor.identityFor entry < 2 ^ 64 := by
  rw [identityFor]
  split
  · exact walIdentityHash_lt entry
  · exact small

section Ready

variable {position : LogicalWalState}

theorem lastLsn_afterAll_start (segments : List (Segment config)) :
    (({} : ScanState).afterAll segments).lastLsn = (allRecords segments).length := by
  rw [ScanState.lastLsn_afterAll]
  exact Nat.zero_add _

end Ready

theorem allRecords_append (first second : List (Segment config)) :
    allRecords (first ++ second) = allRecords first ++ allRecords second :=
  List.flatMap_append

theorem allRecords_singleton (segment : Segment config) : allRecords [segment] = segment.records :=
  List.flatMap_singleton _ _

theorem allRecords_concat (init : List (Segment config)) (last : Segment config) :
    allRecords (init ++ [last]) = allRecords init ++ last.records := by
  rw [allRecords_append, allRecords_singleton]

/-! ## The end of the segments -/

/-- The position is at the end of these segments. -/
structure AtEnd (segments : List (Segment config)) (lastLsn : Nat) (position : LogicalWalState) :
    Prop where
  nextLsn : position.nextLsn = (lastLsn + 1) % 2 ^ 64
  none : segments = [] → position.activeSegment = 0
  active : ∀ init last, segments = init ++ [last] → position.activeSegment = last.id ∧
    position.activeBytes = last.bytes.length ∧
      (last.identityHash ≠ 0 → position.identityHash = last.identityHash)
  identity_lt : position.identityHash < 2 ^ 64

def lastLsnOf (start : ScanState) (segments : List (Segment config)) : Nat :=
  start.lastLsn + (allRecords segments).length

section AtEnd

variable {start : ScanState} {position : LogicalWalState} {lastLsn : Nat}

/-- A scan ends at the active segment. -/
theorem previousSegmentId_afterAll {activeSegment : Nat} (unknown : start.previousSegmentId = 0)
    (none : segments = [] → activeSegment = 0)
    (active : ∀ init last, segments = init ++ [last] → activeSegment = last.id) :
    (start.afterAll segments).previousSegmentId = activeSegment := by
  rcases List.eq_nil_or_concat' segments with rfl | ⟨init, last, rfl⟩
  · exact unknown.trans (none rfl).symm
  · rw [ScanState.afterAll_concat, active init last rfl]
    rfl

theorem AtEnd.segmentIdentity (atEnd : AtEnd segments lastLsn position)
    (unknown : start.segmentIdentity = 0)
    (known : (start.afterAll segments).segmentIdentity ≠ 0) :
    position.identityHash = (start.afterAll segments).segmentIdentity := by
  rcases List.eq_nil_or_concat' segments with rfl | ⟨init, last, rfl⟩
  · exact absurd unknown known
  · rw [ScanState.afterAll_concat] at known ⊢
    exact (atEnd.active init last rfl).2.2 known

/-- A segment number is never above the LSNs, so that it has room to grow. -/
theorem AtEnd.spare (atEnd : AtEnd segments (lastLsnOf start segments) position)
    (follow : SegmentsFollow start segments)
    (used : kSegmentHeaderBytes < position.activeBytes ∨ segments = []) :
    position.activeSegment ≤ lastLsnOf start segments := by
  rcases List.eq_nil_or_concat' segments with rfl | ⟨init, last, rfl⟩
  · rw [atEnd.none rfl]
    exact Nat.zero_le _
  · obtain ⟨segment, bytes, -⟩ := atEnd.active init last rfl
    have follows := (SegmentsFollow.concat.mp follow).2
    have starts := follows.firstLsn
    have bounded := follows.id_le
    have length := last.length_bytes
    have nonempty : last.records ≠ [] := by
      intro empty
      rcases used with used | none
      · rw [bytes, length, empty] at used
        exact absurd used (lt_irrefl _)
      · exact absurd none (by simp)
    have positive := List.length_pos_iff.mpr nonempty
    rw [ScanState.lastLsn_afterAll] at starts
    rw [lastLsnOf, allRecords_concat, List.length_append]
    omega

variable {placed : Placed config} {identityHash : Nat}

/-- The segment a record opens. -/
theorem AtEnd.open (atEnd : AtEnd segments (lastLsnOf start segments) cursor.toLogicalWalState)
    (follow : SegmentsFollow start segments) (unknown : start.previousSegmentId = 0)
    (unknown' : start.segmentIdentity = 0) (room : lastLsnOf start segments + 1 < 2 ^ 64)
    (lsn : placed.lsn = cursor.nextLsn) (compatible : placed.Compatible identityHash)
    (small : identityHash < 2 ^ 64)
    (keeps : cursor.identityHash ≠ 0 → identityHash = cursor.identityHash)
    (rolls : cursor.rollsOver config placed.bytes.length = true) {fresh : Segment config}
    (opens : fresh = ⟨cursor.activeSegment + 1, cursor.nextLsn, identityHash, [placed]⟩) :
    lastLsnOf start (segments ++ [fresh]) = lastLsnOf start segments + 1 ∧
    SegmentsFollow start (segments ++ [fresh]) ∧
    AtEnd (segments ++ [fresh]) (lastLsnOf start (segments ++ [fresh]))
      ((cursor.turn config placed.bytes.length).put identityHash placed.bytes).toLogicalWalState ∧
    ((cursor.turn config placed.bytes.length).put identityHash placed.bytes).chunks =
      addToChunks cursor.chunks fresh.id fresh.bytes := by
  have next : cursor.nextLsn = lastLsnOf start segments + 1 := by
    rw [atEnd.nextLsn]
    exact Nat.mod_eq_of_lt room
  have count : lastLsnOf start (segments ++ [fresh]) = lastLsnOf start segments + 1 := by
    rw [lastLsnOf, lastLsnOf, allRecords_concat, List.length_append, opens, List.length_singleton]
    omega
  have below : cursor.activeSegment ≤ lastLsnOf start segments := by
    simp only [Cursor.rollsOver, Bool.or_eq_true, beq_iff_eq, Bool.and_eq_true,
      decide_eq_true_eq] at rolls
    rcases rolls with none | ⟨used, -⟩
    · omega
    · exact atEnd.spare follow (.inl used)
  have turned : cursor.turn config placed.bytes.length =
      { cursor with activeSegment := cursor.activeSegment + 1, activeBytes := 0 } := by
    rw [Cursor.turn, if_pos rolls]
  have bytes : fresh.bytes = segmentHeader (cursor.activeSegment + 1) cursor.nextLsn identityHash ++
      placed.bytes := by
    rw [opens, Segment.bytes, recordBytes_singleton]
    rfl
  have reached : (start.afterAll segments).lastLsn = lastLsnOf start segments :=
    ScanState.lastLsn_afterAll segments
  rw [turned]
  refine ⟨count, ?_, ?_, ?_⟩
  · refine SegmentsFollow.concat.mpr ⟨follow, ?_⟩
    rw [opens]
    constructor
    case id_gt =>
      rw [previousSegmentId_afterAll unknown atEnd.none fun init last split => (atEnd.active init last split).1]
      exact Nat.lt_succ_self _
    case id_le => dsimp only; omega
    case identity_lt => exact small
    case identity =>
      intro known
      have same := atEnd.segmentIdentity unknown' known
      rw [← same]
      refine keeps ?_
      rw [same]
      exact known
    case firstLsn => rw [reached]; exact next
    case firstLsn_lt => dsimp only; omega
    case consecutive => exact ⟨by rw [reached, lsn, next], trivial⟩
    case compatible =>
      intro other member
      rw [List.mem_singleton.mp member]
      exact compatible
  · constructor
    case nextLsn =>
      rw [count, ← next]
      rfl
    case none => exact fun empty => absurd empty (by simp)
    case active =>
      intro init final split
      obtain rfl : fresh = final := List.singleton_inj.mp (List.append_inj' split rfl).2
      refine ⟨?_, ?_, ?_⟩
      · rw [opens]
        rfl
      · rw [bytes, List.length_append, length_segmentHeader]
        rfl
      · rw [opens]
        exact fun _ => rfl
    case identity_lt => exact small
  · rw [bytes, opens]
    rfl

/-- The active segment a record extends. -/
theorem AtEnd.extend (atEnd : AtEnd segments (lastLsnOf start segments) cursor.toLogicalWalState)
    (follow : SegmentsFollow start segments) (room : lastLsnOf start segments + 1 < 2 ^ 64)
    (lsn : placed.lsn = cursor.nextLsn) (compatible : placed.Compatible identityHash)
    (small : identityHash < 2 ^ 64)
    (keeps : cursor.identityHash ≠ 0 → identityHash = cursor.identityHash)
    (stays : cursor.rollsOver config placed.bytes.length = false) :
    ∃ init last, segments = init ++ [last] ∧
    lastLsnOf start (init ++ [last.add [placed]]) = lastLsnOf start segments + 1 ∧
    SegmentsFollow start (init ++ [last.add [placed]]) ∧
    AtEnd (init ++ [last.add [placed]]) (lastLsnOf start (init ++ [last.add [placed]]))
      ((cursor.turn config placed.bytes.length).put identityHash placed.bytes).toLogicalWalState ∧
    ((cursor.turn config placed.bytes.length).put identityHash placed.bytes).chunks =
      addToChunks cursor.chunks last.id placed.bytes := by
  have next : cursor.nextLsn = lastLsnOf start segments + 1 := by
    rw [atEnd.nextLsn]
    exact Nat.mod_eq_of_lt room
  have turned : cursor.turn config placed.bytes.length = cursor := by
    rw [Cursor.turn, if_neg (by rw [stays]; exact Bool.false_ne_true)]
  rcases List.eq_nil_or_concat' segments with rfl | ⟨init, last, rfl⟩
  · rw [Cursor.rollsOver, atEnd.none rfl] at stays
    cases stays
  · obtain ⟨segment, bytes, identity⟩ := atEnd.active init last rfl
    have length := last.length_bytes
    have started : cursor.activeBytes ≠ 0 := by
      rw [bytes, length, kSegmentHeaderBytes]
      omega
    obtain ⟨before, follows⟩ := SegmentsFollow.concat.mp follow
    have filed : last.identityHash ≠ 0 → identityHash = last.identityHash := by
      intro known
      have own := identity known
      exact (keeps fun none => known (own.symm.trans none)).trans own
    have compatibleLast : placed.Compatible last.identityHash := by
      by_cases known : last.identityHash = 0
      · exact .inl known
      · exact filed known ▸ compatible
    have total : lastLsnOf start (init ++ [last]) =
        (start.afterAll init).lastLsn + last.records.length := by
      rw [ScanState.lastLsn_afterAll, lastLsnOf, allRecords_concat, List.length_append, Nat.add_assoc]
    have count : lastLsnOf start (init ++ [last.add [placed]]) =
        lastLsnOf start (init ++ [last]) + 1 := by
      rw [lastLsnOf, lastLsnOf, allRecords_concat, allRecords_concat, Segment.add]
      simp only [List.length_append, List.length_singleton]
      omega
    rw [turned]
    refine ⟨init, last, rfl, count, ?_, ?_, ?_⟩
    · refine SegmentsFollow.concat.mpr ⟨before, follows.add ?_ compatibleLast⟩
      rw [lsn, next, total]
    · constructor
      case nextLsn =>
        rw [count, ← next]
        rfl
      case none => exact fun empty => absurd empty (by simp)
      case active =>
        intro others final split
        obtain rfl : last.add [placed] = final := List.singleton_inj.mp (List.append_inj' split rfl).2
        refine ⟨segment, ?_, fun known => filed known⟩
        rw [Segment.bytes_add, List.length_append, recordBytes_singleton, ← bytes]
        exact congrArg (· + placed.bytes.length) (if_neg started)
      case identity_lt => exact small
    · dsimp only [Cursor.put]
      rw [if_neg started, List.nil_append, segment]

theorem Ready.atEnd (ready : Ready segments position) (small : position.nextLsn < 2 ^ 64) :
    AtEnd segments (lastLsnOf {} segments) position where
  nextLsn := by
    rw [lastLsnOf, Nat.zero_add, ← ready.nextLsn, Nat.mod_eq_of_lt small]
  none := ready.none
  active := ready.active
  identity_lt := ready.identity_lt

theorem AtEnd.ready (atEnd : AtEnd segments (lastLsnOf {} segments) position)
    (follow : SegmentsFollow {} segments) (room : lastLsnOf {} segments + 1 < 2 ^ 64) :
    Ready segments position where
  follow := follow
  nextLsn := by
    rw [atEnd.nextLsn, Nat.mod_eq_of_lt room, lastLsnOf, Nat.zero_add]
  none := atEnd.none
  active := atEnd.active
  identity_lt := atEnd.identity_lt

end AtEnd

/-- An entry goes to the end of the active segment or opens the next one. -/
theorem placeEntry_ok (ready : Ready segments cursor.toLogicalWalState)
    (room : cursor.nextLsn + 1 < 2 ^ 64) (done : placeEntry cursor entry = .ok next) :
    ∃ placed : Placed config, placed.record = replayRecord cursor.nextLsn entry ∧
      next.nextLsn = cursor.nextLsn + 1 ∧
      ((∃ init last, segments = init ++ [last] ∧
          Ready (init ++ [last.add [placed]]) next.toLogicalWalState ∧
          next.chunks = addToChunks cursor.chunks last.id placed.bytes) ∨
        ∃ fresh : Segment config, fresh.records = [placed] ∧ fresh.id = cursor.activeSegment + 1 ∧
          Ready (segments ++ [fresh]) next.toLogicalWalState ∧
          next.chunks = addToChunks cursor.chunks fresh.id fresh.bytes) := by
  obtain ⟨placed, record, lsn, compatible, rfl⟩ :=
    placeEntry_eq_ok (Nat.lt_of_succ_lt room) done
  have small := Cursor.identityFor_lt ready.identity_lt entry.1.entry
  have keeps : cursor.identityHash ≠ 0 →
      cursor.identityFor entry.1.entry = cursor.identityHash := fun known => by
    rw [Cursor.identityFor, if_neg known]
  have numbered : (cursor.turn config placed.bytes.length).nextLsn = cursor.nextLsn := by
    rw [Cursor.turn]
    split <;> rfl
  refine ⟨placed, record, ?_, ?_⟩
  · rw [Cursor.put, numbered]
    exact Nat.mod_eq_of_lt room
  · have atEnd := ready.atEnd (Nat.lt_of_succ_lt room)
    have last : lastLsnOf {} segments + 1 = cursor.nextLsn := by
      rw [lastLsnOf, Nat.zero_add, ready.nextLsn]
    have room' : lastLsnOf {} segments + 1 < 2 ^ 64 := by omega
    cases rolls : cursor.rollsOver config placed.bytes.length with
    | false =>
      obtain ⟨init, final, split, count, follow, ends, chunks⟩ :=
        atEnd.extend ready.follow room' lsn compatible small keeps rolls
      exact .inl ⟨init, final, split, ends.ready follow (by omega), chunks⟩
    | true =>
      obtain ⟨count, follow, ends, chunks⟩ :=
        atEnd.open ready.follow rfl rfl room' lsn compatible small keeps rolls rfl
      exact .inr ⟨_, rfl, rfl, ends.ready follow (by omega), chunks⟩

/-! ## A whole batch -/

/-- The segments with records added to the last one. -/
def extendLast (segments : List (Segment config)) (records : List (Placed config)) :
    List (Segment config) :=
  match segments.getLast? with
  | some last => segments.dropLast ++ [last.add records]
  | none => []

/-- The chunk for the records added to the last segment, if there are any. -/
def extendChunk (segments : List (Segment config)) (records : List (Placed config)) :
    List (Nat × Bytes) :=
  match segments.getLast?, records with
  | some last, _ :: _ => [(last.id, recordBytes records)]
  | _, _ => []

/-- The chunk of a new segment. -/
def Segment.chunk (segment : Segment config) : Nat × Bytes := (segment.id, segment.bytes)

theorem extendLast_concat (init : List (Segment config)) (last : Segment config)
    (records : List (Placed config)) :
    extendLast (init ++ [last]) records = init ++ [last.add records] := by
  simp [extendLast]

theorem extendLast_nil (segments : List (Segment config)) : extendLast segments [] = segments := by
  rcases List.eq_nil_or_concat' segments with rfl | ⟨init, last, rfl⟩
  · rfl
  · rw [extendLast_concat, Segment.add_nil]

theorem extendChunk_concat (init : List (Segment config)) (last : Segment config)
    {records : List (Placed config)} (some : records ≠ []) :
    extendChunk (init ++ [last]) records = [(last.id, recordBytes records)] := by
  cases records with
  | nil => exact absurd rfl some
  | cons placed rest => simp [extendChunk]

theorem extendChunk_nil (segments : List (Segment config)) : extendChunk segments [] = [] := by
  unfold extendChunk
  cases segments.getLast? <;> rfl

theorem addToChunks_concat (chunks : List (Nat × Bytes)) (name : Nat) (first second : Bytes) :
    addToChunks (chunks ++ [(name, first)]) name second = chunks ++ [(name, first ++ second)] := by
  simp [addToChunks]

theorem addToChunks_ne {chunks : List (Nat × Bytes)} {name : Nat} {bytes : Bytes}
    (other : ∀ chunk ∈ chunks, chunk.1 ≠ name) :
    addToChunks chunks name bytes = chunks ++ [(name, bytes)] := by
  rw [addToChunks]
  cases last : chunks.getLast? with
  | none => rw [List.getLast?_eq_none_iff.mp last, List.nil_append]
  | some chunk => simp [other chunk (List.mem_of_getLast? last)]

/-- The layout of some entries over a log: the records `added` to its last
segment and the `fresh` segments after it. -/
structure Planned (segments : List (Segment config)) (cursor : Cursor)
    (added : List (Placed config)) (fresh : List (Segment config)) : Prop where
  ready : Ready (extendLast segments added ++ fresh) cursor.toLogicalWalState
  chunks : cursor.chunks = extendChunk segments added ++ fresh.map Segment.chunk
  none : segments = [] → added = []

variable {added : List (Placed config)} {fresh : List (Segment config)}

theorem Planned.names (planned : Planned segments cursor added fresh) :
    ∀ chunk ∈ cursor.chunks, ∃ segment ∈ extendLast segments added ++ fresh, chunk.1 = segment.id := by
  intro chunk member
  rw [planned.chunks] at member
  rcases List.mem_append.mp member with extended | isFresh
  · rcases List.eq_nil_or_concat' segments with rfl | ⟨init, last, rfl⟩
    · cases extended
    · cases added with
      | nil =>
        rw [extendChunk_nil] at extended
        cases extended
      | cons placed rest =>
        rw [extendChunk_concat init last (List.cons_ne_nil _ _), List.mem_singleton] at extended
        refine ⟨last.add (placed :: rest), List.mem_append_left _ ?_, by rw [extended]; rfl⟩
        rw [extendLast_concat]
        exact List.mem_append_right _ (.head _)
  · obtain ⟨segment, isSegment, rfl⟩ := List.mem_map.mp isFresh
    exact ⟨segment, List.mem_append_right _ isSegment, rfl⟩

/-- One more entry. -/
theorem Planned.step (planned : Planned segments cursor added fresh)
    (room : cursor.nextLsn + 1 < 2 ^ 64) (done : placeEntry cursor entry = .ok next) :
    ∃ placed added' fresh', placed.record = replayRecord cursor.nextLsn entry ∧
      next.nextLsn = cursor.nextLsn + 1 ∧ Planned segments next added' fresh' ∧
      added' ++ allRecords fresh' = added ++ allRecords fresh ++ [placed] := by
  obtain ⟨placed, record, numbered, ⟨init, last, split, after, chunks⟩ |
    ⟨opened, holds, id, after, chunks⟩⟩ := placeEntry_ok planned.ready room done
  · refine ⟨placed, ?_⟩
    rcases List.eq_nil_or_concat' fresh with rfl | ⟨others, final, rfl⟩
    · -- Into the active segment of the log.
      rcases List.eq_nil_or_concat' segments with rfl | ⟨begin, active, rfl⟩
      · cases init <;> cases split
      · rw [List.append_nil, extendLast_concat] at split
        obtain ⟨rfl, tail⟩ := List.append_inj' split rfl
        obtain rfl := List.singleton_inj.mp tail
        refine ⟨added ++ [placed], [], record, numbered, ⟨?_, ?_, fun empty => ?_⟩, by simp [allRecords]⟩
        · rwa [extendLast_concat, List.append_nil, ← Segment.add_add]
        · have grown : extendChunk (begin ++ [active]) (added ++ [placed]) =
              [(active.id, recordBytes added ++ placed.bytes)] := by
            rw [extendChunk_concat begin active (by simp), recordBytes_append, recordBytes_singleton]
          rw [chunks, planned.chunks, List.map_nil, List.append_nil, List.append_nil, grown]
          cases added with
          | nil => rw [extendChunk_nil]; rfl
          | cons first rest =>
            rw [extendChunk_concat begin active (List.cons_ne_nil _ _)]
            exact addToChunks_concat [] active.id _ placed.bytes
        · exact absurd empty (by simp)
    · -- Into the last of the new segments.
      rw [← List.append_assoc] at split
      obtain ⟨rfl, tail⟩ := List.append_inj' split rfl
      obtain rfl := List.singleton_inj.mp tail
      refine ⟨added, others ++ [final.add [placed]], record, numbered, ⟨?_, ?_, planned.none⟩, ?_⟩
      · rwa [List.append_assoc] at after
      · rw [chunks, planned.chunks, List.map_append, List.map_append, List.map_singleton,
          List.map_singleton, ← List.append_assoc, ← List.append_assoc, Segment.chunk,
          addToChunks_concat, Segment.chunk, Segment.bytes_add, recordBytes_singleton]
        rfl
      · simp [allRecords_append, allRecords_singleton, Segment.add]
  · -- Into a segment of its own.
    refine ⟨placed, added, fresh ++ [opened], record, numbered, ⟨?_, ?_, planned.none⟩, ?_⟩
    · rwa [List.append_assoc] at after
    · rw [chunks, addToChunks_ne, planned.chunks, List.map_append, List.append_assoc]
      · rfl
      · intro chunk member
        obtain ⟨segment, isSegment, same⟩ := planned.names chunk member
        have sorted := (SegmentsFollow.concat.mp after.follow).2.id_gt
        have below : segment.id < opened.id :=
          (List.pairwise_append.mp after.follow.pairwise.1).2.2 segment isSegment opened (.head _)
        omega
    · rw [allRecords_append, allRecords_singleton, holds, List.append_assoc]

/-- A batch that can be laid out. -/
theorem Planned.layOut {batch : Batch config} (planned : Planned segments cursor added fresh)
    (room : cursor.nextLsn + batch.length < 2 ^ 64)
    (done : batch.foldlM placeEntry cursor = .ok next) :
    ∃ added' fresh', Planned segments next added' fresh' ∧
      (added' ++ allRecords fresh').map Placed.record =
        (added ++ allRecords fresh).map Placed.record ++ batchRecords cursor.nextLsn batch := by
  induction batch generalizing cursor added fresh with
  | nil =>
    cases done
    exact ⟨added, fresh, planned, (List.append_nil _).symm⟩
  | cons entry rest ih =>
    rw [List.foldlM_cons, bind_eq_ok] at done
    obtain ⟨middle, first, done⟩ := done
    rw [List.length_cons] at room
    obtain ⟨placed, added', fresh', record, numbered, planned, records⟩ :=
      planned.step (by omega) first
    obtain ⟨added'', fresh'', planned, all⟩ := ih planned (by omega) done
    refine ⟨added'', fresh'', planned, ?_⟩
    rw [all, records, List.map_append, List.map_singleton, record, numbered, List.append_assoc]
    congr 1
    rw [batchRecords, batchRecords, List.mapIdx_cons]
    simp [Nat.add_assoc, Nat.add_comm 1]

/-- At the start of a batch nothing is laid out. -/
theorem Ready.planned {position : LogicalWalState} (ready : Ready segments position) :
    Planned segments { position with } [] [] where
  ready := by
    rw [extendLast_nil, List.append_nil]
    exact ready
  chunks := by
    rw [extendChunk_nil]
    rfl
  none _ := rfl

end PacificDb.Wal
