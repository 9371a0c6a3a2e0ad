import PacificDb.Lib.KWayMerge
import PacificDb.Lsm.PointReads
import Mathlib.Data.List.Induction

/-!
# The merged scan

`LSM::visitLatest` streams a collection: a heap merge of cursors over the published
SSTs, which decode only the members they are asked for, overlaid with the rows in
memory in the order of their ids. `getAll` decodes every row into a map.

The rows are the same (`mergedScan_agrees_iff`), unless an SST has a row that a view
cannot index: then the merged scan throws where `getAll` returns. It also hands out
values in memory that are no objects, which `getAll` leaves out, when no commit index
hides them.
-/

namespace PacificDb.Lsm

open Lib

variable {config : LsmConfig}

/-! ## Cursors -/

/-- A cursor that stands on a row. -/
structure SstCursor where
  id : String
  row : Json
  rest : List Json

/-- `SstCursor::advance` from the end of the row before; none is the end of the file. -/
def SstCursor.advance (config : LsmConfig) (indexFields : Bool) (previousId : String) :
    List Json → Except String (Option SstCursor)
  | [] => .ok none
  | row :: rest =>
      match (MsgpackRowView.mk row indexFields).field "id" with
      | none => .error "SST cursor row has no id"
      | some rawId =>
          let currentId := idText config rawId
          if currentId = "" ∨ (previousId ≠ "" ∧ currentId < previousId) then
            .error "SST cursor ids are empty or unsorted"
          else .ok (some ⟨currentId, row, rest⟩)

/-- `SstCursor::open`. -/
def SstCursor.open (config : LsmConfig) (indexFields : Bool) (rows : List Json) :
    Except String (Option SstCursor) :=
  advance config indexFields "" rows

/-! ## The merge of the SSTs -/

/-- The winning row of an id so far. -/
structure Selected where
  row : Json
  version : Option Int
  file : Nat

/-- Whether a row replaces the winner. -/
def replacesSelected (version : Option Int) (file : Nat) : Option Selected → Bool
  | none => true
  | some newest =>
      (match version, newest.version with
        | some version, some newestVersion => decide (newestVersion < version)
        | some _, none => true
        | none, _ => false) ||
      (version == newest.version && decide (newest.file ≤ file))

def selectRow (eligible : Json → Bool) (file : Nat) (newest : Option Selected) (row : Json) :
    Option Selected :=
  let version := (MsgpackRowView.mk row true).rowVersion
  if replacesSelected version file newest && eligible row then some ⟨row, version, file⟩ else newest

/-- The run of an id in one file, with the cursor behind it. -/
def consumeRun (config : LsmConfig) (eligible : Json → Bool) (id : String) (file : Nat) :
    Json → List Json → Option Selected → Except String (Option SstCursor × Option Selected)
  | row, [], newest => .ok (none, selectRow eligible file newest row)
  | row, next :: rest, newest =>
      match SstCursor.advance config true id (next :: rest) with
      | .error reason => .error reason
      | .ok none => .ok (none, selectRow eligible file newest row)
      | .ok (some cursor) =>
          if cursor.id = id then
            consumeRun config eligible id file next rest (selectRow eligible file newest row)
          else .ok (some cursor, selectRow eligible file newest row)

/-- The cursors that stand on the id, from the newest file on. -/
def consumeMatching (config : LsmConfig) (eligible : Json → Bool) (id : String) :
    Nat → List (Option SstCursor) → Except String (List (Option SstCursor) × Option Selected)
  | _, [] => .ok ([], none)
  | file, cursor :: newer => do
      let (behind, newest) ← consumeMatching config eligible id (file + 1) newer
      match cursor with
      | none => return (none :: behind, newest)
      | some on =>
          if on.id = id then do
            let (moved, selected) ← consumeRun config eligible id file on.row on.rest newest
            return (moved :: behind, selected)
          else return (some on :: behind, newest)

/-- The id on top of the heap, which has an item for every cursor that stands on a row. -/
def heapTop (cursors : List (Option SstCursor)) : Option String :=
  (cursors.filterMap fun cursor => cursor.map SstCursor.id).min?

/-- The loop of `visitLatestSstRows`: the winners it hands to the visitor. Every round
passes a row, so that the rows are fuel enough. -/
def mergeLoop (config : LsmConfig) (eligible : Json → Bool) :
    Nat → List (Option SstCursor) → Except String (List Json)
  | 0, _ => .error "merge did not finish"
  | fuel + 1, cursors =>
      match heapTop cursors with
      | none => .ok []
      | some id => do
          let (behind, selected) ← consumeMatching config eligible id 0 cursors
          let later ← mergeLoop config eligible fuel behind
          match selected with
          | some winner => return winner.row :: later
          | none => return later

/-- `visitLatestSstRows` with field indexes and deleted rows, oldest file first. -/
def visitLatestSstRows (config : LsmConfig) (eligible : Json → Bool) (files : List (List Json)) :
    Except String (List Json) := do
  let cursors ← files.mapM (SstCursor.open config true)
  mergeLoop config eligible (files.flatten.length + 1) cursors

/-! ## The rows in memory -/

/-- `fieldsVisibleByCommitIndex`, on the members of a row or of a view. -/
def fieldsVisibleByCommitIndex (view : RaftView) (field : String → Option Json)
    (committedIndex : Nat) : Bool :=
  if !view.enabled then
    match field "_visibility_state" with
    | some (.string state) => state != "PENDING"
    | _ => true
  else
    let state := ["_visibility_state", "visibility_state"].findSome? fun name =>
      match field name with
      | some (.string state) => some state
      | _ => none
    let stateShows := match state with
      | some state => state == "COMMITTED_VISIBLE" || state == "TOMBSTONED"
      | none =>
          match field "committed" with
          | some (.bool committed) => committed
          | _ => true
    if !stateShows then false
    else if view.standaloneBypass then true
    else
      match ["_raft_commit_index", "commit_index"].findSome? fun name => field name >>= Json.asUInt64? with
      | none => false
      | some rowCommit =>
          let floor := ((field "_visibility_floor").bind Json.asUInt64?).getD rowCommit
          decide (rowCommit ≤ committedIndex) && decide (floor ≤ committedIndex)

structure Candidate where
  materialized : Json
  version : Option Int
  order : Nat

/-- Whether a row in memory replaces the one before it. -/
def replacesCandidate (incoming current : Candidate) : Bool :=
  (match incoming.version, current.version with
    | some version, some currentVersion => decide (currentVersion < version)
    | some _, none => true
    | none, _ => false) ||
  (incoming.version == current.version && decide (current.order < incoming.order))

structure MemoryScan where
  latest : AList (fun _ : String => Candidate) := ∅
  noId : List Candidate := []
  order : Nat := 0

def considerMemory (config : LsmConfig) (committedIndex : Nat) (scan : MemoryScan) (doc : Json) :
    MemoryScan :=
  let counted := { scan with order := scan.order + 1 }
  if !fieldsVisibleByCommitIndex config.raft doc.field? committedIndex then counted
  else
    let incoming : Candidate := ⟨doc, extractDocVersionScore doc, counted.order⟩
    match rowKey config doc with
    | none => { counted with noId := counted.noId ++ [incoming] }
    | some id =>
        match scan.latest.lookup id with
        | none => { counted with latest := scan.latest.insert id incoming }
        | some current =>
            if replacesCandidate incoming current then
              { counted with latest := scan.latest.insert id incoming }
            else counted

/-! ## The overlay -/

/-- `visitCandidate`: what the visitor is handed. -/
def visitCandidate (doc : Json) : List Json := if isDeletedDoc doc then [] else [doc]

/-- The winner of the SSTs, past the candidates in memory. -/
def visitEncoded (config : LsmConfig) (committedIndex : Nat) (row : Json) : List Json :=
  let view := MsgpackRowView.mk row true
  let deleted := match view.field "_deleted" with
    | some (.bool deleted) => deleted
    | _ => false
  if deleted then []
  else if !fieldsVisibleByCommitIndex config.raft view.field committedIndex then []
  else [row]

/-- Whether the candidate in memory beats the winner of the SSTs. -/
def memoryWins (config : LsmConfig) (committedIndex : Nat) (memory : Candidate) (row : Json) : Bool :=
  let view := MsgpackRowView.mk row true
  !fieldsVisibleByCommitIndex config.raft view.field committedIndex ||
    match memory.version, view.rowVersion with
    | some version, some sstVersion => decide (sstVersion ≤ version)
    | some _, none => true
    | none, some _ => false
    | none, none => true

def encodedId (config : LsmConfig) (row : Json) : String :=
  match (MsgpackRowView.mk row true).field "id" with
  | some id => idText config id
  | none => ""

/-- The visits in the order of the ids: `ids` are those left in memory. -/
def overlay (config : LsmConfig) (committedIndex : Nat) (memory : String → Option Candidate) :
    List String → List Json → List Json
  | ids, [] => ids.flatMap fun id => (memory id).toList.flatMap fun c => visitCandidate c.materialized
  | ids, row :: rows =>
      let id := encodedId config row
      let before := ids.takeWhile fun other => other < id
      let left := ids.dropWhile fun other => other < id
      (before.flatMap fun id => (memory id).toList.flatMap fun c => visitCandidate c.materialized) ++
        match left with
        | [] => visitEncoded config committedIndex row ++ overlay config committedIndex memory [] rows
        | next :: more =>
            if next = id then
              (match memory next with
                | some candidate =>
                    if memoryWins config committedIndex candidate row then
                      visitCandidate candidate.materialized
                    else visitEncoded config committedIndex row
                | none => visitEncoded config committedIndex row) ++
                  overlay config committedIndex memory more rows
            else visitEncoded config committedIndex row ++
              overlay config committedIndex memory (next :: more) rows

/-- `LSM::visitLatest` with its default arguments: the rows it hands to a visitor that
always returns true. -/
def visitLatest (config : LsmConfig) (s : Collection) (committedIndex : Nat) :
    Except String (List Json) := do
  let scan := s.memoryRows.foldl (considerMemory config committedIndex) {}
  let names ← publishedSsts config.codec s.dir
  let files ← names.mapM fun name =>
    match scanSst s.dir name with
    | some (_, rows) => .ok rows
    | none => .error "cannot stream published SSTs: cannot open SST cursor"
  match visitLatestSstRows config (fun row => fieldsVisibleByCommitIndex config.raft
      (MsgpackRowView.mk row true).field committedIndex) files with
  | .error reason => .error ("cannot stream published SSTs: " ++ reason)
  | .ok rows => return (overlay config committedIndex (fun id => scan.latest.lookup id)
      (sortNames scan.latest.keys) rows) ++ scan.noId.flatMap fun c => visitCandidate c.materialized

/-! ## What the memory scan leaves -/

section Memory

variable {committedIndex : Nat}

/-- A row is visible to a read that does not ask whether it is an object. -/
def fieldsVisible (config : LsmConfig) (committedIndex : Nat) (doc : Json) : Bool :=
  fieldsVisibleByCommitIndex config.raft doc.field? committedIndex

theorem docVisible_eq (doc : Json) :
    Collection.visibleDoc config committedIndex doc =
      (doc.isObject && fieldsVisible config committedIndex doc) := rfl

/-- A version and the score of its document. -/
theorem docScore_le_iff {doc other : Json} : docScore doc ≤ docScore other ↔
    (match extractDocVersionScore other, extractDocVersionScore doc with
      | some version, some current => current < version
      | some _, none => True
      | none, _ => False) ∨ extractDocVersionScore other = extractDocVersionScore doc := by
  unfold docScore
  cases extractDocVersionScore doc with
  | none => cases extractDocVersionScore other <;> simp
  | some current =>
    cases extractDocVersionScore other with
    | none => simp
    | some version =>
      simp only [WithBot.coe_le_coe, Option.some.injEq]
      omega

theorem replacesCandidate_iff {incoming current : Candidate}
    (incomingVersion : incoming.version = extractDocVersionScore incoming.materialized)
    (currentVersion : current.version = extractDocVersionScore current.materialized)
    (later : current.order < incoming.order) :
    replacesCandidate incoming current = true ↔
      docScore current.materialized ≤ docScore incoming.materialized := by
  rw [docScore_le_iff, ← incomingVersion, ← currentVersion, replacesCandidate, Bool.or_eq_true,
    Bool.and_eq_true, decide_eq_true later, beq_iff_eq]
  refine or_congr ?_ (and_iff_left rfl)
  split <;> simp

/-- Per id the last visible row of greatest score, and the rows without an id. -/
structure MemoryScan.Holds (config : LsmConfig) (seen : List Json) (scan : MemoryScan) : Prop where
  latest : ∀ id, (scan.latest.lookup id).map Candidate.materialized =
    lastMax docScore (rowsOf config id seen)
  candidates : ∀ id c, scan.latest.lookup id = some c →
    c.version = extractDocVersionScore c.materialized ∧ c.order ≤ scan.order
  noId : scan.noId.map Candidate.materialized = seen.filter fun row => rowKey config row = none

theorem rowsOf_concat (id : String) (seen : List Json) (doc : Json) :
    lastMax docScore (rowsOf config id (seen ++ [doc])) =
      if rowKey config doc = some id then
        Lib.latest docScore (lastMax docScore (rowsOf config id seen)) (some doc)
      else lastMax docScore (rowsOf config id seen) := by
  rw [rowsOf_append, lastMax_append]
  by_cases own : rowKey config doc = some id
  · have only : rowsOf config id [doc] = [doc] := List.filter_eq_self.mpr (by simpa using own)
    rw [if_pos own, only]
    rfl
  · have none : rowsOf config id [doc] = [] := List.filter_eq_nil_iff.mpr (by simpa using own)
    rw [if_neg own, none]
    exact latest_none _

theorem holds_considerMemory {seen : List Json} {scan : MemoryScan} {doc : Json}
    (holds : scan.Holds config seen) :
    (considerMemory config committedIndex scan doc).Holds config
      (seen ++ [doc].filter (fieldsVisible config committedIndex)) := by
  have older : ∀ id c, scan.latest.lookup id = some c →
      c.version = extractDocVersionScore c.materialized ∧ c.order ≤ scan.order + 1 :=
    fun id c found => ⟨(holds.candidates id c found).1, (holds.candidates id c found).2.trans (by omega)⟩
  unfold considerMemory
  dsimp only
  cases visible : fieldsVisible config committedIndex doc with
  | false =>
    rw [← fieldsVisible, visible, List.filter_cons, if_neg (by simp [visible]), List.filter_nil,
      List.append_nil]
    exact ⟨holds.latest, older, holds.noId⟩
  | true =>
    rw [← fieldsVisible, visible, List.filter_cons, if_pos visible, List.filter_nil]
    simp only [Bool.not_true, Bool.false_eq_true, if_false]
    have stored : ∀ {own}, rowKey config doc = some own →
        Lib.latest docScore (lastMax docScore (rowsOf config own seen)) (some doc) = some doc →
        MemoryScan.Holds config (seen ++ [doc]) { scan with
          order := scan.order + 1
          latest := scan.latest.insert own ⟨doc, extractDocVersionScore doc, scan.order + 1⟩ } := by
      intro own isKey wins
      refine ⟨fun id => ?_, fun id c found => ?_, ?_⟩
      · rw [rowsOf_concat]
        by_cases same : id = own
        · rw [same, AList.lookup_insert, if_pos isKey, wins]
          rfl
        · rw [AList.lookup_insert_ne same, if_neg (by rw [isKey]; simpa using Ne.symm same),
            holds.latest]
      · by_cases same : id = own
        · rw [same, AList.lookup_insert] at found
          cases found
          exact ⟨rfl, le_rfl⟩
        · rw [AList.lookup_insert_ne same] at found
          exact older id c found
      · rw [List.filter_append, List.filter_cons, if_neg (by simp [isKey]), List.filter_nil,
          List.append_nil]
        exact holds.noId
    split
    next noKey =>
      refine ⟨fun id => ?_, older, ?_⟩
      · rw [rowsOf_concat, if_neg (by simp [noKey]), holds.latest]
      · rw [List.map_append, holds.noId, List.filter_append, List.filter_cons,
          if_pos (by simp [noKey])]
        rfl
    next own isKey =>
      have before := holds.latest own
      split
      next missing =>
        rw [missing] at before
        refine stored isKey ?_
        rw [← before]
        rfl
      next current found =>
        rw [found] at before
        obtain ⟨isVersion, isOlder⟩ := holds.candidates own current found
        have replaces := @replacesCandidate_iff ⟨doc, extractDocVersionScore doc, scan.order + 1⟩
          current rfl isVersion (Nat.lt_succ_of_le isOlder)
        split
        next newer =>
          refine stored isKey ?_
          rw [← before]
          exact if_pos (replaces.mp newer)
        next kept =>
          refine ⟨fun id => ?_, older, ?_⟩
          · rw [rowsOf_concat]
            by_cases same : rowKey config doc = some id
            · cases isKey.symm.trans same
              rw [if_pos same, ← before, found]
              exact (if_neg fun below => kept (replaces.mpr below)).symm
            · rw [if_neg same, holds.latest]
          · rw [List.filter_append, List.filter_cons, if_neg (by simp [isKey]), List.filter_nil,
              List.append_nil]
            exact holds.noId

theorem holds_memoryScan (rows : List Json) :
    (rows.foldl (considerMemory config committedIndex) {}).Holds config
      (rows.filter (fieldsVisible config committedIndex)) := by
  induction rows using List.reverseRecOn with
  | nil => exact ⟨fun _ => rfl, fun _ _ found => (by cases found), rfl⟩
  | append_singleton rows doc ih =>
    rw [List.foldl_append, List.filter_append]
    exact holds_considerMemory ih

end Memory

/-! ## The winner of an id -/

section Select

variable {committedIndex : Nat}

/-- The test of the merge on a view. -/
def eligible (config : LsmConfig) (committedIndex : Nat) (row : Json) : Bool :=
  fieldsVisibleByCommitIndex config.raft (MsgpackRowView.mk row true).field committedIndex

/-- A view that is indexed shows the members of the row. -/
theorem eligible_indexable {row : Json} (indexable : Indexable row) :
    eligible config committedIndex row = Collection.visibleDoc config committedIndex row := by
  have fields : (MsgpackRowView.mk row true).field = row.field? := by
    funext name
    exact MsgpackRowView.field_of_valid indexable
  rw [eligible, fields, docVisible_eq, MsgpackRowView.isObject_of_valid indexable]
  rfl

theorem replacesSelected_iff {row : Json} {newest : Selected} {file : Nat}
    (isVersion : newest.version = extractDocVersionScore newest.row) :
    replacesSelected (extractDocVersionScore row) file (some newest) = true ↔
      docScore newest.row < docScore row ∨
        (docScore newest.row = docScore row ∧ newest.file ≤ file) := by
  have same : docScore newest.row = docScore row ↔
      extractDocVersionScore row = extractDocVersionScore newest.row := by
    unfold docScore
    cases extractDocVersionScore row <;> cases extractDocVersionScore newest.row <;>
      simp [eq_comm]
  have less : docScore newest.row < docScore row ↔
      (match extractDocVersionScore row, extractDocVersionScore newest.row with
        | some version, some newestVersion => decide (newestVersion < version)
        | some _, none => true
        | none, _ => false) = true := by
    unfold docScore
    cases extractDocVersionScore row <;> cases extractDocVersionScore newest.row <;> simp
  unfold replacesSelected
  dsimp only
  rw [isVersion, Bool.or_eq_true, Bool.and_eq_true, beq_iff_eq, decide_eq_true_eq, less, same]

/-- The winner, and the file it is from. -/
def Selected.winner (selected : Selected) : Winner Json := ⟨selected.row, selected.file⟩

/-- The version that is kept beside the winner is the winner's. -/
def Versioned (newest : Option Selected) : Prop :=
  ∀ best ∈ newest, best.version = extractDocVersionScore best.row

theorem replacesSelected_eq {row : Json} {file : Nat} {newest : Option Selected}
    (versioned : Versioned newest) :
    replacesSelected (extractDocVersionScore row) file newest =
      replacesWinner docScore file row (newest.map Selected.winner) := by
  cases newest with
  | none => rfl
  | some best =>
    apply Bool.eq_iff_iff.mpr
    rw [replacesSelected_iff (versioned best rfl)]
    exact (@replacesWinner_iff _ _ _ docScore file row best.winner).symm

theorem selectRow_offerRow {file : Nat} {newest : Option Selected} {row : Json}
    (indexable : Indexable row) (versioned : Versioned newest) :
    (selectRow (eligible config committedIndex) file newest row).map Selected.winner =
        offerRow docScore (Collection.visibleDoc config committedIndex) file
          (newest.map Selected.winner) row ∧
      Versioned (selectRow (eligible config committedIndex) file newest row) := by
  unfold selectRow offerRow
  rw [MsgpackRowView.rowVersion_of_valid indexable, eligible_indexable indexable]
  dsimp only
  rw [replacesSelected_eq versioned]
  split
  · refine ⟨rfl, fun best isBest => ?_⟩
    cases isBest
    rfl
  · exact ⟨rfl, versioned⟩

/-- A run of rows of one file. -/
theorem foldl_selectRow {file : Nat} {newest : Option Selected} {run : List Json}
    (indexable : ∀ row ∈ run, Indexable row) (versioned : Versioned newest) :
    (run.foldl (selectRow (eligible config committedIndex) file) newest).map Selected.winner =
        run.foldl (offerRow docScore (Collection.visibleDoc config committedIndex) file)
          (newest.map Selected.winner) ∧
      Versioned (run.foldl (selectRow (eligible config committedIndex) file) newest) := by
  induction run generalizing newest with
  | nil => exact ⟨rfl, versioned⟩
  | cons row rest ih =>
    obtain ⟨first, later⟩ := List.forall_mem_cons.mp indexable
    obtain ⟨same, still⟩ := selectRow_offerRow first versioned
    rw [List.foldl_cons, List.foldl_cons, ← same]
    exact ih later still

end Select

/-! ## The merge -/

section Merge

variable {committedIndex : Nat}

/-- The rows a cursor can pass. -/
structure ReadyRows (config : LsmConfig) (rows : List Json) : Prop where
  indexable : ∀ row ∈ rows, Indexable row
  named : ∀ row ∈ rows, rowKey config row = some (sstKey config row)
  sorted : rows.Pairwise fun row next => sstKey config row ≤ sstKey config next

def hasKey (config : LsmConfig) (id : String) (row : Json) : Bool := decide (sstKey config row = id)

/-- The cursor on the first of the rows. -/
def cursorOf (config : LsmConfig) : List Json → Option SstCursor
  | [] => none
  | row :: rest => some ⟨sstKey config row, row, rest⟩

theorem ReadyRows.sublist {rows others : List Json} (ready : ReadyRows config rows)
    (sub : others.Sublist rows) : ReadyRows config others where
  indexable row member := ready.indexable row (sub.subset member)
  named row member := ready.named row (sub.subset member)
  sorted := ready.sorted.sublist sub

theorem idText_view {row : Json} (indexable : Indexable row)
    (named : rowKey config row = some (sstKey config row)) :
    ∃ rawId, (MsgpackRowView.mk row true).field "id" = some rawId ∧
      idText config rawId = sstKey config row := by
  have isKey := (Option.filter_eq_some_iff.mp named).1
  rw [MsgpackRowView.field_of_valid indexable]
  cases found : row.field? "id" with
  | none =>
    rw [docId?, found] at isKey
    cases isKey
  | some rawId =>
    rw [docId?_eq found] at isKey
    exact ⟨rawId, rfl, Option.some.inj isKey⟩

theorem encodedId_eq {row : Json} (indexable : Indexable row)
    (named : rowKey config row = some (sstKey config row)) : encodedId config row = sstKey config row := by
  obtain ⟨rawId, found, isKey⟩ := idText_view indexable named
  rw [encodedId, found]
  exact isKey

theorem sstKey_ne_empty {row : Json} (named : rowKey config row = some (sstKey config row)) :
    sstKey config row ≠ "" :=
  of_decide_eq_true (Option.filter_eq_some_iff.mp named).2

theorem advance_ready {rows : List Json} {previousId : String} (ready : ReadyRows config rows)
    (above : previousId ≠ "" → ∀ row ∈ rows, previousId ≤ sstKey config row) :
    SstCursor.advance config true previousId rows = .ok (cursorOf config rows) := by
  cases rows with
  | nil => rfl
  | cons row rest =>
    obtain ⟨rawId, found, isKey⟩ := idText_view (ready.indexable row (.head _)) (ready.named row (.head _))
    have nonempty := sstKey_ne_empty (ready.named row (.head _))
    have sorted : ¬(sstKey config row = "" ∨ (previousId ≠ "" ∧ sstKey config row < previousId)) := by
      rintro (empty | ⟨known, below⟩)
      · exact nonempty empty
      · exact not_lt_of_ge (above known row (.head _)) below
    rw [SstCursor.advance, found]
    dsimp only
    rw [isKey, if_neg sorted]
    rfl

theorem consumeRun_ready {id : String} {file : Nat} {row : Json} {rest : List Json}
    {newest : Option Selected} (ready : ReadyRows config (row :: rest)) (own : sstKey config row = id) :
    consumeRun config (eligible config committedIndex) id file row rest newest =
      .ok (cursorOf config ((row :: rest).dropWhile (hasKey config id)),
        ((row :: rest).takeWhile (hasKey config id)).foldl
          (selectRow (eligible config committedIndex) file) newest) := by
  have isOwn : hasKey config id row = true := decide_eq_true own
  induction rest generalizing row newest with
  | nil =>
    rw [consumeRun, List.dropWhile_cons_of_pos isOwn, List.dropWhile_nil,
      List.takeWhile_cons_of_pos isOwn, List.takeWhile_nil]
    rfl
  | cons next rest ih =>
    have later : ReadyRows config (next :: rest) := ready.sublist (List.sublist_cons_self _ _)
    have above : ∀ other ∈ next :: rest, id ≤ sstKey config other := by
      intro other member
      rw [← own]
      exact (List.pairwise_cons.mp ready.sorted).1 other member
    rw [consumeRun, advance_ready later fun _ => above, List.dropWhile_cons_of_pos isOwn,
      List.takeWhile_cons_of_pos isOwn, List.foldl_cons]
    dsimp only [cursorOf]
    by_cases same : sstKey config next = id
    · rw [if_pos same]
      exact ih later same (decide_eq_true same)
    · rw [if_neg same, List.dropWhile_cons_of_neg (by simpa [hasKey] using same),
        List.takeWhile_cons_of_neg (by simpa [hasKey] using same)]
      rfl

/-- One round: the rows of the id are passed in every file, and the best of them wins. -/
theorem consumeMatching_ready {id : String} {pending : List (List Json)} {file : Nat}
    (ready : ∀ rows ∈ pending, ReadyRows config rows) : ∃ selected,
    consumeMatching config (eligible config committedIndex) id file (pending.map (cursorOf config)) =
      .ok ((pending.map (List.dropWhile (hasKey config id))).map (cursorOf config),
        selected) ∧
      (selected.map Selected.winner).map Winner.item =
        lastMax docScore ((pending.flatMap (List.takeWhile (hasKey config id))).filter
          (Collection.visibleDoc config committedIndex)) ∧
      (∀ best ∈ selected.map Selected.winner, file ≤ best.file) ∧ Versioned selected := by
  induction pending generalizing file with
  | nil => exact ⟨none, rfl, rfl, nofun, nofun⟩
  | cons rows newer ih =>
    obtain ⟨own, others⟩ := List.forall_mem_cons.mp ready
    obtain ⟨newest, consumed, won, above, versioned⟩ := @ih (file + 1) others
    rw [List.map_cons, consumeMatching, consumed]
    dsimp only [bind, Except.bind]
    -- a file that is not on the id stays where it is
    have stays : rows.dropWhile (hasKey config id) = rows →
        rows.takeWhile (hasKey config id) = [] → ∃ selected,
        (Except.ok (cursorOf config rows :: (newer.map (List.dropWhile (hasKey config id))).map
            (cursorOf config), newest) : Except String _) =
          .ok (((rows :: newer).map (List.dropWhile (hasKey config id))).map
            (cursorOf config), selected) ∧
        (selected.map Selected.winner).map Winner.item = lastMax docScore
          (((rows :: newer).flatMap (List.takeWhile (hasKey config id))).filter
            (Collection.visibleDoc config committedIndex)) ∧
        (∀ best ∈ selected.map Selected.winner, file ≤ best.file) ∧ Versioned selected := by
      intro dropped taken
      refine ⟨newest, ?_, ?_, fun best isBest => Nat.le_of_succ_le (above best isBest), versioned⟩
      · rw [List.map_cons, List.map_cons, dropped]
      · rw [List.flatMap_cons, taken, List.nil_append, won]
    cases rows with
    | nil => exact stays rfl rfl
    | cons row rest =>
      dsimp only [cursorOf]
      by_cases same : sstKey config row = id
      · rw [if_pos same, consumeRun_ready own same]
        dsimp only [bind, Except.bind, pure, Except.pure]
        have run : ∀ other ∈ (row :: rest).takeWhile (hasKey config id),
            Indexable other := fun other member =>
          own.indexable other ((List.takeWhile_sublist _).subset member)
        obtain ⟨offered, still⟩ := @foldl_selectRow config committedIndex file _ _ run versioned
        obtain ⟨item, file⟩ := foldl_offerRow_item above won
        exact ⟨_, rfl, offered ▸ item, offered ▸ file, still⟩
      · rw [if_neg same]
        apply stays
        · exact List.dropWhile_cons_of_neg (by simpa [hasKey] using same)
        · exact List.takeWhile_cons_of_neg (by simpa [hasKey] using same)

theorem heapTop_none {pending : List (List Json)}
    (empty : heapTop (pending.map (cursorOf config)) = none) : pending.flatten = [] := by
  rw [heapTop, List.min?_eq_none_iff, List.filterMap_eq_nil_iff] at empty
  rw [List.flatten_eq_nil_iff]
  intro rows member
  have gone := empty (cursorOf config rows) (List.mem_map_of_mem member)
  cases rows with
  | nil => rfl
  | cons row rest => cases gone

/-- The id on top is the smallest there is. -/
theorem heapTop_some {pending : List (List Json)} {id : String}
    (ready : ∀ rows ∈ pending, ReadyRows config rows)
    (top : heapTop (pending.map (cursorOf config)) = some id) :
    (∃ row ∈ pending.flatten, sstKey config row = id) ∧
      ∀ row ∈ pending.flatten, id ≤ sstKey config row := by
  rw [heapTop, List.min?_eq_some_iff] at top
  obtain ⟨held, least⟩ := top
  constructor
  · obtain ⟨cursor, isCursor, isId⟩ := List.mem_filterMap.mp held
    obtain ⟨rows, member, rfl⟩ := List.mem_map.mp isCursor
    cases rows with
    | nil => cases isId
    | cons row rest =>
      exact ⟨row, List.mem_flatten.mpr ⟨_, member, .head _⟩, Option.some.inj isId⟩
  · intro row member
    obtain ⟨rows, isRows, inRows⟩ := List.mem_flatten.mp member
    cases rows with
    | nil => cases inRows
    | cons first rest =>
      have head : id ≤ sstKey config first :=
        least _ (List.mem_filterMap.mpr ⟨_, List.mem_map_of_mem isRows, rfl⟩)
      rcases List.mem_cons.mp inRows with rfl | later
      · exact head
      · exact head.trans ((List.pairwise_cons.mp (ready _ isRows).sorted).1 row later)

/-- Where no key is smaller, the run of the id is all there is of it. -/
theorem takeWhile_hasKey {rows : List Json} {id : String}
    (sorted : rows.Pairwise fun row next => sstKey config row ≤ sstKey config next)
    (least : ∀ row ∈ rows, id ≤ sstKey config row) :
    rows.takeWhile (hasKey config id) = rows.filter (hasKey config id) ∧
      rows.dropWhile (hasKey config id) = rows.filter fun row => !hasKey config id row := by
  obtain ⟨taken, dropped⟩ := run_eq_filter sorted least
  refine ⟨taken, dropped.trans (List.filter_congr fun row _ => ?_)⟩
  exact decide_not

/-- The best visible row of an id. -/
def bestRow (config : LsmConfig) (committedIndex : Nat) (id : String) (rows : List Json) : Option Json :=
  lastMax docScore ((rows.filter (hasKey config id)).filter (Collection.visibleDoc config committedIndex))

theorem bestRow_some {id : String} {rows : List Json} {row : Json}
    (found : bestRow config committedIndex id rows = some row) :
    row ∈ rows ∧ sstKey config row = id ∧ Collection.visibleDoc config committedIndex row = true := by
  obtain ⟨member, visible⟩ := List.mem_filter.mp (mem_of_lastMax found)
  obtain ⟨member, own⟩ := List.mem_filter.mp member
  exact ⟨member, of_decide_eq_true own, visible⟩

theorem bestRow_rest {id other : String} (rows : List Json) :
    bestRow config committedIndex other (rows.filter fun row => !hasKey config id row) =
      if other = id then none else bestRow config committedIndex other rows := by
  by_cases same : other = id
  · have gone : (rows.filter fun row => !hasKey config id row).filter (hasKey config other) = [] := by
      rw [List.filter_filter, List.filter_eq_nil_iff]
      intro row _
      simp [same]
    rw [if_pos same, bestRow, gone]
    rfl
  · have rest : (rows.filter fun row => !hasKey config id row) =
        rows.filter fun row => sstKey config row ≠ id :=
      List.filter_congr fun row _ => decide_not.symm
    rw [if_neg same, rest]
    exact bestOf_rest same

/-- The merge hands out the best visible row of every id, in the order of the ids. -/
theorem mergeLoop_ready {fuel : Nat} {pending : List (List Json)}
    (ready : ∀ rows ∈ pending, ReadyRows config rows) (enough : pending.flatten.length < fuel) :
    ∃ out, mergeLoop config (eligible config committedIndex) fuel (pending.map (cursorOf config)) =
        .ok out ∧
      out.Pairwise (fun row next => sstKey config row < sstKey config next) ∧
      (∀ row ∈ out, row ∈ pending.flatten) ∧
      ∀ id, out.find? (hasKey config id) = bestRow config committedIndex id pending.flatten := by
  induction fuel generalizing pending with
  | zero => exact absurd enough (Nat.not_lt_zero _)
  | succ fuel ih =>
    rw [mergeLoop]
    cases top : heapTop (pending.map (cursorOf config)) with
    | none =>
      rw [heapTop_none top]
      exact ⟨[], rfl, .nil, nofun, fun id => rfl⟩
    | some id =>
      obtain ⟨⟨first, isFirst, firstKey⟩, least⟩ := heapTop_some ready top
      obtain ⟨selected, consumed, won, -⟩ :=
        @consumeMatching_ready config committedIndex id pending 0 ready
      have runs : ∀ rows ∈ pending, rows.takeWhile (hasKey config id) = rows.filter (hasKey config id) ∧
          rows.dropWhile (hasKey config id) = rows.filter fun row => !hasKey config id row :=
        fun rows member => takeWhile_hasKey (ready rows member).sorted fun row inRows =>
          least row (List.mem_flatten.mpr ⟨rows, member, inRows⟩)
      have passed : pending.map (List.dropWhile (hasKey config id)) =
          pending.map (List.filter fun row => !hasKey config id row) :=
        List.map_congr_left fun rows member => (runs rows member).2
      have rest : (pending.map (List.filter fun row => !hasKey config id row)).flatten =
          pending.flatten.filter fun row => !hasKey config id row := List.filter_flatten.symm
      have winner : selected.map Selected.row = bestRow config committedIndex id pending.flatten := by
        rw [bestRow, List.filter_flatten, ← List.map_congr_left fun rows member => (runs rows member).1,
          ← List.flatMap_def, ← won, Option.map_map]
        rfl
      rw [passed] at consumed
      have shorter : (pending.map (List.filter fun row => !hasKey config id row)).flatten.length <
          fuel := by
        have fewer : (pending.flatten.filter fun row => !hasKey config id row).length <
            pending.flatten.length := by
          refine (List.length_filter_lt_length_iff_exists).mpr ⟨first, isFirst, ?_⟩
          simp [hasKey, firstKey]
        rw [rest]
        omega
      have still : ∀ rows ∈ pending.map (List.filter fun row => !hasKey config id row),
          ReadyRows config rows := by
        intro rows member
        obtain ⟨whole, isWhole, rfl⟩ := List.mem_map.mp member
        exact (ready whole isWhole).sublist List.filter_sublist
      obtain ⟨later, merged, ascending, members, best⟩ := ih still shorter
      rw [rest] at members best
      refine ⟨(selected.map Selected.row).toList ++ later, ?_, ?_, ?_, ?_⟩
      · dsimp only
        rw [consumed]
        dsimp only [bind, Except.bind]
        rw [merged]
        cases selected <;> rfl
      · cases found : selected.map Selected.row with
        | none => exact ascending
        | some row =>
          rw [Option.toList_some, List.singleton_append, List.pairwise_cons]
          refine ⟨fun next member => ?_, ascending⟩
          obtain ⟨-, isKey, -⟩ := bestRow_some (winner.symm.trans found)
          obtain ⟨inRest, other⟩ := List.mem_filter.mp (members next member)
          rw [isKey]
          refine (least next inRest).lt_of_ne fun same => ?_
          simp [hasKey, same] at other
      · intro row member
        rcases List.mem_append.mp member with isWinner | later
        · rw [Option.mem_toList, winner] at isWinner
          exact (bestRow_some isWinner).1
        · exact (List.mem_filter.mp (members row later)).1
      · intro other
        rw [List.find?_append, best, bestRow_rest, winner]
        cases found : bestRow config committedIndex id pending.flatten with
        | none =>
          rw [Option.toList_none, List.find?_nil, Option.none_or]
          by_cases same : other = id
          · rw [if_pos same, same, found]
          · rw [if_neg same]
        | some row =>
          obtain ⟨-, isKey, -⟩ := bestRow_some found
          rw [Option.toList_some]
          by_cases same : other = id
          · rw [List.find?_cons_of_pos (by simp [hasKey, isKey, same]), same, found]
            rfl
          · rw [if_neg same, List.find?_cons_of_neg (by simpa [hasKey, isKey] using Ne.symm same)]
            rfl

/-! ## Rows that no cursor can pass -/

/-- A row is passed in the round, or stands behind one of the cursors. -/
def LeftIn (cursors : List (Option SstCursor)) (row : Json) : Prop :=
  ∃ cursor, some cursor ∈ cursors ∧ row ∈ cursor.rest

theorem advance_indexable {previousId : String} {row : Json} {rest : List Json} {found : Option SstCursor}
    (advanced : SstCursor.advance config true previousId (row :: rest) = .ok found) :
    Indexable row ∧ ∃ id, found = some ⟨id, row, rest⟩ := by
  rw [SstCursor.advance] at advanced
  split at advanced
  · cases advanced
  next rawId shown =>
    constructor
    · by_contra deep
      rw [MsgpackRowView.field_of_invalid (Bool.not_eq_true _ ▸ deep)] at shown
      cases shown
    · dsimp only at advanced
      split at advanced
      · cases advanced
      · cases advanced
        exact ⟨_, rfl⟩

variable {test : Json → Bool}

theorem consumeRun_indexable {id : String} {file : Nat} {row : Json} {rest : List Json}
    {newest selected : Option Selected} {moved : Option SstCursor}
    (consumed : consumeRun config test id file row rest newest = .ok (moved, selected)) :
    ∀ other ∈ rest, Indexable other ∨ ∃ cursor, moved = some cursor ∧ other ∈ cursor.rest := by
  induction rest generalizing row newest with
  | nil => exact nofun
  | cons next rest ih =>
    rw [consumeRun] at consumed
    split at consumed
    · cases consumed
    next advanced =>
      obtain ⟨-, id, absurd⟩ := advance_indexable advanced
      cases absurd
    next cursor advanced =>
      obtain ⟨indexable, own, rfl⟩ : Indexable next ∧ ∃ id, cursor = ⟨id, next, rest⟩ := by
        obtain ⟨indexable, own, same⟩ := advance_indexable advanced
        exact ⟨indexable, own, Option.some.inj same⟩
      intro other member
      rcases List.mem_cons.mp member with rfl | later
      · exact .inl indexable
      · split at consumed
        · exact ih consumed other later
        · cases consumed
          exact .inr ⟨_, rfl, later⟩

theorem consumeMatching_indexable {id : String} {file : Nat} {cursors behind : List (Option SstCursor)}
    {selected : Option Selected}
    (consumed : consumeMatching config test id file cursors = .ok (behind, selected)) :
    ∀ row, LeftIn cursors row → Indexable row ∨ LeftIn behind row := by
  induction cursors generalizing file behind selected with
  | nil =>
    rintro row ⟨cursor, held, -⟩
    cases held
  | cons cursor newer ih =>
    rw [consumeMatching] at consumed
    cases round : consumeMatching config test id (file + 1) newer with
    | error reason =>
      rw [round] at consumed
      cases consumed
    | ok result =>
      obtain ⟨rest, newest⟩ := result
      rw [round] at consumed
      dsimp only [bind, Except.bind, pure, Except.pure] at consumed
      have kept : ∀ first row, LeftIn newer row → Indexable row ∨ LeftIn (first :: rest) row := by
        intro first row left
        rcases ih round row left with indexable | ⟨cursor, held, inRest⟩
        · exact .inl indexable
        · exact .inr ⟨cursor, .tail _ held, inRest⟩
      rintro row ⟨on, held, inRest⟩
      rcases List.mem_cons.mp held with rfl | later
      · dsimp only at consumed
        split at consumed
        · cases run : consumeRun config test id file on.row on.rest newest with
          | error reason =>
            rw [run] at consumed
            cases consumed
          | ok moved =>
            rw [run] at consumed
            cases consumed
            rcases consumeRun_indexable run row inRest with indexable | ⟨next, isNext, behindIt⟩
            · exact .inl indexable
            · exact .inr ⟨next, by rw [isNext]; exact .head _, behindIt⟩
        · cases consumed
          exact .inr ⟨on, .head _, inRest⟩
      · cases cursor with
        | none =>
          cases consumed
          exact kept none row ⟨on, later, inRest⟩
        | some first =>
          dsimp only at consumed
          split at consumed
          · cases run : consumeRun config test id file first.row first.rest newest with
            | error reason =>
              rw [run] at consumed
              cases consumed
            | ok moved =>
              rw [run] at consumed
              cases consumed
              exact kept _ row ⟨on, later, inRest⟩
          · cases consumed
            exact kept _ row ⟨on, later, inRest⟩

theorem mergeLoop_indexable {fuel : Nat} {cursors : List (Option SstCursor)} {out : List Json}
    (merged : mergeLoop config test fuel cursors = .ok out) :
    ∀ row, LeftIn cursors row → Indexable row := by
  induction fuel generalizing cursors out with
  | zero => cases merged
  | succ fuel ih =>
    rw [mergeLoop] at merged
    intro row left
    cases top : heapTop cursors with
    | none =>
      obtain ⟨cursor, held, -⟩ := left
      rw [heapTop, List.min?_eq_none_iff, List.filterMap_eq_nil_iff] at top
      cases top _ held
    | some id =>
      rw [top] at merged
      dsimp only at merged
      cases round : consumeMatching config test id 0 cursors with
      | error reason =>
        rw [round] at merged
        cases merged
      | ok result =>
        obtain ⟨behind, selected⟩ := result
        rw [round] at merged
        dsimp only [bind, Except.bind] at merged
        cases rest : mergeLoop config test fuel behind with
        | error reason =>
          rw [rest] at merged
          cases merged
        | ok later =>
          rcases consumeMatching_indexable round row left with indexable | still
          · exact indexable
          · exact ih rest row still

/-- A merge that ends has passed every row. -/
theorem visitLatestSstRows_indexable {files : List (List Json)} {out : List Json}
    (visited : visitLatestSstRows config test files = .ok out) :
    ∀ row ∈ files.flatten, Indexable row := by
  unfold visitLatestSstRows at visited
  cases opened : files.mapM (SstCursor.open config true) with
  | error reason =>
    rw [opened] at visited
    cases visited
  | ok cursors =>
    rw [opened] at visited
    have passed := mergeLoop_indexable visited
    clear visited
    intro row member
    induction files generalizing cursors with
    | nil => cases member
    | cons rows rest ih =>
      rw [List.mapM_cons] at opened
      cases first : SstCursor.open config true rows with
      | error reason =>
        rw [first] at opened
        cases opened
      | ok cursor =>
        cases others : rest.mapM (SstCursor.open config true) with
        | error reason =>
          rw [first, others] at opened
          cases opened
        | ok more =>
          rw [first, others] at opened
          cases opened
          rw [List.flatten_cons, List.mem_append] at member
          rcases member with own | later
          · cases rows with
            | nil => cases own
            | cons head tail =>
              obtain ⟨indexable, id, rfl⟩ := advance_indexable first
              rcases List.mem_cons.mp own with rfl | behind
              · exact indexable
              · exact passed row ⟨_, .head _, behind⟩
          · exact ih more others (fun row left => passed row
              (left.imp fun cursor held => ⟨.tail _ held.1, held.2⟩)) later

end Merge

/-! ## The overlay, id by id -/

section Overlay

variable {committedIndex : Nat} {memory : String → Option Candidate} {ids : List String}

theorem visitCandidate_eq (doc : Json) : visitCandidate doc = (shown (some doc)).toList := by
  rw [visitCandidate, shown, Option.filter_some]
  cases isDeletedDoc doc <;> rfl

theorem visitEncoded_eq {row : Json} (indexable : Indexable row)
    (visible : Collection.visibleDoc config committedIndex row = true) :
    visitEncoded config committedIndex row = (shown (some row)).toList := by
  have object := MsgpackRowView.isObject_of_valid indexable
  have deleted : (match (MsgpackRowView.mk row true).field "_deleted" with
      | some (.bool deleted) => deleted
      | _ => false) = isDeletedDoc row := by
    rw [MsgpackRowView.field_of_valid indexable]
    rfl
  unfold visitEncoded
  dsimp only
  rw [deleted, ← eligible, eligible_indexable indexable, visible, shown, Option.filter_some]
  cases isDeletedDoc row <;> rfl

theorem memoryWins_iff {candidate : Candidate} {row : Json} (indexable : Indexable row)
    (visible : Collection.visibleDoc config committedIndex row = true)
    (isVersion : candidate.version = extractDocVersionScore candidate.materialized) :
    memoryWins config committedIndex candidate row = true ↔
      docScore row ≤ docScore candidate.materialized := by
  unfold memoryWins
  dsimp only
  rw [← eligible, eligible_indexable indexable, visible, MsgpackRowView.rowVersion_of_valid indexable,
    isVersion, docScore_le_iff]
  cases extractDocVersionScore candidate.materialized with
  | none => cases extractDocVersionScore row <;> simp
  | some version =>
    cases extractDocVersionScore row with
    | none => simp
    | some rowVersion =>
      simp only [Bool.not_true, Bool.false_or, decide_eq_true_eq, Option.some.injEq]
      omega

/-- The row the overlay shows for an id. -/
def overlaid (config : LsmConfig) (memory : String → Option Candidate) (rows : List Json)
    (id : String) : List Json :=
  (shown (latest docScore (rows.find? (hasKey config id))
    ((memory id).map Candidate.materialized))).toList

/-- What the overlay needs of the rows of the SSTs. -/
structure OverlayRow (config : LsmConfig) (committedIndex : Nat) (row : Json) : Prop where
  indexable : Indexable row
  named : rowKey config row = some (sstKey config row)
  visible : Collection.visibleDoc config committedIndex row = true

/-- What the overlay needs of the candidates in memory that are left. -/
structure OverlayIds (config : LsmConfig) (memory : String → Option Candidate) (ids : List String)
    (rows : List Json) : Prop where
  sorted : ids.Pairwise (· < ·)
  held : ∀ id ∈ ids, (memory id).isSome = true
  complete : ∀ row ∈ rows, (memory (sstKey config row)).isSome = true → sstKey config row ∈ ids
  versions : ∀ id, ∀ c ∈ memory id, c.version = extractDocVersionScore c.materialized

/-- Where an id stands in a list of ids in order. -/
theorem split_sorted {ids : List String} (sorted : ids.Pairwise (· < ·)) (id : String) :
    ids.takeWhile (· < id) = ids.filter (· < id) ∧
      ids.dropWhile (· < id) = (if id ∈ ids then [id] else []) ++ ids.filter (id < ·) := by
  induction sorted with
  | nil => exact ⟨rfl, rfl⟩
  | @cons first rest before sorted ih =>
    obtain ⟨taken, dropped⟩ := ih
    by_cases below : first < id
    · have apart : id ∈ first :: rest ↔ id ∈ rest := by
        rw [List.mem_cons]
        exact or_iff_right below.ne'
      rw [List.takeWhile_cons_of_pos (by simpa using below), taken,
        List.dropWhile_cons_of_pos (by simpa using below), dropped,
        List.filter_cons_of_pos (by simpa using below),
        List.filter_cons_of_neg (by simpa using not_lt_of_gt below)]
      refine ⟨rfl, ?_⟩
      simp only [apart]
    · have above : ∀ other ∈ rest, id < other := fun other member =>
        (le_of_not_gt below).trans_lt (before other member)
      have none : (first :: rest).filter (· < id) = [] := by
        rw [List.filter_eq_nil_iff]
        intro other member
        rw [decide_eq_true_eq, not_lt]
        rcases List.mem_cons.mp member with rfl | later
        · exact le_of_not_gt below
        · exact (above other later).le
      have all : rest.filter (id < ·) = rest :=
        List.filter_eq_self.mpr fun other member => decide_eq_true (above other member)
      rw [List.takeWhile_cons_of_neg (by simpa using below), none,
        List.dropWhile_cons_of_neg (by simpa using below), List.filter_cons, all]
      refine ⟨rfl, ?_⟩
      rcases (le_of_not_gt below).eq_or_lt with same | less
      · rw [same, if_pos (.head _), if_neg (by simp)]
        rfl
      · have missing : id ∉ first :: rest := by
          intro member
          rcases List.mem_cons.mp member with same | later
          · exact less.ne same
          · exact lt_irrefl _ (above id later)
        rw [if_neg missing, if_pos (decide_eq_true less)]
        rfl

theorem overlay_row {row : Json} {rows : List Json} (ready : OverlayRow config committedIndex row)
    (left : OverlayIds config memory ids (row :: rows)) :
    overlay config committedIndex memory ids (row :: rows) =
      (ids.filter (· < sstKey config row)).flatMap
          (fun id => (memory id).toList.flatMap fun c => visitCandidate c.materialized) ++
        ((shown (latest docScore (some row)
            ((memory (sstKey config row)).map Candidate.materialized))).toList ++
          overlay config committedIndex memory (ids.filter (sstKey config row < ·)) rows) := by
  obtain ⟨taken, dropped⟩ := split_sorted left.sorted (sstKey config row)
  have shows := visitEncoded_eq ready.indexable ready.visible
  rw [overlay, encodedId_eq ready.indexable ready.named, taken, dropped]
  congr 1
  by_cases held : sstKey config row ∈ ids
  · rw [if_pos held, List.singleton_append]
    dsimp only
    rw [if_pos rfl]
    congr 1
    obtain ⟨candidate, found⟩ := Option.isSome_iff_exists.mp (left.held _ held)
    have wins := memoryWins_iff ready.indexable ready.visible (left.versions _ candidate found)
    rw [found]
    dsimp only [Option.map_some, latest]
    by_cases below : docScore row ≤ docScore candidate.materialized
    · rw [if_pos (wins.mpr below), if_pos below, visitCandidate_eq]
    · rw [if_neg fun won => below (wins.mp won), if_neg below, shows]
  · have missing : memory (sstKey config row) = none := by
      by_contra found
      exact held (left.complete row (.head _) (Option.isSome_iff_ne_none.mpr found))
    have others : ∀ next more, ids.filter (sstKey config row < ·) = next :: more →
        next ≠ sstKey config row := by
      rintro next more split rfl
      have member : sstKey config row ∈ ids.filter (sstKey config row < ·) := by
        rw [split]
        exact .head _
      exact lt_irrefl _ (of_decide_eq_true (List.mem_filter.mp member).2)
    rw [if_neg held, List.nil_append, missing, Option.map_none, latest_none, ← shows]
    cases rest : ids.filter (sstKey config row < ·) with
    | nil => rfl
    | cons next more =>
      dsimp only
      rw [if_neg (others next more rest)]

theorem visits_before {k : String} {rows : List Json} (held : (memory k).isSome = true)
    (apart : ∀ row ∈ rows, sstKey config row ≠ k) :
    ((memory k).toList.flatMap fun c => visitCandidate c.materialized) =
      overlaid config memory rows k := by
  obtain ⟨candidate, found⟩ := Option.isSome_iff_exists.mp held
  have none : rows.find? (hasKey config k) = none := by
    rw [List.find?_eq_none]
    intro row member
    simpa [hasKey] using apart row member
  rw [overlaid, none, found, Option.toList_some, List.flatMap_singleton, visitCandidate_eq]
  rfl

/-- The overlay visits the ids of the SSTs and of memory once each, in order. -/
theorem overlay_eq {rows : List Json} (ready : ∀ row ∈ rows, OverlayRow config committedIndex row)
    (ascending : rows.Pairwise fun row next => sstKey config row < sstKey config next)
    (left : OverlayIds config memory ids rows) : ∃ keys : List String,
    keys.Pairwise (· < ·) ∧ (∀ k, k ∈ keys ↔ k ∈ ids ∨ ∃ row ∈ rows, sstKey config row = k) ∧
      overlay config committedIndex memory ids rows = keys.flatMap (overlaid config memory rows) := by
  induction rows generalizing ids with
  | nil =>
    refine ⟨ids, left.sorted, by simp, ?_⟩
    rw [overlay]
    exact List.flatMap_congr fun k member => visits_before (left.held k member) nofun
  | cons row rest ih =>
    obtain ⟨before, ascending⟩ := List.pairwise_cons.mp ascending
    obtain ⟨first, later⟩ := List.forall_mem_cons.mp ready
    have still : OverlayIds config memory (ids.filter (sstKey config row < ·)) rest := by
      refine ⟨left.sorted.filter _, ?_, ?_, left.versions⟩
      · exact fun id member => left.held id (List.mem_filter.mp member).1
      · exact fun other member found => List.mem_filter.mpr
          ⟨left.complete other (.tail _ member) found, decide_eq_true (before other member)⟩
    obtain ⟨keys, sorted, members, visits⟩ := ih later ascending still
    have above : ∀ k ∈ keys, sstKey config row < k := by
      intro k member
      rcases (members k).mp member with inIds | ⟨other, isOther, rfl⟩
      · exact of_decide_eq_true (List.mem_filter.mp inIds).2
      · exact before other isOther
    have below : ∀ k ∈ ids.filter (· < sstKey config row), k < sstKey config row :=
      fun k member => of_decide_eq_true (List.mem_filter.mp member).2
    refine ⟨ids.filter (· < sstKey config row) ++ sstKey config row :: keys, ?_, fun k => ?_, ?_⟩
    · rw [List.pairwise_append, List.pairwise_cons]
      refine ⟨left.sorted.filter _, ⟨above, sorted⟩, fun k isBelow other member => ?_⟩
      rcases List.mem_cons.mp member with rfl | isAbove
      · exact below k isBelow
      · exact (below k isBelow).trans (above other isAbove)
    · rw [List.mem_append, List.mem_cons, members, List.mem_filter, List.mem_filter,
        decide_eq_true_eq, decide_eq_true_eq, List.exists_mem_cons_iff, eq_comm]
      constructor
      · rintro (⟨inIds, -⟩ | rfl | ⟨inIds, -⟩ | inRows)
        · exact .inl inIds
        · exact .inr (.inl rfl)
        · exact .inl inIds
        · exact .inr (.inr inRows)
      · rintro (inIds | own | inRows)
        · rcases lt_trichotomy k (sstKey config row) with less | same | more
          · exact .inl ⟨inIds, less⟩
          · exact .inr (.inl same.symm)
          · exact .inr (.inr (.inl ⟨inIds, more⟩))
        · exact .inr (.inl own)
        · exact .inr (.inr (.inr inRows))
    · rw [overlay_row first left, List.flatMap_append, List.flatMap_cons, visits]
      have own : overlaid config memory (row :: rest) (sstKey config row) =
          (shown (latest docScore (some row)
            ((memory (sstKey config row)).map Candidate.materialized))).toList := by
        rw [overlaid, List.find?_cons_of_pos (by simp [hasKey])]
      have others : ∀ k ∈ keys, overlaid config memory rest k =
          overlaid config memory (row :: rest) k := by
        intro k member
        rw [overlaid, overlaid, List.find?_cons_of_neg]
        simpa [hasKey] using (above k member).ne
      have earlier : ∀ k ∈ ids.filter (· < sstKey config row),
          ((memory k).toList.flatMap fun c => visitCandidate c.materialized) =
            overlaid config memory (row :: rest) k := by
        intro k member
        apply visits_before (left.held k (List.mem_filter.mp member).1)
        intro other isOther
        rcases List.mem_cons.mp isOther with rfl | inRest
        · exact (below k member).ne'
        · exact ((below k member).trans (before other inRest)).ne'
      rw [own, List.flatMap_congr others, List.flatMap_congr earlier]

end Overlay

/-! ## The merged scan and the materialised one -/

section Scans

variable {s : Collection} {committedIndex : Nat} {names : List String} {docs : List Json}

theorem visitLatestSstRows_ready {files : List (List Json)}
    (ready : ∀ rows ∈ files, ReadyRows config rows) :
    ∃ out, visitLatestSstRows config (eligible config committedIndex) files = .ok out ∧
      out.Pairwise (fun row next => sstKey config row < sstKey config next) ∧
      (∀ row ∈ out, row ∈ files.flatten) ∧
      ∀ id, out.find? (hasKey config id) = bestRow config committedIndex id files.flatten := by
  have opened : files.mapM (SstCursor.open config true) = .ok (files.map (cursorOf config)) := by
    induction files with
    | nil => rfl
    | cons rows rest ih =>
      obtain ⟨own, others⟩ := List.forall_mem_cons.mp ready
      have first : SstCursor.open config true rows = .ok (cursorOf config rows) := by
        exact advance_ready own fun known => absurd rfl known
      rw [List.mapM_cons, first, ih others]
      rfl
  rw [visitLatestSstRows, opened]
  exact mergeLoop_ready ready (Nat.lt_succ_self _)

theorem find?_of_mem {out : List Json} {row : Json}
    (ascending : out.Pairwise fun row next => sstKey config row < sstKey config next)
    (member : row ∈ out) : out.find? (hasKey config (sstKey config row)) = some row := by
  induction ascending with
  | nil => cases member
  | @cons first rest before _ ih =>
    rcases List.mem_cons.mp member with rfl | later
    · exact List.find?_cons_of_pos (by simp [hasKey])
    · rw [List.find?_cons_of_neg (by simpa [hasKey] using (before row later).ne)]
      exact ih later

/-- The rows of an SST that is verified and can be indexed. -/
theorem readyRows_of_verified {rows : List Json} (passes : verifySst config rows = true)
    (indexable : ∀ row ∈ rows, Indexable row) : ReadyRows config rows := by
  obtain ⟨named, sorted⟩ := verifyRows_keys passes
  refine ⟨indexable, fun row member => ?_, sorted⟩
  obtain ⟨has, nonempty, -⟩ := named row member
  obtain ⟨key, known⟩ := Option.isSome_iff_exists.mp has
  have isKey : sstKey config row = key := by rw [sstKey, known]; rfl
  rw [isKey] at nonempty ⊢
  rw [rowKey, known, Option.filter_some, if_pos (decide_eq_true nonempty)]

theorem bestRow_eq {rows : List Json} {id : String}
    (named : ∀ row ∈ rows, rowKey config row = some (sstKey config row)) :
    bestRow config committedIndex id rows =
      lastMax docScore (rowsOf config id (visibleRows config committedIndex rows)) := by
  rw [bestRow, rowsOf_visibleRows, rowsOf]
  congr 2
  refine List.filter_congr fun row member => ?_
  rw [named row member, hasKey]
  simp

theorem isObject_of_rowKey {row : Json} {id : String} (isKey : rowKey config row = some id) :
    row.isObject = true := by
  apply isObject_of_docId?
  exact (Option.filter_eq_some_iff.mp isKey).1

/-- The rows with an id that are visible to the memory scan are visible. -/
theorem rowsOf_fieldsVisible (rows : List Json) (id : String) :
    rowsOf config id (rows.filter (fieldsVisible config committedIndex)) =
      rowsOf config id (visibleRows config committedIndex rows) := by
  rw [rowsOf, rowsOf, visibleRows, List.filter_filter, List.filter_filter]
  refine List.filter_congr fun row _ => ?_
  by_cases isKey : rowKey config row = some id
  · have same := @docVisible_eq config committedIndex row
    rw [isObject_of_rowKey isKey, Bool.true_and] at same
    rw [← same]
    rfl
  · simp [isKey]

/-- A value that is no object has no members. -/
theorem field?_of_not_object {row : Json} (plain : row.isObject = false) (name : String) :
    row.field? name = none := by
  cases row with
  | object members => cases plain
  | _ => rfl

/-- A value that is no object is visible to the memory scan unless a commit index is
asked for. -/
theorem fieldsVisible_of_not_object {row : Json} (plain : row.isObject = false) :
    fieldsVisible config committedIndex row =
      !(config.raft.enabled && !config.raft.standaloneBypass) := by
  unfold fieldsVisible fieldsVisibleByCommitIndex
  simp only [field?_of_not_object plain, List.findSome?_cons, List.findSome?_nil]
  cases config.raft.enabled <;> cases config.raft.standaloneBypass <;> rfl

/-- What `visitLatest` does when no SST stops it. -/
theorem visitLatest_eq (published : publishedSsts config.codec s.dir = .ok names)
    (bodies : ∀ name ∈ names, ∃ rows, s.dir.lookup name = some (.sst rows)) :
    visitLatest config s committedIndex =
      match visitLatestSstRows config (eligible config committedIndex) (names.map (sstRows s.dir)) with
      | .error reason => .error ("cannot stream published SSTs: " ++ reason)
      | .ok rows => .ok (overlay config committedIndex
          (fun id => (s.memoryRows.foldl (considerMemory config committedIndex) {}).latest.lookup id)
          (sortNames (s.memoryRows.foldl (considerMemory config committedIndex) {}).latest.keys) rows ++
        (s.memoryRows.foldl (considerMemory config committedIndex) {}).noId.flatMap fun c =>
          visitCandidate c.materialized) := by
  have scanned : (names.mapM fun name => match scanSst s.dir name with
      | some (_, rows) => (.ok rows : Except String (List Json))
      | none => .error "cannot stream published SSTs: cannot open SST cursor") =
        .ok (names.map (sstRows s.dir)) := by
    clear published
    induction names with
    | nil => rfl
    | cons name rest ih =>
      obtain ⟨⟨rows, body⟩, others⟩ := List.forall_mem_cons.mp bodies
      rw [List.mapM_cons, ih others, List.map_cons, scanSst, sstRows, body]
      rfl
  unfold visitLatest
  dsimp only [bind, Except.bind]
  rw [published]
  dsimp only
  rw [scanned]
  rfl

/-- The documents without an id that the scan of memory hands out. -/
theorem mem_noId_iff {doc : Json} :
    (doc ∈ (s.memoryRows.foldl (considerMemory config committedIndex) {}).noId.flatMap fun c =>
      visitCandidate c.materialized) ↔
      doc ∈ s.memoryRows ∧ fieldsVisible config committedIndex doc = true ∧
        rowKey config doc = none ∧ isDeletedDoc doc = false := by
  have holds := @holds_memoryScan config committedIndex s.memoryRows
  have mapped : ((s.memoryRows.foldl (considerMemory config committedIndex) {}).noId.flatMap fun c =>
      visitCandidate c.materialized) =
        ((s.memoryRows.foldl (considerMemory config committedIndex) {}).noId.map
          Candidate.materialized).flatMap visitCandidate := by rw [List.flatMap_map]
  rw [mapped, holds.noId, List.mem_flatMap]
  constructor
  · rintro ⟨row, member, visited⟩
    obtain ⟨inMemory, noKey⟩ := List.mem_filter.mp member
    obtain ⟨inMemory, visible⟩ := List.mem_filter.mp inMemory
    rw [visitCandidate] at visited
    split at visited
    · cases visited
    next alive =>
      obtain rfl := List.mem_singleton.mp visited
      exact ⟨inMemory, visible, of_decide_eq_true noKey, by simpa using alive⟩
  · rintro ⟨inMemory, visible, noKey, alive⟩
    refine ⟨doc, ?_, ?_⟩
    · exact List.mem_filter.mpr ⟨List.mem_filter.mpr ⟨inMemory, visible⟩, decide_eq_true noKey⟩
    · rw [visitCandidate, alive]
      exact .head _

/-- The merged scan hands out the documents of the materialised one, and none of them
twice under one id. -/
def ScanAgrees (config : LsmConfig) (s : Collection) (committedIndex : Nat) (docs : List Json) : Prop :=
  ∃ rows, visitLatest config s committedIndex = .ok rows ∧ (∀ doc, doc ∈ rows ↔ doc ∈ docs) ∧
    (rows.filterMap (rowKey config)).Nodup

/-- The documents with an id. -/
theorem overlay_scan (verified : Verified config s names)
    (indexable : ∀ name ∈ names, ∀ row ∈ sstRows s.dir name, Indexable row) : ∃ out,
    visitLatestSstRows config (eligible config committedIndex) (names.map (sstRows s.dir)) = .ok out ∧
      ∃ keys : List String, keys.Pairwise (· < ·) ∧
        overlay config committedIndex
          (fun id => (s.memoryRows.foldl (considerMemory config committedIndex) {}).latest.lookup id)
          (sortNames (s.memoryRows.foldl (considerMemory config committedIndex) {}).latest.keys) out =
            keys.flatMap (fun k => (shown (lastMax docScore (rowsOf config k (visibleRows config
              committedIndex (names.flatMap (sstRows s.dir) ++ s.memoryRows))))).toList) ∧
        ∀ k doc, lastMax docScore (rowsOf config k (visibleRows config committedIndex
          (names.flatMap (sstRows s.dir) ++ s.memoryRows))) = some doc → k ∈ keys := by
  have holds := @holds_memoryScan config committedIndex s.memoryRows
  have ready : ∀ rows ∈ names.map (sstRows s.dir), ReadyRows config rows := by
    intro rows member
    obtain ⟨name, isName, rfl⟩ := List.mem_map.mp member
    obtain ⟨rows, body, passes⟩ := verified name isName
    have own : sstRows s.dir name = rows := by rw [sstRows, body]
    exact readyRows_of_verified (own ▸ passes) (indexable name isName)
  have named : ∀ row ∈ (names.map (sstRows s.dir)).flatten,
      Indexable row ∧ rowKey config row = some (sstKey config row) := by
    intro row member
    obtain ⟨rows, isRows, inRows⟩ := List.mem_flatten.mp member
    exact ⟨(ready rows isRows).indexable row inRows, (ready rows isRows).named row inRows⟩
  obtain ⟨out, visited, ascending, members, best⟩ :=
    @visitLatestSstRows_ready config committedIndex _ ready
  refine ⟨out, visited, ?_⟩
  have winners : ∀ row ∈ out, OverlayRow config committedIndex row := by
    intro row member
    obtain ⟨rowIndexable, rowNamed⟩ := named row (members row member)
    have won := (best (sstKey config row)).symm.trans (find?_of_mem ascending member)
    exact ⟨rowIndexable, rowNamed, (bestRow_some won).2.2⟩
  have left : OverlayIds config
      (fun id => (s.memoryRows.foldl (considerMemory config committedIndex) {}).latest.lookup id)
      (sortNames (s.memoryRows.foldl (considerMemory config committedIndex) {}).latest.keys) out := by
    refine ⟨pairwise_sortNames (AList.nodupKeys _), fun id member => ?_, fun row _ found => ?_,
      fun id c found => (holds.candidates id c found).1⟩
    · rw [AList.lookup_isSome, AList.mem_keys]
      exact mem_sortNames.mp member
    · rw [mem_sortNames, ← AList.mem_keys, ← AList.lookup_isSome]
      exact found
  obtain ⟨keys, sorted, keysOf, visits⟩ := overlay_eq winners ascending left
  have chosen : ∀ k, latest docScore (out.find? (hasKey config k))
      (((s.memoryRows.foldl (considerMemory config committedIndex) {}).latest.lookup k).map
        Candidate.materialized) = lastMax docScore (rowsOf config k (visibleRows config committedIndex
          (names.flatMap (sstRows s.dir) ++ s.memoryRows))) := by
    intro k
    rw [best, bestRow_eq fun row member => (named row member).2, holds.latest, rowsOf_fieldsVisible,
      ← List.flatMap_def, visibleRows, visibleRows, visibleRows, List.filter_append, rowsOf_append,
      lastMax_append]
  refine ⟨keys, sorted, ?_, fun k doc won => ?_⟩
  · rw [visits]
    refine List.flatMap_congr fun k _ => ?_
    rw [overlaid, chosen]
  · rw [← chosen] at won
    rw [keysOf]
    rcases mem_latest won with fromSst | fromMemory
    · have member := List.mem_of_find?_eq_some fromSst
      have isKey := List.find?_some fromSst
      exact .inr ⟨doc, member, of_decide_eq_true isKey⟩
    · obtain ⟨c, found, -⟩ := Option.map_eq_some_iff.mp fromMemory
      rw [mem_sortNames, ← AList.mem_keys, ← AList.lookup_isSome, found]
      exact .inl rfl

theorem nodup_shown {keys : List String} {rows : List Json} (sorted : keys.Pairwise (· < ·)) :
    ((keys.flatMap fun k => (shown (lastMax docScore (rowsOf config k rows))).toList).filterMap
      (rowKey config)).Nodup := by
  have sub : ((keys.flatMap fun k => (shown (lastMax docScore (rowsOf config k rows))).toList).filterMap
      (rowKey config)).Sublist keys := by
    clear sorted
    induction keys with
    | nil => exact .slnil
    | cons k rest ih =>
      rw [List.flatMap_cons, List.filterMap_append]
      cases found : shown (lastMax docScore (rowsOf config k rows)) with
      | none => exact ih.cons k
      | some doc =>
        have isKey := (rowKey_of_lastMax (Option.filter_eq_some_iff.mp found).1).2
        rw [Option.toList_some, List.filterMap_cons, isKey]
        exact ih.cons_cons k
  exact (sorted.imp fun below => below.ne).sublist sub

/-- A scan that gets through has read every row of the SSTs by an index of its members. -/
theorem indexable_of_visitLatest (published : publishedSsts config.codec s.dir = .ok names)
    (verified : Verified config s names) {rows : List Json}
    (visited : visitLatest config s committedIndex = .ok rows) :
    ∀ name ∈ names, ∀ row ∈ sstRows s.dir name, Indexable row := by
  have bodies : ∀ name ∈ names, ∃ rows, s.dir.lookup name = some (.sst rows) := fun name isName =>
    (verified name isName).imp fun _ held => held.1
  rw [visitLatest_eq published bodies] at visited
  split at visited
  · cases visited
  next out merged =>
    intro name isName row member
    exact visitLatestSstRows_indexable merged row
      (List.mem_flatten.mpr ⟨_, List.mem_map_of_mem isName, member⟩)

/-- What the merged scan hands out: the documents of the materialised one, and the visible
values in memory that are no objects. -/
theorem visitLatest_ok (published : publishedSsts config.codec s.dir = .ok names)
    (verified : Verified config s names)
    (reads : readAllCollectionRows config s committedIndex = .ok docs)
    (indexable : ∀ name ∈ names, ∀ row ∈ sstRows s.dir name, Indexable row) :
    ∃ rows, visitLatest config s committedIndex = .ok rows ∧ (rows.filterMap (rowKey config)).Nodup ∧
      ∀ doc, doc ∈ rows ↔ doc ∈ docs ∨
        (doc ∈ s.memoryRows ∧ doc.isObject = false ∧ fieldsVisible config committedIndex doc = true) := by
  obtain ⟨others, samePublished, bodies, isDocs⟩ := readAllCollectionRows_ok.mp reads
  cases published.symm.trans samePublished
  rw [flatMap_scanned] at isDocs
  have scan := @visitLatest_eq config s committedIndex names published bodies
  obtain ⟨out, merged, keys, sorted, visits, complete⟩ :=
    @overlay_scan config s committedIndex names verified indexable
  rw [merged] at scan
  dsimp only at scan
  rw [visits] at scan
  refine ⟨_, scan, ?_, fun doc => ?_⟩
  · rw [List.filterMap_append, List.filterMap_eq_nil_iff.mpr fun doc member =>
      (mem_noId_iff.mp member).2.2.1, List.append_nil]
    exact nodup_shown sorted
  · rw [List.mem_append, mem_noId_iff, List.mem_flatMap, isDocs]
    constructor
    · rintro (⟨k, -, shows⟩ | ⟨inMemory, visible, noKey, alive⟩)
      · rw [Option.mem_toList] at shows
        exact .inl (mem_latestDocs_key.mpr shows).1
      · cases object : doc.isObject with
        | false => exact .inr ⟨inMemory, rfl, visible⟩
        | true =>
          refine .inl (mem_latestDocs.mpr ⟨alive, .inl ⟨noKey, List.mem_filter.mpr
            ⟨List.mem_append_right _ inMemory, ?_⟩⟩⟩)
          rw [← Collection.visibleDoc, docVisible_eq, visible, object, Bool.and_true]
    · rintro (isDoc | ⟨inMemory, plain, visible⟩)
      · cases isKey : rowKey config doc with
        | some k =>
          have shows := mem_latestDocs_key.mp ⟨isDoc, isKey⟩
          exact .inl ⟨k, complete k doc (Option.filter_eq_some_iff.mp shows).1,
            Option.mem_toList.mpr shows⟩
        | none =>
          obtain ⟨alive, ⟨-, inRows⟩ | ⟨id, won⟩⟩ := mem_latestDocs.mp isDoc
          · obtain ⟨inRows, visible⟩ := List.mem_filter.mp inRows
            rw [← Collection.visibleDoc, docVisible_eq, Bool.and_eq_true] at visible
            refine .inr ⟨?_, visible.2, rfl, alive⟩
            rcases List.mem_append.mp inRows with inSst | inMemory
            · obtain ⟨name, isName, member⟩ := List.mem_flatMap.mp inSst
              obtain ⟨rows, body, passes⟩ := verified name isName
              have own : sstRows s.dir name = rows := by rw [sstRows, body]
              have named := (readyRows_of_verified (own ▸ passes) (indexable name isName)).named doc member
              rw [isKey] at named
              cases named
            · exact inMemory
          · obtain ⟨-, hasKey⟩ := rowKey_of_lastMax won
            rw [isKey] at hasKey
            cases hasKey
      · refine .inr ⟨inMemory, visible, ?_, ?_⟩
        · rw [rowKey, docId?, field?_of_not_object plain]
          rfl
        · rw [isDeletedDoc, field?_of_not_object plain]

/-- The documents are objects. -/
theorem isObject_of_mem_docs {doc : Json}
    (reads : readAllCollectionRows config s committedIndex = .ok docs) (isDoc : doc ∈ docs) :
    doc.isObject = true := by
  obtain ⟨names, -, -, rfl⟩ := readAllCollectionRows_ok.mp reads
  rcases (mem_latestDocs.mp isDoc).2 with ⟨-, inRows⟩ | ⟨id, won⟩
  · have visible := (List.mem_filter.mp inRows).2
    rw [← Collection.visibleDoc, docVisible_eq, Bool.and_eq_true] at visible
    exact visible.1
  · exact isObject_of_rowKey (rowKey_of_lastMax won).2

/-- The merged scan agrees with the materialised one, unless an SST has a row whose
members nest too deep to be indexed, or memory holds a value that is no object and no
commit index hides it. -/
theorem mergedScan_agrees_iff (published : publishedSsts config.codec s.dir = .ok names)
    (verified : Verified config s names)
    (reads : readAllCollectionRows config s committedIndex = .ok docs) :
    ScanAgrees config s committedIndex docs ↔
      (∀ name ∈ names, ∀ row ∈ sstRows s.dir name, Indexable row) ∧
      ∀ row ∈ s.memoryRows, row.isObject = true ∨
        (config.raft.enabled = true ∧ config.raft.standaloneBypass = false) := by
  constructor
  · rintro ⟨rows, visited, same, -⟩
    have indexable := indexable_of_visitLatest published verified visited
    refine ⟨indexable, fun row member => ?_⟩
    by_contra neither
    rw [not_or, Bool.not_eq_true] at neither
    obtain ⟨plain, noIndex⟩ := neither
    have seen : fieldsVisible config committedIndex row = true := by
      rw [fieldsVisible_of_not_object plain]
      cases enabled : config.raft.enabled <;> cases bypass : config.raft.standaloneBypass <;>
        simp [enabled, bypass] at noIndex ⊢
    obtain ⟨_, again, -, members⟩ := visitLatest_ok published verified reads indexable
    cases visited.symm.trans again
    have isDoc := (same row).mp ((members row).mpr (.inr ⟨member, plain, seen⟩))
    rw [isObject_of_mem_docs reads isDoc] at plain
    cases plain
  · rintro ⟨indexable, objects⟩
    obtain ⟨rows, visited, once, members⟩ := visitLatest_ok published verified reads indexable
    refine ⟨rows, visited, fun doc => (members doc).trans (or_iff_left ?_), once⟩
    rintro ⟨inMemory, plain, visible⟩
    rcases objects doc inMemory with object | ⟨enabled, noBypass⟩
    · rw [object] at plain
      cases plain
    · rw [fieldsVisible_of_not_object plain, enabled, noBypass] at visible
      cases visible

end Scans

/-! ## A row too deep for the merge -/

/-- An array that holds an array, and so on. -/
def nestedArray : Nat → Json
  | 0 => .array []
  | levels + 1 => .array [nestedArray levels]

def deepDoc : Json := .object [("id", .string "a"), ("x", nestedArray 65)]

/-- The document was flushed. -/
def flushedDeep : Collection where
  dir := AList.insert "1_0.sst" (.sst [deepDoc]) ∅

set_option maxRecDepth 2000 in
/-- `getAll` returns the document, the merged scan throws. -/
theorem mergedScan_disagrees :
    Verified standalone flushedDeep ["1_0.sst"] ∧
      readAllCollectionRows standalone flushedDeep 0 = .ok [deepDoc] ∧
      visitLatest standalone flushedDeep 0 =
        .error "cannot stream published SSTs: SST cursor row has no id" ∧
      ¬ScanAgrees standalone flushedDeep 0 [deepDoc] := by
  have throws : visitLatest standalone flushedDeep 0 =
      .error "cannot stream published SSTs: SST cursor row has no id" := by rfl
  refine ⟨fun name member => ?_, by rfl, throws, ?_⟩
  · rw [List.mem_singleton.mp member]
    exact ⟨[deepDoc], by rfl, by rfl⟩
  · rintro ⟨rows, visited, -⟩
    rw [throws] at visited
    cases visited

/-- One document in an SST, a newer one of the same id and another one in memory. -/
def flushedAndRewritten : Collection where
  memtable := AList.insert "b" (versionOne "b") ((∅ : Memtable).insert "a" (plainDoc 2))
  dir := AList.insert "1_0.sst" (.sst [plainDoc 1]) ∅

theorem mergedScan_agrees_rewritten :
    ScanAgrees standalone flushedAndRewritten 0 [plainDoc 2, versionOne "b"] := by
  refine (@mergedScan_agrees_iff standalone flushedAndRewritten 0 ["1_0.sst"] _ (by rfl) ?_
    (by rfl)).mpr ⟨?_, ?_⟩
  · intro name member
    rw [List.mem_singleton.mp member]
    exact ⟨[plainDoc 1], by rfl, by rfl⟩
  · intro name member row isRow
    rw [List.mem_singleton.mp member] at isRow
    rw [List.mem_singleton.mp (isRow : row ∈ [plainDoc 1])]
    rfl
  · intro row member
    have rows : flushedAndRewritten.memoryRows = [plainDoc 2, versionOne "b"] := by rfl
    rw [rows] at member
    rcases List.mem_cons.mp member with rfl | later
    · exact .inl rfl
    · rw [List.mem_singleton.mp later]
      exact .inl rfl

end PacificDb.Lsm
