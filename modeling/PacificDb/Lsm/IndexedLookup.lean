import PacificDb.Index.Log
import PacificDb.Lsm.MergedScan

/-!
# Looking up a value by the column index

`LSM::findByField` on a field with a ready index takes the ids of the value from the
index and then their rows: from memory if a memtable has a visible row, and else from the
SSTs, by seeks or, if there are many ids or a text SST lacks its sparse index, by a pass over
each SST. Without an index it filters a merged scan.

Both give the same documents with a scalar in the field (`indexedLookup_agrees_iff`), as
long as the row that memory has for an id is the newest of all and neither the seeks nor the
pass miss a row whose id is no string.
-/

namespace PacificDb.Lsm

open Lib
open Sst (utf8 utf8_inj fromUTF8_utf8)
open Index (BinaryColumnIndexState isScalar columnIndexValue)

variable {config : LsmConfig}

/-! ## The code -/

def docFieldMatchesColumnValue (config : LsmConfig) (doc : Json) (field value : String) : Bool :=
  match doc.field? field with
  | some found => columnIndexValue config.dump found == value
  | none => false

/-- The ids that are still looked for, and the rows of the others. -/
structure IndexedRows where
  latestById : Memtable := ∅
  pendingIds : List String

/-- The visible row a memtable has under an id. -/
def visibleHit (config : LsmConfig) (committedIndex : Nat) (table : Memtable) (id : String) :
    Option Json :=
  (table.lookup id).filter (Collection.visibleDoc config committedIndex)

/-- One memtable. -/
def takeFromTable (config : LsmConfig) (committedIndex : Nat) (found : IndexedRows) (table : Memtable) :
    IndexedRows where
  latestById := found.pendingIds.foldl (fun latestById id =>
    match visibleHit config committedIndex table id with
    | some doc => latestById.insert id doc
    | none => latestById) found.latestById
  pendingIds := found.pendingIds.filter fun id => (visibleHit config committedIndex table id).isNone

/-- The seeks of one id. -/
def seekPending (layout : SstLayout) (config : LsmConfig) (s : Collection) (committedIndex : Nat)
    (names : List String) (latestById : Memtable) (id : String) : Except String Memtable :=
  match names.foldlM (s.latestFound layout config committedIndex id) (latestById.lookup id) with
  | .error reason => .error reason
  | .ok none => .ok latestById
  | .ok (some doc) => .ok (latestById.insert id doc)

/-- The id under which the pass over an SST takes a row. -/
def pendingKey (config : LsmConfig) (committedIndex : Nat) (pendingIds : List String) (row : Json) :
    Option String :=
  if !Collection.visibleDoc config committedIndex row then none
  else
    match row.field? "id" with
    | some (.string id) => if id ∈ pendingIds then some id else none
    | _ => none

/-- The pass over one SST. -/
def passSst (config : LsmConfig) (s : Collection) (committedIndex : Nat) (pendingIds : List String)
    (latestById : Memtable) (name : String) : Except String Memtable :=
  match scanSst s.dir name with
  | none => .error "cannot scan indexed SST"
  | some (_, rows) =>
      .ok (rows.foldl (upsertKeyed (pendingKey config committedIndex pendingIds) fun row => row) latestById)

/-- The ids are few and every SST has its index of ids. -/
def usesSeeks (layout : SstLayout) (targetedSeekMaxIds : Nat) (names : List String) (pending : Nat) :
    Bool :=
  decide (pending ≤ targetedSeekMaxIds) && names.all fun name => (layout.format name).hasPointIndex

/-- The ids that memory has no row for. -/
def readPending (layout : SstLayout) (config : LsmConfig) (targetedSeekMaxIds : Nat) (s : Collection)
    (committedIndex : Nat) (found : IndexedRows) : Except String Memtable :=
  if found.pendingIds.isEmpty then .ok found.latestById
  else
    match publishedSsts config.codec s.dir with
    | .error reason => .error reason
    | .ok names =>
        if usesSeeks layout targetedSeekMaxIds names found.pendingIds.length then
          found.pendingIds.foldlM (seekPending layout config s committedIndex names) found.latestById
        else names.foldlM (passSst config s committedIndex found.pendingIds) found.latestById

/-- `findByField` on a field other than `id`, by its index; no limit on the candidates. -/
def findByIndex (layout : SstLayout) (config : LsmConfig) (targetedSeekMaxIds : Nat) (s : Collection)
    (index : BinaryColumnIndexState) (committedIndex : Nat) (field value : String) :
    Except String (List Json) :=
  match index.idsByValue.find? (utf8 value) with
  | none => .ok []
  | some ids =>
      let candidates : IndexedRows :=
        { pendingIds := (ids.filterMap fun id => String.fromUTF8? ⟨id.toArray⟩).dedup }
      let found := (s.memtable :: s.immutables.map Prod.snd).foldl (takeFromTable config committedIndex)
        candidates
      match readPending layout config targetedSeekMaxIds s committedIndex found with
      | .error reason => .error reason
      | .ok latestById =>
          let ids := found.pendingIds ++ latestById.keys.filter fun id => id ∉ found.pendingIds
          .ok ((ids.filterMap fun id => latestById.lookup id).filter fun doc =>
            !isDeletedDoc doc && docFieldMatchesColumnValue config doc field value)

/-- Its full scan. The merge hands out rows whose views show all members. -/
def findByScan (config : LsmConfig) (s : Collection) (committedIndex : Nat) (field value : String) :
    Except String (List Json) :=
  match visitLatest config s committedIndex with
  | .error reason => .error reason
  | .ok rows => .ok (rows.filter fun row => docFieldMatchesColumnValue config row field value)

/-! ## The property and its condition -/

/-- The field of the document is a scalar with the value. -/
def hasColumnValue (config : LsmConfig) (field value : String) (doc : Json) : Bool :=
  (doc.field? field).any isScalar && docFieldMatchesColumnValue config doc field value

/-- The index has, for every value, the ids of the documents whose field has it. -/
def IndexConsistent (config : LsmConfig) (field : String) (index : BinaryColumnIndexState)
    (docs : List Json) : Prop :=
  ∀ value id, id ∈ index.ids (utf8 value) ↔ ∃ doc ∈ docs, hasColumnValue config field value doc = true ∧
    ∃ key, rowKey config doc = some key ∧ id = utf8 key

/-- The lookup and the scan answer, with the same documents as far as scalars go. -/
def IndexedLookupAgrees (layout : SstLayout) (config : LsmConfig) (targetedSeekMaxIds : Nat)
    (s : Collection) (index : BinaryColumnIndexState) (committedIndex : Nat) (field value : String) : Prop :=
  ∃ found scanned,
    findByIndex layout config targetedSeekMaxIds s index committedIndex field value = .ok found ∧
      findByScan config s committedIndex field value = .ok scanned ∧
      ∀ doc, doc ∈ found ↔ doc ∈ scanned ∧ (doc.field? field).any isScalar = true

/-- The row that memory has for an id: the visible one of the active memtable, or else of
the newest immutable memtable with one. -/
def Collection.memoryHit (config : LsmConfig) (s : Collection) (committedIndex : Nat) (id : String) :
    Option Json :=
  (s.memtable :: s.immutables.map Prod.snd).findSome? fun table =>
    visibleHit config committedIndex table id

/-- The ids of the documents with the value that memory has no row for. -/
def Collection.sstOnlyIds (config : LsmConfig) (s : Collection) (committedIndex : Nat) (docs : List Json)
    (field value : String) : List String :=
  ((docs.filter (hasColumnValue config field value)).filterMap (rowKey config)).dedup.filter fun id =>
    (s.memoryHit config committedIndex id).isNone

/-- All rows that are visible, in the order of a scan. -/
def Collection.scanRows (config : LsmConfig) (s : Collection) (committedIndex : Nat)
    (names : List String) : List Json :=
  visibleRows config committedIndex (names.flatMap (sstRows s.dir) ++ s.memoryRows)

structure IndexedLookupSettled (layout : SstLayout) (config : LsmConfig) (targetedSeekMaxIds : Nat)
    (s : Collection) (committedIndex : Nat) (names : List String) (docs : List Json)
    (field value : String) : Prop where
  /-- A view can index every row of the published SSTs. -/
  indexable : ∀ name ∈ names, ∀ row ∈ sstRows s.dir name, Indexable row
  /-- The documents with the value have ids. -/
  named : ∀ doc ∈ docs, hasColumnValue config field value doc = true → (rowKey config doc).isSome = true
  /-- No row of the id of such a document has a greater version than the one in memory. -/
  newest : ∀ doc ∈ docs, hasColumnValue config field value doc = true →
    ∀ id, rowKey config doc = some id → ∀ first, s.memoryHit config committedIndex id = some first →
      rowKey config first = some id ∧
        ∀ row ∈ rowsOf config id (s.scanRows config committedIndex names), docScore row ≤ docScore first
  /-- Those that are in SSTs only are the last of the best rows that the seeks take, or, where a pass
  looks for them, have strings for their ids. -/
  sstOnly : ∀ doc ∈ docs, hasColumnValue config field value doc = true →
    ∀ id, rowKey config doc = some id → s.memoryHit config committedIndex id = none →
      if usesSeeks layout targetedSeekMaxIds names
          (s.sstOnlyIds config committedIndex docs field value).length then
        lastMax docScore (s.soughtHits layout config committedIndex id names) = some doc
      else doc.field? "id" = some (.string id)

/-! ## The rows in memory -/

section Tables

variable {committedIndex : Nat} {id : String}

theorem lookup_takeFromTable (table : Memtable) (found : IndexedRows) (id : String) :
    (takeFromTable config committedIndex found table).latestById.lookup id =
      if id ∈ found.pendingIds then
        (visibleHit config committedIndex table id).or (found.latestById.lookup id)
      else found.latestById.lookup id := by
  rw [takeFromTable]
  dsimp only
  generalize found.latestById = latestById
  induction found.pendingIds generalizing latestById with
  | nil => rfl
  | cons first rest ih =>
    rw [List.foldl_cons, ih]
    have one : (match visibleHit config committedIndex table first with
        | some doc => latestById.insert first doc
        | none => latestById).lookup id =
          if id = first then (visibleHit config committedIndex table id).or (latestById.lookup id)
          else latestById.lookup id := by
      by_cases same : id = first
      · subst same
        rw [if_pos rfl]
        cases visibleHit config committedIndex table id with
        | none => rfl
        | some doc => exact AList.lookup_insert _
      · rw [if_neg same]
        cases visibleHit config committedIndex table first with
        | none => rfl
        | some doc => exact AList.lookup_insert_ne same
    rw [one]
    by_cases same : id = first
    · subst same
      rw [if_pos rfl, if_pos (List.mem_cons_self ..)]
      split
      · cases visibleHit config committedIndex table id <;> rfl
      · rfl
    · simp only [List.mem_cons, same, if_false, false_or]

/-- The memtables in turn: an id has the row of the first one with a visible row. -/
theorem foldl_takeFromTable (tables : List Memtable) (found : IndexedRows) :
    (∀ id, (tables.foldl (takeFromTable config committedIndex) found).latestById.lookup id =
      if id ∈ found.pendingIds then
        (tables.findSome? fun table => visibleHit config committedIndex table id).or
          (found.latestById.lookup id)
      else found.latestById.lookup id) ∧
    (tables.foldl (takeFromTable config committedIndex) found).pendingIds =
      found.pendingIds.filter fun id =>
        (tables.findSome? fun table => visibleHit config committedIndex table id).isNone := by
  induction tables generalizing found with
  | nil =>
    refine ⟨fun id => ?_, ?_⟩
    · rw [List.foldl_nil, List.findSome?_nil, Option.none_or, ite_self]
    · rw [List.foldl_nil, eq_comm, List.filter_eq_self]
      exact fun _ _ => rfl
  | cons table rest ih =>
    obtain ⟨rows, pending⟩ := ih (takeFromTable config committedIndex found table)
    have left : (takeFromTable config committedIndex found table).pendingIds =
        found.pendingIds.filter fun id => (visibleHit config committedIndex table id).isNone := rfl
    rw [List.foldl_cons]
    refine ⟨fun id => ?_, ?_⟩
    · rw [rows, lookup_takeFromTable, left, List.findSome?_cons]
      simp only [List.mem_filter]
      by_cases member : id ∈ found.pendingIds
      · cases visibleHit config committedIndex table id <;> simp [member]
      · simp [member]
    · rw [pending, left, List.filter_filter]
      refine List.filter_congr fun id _ => ?_
      rw [List.findSome?_cons]
      cases visibleHit config committedIndex table id <;> simp

/-- The rows of an id in tables that file by id: the first hit comes last. -/
theorem rowsOf_tables {tables : List Memtable} (filed : ∀ table ∈ tables, FiledById config table) :
    ∃ before, rowsOf config id (visibleRows config committedIndex (tables.reverse.flatMap Memtable.rows)) =
        before ++ ((tables.findSome? fun table => visibleHit config committedIndex table id).filter
          fun doc => rowKey config doc = some id).toList ∧
      ((tables.findSome? fun table => visibleHit config committedIndex table id) = none →
        before = []) := by
  induction tables with
  | nil => exact ⟨[], rfl, fun _ => rfl⟩
  | cons table rest ih =>
    obtain ⟨own, others⟩ := List.forall_mem_cons.mp filed
    obtain ⟨before, split, empty⟩ := ih others
    have last : rowsOf config id (visibleRows config committedIndex table.rows) =
        ((visibleHit config committedIndex table id).filter
          fun doc => rowKey config doc = some id).toList := by
      rw [rowsOf_visibleRows, rowsOf_filed own, visibleHit]
      cases table.lookup id with
      | none => rfl
      | some doc =>
        rw [Option.filter_some, Option.filter_some]
        by_cases key : rowKey config doc = some id <;>
          cases visible : Collection.visibleDoc config committedIndex doc <;>
            simp [key, visible, Option.filter_some]
    rw [List.reverse_cons, List.flatMap_append, List.flatMap_singleton, visibleRows, List.filter_append,
      ← visibleRows, ← visibleRows, rowsOf_append, last, List.findSome?_cons]
    cases visibleHit config committedIndex table id with
    | none =>
      refine ⟨before, ?_, empty⟩
      rw [Option.filter_none, Option.toList_none, List.append_nil]
      exact split
    | some doc => exact ⟨_, rfl, fun absurd => by cases absurd⟩

end Tables

/-! ## The rows in the SSTs -/

section Ssts

variable {s : Collection} {layout : SstLayout} {committedIndex targetedSeekMaxIds : Nat}
  {names : List String}

/-- The seeks leave, for each id, the last of the best rows. -/
theorem foldlM_seekPending {ids : List String} (distinct : ids.Nodup) (verified : Verified config s names)
    (indexable : ∀ name ∈ names, ∀ row ∈ sstRows s.dir name, Indexable row) (latestById : Memtable) :
    ∃ after, ids.foldlM (seekPending layout config s committedIndex names) latestById = .ok after ∧
      ∀ id, after.lookup id = if id ∈ ids then
        latest docScore (latestById.lookup id)
          (lastMax docScore (s.soughtHits layout config committedIndex id names))
      else latestById.lookup id := by
  induction ids generalizing latestById with
  | nil => exact ⟨latestById, rfl, fun id => rfl⟩
  | cons first rest ih =>
    obtain ⟨fresh, distinct⟩ := List.nodup_cons.mp distinct
    have sought := @foldlM_latestFound config s layout committedIndex first names
      (latestById.lookup first) verified fun name isName _ row member _ => indexable name isName row member
    have one : ∃ next, seekPending layout config s committedIndex names latestById first = .ok next ∧
        ∀ id, next.lookup id = if id = first then latest docScore (latestById.lookup first)
          (lastMax docScore (s.soughtHits layout config committedIndex first names))
        else latestById.lookup id := by
      rw [seekPending, sought]
      rw [← Collection.soughtHits]
      cases chosen : latest docScore (latestById.lookup first)
          (lastMax docScore (s.soughtHits layout config committedIndex first names)) with
      | none =>
        refine ⟨latestById, rfl, fun id => ?_⟩
        split
        next same =>
          rw [same]
          exact earlier_of_latest_none chosen
        next => rfl
      | some doc =>
        refine ⟨latestById.insert first doc, rfl, fun id => ?_⟩
        split
        next same =>
          rw [same]
          exact AList.lookup_insert _
        next other => exact AList.lookup_insert_ne other
    obtain ⟨next, taken, changed⟩ := one
    obtain ⟨after, runs, rows⟩ := ih distinct next
    refine ⟨after, ?_, fun id => ?_⟩
    · rw [List.foldlM_cons, taken]
      exact runs
    · rw [rows, changed]
      by_cases same : id = first
      · subst same
        rw [if_neg fresh, if_pos rfl, if_pos (List.mem_cons_self ..)]
      · simp only [List.mem_cons, same, if_false, false_or]

/-- The id of the row is a string. -/
def hasTextId (row : Json) : Bool :=
  match row.field? "id" with
  | some (.string _) => true
  | _ => false

theorem pendingKey_eq_some_iff {ids : List String} {row : Json} {id : String} (named : id ≠ "") :
    pendingKey config committedIndex ids row = some id ↔
      ((rowKey config row = some id ∧ Collection.visibleDoc config committedIndex row = true) ∧
        hasTextId row = true) ∧ id ∈ ids := by
  have ofString : row.field? "id" = some (.string id) ↔
      rowKey config row = some id ∧ hasTextId row = true := by
    rw [rowKey, docId?, hasTextId]
    cases row.field? "id" with
    | none => simp
    | some value =>
      cases value with
      | string text =>
        simp only [Option.some.injEq, Json.string.injEq, Option.filter_eq_some_iff, and_true,
          decide_eq_true_eq]
        exact ⟨fun same => ⟨same, same ▸ named⟩, And.left⟩
      | _ => simp
  rw [pendingKey]
  cases visible : Collection.visibleDoc config committedIndex row with
  | false => simp
  | true =>
    simp only [Bool.not_true, Bool.false_eq_true, if_false, and_true]
    rw [← ofString]
    split
    next text found =>
      rw [found]
      split
      next member =>
        rw [Option.some.injEq, Option.some.injEq, Json.string.injEq]
        exact ⟨fun same => ⟨same, same ▸ member⟩, And.left⟩
      next absent =>
        rw [Option.some.injEq, Json.string.injEq]
        refine iff_of_false (by simp) ?_
        rintro ⟨rfl, member⟩
        exact absent member
    next other =>
      refine iff_of_false (by simp) ?_
      rintro ⟨found, -⟩
      exact other id found

/-- The pass over the SSTs leaves the last of the best rows whose ids are strings. -/
theorem foldlM_passSst {ids : List String} (named : ∀ id ∈ ids, id ≠ "")
    (verified : Verified config s names) (latestById : Memtable) :
    ∃ after, names.foldlM (passSst config s committedIndex ids) latestById = .ok after ∧
      ∀ id, after.lookup id = if id ∈ ids then latest docScore (latestById.lookup id)
        (lastMax docScore ((s.sstHits config committedIndex id names).filter hasTextId))
      else latestById.lookup id := by
  have runs : ∀ (names : List String) (latestById : Memtable), Verified config s names →
      names.foldlM (passSst config s committedIndex ids) latestById =
        .ok ((names.flatMap (sstRows s.dir)).foldl
          (upsertKeyed (pendingKey config committedIndex ids) fun row => row) latestById) := by
    intro names
    induction names with
    | nil => exact fun _ _ => rfl
    | cons name rest ih =>
      intro latestById verified
      obtain ⟨⟨rows, body, -⟩, others⟩ := List.forall_mem_cons.mp verified
      rw [List.foldlM_cons, passSst, scanSst, body, List.flatMap_cons, List.foldl_append, sstRows, body]
      exact ih _ others
  refine ⟨_, runs names latestById verified, fun id => ?_⟩
  rw [lookup_foldl_upsertKeyed, List.map_id']
  split
  next member =>
    congr 2
    rw [← rowsOf_sstRows verified, rowsOf, List.filter_filter, List.filter_filter]
    refine List.filter_congr fun row _ => ?_
    rw [Bool.eq_iff_iff, decide_eq_true_eq, pendingKey_eq_some_iff (named id member), and_iff_left member]
    simp only [Bool.and_eq_true, decide_eq_true_eq]
    tauto
  next absent =>
    have none : (names.flatMap (sstRows s.dir)).filter
        (fun row => pendingKey config committedIndex ids row = some id) = [] := by
      rw [List.filter_eq_nil_iff]
      intro row _ isKey
      rw [decide_eq_true_eq, pendingKey] at isKey
      split at isKey
      · cases isKey
      · split at isKey
        · split at isKey
          next member =>
            cases isKey
            exact absent member
          · cases isKey
        · cases isKey
    rw [none]
    exact latest_none _

end Ssts

/-! ## The lookup -/

section Lookup

variable {s : Collection} {layout : SstLayout} {index : BinaryColumnIndexState}
  {committedIndex targetedSeekMaxIds : Nat} {names : List String} {docs : List Json} {field value : String}

/-- The row that the lookup ends with for an id of the value. -/
def Collection.indexedRow (layout : SstLayout) (config : LsmConfig) (targetedSeekMaxIds : Nat) (s : Collection)
    (committedIndex : Nat) (names : List String) (docs : List Json) (field value id : String) :
    Option Json :=
  (s.memoryHit config committedIndex id).or (lastMax docScore
    (if usesSeeks layout targetedSeekMaxIds names
        (s.sstOnlyIds config committedIndex docs field value).length then
      s.soughtHits layout config committedIndex id names
    else (s.sstHits config committedIndex id names).filter hasTextId))

/-- An id of a document with the value. -/
def ColumnId (config : LsmConfig) (docs : List Json) (field value id : String) : Prop :=
  ∃ doc ∈ docs, hasColumnValue config field value doc = true ∧ rowKey config doc = some id

/-- The ids that the index gives. -/
theorem mem_candidates_iff (consistent : IndexConsistent config field index docs) {id : String} :
    id ∈ ((index.ids (utf8 value)).filterMap fun id => String.fromUTF8? ⟨id.toArray⟩).dedup ↔
      ColumnId config docs field value id := by
  rw [List.mem_dedup, List.mem_filterMap]
  constructor
  · rintro ⟨bytes, member, isText⟩
    obtain ⟨doc, isDoc, has, key, isKey, rfl⟩ := (consistent value bytes).mp member
    rw [fromUTF8_utf8] at isText
    cases isText
    exact ⟨doc, isDoc, has, isKey⟩
  · rintro ⟨doc, isDoc, has, isKey⟩
    exact ⟨utf8 id, (consistent value _).mpr ⟨doc, isDoc, has, id, isKey, rfl⟩, fromUTF8_utf8 id⟩

theorem mem_sstOnlyIds_iff {id : String} : id ∈ s.sstOnlyIds config committedIndex docs field value ↔
    ColumnId config docs field value id ∧ s.memoryHit config committedIndex id = none := by
  rw [Collection.sstOnlyIds, List.mem_filter, List.mem_dedup, List.mem_filterMap,
    Option.isNone_iff_eq_none]
  refine and_congr_left fun _ => ?_
  constructor
  · rintro ⟨doc, isDoc, isKey⟩
    obtain ⟨isDoc, has⟩ := List.mem_filter.mp isDoc
    exact ⟨doc, isDoc, has, isKey⟩
  · rintro ⟨doc, isDoc, has, isKey⟩
    exact ⟨doc, List.mem_filter.mpr ⟨isDoc, has⟩, isKey⟩

/-- What the SSTs add. -/
theorem readPending_ok {found : IndexedRows} (distinct : found.pendingIds.Nodup)
    (named : ∀ id ∈ found.pendingIds, id ≠ "") (published : publishedSsts config.codec s.dir = .ok names)
    (verified : Verified config s names)
    (indexable : ∀ name ∈ names, ∀ row ∈ sstRows s.dir name, Indexable row) :
    ∃ latestById,
      readPending layout config targetedSeekMaxIds s committedIndex found = .ok latestById ∧
      ∀ id, latestById.lookup id = if id ∈ found.pendingIds then
        latest docScore (found.latestById.lookup id) (lastMax docScore
          (if usesSeeks layout targetedSeekMaxIds names found.pendingIds.length then
            s.soughtHits layout config committedIndex id names
          else (s.sstHits config committedIndex id names).filter hasTextId))
      else found.latestById.lookup id := by
  unfold readPending
  rw [published]
  dsimp only
  split
  next none =>
    refine ⟨_, rfl, fun id => ?_⟩
    rw [List.isEmpty_iff.mp none, if_neg List.not_mem_nil]
  next =>
    split
    next few => exact foldlM_seekPending distinct verified indexable found.latestById
    next many => exact foldlM_passSst named verified found.latestById

/-- The lookup, row by row. -/
theorem findByIndex_ok (published : publishedSsts config.codec s.dir = .ok names)
    (verified : Verified config s names)
    (indexable : ∀ name ∈ names, ∀ row ∈ sstRows s.dir name, Indexable row)
    (consistent : IndexConsistent config field index docs) :
    ∃ found, findByIndex layout config targetedSeekMaxIds s index committedIndex field value = .ok found ∧
      (∀ doc, doc ∈ found ↔ (∃ id, ColumnId config docs field value id ∧
        s.indexedRow layout config targetedSeekMaxIds committedIndex names docs field value id = some doc) ∧
          isDeletedDoc doc = false ∧ docFieldMatchesColumnValue config doc field value = true) ∧
      ∃ (ids : List String) (row : String → Option Json), ids.Nodup ∧ found = ids.filterMap row ∧ ∀ id doc, row id = some doc →
        s.indexedRow layout config targetedSeekMaxIds committedIndex names docs field value id = some doc := by
  have mem_candidates : ∀ id, _ ↔ ColumnId config docs field value id := fun id =>
    mem_candidates_iff consistent
  unfold findByIndex
  unfold BinaryColumnIndexState.ids at mem_candidates
  cases bucket : index.idsByValue.find? (utf8 value) with
  | none =>
    rw [bucket] at mem_candidates
    refine ⟨[], rfl, fun doc => iff_of_false List.not_mem_nil ?_, [], fun _ => none, .nil, rfl, nofun⟩
    rintro ⟨⟨id, isColumn, -⟩, -⟩
    exact List.not_mem_nil ((mem_candidates id).mpr isColumn)
  | some ids =>
    rw [bucket, Option.getD_some] at mem_candidates
    dsimp only
    generalize isCandidates : (ids.filterMap fun id => String.fromUTF8? ⟨id.toArray⟩).dedup =
      candidates at mem_candidates ⊢
    have distinct : candidates.Nodup := isCandidates ▸ List.nodup_dedup _
    obtain ⟨memoryRows, pending⟩ := @foldl_takeFromTable config committedIndex
      (s.memtable :: s.immutables.map Prod.snd) { pendingIds := candidates }
    generalize (s.memtable :: s.immutables.map Prod.snd).foldl (takeFromTable config committedIndex)
      { pendingIds := candidates } = found at memoryRows pending ⊢
    have left : ∀ id, id ∈ found.pendingIds ↔
        id ∈ candidates ∧ s.memoryHit config committedIndex id = none := by
      intro id
      rw [pending, List.mem_filter, ← Collection.memoryHit, Option.isNone_iff_eq_none]
    have pendingDistinct : found.pendingIds.Nodup := pending ▸ distinct.filter _
    have sameLength : found.pendingIds.length =
        (s.sstOnlyIds config committedIndex docs field value).length := by
      apply List.Perm.length_eq
      apply (List.perm_ext_iff_of_nodup pendingDistinct ((List.nodup_dedup _).filter _)).mpr
      intro id
      rw [left, mem_candidates]
      exact mem_sstOnlyIds_iff.symm
    have named : ∀ id ∈ found.pendingIds, id ≠ "" := by
      intro id member
      obtain ⟨doc, -, -, isKey⟩ := (mem_candidates id).mp ((left id).mp member).1
      exact of_decide_eq_true (Option.filter_eq_some_iff.mp isKey).2
    obtain ⟨latestById, runs, sstRows⟩ := @readPending_ok config s layout committedIndex
      targetedSeekMaxIds names found pendingDistinct named published verified indexable
    have rows : ∀ id, latestById.lookup id = if id ∈ candidates then
        s.indexedRow layout config targetedSeekMaxIds committedIndex names docs field value id else none := by
      intro id
      rw [sstRows, memoryRows, ← Collection.memoryHit, sameLength, Collection.indexedRow]
      by_cases member : id ∈ candidates
      · rw [if_pos member, if_pos member]
        cases hit : s.memoryHit config committedIndex id with
        | none => exact if_pos ((left id).mpr ⟨member, hit⟩)
        | some doc =>
          apply if_neg
          intro inPending
          rw [((left id).mp inPending).2] at hit
          cases hit
      · rw [if_neg fun inPending => member ((left id).mp inPending).1, if_neg member, if_neg member]
        rfl
    rw [runs]
    refine ⟨_, rfl, fun doc => ?_, _, fun id => (latestById.lookup id).filter fun doc =>
      !isDeletedDoc doc && docFieldMatchesColumnValue config doc field value, ?_,
      List.filter_filterMap .., fun id doc isRow => ?_⟩
    · rw [List.mem_filter, Bool.and_eq_true, Bool.not_eq_true', List.mem_filterMap]
      refine and_congr_left fun _ => exists_congr fun id => ?_
      rw [rows, ← mem_candidates]
      constructor
      · rintro ⟨-, found⟩
        split at found
        next member => exact ⟨member, found⟩
        next => cases found
      · rintro ⟨member, isRow⟩
        rw [if_pos member]
        refine ⟨?_, isRow⟩
        rw [List.mem_append, List.mem_filter, decide_eq_true_eq, ← AList.mem_keys, ← AList.lookup_isSome, rows,
          if_pos member, isRow]
        exact (em _).imp_right fun absent => ⟨rfl, absent⟩
    · apply pendingDistinct.append (latestById.nodupKeys.filter _)
      intro id inPending others
      exact of_decide_eq_true (List.mem_filter.mp others).2 inPending
    · have held := (Option.filter_eq_some_iff.mp isRow).1
      rw [rows] at held
      split at held
      · exact held
      · cases held

end Lookup

/-! ## The lookup and the scan -/

section Agreement

variable {s : Collection} {layout : SstLayout} {index : BinaryColumnIndexState}
  {committedIndex targetedSeekMaxIds : Nat} {names : List String} {docs : List Json} {field value : String}
  {doc : Json} {id : String}

/-- The tables that `LSM::put` fills: a document with an id is under it. -/
def Collection.FiledMemory (config : LsmConfig) (s : Collection) : Prop :=
  ∀ table ∈ s.memtable :: s.immutables.map Prod.snd, FiledById config table

theorem rowsOf_scanRows (filed : s.FiledMemory config) (verified : Verified config s names) :
    ∃ before, rowsOf config id (s.scanRows config committedIndex names) =
        s.sstHits config committedIndex id names ++ (before ++
          ((s.memoryHit config committedIndex id).filter fun doc => rowKey config doc = some id).toList) ∧
      (s.memoryHit config committedIndex id = none → before = []) := by
  obtain ⟨before, split, empty⟩ := @rowsOf_tables config committedIndex id _ filed
  refine ⟨before, ?_, empty⟩
  have memory : s.memoryRows =
      (s.memtable :: s.immutables.map Prod.snd).reverse.flatMap Memtable.rows := by
    rw [List.reverse_cons, List.flatMap_append, List.flatMap_singleton, ← List.map_reverse,
      List.flatMap_map, Collection.memoryRows]
  rw [Collection.scanRows, visibleRows, List.filter_append, ← visibleRows, ← visibleRows, rowsOf_append,
    memory, split, rowsOf_visibleRows, rowsOf_sstRows verified, Collection.memoryHit]

/-- A row that the lookup ends with has no other id. -/
theorem indexedRow_key (filed : s.FiledMemory config) (verified : Verified config s names)
    (isRow : s.indexedRow layout config targetedSeekMaxIds committedIndex names docs field value id = some doc)
    {other : String} (isKey : rowKey config doc = some other) : other = id := by
  rw [Collection.indexedRow] at isRow
  cases hit : s.memoryHit config committedIndex id with
  | some first =>
    rw [hit] at isRow
    cases isRow
    obtain ⟨table, isTable, held⟩ := List.exists_of_findSome?_eq_some hit
    exact (filed table isTable id doc (Option.filter_eq_some_iff.mp held).1 other isKey).symm
  | none =>
    rw [hit, Option.none_or] at isRow
    have member : doc ∈ s.sstHits config committedIndex id names := by
      have inRows := mem_of_lastMax isRow
      split at inRows
      · obtain ⟨name, isName, hit⟩ := List.mem_flatMap.mp inRows
        exact List.mem_flatMap.mpr ⟨name, isName, seekHits_subset hit⟩
      · exact (List.mem_filter.mp inRows).1
    rw [← rowsOf_sstRows verified] at member
    have own := of_decide_eq_true (List.mem_filter.mp (List.mem_filter.mp member).1).2
    rw [isKey] at own
    exact Option.some.inj own

/-- When the lookup ends with the document of the id. -/
theorem indexedRow_eq_iff (filed : s.FiledMemory config) (verified : Verified config s names)
    (won : lastMax docScore (rowsOf config id (s.scanRows config committedIndex names)) = some doc) :
    s.indexedRow layout config targetedSeekMaxIds committedIndex names docs field value id = some doc ↔
      (∀ first, s.memoryHit config committedIndex id = some first → rowKey config first = some id ∧
        ∀ row ∈ rowsOf config id (s.scanRows config committedIndex names), docScore row ≤ docScore first) ∧
      (s.memoryHit config committedIndex id = none →
        if usesSeeks layout targetedSeekMaxIds names
            (s.sstOnlyIds config committedIndex docs field value).length then
          lastMax docScore (s.soughtHits layout config committedIndex id names) = some doc
        else doc.field? "id" = some (.string id)) := by
  have isKey := (rowKey_of_lastMax won).2
  obtain ⟨before, split, empty⟩ := @rowsOf_scanRows config s committedIndex names id filed verified
  rw [Collection.indexedRow]
  cases hit : s.memoryHit config committedIndex id with
  | some first =>
    rw [hit] at split
    rw [Option.some_or]
    constructor
    · rintro ⟨⟩
      refine ⟨fun other same => ?_, nofun⟩
      cases same
      exact ⟨isKey, fun row member => score_le_lastMax won member⟩
    · rintro ⟨newest, -⟩
      obtain ⟨own, atMost⟩ := newest first rfl
      rw [Option.filter_some, if_pos (decide_eq_true own), Option.toList_some, ← List.append_assoc] at split
      rw [← won, split, eq_comm]
      apply lastMax_eq_some_iff.mpr
      refine ⟨_, [], rfl, fun row member => atMost row ?_, nofun⟩
      rw [split]
      exact List.mem_append_left _ member
  | none =>
    rw [hit, empty hit, Option.filter_none, Option.toList_none, List.append_nil, List.append_nil] at split
    rw [split] at won
    rw [Option.none_or]
    split
    next => exact ⟨fun isRow => ⟨nofun, fun _ => isRow⟩, fun found => found.2 rfl⟩
    next =>
      have text : doc.field? "id" = some (.string id) ↔ hasTextId doc = true := by
        rw [rowKey, docId?] at isKey
        rw [hasTextId]
        cases found : doc.field? "id" with
        | none => simp
        | some key =>
          rw [found] at isKey
          cases key with
          | string text =>
            have same : text = id := Option.some.inj (Option.filter_eq_some_iff.mp isKey).1
            simp [same]
          | _ => simp
      constructor
      · intro isRow
        exact ⟨nofun, fun _ => text.mpr (List.mem_filter.mp (mem_of_lastMax isRow)).2⟩
      · rintro ⟨-, texts⟩
        exact lastMax_filter won (text.mp (texts rfl))

/-- The full scan has the documents with the value, and no other with a scalar. -/
theorem mem_findByScan (published : publishedSsts config.codec s.dir = .ok names)
    (verified : Verified config s names)
    (reads : readAllCollectionRows config s committedIndex = .ok docs)
    (indexable : ∀ name ∈ names, ∀ row ∈ sstRows s.dir name, Indexable row) :
    ∃ scanned, findByScan config s committedIndex field value = .ok scanned ∧
      ∀ doc, (doc ∈ scanned ∧ (doc.field? field).any isScalar = true) ↔
        doc ∈ docs ∧ hasColumnValue config field value doc = true := by
  obtain ⟨rows, visited, -, members⟩ := visitLatest_ok published verified reads indexable
  refine ⟨_, by rw [findByScan, visited], fun doc => ?_⟩
  rw [List.mem_filter, members, hasColumnValue, Bool.and_eq_true]
  constructor
  · rintro ⟨⟨isDoc | ⟨-, plain, -⟩, has⟩, scalar⟩
    · exact ⟨isDoc, scalar, has⟩
    · rw [field?_of_not_object plain] at scalar
      cases scalar
  · rintro ⟨isDoc, scalar, has⟩
    exact ⟨⟨.inl isDoc, has⟩, scalar⟩

/-- A document is the last of the best rows of its id. -/
theorem won_of_mem_docs (published : publishedSsts config.codec s.dir = .ok names)
    (reads : readAllCollectionRows config s committedIndex = .ok docs) :
    ∀ doc ∈ docs, ∀ id, rowKey config doc = some id →
      lastMax docScore (rowsOf config id (s.scanRows config committedIndex names)) = some doc ∧
        isDeletedDoc doc = false := by
  obtain ⟨others, samePublished, -, rfl⟩ := readAllCollectionRows_ok.mp reads
  cases published.symm.trans samePublished
  rw [flatMap_scanned, ← Collection.scanRows]
  intro doc isDoc id isKey
  obtain ⟨best, alive⟩ := Option.filter_eq_some_iff.mp (mem_latestDocs_key.mp ⟨isDoc, isKey⟩)
  exact ⟨best, by simpa using alive⟩

/-- Where the condition holds, the lookup finds the documents with the value, each once. -/
theorem findByIndex_of_settled (filed : s.FiledMemory config)
    (published : publishedSsts config.codec s.dir = .ok names) (verified : Verified config s names)
    (reads : readAllCollectionRows config s committedIndex = .ok docs)
    (consistent : IndexConsistent config field index docs)
    (settled : IndexedLookupSettled layout config targetedSeekMaxIds s committedIndex names docs field value) :
    ∃ found, findByIndex layout config targetedSeekMaxIds s index committedIndex field value = .ok found ∧
      (∀ doc, doc ∈ found ↔ doc ∈ docs ∧ hasColumnValue config field value doc = true) ∧ found.Nodup := by
  obtain ⟨indexable, named, newest, sstOnly⟩ := settled
  have won := won_of_mem_docs published reads
  obtain ⟨found, isFound, members, ids, row, distinct, split, isRow⟩ := @findByIndex_ok config s layout
    index committedIndex targetedSeekMaxIds names docs field value published verified indexable consistent
  have own : ∀ doc ∈ docs, hasColumnValue config field value doc = true →
      ∀ id, rowKey config doc = some id →
        s.indexedRow layout config targetedSeekMaxIds committedIndex names docs field value id = some doc :=
    fun doc isDoc has id isKey => (indexedRow_eq_iff filed verified (won doc isDoc id isKey).1).mpr
      ⟨newest doc isDoc has id isKey, sstOnly doc isDoc has id isKey⟩
  have same : ∀ doc, doc ∈ found ↔ doc ∈ docs ∧ hasColumnValue config field value doc = true := by
    intro doc
    rw [members]
    constructor
    · rintro ⟨⟨id, ⟨owner, isOwner, has, isKey⟩, isRow⟩, -⟩
      rw [own owner isOwner has id isKey] at isRow
      cases isRow
      exact ⟨isOwner, has⟩
    · rintro ⟨isDoc, has⟩
      obtain ⟨id, isKey⟩ := Option.isSome_iff_exists.mp (named doc isDoc has)
      exact ⟨⟨id, ⟨doc, isDoc, has, isKey⟩, own doc isDoc has id isKey⟩, (won doc isDoc id isKey).2,
        (Bool.and_eq_true _ _ ▸ has).2⟩
  refine ⟨found, isFound, same, ?_⟩
  -- two ids do not give one document: each gives a row of its own
  have key : ∀ id ∈ ids, ∀ doc, row id = some doc → rowKey config doc = some id := by
    intro id member doc held
    obtain ⟨isDoc, has⟩ := (same doc).mp (split ▸ List.mem_filterMap.mpr ⟨id, member, held⟩)
    obtain ⟨other, isKey⟩ := Option.isSome_iff_exists.mp (named doc isDoc has)
    cases indexedRow_key filed verified (isRow id doc held) isKey
    exact isKey
  rw [split, List.Nodup, List.pairwise_filterMap]
  apply distinct.imp_of_mem
  rintro first second isFirst isSecond different doc held _ again rfl
  have sameKey := (key first isFirst doc held).symm.trans (key second isSecond doc again)
  exact different (Option.some.inj sameKey)

/-- With a consistent index, the lookup of a value and the scan for it find the same
documents with a scalar in the field, exactly when memory has no older row of an id than an
SST, the documents have ids, the seeks or the pass take those that are in SSTs only, and no row
is too deep for the merge. -/
theorem indexedLookup_agrees_iff (v : Json) (filed : s.FiledMemory config)
    (published : publishedSsts config.codec s.dir = .ok names) (verified : Verified config s names)
    (reads : readAllCollectionRows config s committedIndex = .ok docs)
    (consistent : IndexConsistent config field index docs) :
    IndexedLookupAgrees layout config targetedSeekMaxIds s index committedIndex field
        (columnIndexValue config.dump v) ↔
      IndexedLookupSettled layout config targetedSeekMaxIds s committedIndex names docs field
        (columnIndexValue config.dump v) := by
  generalize columnIndexValue config.dump v = value
  have won := won_of_mem_docs published reads
  constructor
  · rintro ⟨found, scanned, isFound, isScanned, same⟩
    have indexable : ∀ name ∈ names, ∀ row ∈ sstRows s.dir name, Indexable row := by
      unfold findByScan at isScanned
      split at isScanned
      · cases isScanned
      next rows visited => exact indexable_of_visitLatest published verified visited
    obtain ⟨_, again, members, -⟩ := @findByIndex_ok config s layout index committedIndex targetedSeekMaxIds
      names docs field value published verified indexable consistent
    cases isFound.symm.trans again
    obtain ⟨_, again, scans⟩ := @mem_findByScan config s committedIndex names docs field value published
      verified reads indexable
    cases isScanned.symm.trans again
    have looked : ∀ doc ∈ docs, hasColumnValue config field value doc = true →
        ∃ id, ColumnId config docs field value id ∧
          s.indexedRow layout config targetedSeekMaxIds committedIndex names docs field value id = some doc :=
      fun doc isDoc has => ((members doc).mp ((same doc).mpr ((scans doc).mpr ⟨isDoc, has⟩))).1
    have own : ∀ doc ∈ docs, hasColumnValue config field value doc = true →
        ∀ id, rowKey config doc = some id →
          s.indexedRow layout config targetedSeekMaxIds committedIndex names docs field value id = some doc := by
      intro doc isDoc has id isKey
      obtain ⟨other, -, isRow⟩ := looked doc isDoc has
      cases indexedRow_key filed verified isRow isKey
      exact isRow
    have settled := fun doc isDoc has id isKey => (@indexedRow_eq_iff config s layout committedIndex
      targetedSeekMaxIds names docs field value doc id filed verified
        (won doc isDoc id isKey).1).mp (own doc isDoc has id isKey)
    refine ⟨indexable, fun doc isDoc has => ?_, fun doc isDoc has id isKey =>
      (settled doc isDoc has id isKey).1, fun doc isDoc has id isKey =>
      (settled doc isDoc has id isKey).2⟩
    obtain ⟨id, ⟨owner, isOwner, ownerHas, ownerKey⟩, isRow⟩ := looked doc isDoc has
    rw [own owner isOwner ownerHas id ownerKey] at isRow
    cases isRow
    rw [ownerKey]
    rfl
  · intro settled
    obtain ⟨found, isFound, members, -⟩ := @findByIndex_of_settled config s layout index committedIndex
      targetedSeekMaxIds names docs field value filed published verified reads consistent settled
    obtain ⟨scanned, isScanned, scans⟩ := @mem_findByScan config s committedIndex names docs field value
      published verified reads settled.indexable
    exact ⟨found, scanned, isFound, isScanned, fun doc => (members doc).trans (scans doc).symm⟩

end Agreement

/-! ## An older row in memory -/

def colouredDoc (id : String) (version : Nat) (colour : String) : Json :=
  .object [("id", .string id), ("version", .unsigned version), ("colour", .string colour)]

/-- The index of a collection whose documents are all blue. -/
def blueIndex (ids : List String) : BinaryColumnIndexState where
  loaded := true
  valueById := ids.foldl (fun held id => SortedMap.assign held (utf8 id) (utf8 "blue")) .empty
  idsByValue := SortedMap.assign .empty (utf8 "blue") (ids.map utf8)

/-- An older version of a published document was replayed into memory. -/
def replayedOlder : Collection where
  memtable := AList.insert "a" (colouredDoc "a" 1 "red") ∅
  dir := AList.insert "1_0.sst" (.sst [colouredDoc "a" 2 "blue"]) ∅

theorem consistent_blueIndex {docs : List Json} {ids : List String}
    (blue : ∀ doc ∈ docs, doc.field? "colour" = some (.string "blue"))
    (keys : docs.map (rowKey standalone) = ids.map some) :
    IndexConsistent standalone "colour" (blueIndex ids) docs := by
  have bucket : ∀ value, (blueIndex ids).ids (utf8 value) =
      if value = "blue" then ids.map utf8 else [] := by
    intro value
    rw [BinaryColumnIndexState.ids, blueIndex, SortedMap.find?_assign]
    by_cases blue : value = "blue"
    · rw [if_pos (utf8_inj.mpr blue), if_pos blue]
      rfl
    · rw [if_neg fun same => blue (utf8_inj.mp same), if_neg blue]
      rfl
  have has : ∀ doc ∈ docs, ∀ value, hasColumnValue standalone "colour" value doc = true ↔
      "blue" = value := by
    intro doc isDoc value
    rw [hasColumnValue, docFieldMatchesColumnValue, blue doc isDoc]
    exact beq_iff_eq
  have named : ∀ key, key ∈ ids ↔ ∃ doc ∈ docs, rowKey standalone doc = some key := by
    intro key
    rw [← List.mem_map, keys, List.mem_map_of_injective (Option.some_injective _)]
  intro value id
  rw [bucket]
  constructor
  · intro member
    split at member
    next isBlue =>
      obtain ⟨key, isKey, rfl⟩ := List.mem_map.mp member
      obtain ⟨doc, isDoc, keyed⟩ := (named key).mp isKey
      exact ⟨doc, isDoc, (has doc isDoc value).mpr isBlue.symm, key, keyed, rfl⟩
    next => cases member
  · rintro ⟨doc, isDoc, isValue, key, isKey, rfl⟩
    rw [if_pos ((has doc isDoc value).mp isValue).symm]
    exact List.mem_map_of_mem ((named key).mpr ⟨doc, isDoc, isKey⟩)

/-- The scan finds the document, the lookup does not: it takes the row in memory. -/
theorem indexedLookup_disagrees :
    readAllCollectionRows standalone replayedOlder 0 = .ok [colouredDoc "a" 2 "blue"] ∧
      IndexConsistent standalone "colour" (blueIndex ["a"]) [colouredDoc "a" 2 "blue"] ∧
      findByIndex rowBlocks standalone 128 replayedOlder (blueIndex ["a"]) 0 "colour" "blue" = .ok [] ∧
      findByScan standalone replayedOlder 0 "colour" "blue" = .ok [colouredDoc "a" 2 "blue"] ∧
      ¬IndexedLookupAgrees rowBlocks standalone 128 replayedOlder (blueIndex ["a"]) 0 "colour" "blue" := by
  have looked : findByIndex rowBlocks standalone 128 replayedOlder (blueIndex ["a"]) 0 "colour" "blue" =
      .ok [] := by
    rfl
  have scanned : findByScan standalone replayedOlder 0 "colour" "blue" = .ok [colouredDoc "a" 2 "blue"] := by
    rfl
  refine ⟨by rfl, consistent_blueIndex ?_ rfl, looked, scanned, ?_⟩
  · intro doc isDoc
    rw [List.mem_singleton.mp isDoc]
    rfl
  · rintro ⟨found, others, isFound, isScanned, same⟩
    cases looked.symm.trans isFound
    cases scanned.symm.trans isScanned
    cases (same _).mpr ⟨.head _, rfl⟩

/-- The newer version was replayed instead, beside a document that only an SST has. -/
def replayedNewer : Collection where
  memtable := AList.insert "a" (colouredDoc "a" 2 "blue") ∅
  dir := AList.insert "1_0.sst" (.sst [colouredDoc "a" 1 "red", colouredDoc "b" 1 "blue"]) ∅

def replayedDocs : List Json := [colouredDoc "a" 2 "blue", colouredDoc "b" 1 "blue"]

theorem mem_replayedDocs {doc : Json} (isDoc : doc ∈ replayedDocs) :
    doc = colouredDoc "a" 2 "blue" ∨ doc = colouredDoc "b" 1 "blue" := List.mem_pair.mp isDoc

theorem mem_replayedFile {name : String} {row : Json} (member : name ∈ ["1_0.sst"])
    (isRow : row ∈ sstRows replayedNewer.dir name) :
    row = colouredDoc "a" 1 "red" ∨ row = colouredDoc "b" 1 "blue" := by
  rw [List.mem_singleton.mp member] at isRow
  exact List.mem_pair.mp isRow

theorem verified_replayedNewer : Verified standalone replayedNewer ["1_0.sst"] := by
  intro name member
  rw [List.mem_singleton.mp member]
  exact ⟨_, by rfl, by rfl⟩

theorem consistent_replayedDocs :
    IndexConsistent standalone "colour" (blueIndex ["a", "b"]) replayedDocs := by
  refine consistent_blueIndex (fun doc isDoc => ?_) rfl
  rcases mem_replayedDocs isDoc with rfl | rfl <;> rfl

/-- The SST is text and has no sparse index, so that a pass finds the other document. -/
theorem settled_replayedNewer : IndexedLookupSettled textLines standalone 128 replayedNewer 0 ["1_0.sst"]
    replayedDocs "colour" "blue" := by
  have hit : replayedNewer.memoryHit standalone 0 "a" = some (colouredDoc "a" 2 "blue") := by rfl
  refine ⟨?_, ?_, ?_, ?_⟩
  · intro name member row isRow
    rcases mem_replayedFile member isRow with rfl | rfl <;> rfl
  · intro doc isDoc _
    rcases mem_replayedDocs isDoc with rfl | rfl <;> rfl
  · intro doc isDoc _ id isKey first isFirst
    rcases mem_replayedDocs isDoc with rfl | rfl <;> cases isKey
    · cases hit.symm.trans isFirst
      refine ⟨rfl, fun row member => ?_⟩
      rcases List.mem_pair.mp (show row ∈ [colouredDoc "a" 1 "red", colouredDoc "a" 2 "blue"] from member)
        with rfl | rfl
      · exact (by decide : docScore (colouredDoc "a" 1 "red") ≤ docScore (colouredDoc "a" 2 "blue"))
      · exact le_rfl
    · cases isFirst
  · intro doc isDoc _ id isKey inMemory
    rcases mem_replayedDocs isDoc with rfl | rfl <;> cases isKey
    · cases hit.symm.trans inMemory
    · rfl

theorem indexedLookup_agrees_replayedNewer :
    IndexedLookupAgrees textLines standalone 128 replayedNewer (blueIndex ["a", "b"]) 0 "colour" "blue" := by
  refine (@indexedLookup_agrees_iff standalone replayedNewer textLines (blueIndex ["a", "b"]) 0 128
    ["1_0.sst"] replayedDocs "colour" (.string "blue") ?_ (by rfl) verified_replayedNewer (by rfl)
    consistent_replayedDocs).mpr settled_replayedNewer
  intro table isTable key doc held id isKey
  obtain rfl := List.mem_singleton.mp isTable
  rcases lookup_insert_eq_some held with ⟨rfl, rfl⟩ | ⟨-, absent⟩
  · exact Option.some.inj isKey
  · cases absent

end PacificDb.Lsm
