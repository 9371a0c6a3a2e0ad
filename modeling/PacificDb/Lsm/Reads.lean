import PacificDb.Lib.LastMax
import PacificDb.Lsm.Listed

/-!
# Reading a collection

`readAllCollectionRows`, the body of `getAll`: the published SSTs in name order,
then the immutable memtables from the oldest on, then the active memtable; per
id the row that `mergeLatestById` keeps, without tombstones.

Both this scan and the merge of a compaction keep, per id, the last row of
greatest version score.
-/

namespace PacificDb.Lsm

open Lib

variable {config : LsmConfig}

/-- The id `mergeLatestById` files a row under; an empty one does not count. -/
def rowKey (config : LsmConfig) (row : Json) : Option String :=
  (docId? config.dump row).filter (· ≠ "")

/-- `latestById` and `noIdDocs`. -/
structure LatestRows where
  latestById : Memtable := ∅
  noIdDocs : List Json := []

def mergeLatestById (config : LsmConfig) (latest : LatestRows) (doc : Json) : LatestRows :=
  match rowKey config doc with
  | some id => { latest with latestById := upsertNewer latest.latestById id doc }
  | none => { latest with noIdDocs := latest.noIdDocs ++ [doc] }

/-- The rows in memory in the order a read overlays them. The newest immutable
memtable is at the front. -/
def Collection.memoryRows (s : Collection) : List Json :=
  s.immutables.reverse.flatMap (fun immutable => Memtable.rows immutable.2) ++ s.memtable.rows

def visibleRows (config : LsmConfig) (committedIndex : Nat) (rows : List Json) : List Json :=
  rows.filter fun row => docVisibleByCommitIndex config.raft row committedIndex

/-- What the scan leaves, tombstones removed. -/
def latestDocs (config : LsmConfig) (rows : List Json) : List Json :=
  let latest := rows.foldl (mergeLatestById config) {}
  (latest.noIdDocs ++ latest.latestById.rows).filter fun doc => !isDeletedDoc doc

def readAllCollectionRows (config : LsmConfig) (s : Collection) (committedIndex : Nat) :
    Except String (List Json) :=
  match publishedSsts config.codec s.dir with
  | .error reason => .error reason
  | .ok published =>
      match published.mapM (scanSst s.dir) with
      | none => .error "cannot scan SST"
      | some read => .ok (latestDocs config
          (visibleRows config committedIndex (read.flatMap Prod.snd ++ s.memoryRows)))

/-! ## The scan -/

theorem mapM_scanSst_iff {dir : LsmDir} {names : List String} {read : List (String × List Json)} :
    names.mapM (scanSst dir) = some read ↔
      read = (names.map fun name => (name, sstRows dir name)) ∧
        ∀ name ∈ names, ∃ rows, dir.lookup name = some (.sst rows) := by
  induction names generalizing read with
  | nil => simp [eq_comm]
  | cons name names ih =>
    rw [List.mapM_cons, List.map_cons, List.forall_mem_cons]
    constructor
    · intro scanned
      obtain ⟨first, found, rest⟩ := Option.bind_eq_some_iff.mp scanned
      obtain ⟨others, scannedRest, rest⟩ := Option.bind_eq_some_iff.mp rest
      cases rest
      obtain ⟨rfl, bodies⟩ := ih.mp scannedRest
      unfold scanSst at found
      split at found
      next rows body =>
        cases found
        exact ⟨by rw [sstRows, body], ⟨rows, body⟩, bodies⟩
      next => cases found
    · rintro ⟨rfl, ⟨rows, body⟩, bodies⟩
      have others := ih.mpr ⟨rfl, bodies⟩
      simp [scanSst, sstRows, body, others]

/-- When a scan succeeds: every published SST is there. -/
theorem readAllCollectionRows_ok {s : Collection} {committedIndex : Nat} {docs : List Json} :
    readAllCollectionRows config s committedIndex = .ok docs ↔ ∃ names,
      publishedSsts config.codec s.dir = .ok names ∧
        (∀ name ∈ names, ∃ rows, s.dir.lookup name = some (.sst rows)) ∧
        docs = latestDocs config (visibleRows config committedIndex
          ((names.map fun name => (name, sstRows s.dir name)).flatMap Prod.snd ++ s.memoryRows)) := by
  unfold readAllCollectionRows
  cases publishedSsts config.codec s.dir with
  | error reason => simp
  | ok names =>
    dsimp only
    cases scanned : names.mapM (scanSst s.dir) with
    | none =>
      refine iff_of_false (by simp) ?_
      rintro ⟨_, ⟨⟩, bodies, -⟩
      have scans := mapM_scanSst_iff.mpr ⟨rfl, bodies⟩
      rw [scanned] at scans
      cases scans
    | some read =>
      obtain ⟨rfl, bodies⟩ := mapM_scanSst_iff.mp scanned
      constructor
      · rintro ⟨⟩
        exact ⟨names, rfl, bodies, rfl⟩
      · rintro ⟨_, ⟨⟩, -, rfl⟩
        rfl

theorem flatMap_scanned (dir : LsmDir) (names : List String) :
    (names.map fun name => (name, sstRows dir name)).flatMap Prod.snd = names.flatMap (sstRows dir) := by
  rw [List.flatMap_map]

/-! ## The last row of greatest score -/

theorem lookup_upsertNewer (table : Memtable) (id other : String) (row : Json) :
    (upsertNewer table id row).lookup other =
      if other = id then latest docScore (table.lookup id) (some row) else table.lookup other := by
  unfold upsertNewer
  by_cases same : other = id
  · subst same
    cases found : table.lookup other with
    | none => simp [latest]
    | some current =>
      cases newer : isCandidateNewer row current with
      | true => simp [latest, newer, isCandidateNewer_iff.mp newer]
      | false =>
        have older : ¬docScore current ≤ docScore row := by
          rw [← isCandidateNewer_iff, newer]
          exact Bool.false_ne_true
        simp [latest, newer, older, found]
  · rw [if_neg same]
    split
    · split
      · rw [AList.lookup_insert_ne same]
      · rfl
    · rw [AList.lookup_insert_ne same]

/-- Upsert the row of an item under its key, if it has one. -/
def upsertKeyed {α : Type} (key : α → Option String) (row : α → Json) (table : Memtable)
    (item : α) : Memtable :=
  match key item with
  | some id => upsertNewer table id (row item)
  | none => table

/-- A fold of upserts leaves, per key, the last row of greatest score. -/
theorem lookup_foldl_upsertKeyed {α : Type} (key : α → Option String) (row : α → Json)
    (items : List α) (table : Memtable) (id : String) :
    (items.foldl (upsertKeyed key row) table).lookup id = latest docScore (table.lookup id)
      (lastMax docScore ((items.filter fun item => key item = some id).map row)) := by
  induction items generalizing table with
  | nil => exact (latest_none _).symm
  | cons item items ih =>
    rw [List.foldl_cons, ih, List.filter_cons, upsertKeyed]
    cases keyed : key item with
    | none => simp
    | some own =>
      dsimp only
      rw [lookup_upsertNewer]
      by_cases same : id = own
      · subst same
        rw [if_pos rfl, if_pos (by simp), List.map_cons, lastMax_cons, latest_assoc]
      · rw [if_neg same, if_neg (by simpa using Ne.symm same)]

section Scan

variable (rows : List Json)

theorem latestById_foldl (latest : LatestRows) :
    (rows.foldl (mergeLatestById config) latest).latestById =
      rows.foldl (upsertKeyed (rowKey config) fun row => row) latest.latestById := by
  induction rows generalizing latest with
  | nil => rfl
  | cons row rows ih =>
    rw [List.foldl_cons, ih, List.foldl_cons, mergeLatestById, upsertKeyed]
    cases rowKey config row <;> rfl

theorem noIdDocs_foldl (latest : LatestRows) :
    (rows.foldl (mergeLatestById config) latest).noIdDocs =
      latest.noIdDocs ++ rows.filter fun row => rowKey config row = none := by
  induction rows generalizing latest with
  | nil => exact (List.append_nil _).symm
  | cons row rows ih =>
    rw [List.foldl_cons, ih, mergeLatestById, List.filter_cons]
    cases rowKey config row with
    | none => simp
    | some id => simp

/-- The rows a scan has for an id. -/
def rowsOf (config : LsmConfig) (id : String) (rows : List Json) : List Json :=
  rows.filter fun row => rowKey config row = some id

variable {rows}

theorem rowKey_of_lastMax {id : String} {doc : Json}
    (found : lastMax docScore (rowsOf config id rows) = some doc) :
    doc ∈ rows ∧ rowKey config doc = some id := by
  have member := mem_of_lastMax found
  rw [rowsOf, List.mem_filter, decide_eq_true_eq] at member
  exact member

/-- Per id, the scan ends with the last row of greatest score. -/
theorem lookup_latestById (rows : List Json) (id : String) :
    (rows.foldl (mergeLatestById config) {}).latestById.lookup id =
      lastMax docScore (rowsOf config id rows) := by
  rw [latestById_foldl, lookup_foldl_upsertKeyed, AList.lookup_empty, List.map_id']
  rfl

/-- What `getAll` returns: the documents without an id, and per id the last row
of greatest score, unless it is a tombstone. -/
theorem mem_latestDocs {doc : Json} : doc ∈ latestDocs config rows ↔
    isDeletedDoc doc = false ∧
      ((rowKey config doc = none ∧ doc ∈ rows) ∨
        ∃ id, lastMax docScore (rowsOf config id rows) = some doc) := by
  rw [latestDocs, List.mem_filter, List.mem_append, noIdDocs_foldl, Memtable.mem_rows]
  simp only [lookup_latestById, List.nil_append, List.mem_filter, decide_eq_true_eq,
    Bool.not_eq_true']
  rw [and_comm, @and_comm (doc ∈ rows)]

end Scan

end PacificDb.Lsm
