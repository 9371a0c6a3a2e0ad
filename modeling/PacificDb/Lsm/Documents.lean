import PacificDb.Lsm.LiveReplay
import PacificDb.Lsm.PointReads

/-!
# The documents of a collection

What `getAll` returns, key by key: for an id at most one document, and those without an
id. A row that is put into the memtable under its id changes the documents of this id
only, and is the document of the id when it is visible, alive and scores no less than the
rows behind the memtable (`under_put`).
-/

namespace PacificDb.Lsm

open Lib

variable {config : LsmConfig} {s t : Collection} {committedIndex : Nat} {id : String}
  {docs others : List Json}

/-- The documents of an id, or those without one. -/
def under (config : LsmConfig) (docs : List Json) (key : Option String) : List Json :=
  docs.filter fun doc => rowKey config doc = key

/-- The rows that are not in the active memtable, in the order of a scan. -/
def Collection.behindRows (config : LsmConfig) (s : Collection) : List Json :=
  ((publishedSsts config.codec s.dir).toOption.getD []).flatMap (sstRows s.dir) ++
    s.immutables.reverse.flatMap fun immutable => Memtable.rows immutable.2

/-- Lists with equally many documents under every key are equally long. -/
theorem length_eq_of_under
    (same : ∀ key, (under config docs key).length = (under config others key).length) :
    docs.length = others.length := by
  have keys : (docs.map (rowKey config)).Perm (others.map (rowKey config)) := by
    rw [List.perm_iff_count]
    intro key
    have counts : ∀ docs : List Json, (docs.map (rowKey config)).count key =
        (under config docs key).length := by
      intro docs
      rw [under, List.count_eq_countP, List.countP_map, List.countP_eq_length_filter]
      congr 1
      apply List.filter_congr
      intro doc _
      rw [Function.comp_apply, Bool.eq_iff_iff, beq_iff_eq, decide_eq_true_eq]
    rw [counts, counts, same key]
  have size := keys.length_eq
  rw [List.length_map, List.length_map] at size
  exact size

theorem under_append (key : Option String) :
    under config (docs ++ others) key = under config docs key ++ under config others key :=
  List.filter_append _ _

theorem under_visibleRows (key : Option String) (rows : List Json) :
    under config (visibleRows config committedIndex rows) key =
      (under config rows key).filter (Collection.visibleDoc config committedIndex) := by
  unfold under visibleRows
  rw [List.filter_filter, List.filter_filter]
  apply List.filter_congr
  intro row _
  rw [Bool.and_comm, Collection.visibleDoc]

/-- The table of a scan holds every document under its id. -/
theorem keyed_latestById (rows : List Json) (key : String) (doc : Json)
    (found : (rows.foldl (mergeLatestById config) {}).latestById.lookup key = some doc) :
    rowKey config doc = some key := by
  rw [lookup_latestById] at found
  exact (rowKey_of_lastMax found).2

theorem under_filter (key : Option String) (p : Json → Bool) :
    under config (docs.filter p) key = (under config docs key).filter p := by
  unfold under
  rw [List.filter_filter, List.filter_filter]
  apply List.filter_congr
  intro doc _
  exact Bool.and_comm _ _

/-- The document of an id. -/
theorem under_latestDocs (rows : List Json) (id : String) :
    under config (latestDocs config rows) (some id) =
      (shown (lastMax docScore (under config rows (some id)))).toList := by
  have noId : under config (rows.filter fun row => rowKey config row = none) (some id) = [] := by
    unfold under
    rw [List.filter_filter, List.filter_eq_nil_iff]
    intro row _
    simp only [Bool.and_eq_true, decide_eq_true_eq, not_and]
    intro own none
    rw [own] at none
    cases none
  have table := @rowsOf_rows config id _ (keyed_latestById rows)
  rw [lookup_latestById] at table
  unfold latestDocs
  dsimp only
  rw [under_filter, under_append, noIdDocs_foldl, List.nil_append, noId, List.nil_append]
  have found : under config (rows.foldl (mergeLatestById config) {}).latestById.rows (some id) =
      (lastMax docScore (rowsOf config id rows)).toList := table
  rw [found, shown]
  change (lastMax docScore (under config rows (some id))).toList.filter _ = _
  cases lastMax docScore (under config rows (some id)) with
  | none => rfl
  | some doc =>
    rw [Option.filter_some, Option.toList_some, List.filter_cons, List.filter_nil]
    cases isDeletedDoc doc <;> rfl

/-- The documents without an id. -/
theorem under_latestDocs_none (rows : List Json) :
    under config (latestDocs config rows) none =
      (under config rows none).filter fun doc => !isDeletedDoc doc := by
  have table : under config (rows.foldl (mergeLatestById config) {}).latestById.rows none = [] := by
    unfold under
    rw [List.filter_eq_nil_iff]
    intro doc member
    obtain ⟨key, found⟩ := Memtable.mem_rows.mp member
    rw [keyed_latestById rows key doc found]
    simp
  unfold latestDocs
  dsimp only
  rw [under_filter, under_append, noIdDocs_foldl, List.nil_append, table, List.append_nil]
  congr 1
  unfold under
  rw [List.filter_filter]
  apply List.filter_congr
  intro row _
  exact Bool.and_self _

/-! ## Putting a row -/

/-- The row is put into the memtable under its id. -/
structure PutRow (config : LsmConfig) (s t : Collection) (id : String) (stored : Json) : Prop where
  memtable : t.memtable = s.memtable.insert id stored
  immutables : t.immutables = s.immutables
  dir : t.dir = s.dir
  keyed : rowKey config stored = some id

/-- What a scan reads. -/
theorem readAll_eq (reads : readAllCollectionRows config s committedIndex = .ok docs) :
    docs = latestDocs config (visibleRows config committedIndex
      (s.behindRows config ++ s.memtable.rows)) := by
  obtain ⟨names, published, -, rfl⟩ := readAllCollectionRows_ok.mp reads
  rw [Collection.behindRows, published, flatMap_scanned, Collection.memoryRows, List.append_assoc]
  rfl

theorem readAll_of_same (reads : readAllCollectionRows config s committedIndex = .ok docs)
    (dir : t.dir = s.dir) : ∃ others, readAllCollectionRows config t committedIndex = .ok others := by
  obtain ⟨names, published, bodies, -⟩ := readAllCollectionRows_ok.mp reads
  refine ⟨_, readAllCollectionRows_ok.mpr ⟨names, ?_, ?_, rfl⟩⟩
  · rw [dir]
    exact published
  · rw [dir]
    exact bodies

/-- The rows of an id in a memtable whose rows are stored under their ids. -/
theorem under_rows {table : Memtable}
    (keyed : ∀ id doc, table.lookup id = some doc → rowKey config doc = some id) (key : Option String) :
    under config table.rows key = (key.bind table.lookup).toList := by
  cases key with
  | some id => exact rowsOf_rows keyed
  | none =>
    unfold under
    rw [Option.bind_none, Option.toList_none, List.filter_eq_nil_iff]
    intro doc member
    obtain ⟨key, found⟩ := Memtable.mem_rows.mp member
    rw [keyed key doc found]
    simp

variable {stored : Json}

theorem PutRow.behindRows (put : PutRow config s t id stored) :
    t.behindRows config = s.behindRows config := by
  unfold Collection.behindRows
  rw [put.dir, put.immutables]

theorem PutRow.keyedMemory (put : PutRow config s t id stored) (keyed : KeyedMemory config s) :
    KeyedMemory config t := by
  constructor
  · intro other doc found
    rw [put.memtable] at found
    by_cases own : other = id
    · subst own
      rw [AList.lookup_insert] at found
      cases found
      exact put.keyed
    · rw [AList.lookup_insert_ne own] at found
      exact keyed.active other doc found
  · rw [put.immutables]
    exact keyed.immutable

theorem keyed_applyWrites {table : Memtable} {writes : List (String × Json)}
    (keyed : ∀ id doc, table.lookup id = some doc → rowKey config doc = some id)
    (own : ∀ write ∈ writes, rowKey config write.2 = some write.1) :
    ∀ id doc, (applyWrites table writes).lookup id = some doc → rowKey config doc = some id := by
  induction writes generalizing table with
  | nil => exact keyed
  | cons write rest ih =>
    obtain ⟨first, others⟩ := List.forall_mem_cons.mp own
    refine @ih (table.insert write.1 write.2) (fun id doc found => ?_) others
    by_cases same : id = write.1
    · subst same
      rw [AList.lookup_insert] at found
      cases found
      exact first
    · rw [AList.lookup_insert_ne same] at found
      exact keyed id doc found

/-- A put, putMany or del of documents that have ids keeps every document under its own. -/
theorem KeyedMemory.step {e : Event} {docs : List Json} {writes : List (String × Json)}
    {applied rollover : Bool} (keyed : KeyedMemory config s)
    (event : e.writes config s = some (docs, writes, applied, rollover))
    (named : ∀ write ∈ writes, (rowKey config write.2).isSome = true)
    (taken : step config s e = some t) : KeyedMemory config t := by
  have own : ∀ write ∈ writes, rowKey config write.2 = some write.1 := by
    intro write member
    obtain ⟨key, isKey⟩ := Option.isSome_iff_exists.mp (named write member)
    have known := (Option.filter_eq_some_iff.mp isKey).1
    rw [isKey]
    cases e with
    | put doc committedIndex time roll =>
      cases event
      cases List.mem_singleton.mp member
      rw [storageId, known, Option.getD_some]
    | putMany docs committedIndex time roll =>
      cases event
      obtain ⟨doc, -, rfl⟩ := List.mem_map.mp member
      rw [storageId, known, Option.getD_some]
    | del id previousVersion nowNs nowMs committedIndex roll =>
      obtain ⟨version, -, rest⟩ := Option.bind_eq_some_iff.mp event
      cases rest
      cases List.mem_singleton.mp member
      rw [tombstone, docId?_stamped] at known
      exact known.symm
    | _ => cases event
  obtain ⟨-, rfl⟩ := Collection.write_some (step_write event taken)
  exact ⟨keyed_applyWrites keyed.active own, by simpa using keyed.immutable⟩

/-- No document of another id changes. -/
theorem under_put_other (put : PutRow config s t id stored) (keyed : KeyedMemory config s)
    (before : readAllCollectionRows config s committedIndex = .ok docs)
    (after : readAllCollectionRows config t committedIndex = .ok others) {key : Option String}
    (other : key ≠ some id) : under config others key = under config docs key := by
  have memory : under config t.memtable.rows key = under config s.memtable.rows key := by
    rw [under_rows (put.keyedMemory keyed).active, under_rows keyed.active, put.memtable]
    cases key with
    | none => rfl
    | some name =>
      rw [Option.bind_some, Option.bind_some, AList.lookup_insert_ne]
      rintro rfl
      exact other rfl
  rw [readAll_eq before, readAll_eq after, put.behindRows]
  cases key with
  | none =>
    rw [under_latestDocs_none, under_latestDocs_none, under_visibleRows, under_visibleRows, under_append,
      under_append, memory]
  | some name =>
    rw [under_latestDocs, under_latestDocs, under_visibleRows, under_visibleRows, under_append,
      under_append, memory]

/-- The document of the id, once the row is put. -/
theorem under_put (put : PutRow config s t id stored) (keyed : KeyedMemory config s)
    (after : readAllCollectionRows config t committedIndex = .ok others) :
    under config others (some id) = (shown (lastMax docScore
      ((under config (s.behindRows config) (some id)).filter (Collection.visibleDoc config committedIndex) ++
        [stored].filter (Collection.visibleDoc config committedIndex)))).toList := by
  rw [readAll_eq after, under_latestDocs, under_visibleRows, under_append,
    under_rows (put.keyedMemory keyed).active, put.behindRows, put.memtable, Option.bind_some,
    AList.lookup_insert, List.filter_append]
  rfl

/-- Where it is visible and scores no less than the rows behind the memtable, the row that is
put is the last of the best rows of its id. -/
theorem lastMax_put (visible : Collection.visibleDoc config committedIndex stored = true)
    (greatest : ∀ row ∈ under config (s.behindRows config) (some id),
      Collection.visibleDoc config committedIndex row = true → docScore row ≤ docScore stored) :
    lastMax docScore
      ((under config (s.behindRows config) (some id)).filter (Collection.visibleDoc config committedIndex) ++
        [stored].filter (Collection.visibleDoc config committedIndex)) = some stored := by
  rw [lastMax_eq_some_iff]
  refine ⟨_, [], by rw [List.filter_cons, if_pos visible, List.filter_nil], ?_, nofun⟩
  intro row member
  obtain ⟨isRow, shows⟩ := List.mem_filter.mp member
  exact greatest row isRow shows

/-- The row that is put is the document of its id exactly when it is visible, alive and
scores no less than the visible rows behind the memtable. -/
theorem under_put_iff (put : PutRow config s t id stored) (keyed : KeyedMemory config s)
    (after : readAllCollectionRows config t committedIndex = .ok others) :
    under config others (some id) = [stored] ↔
      Collection.visibleDoc config committedIndex stored = true ∧ isDeletedDoc stored = false ∧
        ∀ row ∈ under config (s.behindRows config) (some id),
          Collection.visibleDoc config committedIndex row = true → docScore row ≤ docScore stored := by
  rw [under_put put keyed after]
  constructor
  · intro only
    have best : shown (lastMax docScore
        ((under config (s.behindRows config) (some id)).filter (Collection.visibleDoc config committedIndex) ++
          [stored].filter (Collection.visibleDoc config committedIndex))) = some stored := by
      rw [← @Option.head?_toList _ (shown _), only]
      rfl
    obtain ⟨won, alive⟩ := Option.filter_eq_some_iff.mp best
    refine ⟨?_, by simpa using alive, fun row member visible => ?_⟩
    · rcases List.mem_append.mp (mem_of_lastMax won) with behind | own
      · exact (List.mem_filter.mp behind).2
      · exact (List.mem_filter.mp own).2
    · apply score_le_lastMax won
      exact List.mem_append_left _ (List.mem_filter.mpr ⟨member, visible⟩)
  · rintro ⟨visible, alive, greatest⟩
    rw [lastMax_put visible greatest, shown, Option.filter_some, alive]
    rfl

/-- A tombstone that is put so leaves no document of its id. -/
theorem under_put_tombstone (put : PutRow config s t id stored) (keyed : KeyedMemory config s)
    (after : readAllCollectionRows config t committedIndex = .ok others)
    (visible : Collection.visibleDoc config committedIndex stored = true) (dead : isDeletedDoc stored = true)
    (greatest : ∀ row ∈ under config (s.behindRows config) (some id),
      Collection.visibleDoc config committedIndex row = true → docScore row ≤ docScore stored) :
    under config others (some id) = [] := by
  rw [under_put put keyed after, lastMax_put visible greatest, shown, Option.filter_some, dead]
  rfl

/-- The visible rows behind the memtable do not score above the document of their id. -/
theorem docScore_behind_le (reads : readAllCollectionRows config s committedIndex = .ok docs) {doc row : Json}
    (isDoc : under config docs (some id) = [doc]) (member : row ∈ under config (s.behindRows config) (some id))
    (visible : Collection.visibleDoc config committedIndex row = true) : docScore row ≤ docScore doc := by
  rw [readAll_eq reads, under_latestDocs, under_visibleRows, under_append, List.filter_append] at isDoc
  have best := congrArg List.head? isDoc
  rw [Option.head?_toList, List.head?_cons] at best
  apply score_le_lastMax (Option.filter_eq_some_iff.mp best).1
  exact List.mem_append_left _ (List.mem_filter.mpr ⟨member, visible⟩)

end PacificDb.Lsm
