import PacificDb.Lsm.PointReads
import PacificDb.Raft.Replicas

/-!
# Committed writes in log order

`applyReplicatedEntry` applies the committed INSERT and UPDATE entries of a collection
one after the other. The monotonic register guard skips an entry whose `version` is
below that of the row that is there, and reports success all the same.

For a sequence of applications from any collection, `committed_writes_win` says what a
read shows for an id afterwards: the document of the last entry for it that the guard
did not skip.
-/

namespace PacificDb.Raft

open Lib Lsm

variable {config : LsmConfig} {s t : Collection}

/-- An entry on its way into the collection: its index, the term it is stamped with, the
commit index and the clock of the moment, and what the look-up of the guard finds. -/
structure Application where
  index : Nat
  term : Nat
  entry : CommittedEntry
  committedIndex : Nat
  time : Nat
  existing : List Json

namespace Application

/-- The guard skips the entry. -/
def skipped (a : Application) : Bool :=
  staleWrite a.entry.op (markEntryCommittedVisible a.index a.term a.entry.data) a.existing

/-- The document the entry stores. -/
def stored (config : LsmConfig) (a : Application) : Json :=
  putDocument config a.committedIndex (propagateCommitMetadata a.index a.term
    (markEntryCommittedVisible a.index a.term a.entry.data))

/-- The key it stores it under. -/
def key (config : LsmConfig) (a : Application) : String := storageId config a.time (a.stored config)

/-- A committed INSERT or UPDATE. -/
structure Committed (a : Application) : Prop where
  write : a.entry.op = .insert ∨ a.entry.op = .update
  reached : a.index ≤ a.committedIndex

def apply (config : LsmConfig) (a : Application) (s : Collection) : Collection × Bool :=
  applyReplicatedEntry config a.index a.term a.entry a.committedIndex a.time a.existing {} s

/-- The applications in turn; none when one of them does not return true. -/
def applyAll (config : LsmConfig) : List Application → Collection → Option Collection
  | [], s => some s
  | a :: rest, s =>
      match a.apply config s with
      | (t, true) => applyAll config rest t
      | (_, false) => none

/-- The last application that stores something under the key. -/
def lastWrite (config : LsmConfig) (id : String) (apps : List Application) : Option Application :=
  (apps.filter fun a => !a.skipped && a.key config == id).getLast?

/-! ## One application -/

theorem apply_eq {a : Application} (committed : a.Committed) :
    a.apply config s =
      (if a.skipped then s else putDocuments config a.time [a.stored config] s, true) := by
  unfold apply applyReplicatedEntry skipped stored
  rcases committed.write with isInsert | isUpdate
  · rw [isInsert]
    dsimp only
    split
    · rfl
    · rfl
  · rw [isUpdate]
    dsimp only
    split
    · rfl
    · rfl

/-- The guard leaves the collection as it is. -/
theorem apply_skipped {a : Application} (committed : a.Committed) (skips : a.skipped = true) :
    a.apply config s = (s, true) := by
  rw [apply_eq committed, skips]
  rfl

theorem lookup_putDocuments (a : Application) (id : String) :
    (putDocuments config a.time [a.stored config] s).memtable.lookup id =
      if a.key config = id then some (a.stored config) else s.memtable.lookup id := by
  change (s.memtable.insert (a.key config) (a.stored config)).lookup id = _
  by_cases own : a.key config = id
  · rw [if_pos own, own, AList.lookup_insert]
  · rw [if_neg own, AList.lookup_insert_ne (Ne.symm own)]

/-! ## A sequence -/

/-- What a sequence of applications leaves in the memtable. -/
theorem lookup_applyAll {apps : List Application} (committed : ∀ a ∈ apps, a.Committed)
    (ran : applyAll config apps s = some t) (id : String) :
    t.memtable.lookup id =
      ((lastWrite config id apps).map (stored config)).or (s.memtable.lookup id) := by
  induction apps generalizing s with
  | nil =>
    cases ran
    rfl
  | cons a rest ih =>
    obtain ⟨first, later⟩ := List.forall_mem_cons.mp committed
    rw [applyAll, apply_eq first] at ran
    rw [ih later ran, lastWrite, lastWrite, List.filter_cons]
    cases skips : a.skipped with
    | true => simp
    | false =>
      simp only [Bool.not_false, Bool.true_and, Bool.false_eq_true, if_false,
        lookup_putDocuments]
      by_cases own : a.key config = id
      · rw [if_pos own, if_pos (beq_iff_eq.mpr own), List.getLast?_cons]
        cases (rest.filter fun a => !a.skipped && a.key config == id).getLast? <;> rfl
      · rw [if_neg own, if_neg (by simpa using own)]

theorem applyAll_layers {apps : List Application} (committed : ∀ a ∈ apps, a.Committed)
    (ran : applyAll config apps s = some t) : t.immutables = s.immutables ∧ t.dir = s.dir := by
  induction apps generalizing s with
  | nil =>
    cases ran
    exact ⟨rfl, rfl⟩
  | cons a rest ih =>
    obtain ⟨first, later⟩ := List.forall_mem_cons.mp committed
    rw [applyAll, apply_eq first] at ran
    obtain ⟨immutables, dir⟩ := ih later ran
    rw [immutables, dir]
    cases a.skipped <;> exact ⟨rfl, rfl⟩

theorem filedById_applyAll {apps : List Application} (committed : ∀ a ∈ apps, a.Committed)
    (filed : FiledById config s.memtable) (ran : applyAll config apps s = some t) :
    FiledById config t.memtable := by
  intro key doc found id isKey
  rw [lookup_applyAll committed ran] at found
  cases last : lastWrite config key apps with
  | none =>
    rw [last] at found
    exact filed key doc found id isKey
  | some a =>
    rw [last] at found
    cases found
    have member := List.mem_of_getLast? last
    rw [List.mem_filter, Bool.and_eq_true, beq_iff_eq] at member
    rw [← member.2.2, Application.key, storageId, (rowKey_eq_some.mp isKey).1]
    rfl

/-! ## What a read shows -/

/-- The stored document is visible from the index of its entry on. -/
theorem stored_visible {a : Application} (committed : a.Committed)
    (isObject : (a.stored config).isObject = true) {committedIndex : Nat}
    (reached : a.index ≤ committedIndex) :
    docVisibleByCommitIndex config.raft (a.stored config) committedIndex = true := by
  have data : (markEntryCommittedVisible a.index a.term a.entry.data).isObject = true := by
    rw [stored, isObject_putDocument, propagateCommitMetadata, isObject_setCommitMetadata] at isObject
    exact isObject
  obtain ⟨shown, states, isState, isCommit, isFloor⟩ := @stamped_fields config a.index a.term _ data
  rw [stored, putDocument_committed committed.reached]
  have stampedObject : (stampVisibilityMetadata config.raft (propagateCommitMetadata a.index a.term
      (markEntryCommittedVisible a.index a.term a.entry.data)) a.index).isObject = true := by
    rw [isObject_stampVisibilityMetadata, propagateCommitMetadata, isObject_setCommitMetadata, data]
  have visible : docVisibleByCommitIndex config.raft (stampVisibilityMetadata config.raft
      (propagateCommitMetadata a.index a.term
        (markEntryCommittedVisible a.index a.term a.entry.data)) a.index) committedIndex = true := by
    have low : Json.wrapUInt64 a.index ≤ committedIndex := (wrapUInt64_le _).trans reached
    have floor : Json.asUInt64? (.unsigned a.index) = some (Json.wrapUInt64 a.index) := rfl
    have state : hasVisibleCommitState (stampVisibilityMetadata config.raft
        (propagateCommitMetadata a.index a.term
          (markEntryCommittedVisible a.index a.term a.entry.data)) a.index) = true := by
      unfold hasVisibleCommitState
      rw [List.findSome?_cons, isState]
      rcases states with rfl | rfl
      · rfl
      · rfl
    have open_ : (shown != "PENDING") = true := by
      rcases states with rfl | rfl
      · decide
      · decide
    unfold docVisibleByCommitIndex
    rw [stampedObject, isState, state, extractRowCommitIndex_of_field isCommit, isFloor]
    dsimp only
    rw [open_, Option.bind_some, floor, Option.getD_some, decide_eq_true low]
    cases config.raft.enabled
    · rfl
    · cases config.raft.standaloneBypass
      · rfl
      · rfl
  unfold putDocument
  dsimp only
  split
  next known =>
    rw [← visible]
    apply MsgpackRowView.docVisibleByCommitIndex_congr (Json.isObject_set _ _ _)
    intro name member
    apply Json.field?_set_ne
    rintro rfl
    revert member
    decide
  next => exact visible

/-- The members of the stored document that the engine does not own are those of the entry. -/
theorem field?_stored {a : Application} (committed : a.Committed) {name : String} (notId : name ≠ "id")
    (other : name ∉ ["_raft_commit_index", "_raft_term", "_visibility_floor", "committed",
      "_visibility_state"]) :
    (a.stored config).field? name = a.entry.data.field? name := by
  rw [stored, putDocument_committed committed.reached, field?_putDocument notId other]

/-- The rows of the layers below the active memtable, in the order of a scan. -/
def lowerRows (s : Collection) (names : List String) : List Json :=
  names.flatMap (sstRows s.dir) ++
    s.immutables.reverse.flatMap fun immutable => Memtable.rows immutable.2

theorem lastMax_concat {rows : List Json} {doc : Json}
    (below : ∀ row ∈ rows, docScore row ≤ docScore doc) :
    lastMax docScore (rows ++ [doc]) = some doc := by
  rw [lastMax_append]
  cases best : lastMax docScore rows with
  | none => rfl
  | some row =>
    change latest docScore (some row) (some doc) = _
    rw [latest, if_pos (below row (mem_of_lastMax best))]

/-- After a sequence of committed writes a read shows, for every id, the document of the
last entry for it that the guard did not skip, unless a row of the id in a lower layer has
a greater version score; a document marked as deleted shows nothing. A skipped entry
leaves the collection as it is. -/
theorem committed_writes_win {apps : List Application} (committed : ∀ a ∈ apps, a.Committed)
    (filed : FiledById config s.memtable) (ran : applyAll config apps s = some t) :
    (∀ a ∈ apps, a.skipped = true → ∀ u, a.apply config u = (u, true)) ∧
    ∀ id a, lastWrite config id apps = some a → rowKey config (a.stored config) = some id →
      (∀ name, name ≠ "id" → name ∉ ["_raft_commit_index", "_raft_term", "_visibility_floor",
        "committed", "_visibility_state"] →
          (a.stored config).field? name = a.entry.data.field? name) ∧
      ∀ committedIndex names docs, a.index ≤ committedIndex →
        publishedSsts config.codec s.dir = .ok names →
        readAllCollectionRows config t committedIndex = .ok docs →
        (∀ row ∈ rowsOf config id (visibleRows config committedIndex (lowerRows s names)),
          docScore row ≤ docScore (a.stored config)) →
        ∀ doc, (doc ∈ docs ∧ rowKey config doc = some id) ↔
          shown (some (a.stored config)) = some doc := by
  refine ⟨fun a member skips u => apply_skipped (committed a member) skips, ?_⟩
  intro id a last isKey
  have member : a ∈ apps := (List.mem_filter.mp (List.mem_of_getLast? last)).1
  refine ⟨fun name notId other => field?_stored (committed a member) notId other, ?_⟩
  intro committedIndex names docs reached published reads below doc
  obtain ⟨immutables, dir⟩ := applyAll_layers committed ran
  have held : t.memtable.lookup id = some (a.stored config) := by
    rw [lookup_applyAll committed ran, last]
    rfl
  obtain ⟨others, samePublished, -, rfl⟩ := readAllCollectionRows_ok.mp reads
  rw [dir] at samePublished
  cases published.symm.trans samePublished
  have rows : rowsOf config id (visibleRows config committedIndex
      ((names.map fun name => (name, sstRows t.dir name)).flatMap Prod.snd ++ t.memoryRows)) =
        rowsOf config id (visibleRows config committedIndex (lowerRows s names)) ++
          [a.stored config] := by
    have own : ((rowsOf config id t.memtable.rows).filter
        (Collection.visibleDoc config committedIndex)) = [a.stored config] := by
      rw [rowsOf_filed (filedById_applyAll committed filed ran), held, Option.filter_some,
        if_pos (decide_eq_true isKey), Option.toList_some, List.filter_cons, Collection.visibleDoc,
        stored_visible (committed a member) (isObject_of_rowKey isKey).2 reached]
      rfl
    rw [flatMap_scanned, dir, Collection.memoryRows, immutables, ← List.append_assoc, ← lowerRows,
      rowsOf_visibleRows, rowsOf_append, List.filter_append, own, rowsOf_visibleRows]
  have wins : lastMax docScore (rowsOf config id (visibleRows config committedIndex
      ((names.map fun name => (name, sstRows t.dir name)).flatMap Prod.snd ++ t.memoryRows))) =
        some (a.stored config) := by
    rw [rows]
    exact lastMax_concat below
  rw [mem_latestDocs_key, wins]

/-! ## Two entries -/

/-- A document of the id `a` with a `version` of its own. -/
def versionDoc (version x : Nat) : Json :=
  .object [("id", .string "a"), ("version", .unsigned version), ("x", .unsigned x)]

/-- An entry for this document. -/
def versionWrite (index : Nat) (op : ApplyOp) (version x : Nat) (existing : List Json) : Application where
  index := index
  term := 1
  entry := { term := 1, op, data := versionDoc version x }
  committedIndex := index
  time := 0
  existing := existing

/-- The collection after the first entry. -/
def insertedFive : Collection := ((versionWrite 1 .insert 5 1 []).apply replicated {}).1

/-- The update with the smaller `version` reports success, and the document of the insert
stays. -/
theorem smaller_version_not_stored :
    findByField rowBlocks replicated insertedFive 2 "a" =
        .ok [(versionWrite 1 .insert 5 1 []).stored replicated] ∧
      (versionWrite 2 .update 3 2 [(versionWrite 1 .insert 5 1 []).stored replicated]).apply replicated
          insertedFive = (insertedFive, true) ∧
      readAllCollectionRows replicated insertedFive 2 =
        .ok [(versionWrite 1 .insert 5 1 []).stored replicated] ∧
      ((versionWrite 1 .insert 5 1 []).stored replicated).field? "x" ≠
        (versionDoc 3 2).field? "x" := by
  refine ⟨rfl, rfl, rfl, fun same => ?_⟩
  have values : some (Json.unsigned 1) = some (Json.unsigned 2) := same
  cases values

/-- The entry of a log whose versions rise. -/
def updateFive : Application :=
  versionWrite 2 .update 5 2 [(versionWrite 1 .insert 3 1 []).stored replicated]

theorem committed_writes_win_rising :
    (updateFive.stored replicated ∈ [updateFive.stored replicated] ∧
      rowKey replicated (updateFive.stored replicated) = some "a") ↔
      shown (some (updateFive.stored replicated)) = some (updateFive.stored replicated) := by
  have committed : ∀ a ∈ [versionWrite 1 .insert 3 1 [], updateFive], a.Committed := by
    intro a member
    rcases List.mem_pair.mp member with rfl | rfl
    · exact ⟨.inl rfl, le_rfl⟩
    · exact ⟨.inr rfl, le_rfl⟩
  have filed : FiledById replicated ({} : Collection).memtable := by
    rintro key doc ⟨⟩
  have wins := @committed_writes_win replicated {} (updateFive.apply replicated
    ((versionWrite 1 .insert 3 1 []).apply replicated {}).1).1
    [versionWrite 1 .insert 3 1 [], updateFive] committed filed rfl
  exact (wins.2 "a" updateFive rfl rfl).2 2 [] [updateFive.stored replicated] le_rfl rfl rfl
    (by rintro row ⟨⟩) (updateFive.stored replicated)

end Application

end PacificDb.Raft
