import PacificDb.Engine.Update
import PacificDb.Lsm.Documents

/-!
# The document an update touches

`DatabaseEngine::updateOne` applies the operators to the whole row, whatever members they
name, and puts the result under the id that it then has. It checks that there is an id,
not that it is the one of the row.

A call that returns true changes the document it has read into its update and no other
document (`updateOne_touches_one`), exactly when the operators leave the id and hide or
delete nothing, the version that is drawn is not behind the rows of the id, and the guard
of the log lets the entry pass.
-/

namespace PacificDb.Engine

open Lib Lsm Raft

variable {env : UpdateEnv} {call : UpdateCall} {readTime : ReadTime} {writeTime : WriteTime}
  {r s t : LeaderState} {id : String} {row updated doc : Json} {docs : List Json}

/-! ## The call alone -/

/-- The row an update works on. -/
def updateRow (env : UpdateEnv) (call : UpdateCall) (time : ReadTime) (s : LeaderState) : Option Json :=
  match updateCandidates env call.filter s with
  | .error _ => none
  | .ok docs => docs.find? (updatable env call time.readFloorVersion s.commitIndex)

/-- A call that reads in one state and writes in another, with the value it returns. One that
throws before its write returns no true either. -/
def updateOneCall (env : UpdateEnv) (call : UpdateCall) (readTime : ReadTime) (writeTime : WriteTime)
    (r s : LeaderState) : LeaderState × Bool :=
  match (updateOneRead env call readTime r).bind fun doc => updateOneWrite env writeTime doc s with
  | some t => (t, true)
  | none => (s, false)

/-- The version that the stamp of an update draws. -/
def drawnVersion (time : ReadTime) (updated : Json) : Nat := max time.counter (previousMvccVersion updated + 1)

/-! ## The property and its condition -/

/-- The document of the row becomes the stored one, which has the same id and another
version, and no document is touched besides. -/
def TouchesOne (config : LsmConfig) (docs others : List Json) (row stored : Json) : Prop :=
  ∃ id, under config docs (some id) = [row] ∧ under config others (some id) = [stored] ∧
    stored.field? "_mvcc_version" ≠ row.field? "_mvcc_version" ∧
    (∀ key, key ≠ some id → under config others key = under config docs key) ∧
    others.length = docs.length

/-- The operators made `updated` of the row; the collection has `docs` when the write is
applied. -/
structure Harmless (env : UpdateEnv) (readTime : ReadTime) (writeTime : WriteTime) (s t : LeaderState)
    (docs : List Json) (row updated doc : Json) : Prop where
  /-- The row is still the document of its id, and the rows behind the memtable do not score
  above the version that is drawn. -/
  current : ∃ id, under env.config docs (some id) = [row] ∧
    ∀ other ∈ under env.config (s.collection.behindRows env.config) (some id),
      Collection.visibleDoc env.config t.commitIndex other = true →
        docScore other ≤ (Json.wrapInt64 (drawnVersion readTime updated) : WithBot Int)
  /-- The operators leave the id. -/
  id : docId? env.config.dump updated = docId? env.config.dump row
  /-- They set neither `_deleted` nor, without Raft, a pending state. -/
  alive : isDeletedDoc updated = false
  shown : env.config.raft.enabled = false →
    updated.field? "_visibility_state" ≠ some (.string "PENDING")
  /-- The version that is drawn is another one. -/
  newVersion : row.field? "_mvcc_version" ≠ some (.unsigned (drawnVersion readTime updated))
  /-- The guard of `applyReplicatedEntry` lets the entry pass. -/
  fresh : env.config.raft.enabled = true →
    staleWrite .update (markEntryCommittedVisible writeTime.index writeTime.term doc)
      (guardRows env doc writeTime.commitIndex s.collection) = false

/-! ## The read -/

theorem updateOneRead_eq : updateOneRead env call readTime r =
    (updateRow env call readTime r).bind (updatedDocument env call readTime) := by
  unfold updateOneRead updateRow
  cases updateCandidates env call.filter r <;> rfl

/-- What the stamp leaves of the document of the operators. -/
structure Made (readTime : ReadTime) (updated doc : Json) : Prop where
  object : doc.isObject = true
  version : doc.field? "_mvcc_version" = some (.unsigned (drawnVersion readTime updated))
  kept : ∀ name, name ∉ stampFields → doc.field? name = updated.field? name
  keyed : (doc.field? "id").isSome = true

theorem updatedDocument_some (made : updatedDocument env call readTime row = some doc) :
    ∃ updated, updateDocument env.truncate call.userId call.update row = .ok updated ∧
      Made readTime updated doc := by
  unfold updatedDocument at made
  split at made
  · cases made
  next updated applied =>
    split at made
    · cases made
    next stamped stamps =>
      split at made
      next checked =>
        cases made
        rw [Bool.and_eq_true] at checked
        have writes := stampMvccWrite_ok (isObject_updateDocument applied) (Prod.ext stamps rfl)
        refine ⟨updated, applied, ?_, writes.version, writes.kept, checked.2⟩
        cases doc with
        | object members => rfl
        | _ => cases checked.2
      next => cases made

/-! ## The stored row -/

theorem Made.docId? (made : Made readTime updated doc) :
    docId? env.config.dump (storedDocument env writeTime s doc) = docId? env.config.dump updated := by
  rw [docId?_storedDocument, PacificDb.docId?, PacificDb.docId?, made.kept _ (by decide)]

theorem Made.docScore (made : Made readTime updated doc) :
    docScore (storedDocument env writeTime s doc) =
      (Json.wrapInt64 (drawnVersion readTime updated) : WithBot Int) := by
  apply docScore_of_field
  rw [field?_storedDocument (by decide) (by decide), made.version]

theorem Made.isDeletedDoc (made : Made readTime updated doc) :
    isDeletedDoc (storedDocument env writeTime s doc) = isDeletedDoc updated := by
  rw [PacificDb.isDeletedDoc, field?_storedDocument (by decide) (by decide), made.kept _ (by decide)]
  rfl

/-! ## The write -/

/-- Where its write is applied, an update that sets no pending state is visible. -/
theorem visible_storedDocument (made : Made readTime updated doc)
    (wrote : updateOneWrite env writeTime doc s = some t) :
    Collection.visibleDoc env.config t.commitIndex (storedDocument env writeTime s doc) = true ↔
      (env.config.raft.enabled = false → updated.field? "_visibility_state" ≠ some (.string "PENDING")) := by
  obtain ⟨index, reached, -⟩ := updateOneWrite_some wrote
  cases raft : env.config.raft.enabled with
  | true =>
    rw [raft, if_pos rfl] at index
    let a : Application := ⟨writeTime.index, writeTime.term, ⟨writeTime.term, .update, doc⟩,
      writeTime.commitIndex, writeTime.time, []⟩
    have committed : a.Committed := ⟨.inr rfl, (reached raft).1⟩
    have stored : storedDocument env writeTime s doc = a.stored env.config := by
      rw [storedDocument, if_pos raft]
      rfl
    have object : (a.stored env.config).isObject = true := by
      rw [← stored, storedDocument, if_pos raft, isObject_putDocument, propagateCommitMetadata,
        isObject_setCommitMetadata, markEntryCommittedVisible, isObject_setCommitMetadata, made.object]
    rw [stored, index]
    refine iff_of_true (Application.stored_visible committed object (reached raft).1) fun disabled => ?_
    cases disabled
  | false =>
    rw [raft, if_neg Bool.false_ne_true] at index
    rw [storedDocument, raft, if_neg Bool.false_ne_true, index, visible_putDocument_iff raft made.object,
      made.kept _ (by decide)]
    simp

/-- A row of the id is put by a write that is not skipped. -/
theorem putRow_of_write (wrote : updateOneWrite env writeTime doc s = some t)
    (fresh : env.config.raft.enabled = true →
      staleWrite .update (markEntryCommittedVisible writeTime.index writeTime.term doc)
        (guardRows env doc writeTime.commitIndex s.collection) = false)
    (keyed : rowKey env.config (storedDocument env writeTime s doc) = some id) :
    PutRow env.config s.collection t.collection id (storedDocument env writeTime s doc) := by
  obtain ⟨-, -, puts⟩ := updateOneWrite_some wrote
  rw [if_neg] at puts
  · obtain ⟨memtable, immutables, dir⟩ := puts
    refine ⟨?_, immutables, dir, keyed⟩
    rw [memtable, storageId, (rowKey_eq_some.mp keyed).1]
    rfl
  · rintro ⟨raft, stale⟩
    rw [fresh raft] at stale
    cases stale

/-! ## One document -/

theorem rowKey_of_under {config : LsmConfig} {key : Option String} (own : under config docs key = [row]) :
    rowKey config row = key := by
  have member : row ∈ under config docs key := by
    rw [own]
    exact .head _
  exact of_decide_eq_true (List.mem_filter.mp member).2

/-- The row and the stored document are of one id exactly when the operators leave it. -/
theorem rowKey_storedDocument (made : Made readTime updated doc) (isRow : rowKey env.config row = some id) :
    rowKey env.config (storedDocument env writeTime s doc) = some id ↔
      docId? env.config.dump updated = docId? env.config.dump row := by
  obtain ⟨isId, named⟩ := rowKey_eq_some.mp isRow
  rw [rowKey_eq_some, made.docId?, isId]
  exact ⟨And.left, fun same => ⟨same, named⟩⟩

/-- A write that is applied touches one document, the one that was read, exactly when it is
harmless. -/
theorem write_touches_one (keyed : KeyedMemory env.config s.collection) (made : Made readTime updated doc)
    (wrote : updateOneWrite env writeTime doc s = some t)
    (before : readAllCollectionRows env.config s.collection t.commitIndex = .ok docs) :
    (∃ others, readAllCollectionRows env.config t.collection t.commitIndex = .ok others ∧
      TouchesOne env.config docs others row (storedDocument env writeTime s doc)) ↔
      Harmless env readTime writeTime s t docs row updated doc := by
  have version : (storedDocument env writeTime s doc).field? "_mvcc_version" =
      some (.unsigned (drawnVersion readTime updated)) := by
    rw [field?_storedDocument (by decide) (by decide), made.version]
  constructor
  · rintro ⟨others, after, id, isRow, isStored, newVersion, -, -⟩
    have rowId := rowKey_of_under isRow
    have storedId := rowKey_of_under isStored
    -- the guard cannot have skipped the write: the document has its new version
    have fresh : env.config.raft.enabled = true →
        staleWrite .update (markEntryCommittedVisible writeTime.index writeTime.term doc)
          (guardRows env doc writeTime.commitIndex s.collection) = false := by
      intro raft
      rw [← Bool.not_eq_true]
      intro stale
      obtain ⟨-, -, same⟩ := updateOneWrite_some wrote
      rw [if_pos ⟨raft, stale⟩] at same
      rw [same] at after
      cases before.symm.trans after
      have equal := isRow.symm.trans isStored
      rw [List.cons.injEq] at equal
      rw [equal.1] at newVersion
      exact newVersion rfl
    have put := putRow_of_write wrote fresh storedId
    obtain ⟨visible, alive, greatest⟩ := (under_put_iff put keyed after).mp isStored
    rw [made.docScore] at greatest
    rw [version] at newVersion
    exact ⟨⟨id, isRow, greatest⟩, (rowKey_storedDocument made rowId).mp storedId,
      made.isDeletedDoc.symm.trans alive, (visible_storedDocument made wrote).mp visible,
      fun same => newVersion same.symm, fresh⟩
  · intro harmless
    obtain ⟨id, isRow, greatest⟩ := harmless.current
    have storedId : rowKey env.config (storedDocument env writeTime s doc) = some id :=
      (rowKey_storedDocument made (rowKey_of_under isRow)).mpr harmless.id
    have put := putRow_of_write wrote harmless.fresh storedId
    obtain ⟨others, after⟩ := readAll_of_same before put.dir
    have isStored : under env.config others (some id) = [storedDocument env writeTime s doc] := by
      rw [under_put_iff put keyed after, made.docScore]
      exact ⟨(visible_storedDocument made wrote).mpr harmless.shown,
        made.isDeletedDoc.trans harmless.alive, greatest⟩
    have frame : ∀ key, key ≠ some id → under env.config others key = under env.config docs key :=
      fun key other => under_put_other put keyed before after other
    refine ⟨others, after, id, isRow, isStored, ?_, frame, ?_⟩
    · rw [version]
      exact fun same => harmless.newVersion same.symm
    · apply length_eq_of_under
      intro key
      by_cases own : key = some id
      · rw [own, isRow, isStored]
        rfl
      · rw [frame key own]

/-- A call that returns true has read a row that the filter matches, and touches its document
and no other exactly when it is harmless. One that does not return true leaves the collection
as it is. -/
theorem updateOne_touches_one (keyed : KeyedMemory env.config s.collection) :
    ((updateOneCall env call readTime writeTime r s).2 = false →
      (updateOneCall env call readTime writeTime r s).1 = s) ∧
    ((updateOneCall env call readTime writeTime r s).2 = true →
      ∀ docs, readAllCollectionRows env.config s.collection
          (updateOneCall env call readTime writeTime r s).1.commitIndex = .ok docs →
        ∃ row updated doc, updateRow env call readTime r = some row ∧
          env.matches_ call.filter row = true ∧
          updateDocument env.truncate call.userId call.update row = .ok updated ∧
          updatedDocument env call readTime row = some doc ∧
          ((∃ others, readAllCollectionRows env.config
                (updateOneCall env call readTime writeTime r s).1.collection
                (updateOneCall env call readTime writeTime r s).1.commitIndex = .ok others ∧
              TouchesOne env.config docs others row (storedDocument env writeTime s doc)) ↔
            Harmless env readTime writeTime s (updateOneCall env call readTime writeTime r s).1 docs
              row updated doc)) := by
  unfold updateOneCall
  cases ran : (updateOneRead env call readTime r).bind fun doc => updateOneWrite env writeTime doc s with
  | none => exact ⟨fun _ => rfl, nofun⟩
  | some t =>
    refine ⟨nofun, fun _ docs before => ?_⟩
    obtain ⟨doc, reads, wrote⟩ := Option.bind_eq_some_iff.mp ran
    rw [updateOneRead_eq] at reads
    obtain ⟨row, isRow, isDoc⟩ := Option.bind_eq_some_iff.mp reads
    obtain ⟨updated, applied, made⟩ := updatedDocument_some isDoc
    have matched : env.matches_ call.filter row = true := by
      unfold updateRow at isRow
      split at isRow
      · cases isRow
      · have accepted := List.find?_some isRow
        rw [updatable, Bool.and_eq_true] at accepted
        exact accepted.2
    exact ⟨row, updated, doc, isRow, matched, applied, isDoc, write_touches_one keyed made wrote before⟩

/-! ## Another id -/

/-- `{"$set": {"id": "b"}}` on the document `"a"`. -/
def renameCall : UpdateCall where
  userId := "u"
  filter := .object [("id", .string "a")]
  update := .object [("$set", .object [("id", .string "b")])]

/-- The call alone on the collection of one document. -/
def alone (call : UpdateCall) : LeaderState × Bool :=
  updateOneCall plainEnv call ⟨2, 0, -1⟩ {} zeroCount zeroCount

/-- The documents of a collection. -/
def documents (s : LeaderState) : Option (List Json) :=
  (readAllCollectionRows plainEnv.config s.collection s.commitIndex).toOption

/-- The update that names another id returns true, leaves its document and makes a second one. -/
theorem rename_inserts :
    (alone renameCall).2 = true ∧ documents zeroCount = some [zeroRow] ∧
      (documents (alone renameCall).1).map (List.map (rowKey plainEnv.config)) =
        some [some "a", some "b"] := by
  refine ⟨?_, rfl, ?_⟩
  · decide
  · decide

theorem keyedMemory_zeroCounts : KeyedMemory plainEnv.config zeroCounts.collection :=
  ⟨@keyed_applyWrites _ ∅ [("a", zeroRow), ("b", otherZero)] nofun (by decide), nofun⟩

/-- Of two documents the increment touches its own only. -/
theorem increment_touches_one :
    let after := updateOneCall plainEnv (countCall true) ⟨2, 0, -1⟩ {} zeroCounts zeroCounts
    after.2 = true ∧ ∃ others row stored, documents after.1 = some others ∧
      TouchesOne plainEnv.config [zeroRow, otherZero] others row stored := by
  intro after
  have before : readAllCollectionRows plainEnv.config zeroCounts.collection after.1.commitIndex =
      .ok [zeroRow, otherZero] := rfl
  have returned : after.2 = true := by decide
  obtain ⟨row, updated, doc, isRow, -, applied, made, touches⟩ :=
    (updateOne_touches_one keyedMemory_zeroCounts).2 returned _ before
  have own : updateRow plainEnv (countCall true) ⟨2, 0, -1⟩ zeroCounts = some otherZero := rfl
  cases own.symm.trans isRow
  have sum : updateDocument plainEnv.truncate "u" (countCall true).update otherZero = .ok
      (.object [("tenant_id", .string "u"), ("n", .integer 1), ("id", .string "b"),
        ("_mvcc_version", .unsigned 1)]) := rfl
  cases sum.symm.trans applied
  obtain ⟨others, isRead, touched⟩ := touches.mpr
    ⟨⟨"b", rfl, nofun⟩, rfl, rfl, nofun, nofun, nofun⟩
  refine ⟨returned, others, otherZero, _, ?_, touched⟩
  unfold documents
  rw [isRead]
  rfl

end PacificDb.Engine
