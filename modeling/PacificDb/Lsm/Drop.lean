import PacificDb.Lsm.Checkpoint
import PacificDb.Lsm.Compaction

/-!
# Dropped collections

`dropCollection` forgets the memtables and removes the `.lsm` directory, the index
files and the WAL file `<collection>.wal`. The records of the WAL are not in that
file but in the directory `<collection>.wal.segments`, which stays, while the
manifest that told `restoreFromWal` how far they are covered is gone: a restart
replays the records of the dropped collection.

Here a collection is followed through writes, flushes, drops and crashes, up to the
end of the replay. What a restart recovers are the writes acknowledged since the
drop, in every run in which no crash finds uncovered records of a dropped
collection in the segments.
-/

namespace PacificDb.Lsm

open Lib

/-! ## Drop and restart -/

/-- The outcome of the calls of `dropCollection` that can fail. A failed `remove_all`
of the `.lsm` directory leaves part of it. -/
structure DropFaults where
  indexIdle : Bool := true
  leftover : Option LsmDir := none
  removeIndexes : Bool := true
  removeWal : Bool := true

/-- `LSM::dropCollection`. The wait for a running flush may time out; the WAL
segments, the next LSN and the apply progress are not touched. -/
def Collection.dropCollection (faults : DropFaults) (s : Collection) : Collection × Bool :=
  if !faults.indexIdle || s.flush.isSome then (s, false)
  else
    let erased := { s with memtable := ∅, immutables := [] }
    match faults.leftover with
    | some left => ({ erased with dir := left }, false)
    | none => ({ erased with dir := ∅ }, faults.removeIndexes && faults.removeWal)

/-- Where the process is: serving, or in `restoreFromWal` with the records that the
scan has not reached. -/
inductive Phase where
  | serving
  | replaying (coveredLsn : Nat) (left : List WalRecord)
  | failed (reason : String)

structure Lifetime where
  collection : Collection := {}
  phase : Phase := .serving

/-- One document of a WAL record, under its id as text. -/
def replayDocument (config : LsmConfig) (doc : Json) : Except String (String × Json) :=
  if !doc.isObject then .error "mutation WAL entry has no object data"
  else
    match docId? config.dump doc with
    | none => .error "mutation WAL document has no id"
    | some id => .ok (id, doc.set "id" (.string id))

/-- The callback of `replayCollectionWal` for one record. The whole record is checked
before any of it is applied. -/
def Collection.replayRecord (config : LsmConfig) (coveredLsn : Nat) (record : WalRecord)
    (s : Collection) : Except String Collection :=
  if record.lsn ≤ coveredLsn then .ok s
  else if record.docs.isEmpty then .error "PUT_BATCH WAL entry has no documents"
  else do
    let documents ← record.docs.mapM (replayDocument config)
    return { s with memtable := applyWrites s.memtable documents
                    progress := markWalApplied s.progress record.lsn record.lsn }

/-- A new process: memory is gone, and the scan starts from the boundary of the
manifest. -/
def Collection.restart (config : LsmConfig) (s : Collection) : Lifetime :=
  let lost := { s with memtable := ∅, immutables := [], poisoned := false, flush := none,
                       compactions := ∅, progress := {} }
  match s.walRecords, load config.codec s.dir with
  | [], _ => { collection := lost, phase := .replaying 0 [] }
  | _ :: _, .error reason =>
      { collection := lost
        phase := .failed ("collection WAL replay failed: invalid recovery manifest: " ++ reason) }
  | record :: left, loaded =>
      let coveredLsn := (loaded.manifest?.map LsmManifest.coveredWalLsn).getD 0
      { collection := { lost with progress := { contiguous := coveredLsn } }
        phase := .replaying coveredLsn (record :: left) }

/-- The steps of `flush`; its WAL reclaim waits for the end of the scan. -/
def Event.isFlush : Event → Bool
  | .flushBegin | .flushWrite .. | .flushWriteFails .. | .flushPublish _ => true
  | _ => false

inductive LifetimeEvent where
  | run (e : Event)
  | drop (faults : DropFaults)
  | crash
  | replay

namespace Lifetime

/-- A drop that returns true starts a new history: `log` has the records since then. -/
def step (config : LsmConfig) (life : Lifetime) : LifetimeEvent → Option Lifetime
  | .run e =>
      match life.phase with
      | .serving => (Lsm.step config life.collection e).map ({ life with collection := · })
      | .replaying _ _ =>
          if e.isFlush then (Lsm.step config life.collection e).map ({ life with collection := · })
          else none
      | .failed _ => none
  | .drop faults =>
      match life.phase, life.collection.dropCollection faults with
      | .serving, (s, true) => some { life with collection := { s with log := [], reclaimed := [] } }
      | _, _ => none
  | .crash =>
      match life.phase with
      | .failed _ => none
      | _ => some (life.collection.restart config)
  | .replay =>
      match life.phase with
      | .replaying coveredLsn (record :: left) =>
          match life.collection.replayRecord config coveredLsn record with
          | .ok s => some { collection := s, phase := .replaying coveredLsn left }
          | .error reason =>
              some { life with phase := .failed ("collection WAL replay failed: " ++ reason) }
      | _ => none

end Lifetime

/-! ## Documents and the rows that stand for them -/

variable {config : LsmConfig} {s t : Collection}

/-- The memtable entry of a document: itself or with its id as text. -/
def EntryOf (config : LsmConfig) (doc : Json) (entry : String × Json) : Prop :=
  docId? config.dump doc = some entry.1 ∧ (entry.2 = doc ∨ entry.2 = doc.set "id" (.string entry.1))

def RowOf (config : LsmConfig) (docs : List Json) (row : Json) : Prop :=
  ∃ doc ∈ docs, ∃ id, EntryOf config doc (id, row)

/-- The later of two documents of one id is not older. -/
def NotOlder (config : LsmConfig) (earlier later : Json) : Prop :=
  ∀ id, docId? config.dump earlier = some id → docId? config.dump later = some id →
    isCandidateNewer later earlier = true

theorem docScore_set_id (doc : Json) (value : Json) : docScore (doc.set "id" value) = docScore doc := by
  have fields : ∀ field ∈ versionFields, (doc.set "id" value).field? field = doc.field? field := by
    intro field member
    refine Json.field?_set_ne fun same => ?_
    rw [same] at member
    revert member
    decide
  have score : extractDocVersionScore (doc.set "id" value) = extractDocVersionScore doc := by
    simp only [versionFields, List.forall_mem_cons] at fields
    obtain ⟨mvcc, version, deleted, created, timestamp, -⟩ := fields
    simp only [extractDocVersionScore, versionFields, List.findSome?_cons, mvcc, version, deleted,
      created, timestamp, List.findSome?_nil]
  rw [docScore, score, docScore]

section EntryOf

variable {doc : Json} {entry : String × Json}

theorem EntryOf.docId? (stands : EntryOf config doc entry) :
    docId? config.dump entry.2 = some entry.1 := by
  obtain ⟨known, same | same⟩ := stands
  · rw [same]
    exact known
  · rw [same]
    exact docId?_set_id (isObject_of_docId? known)

theorem EntryOf.docScore (stands : EntryOf config doc entry) : docScore entry.2 = docScore doc := by
  obtain ⟨-, same | same⟩ := stands
  · rw [same]
  · rw [same, docScore_set_id]

theorem EntryOf.covers (stands : EntryOf config doc entry) : Covers config entry.2 doc :=
  .inr ⟨entry.1, stands.docId?, stands.1, by rw [isCandidateNewer_iff, stands.docScore]⟩

end EntryOf

/-- The entries of a memtable are rows of `docs`, each under its id. -/
def TableOf (config : LsmConfig) (docs : List Json) (table : Memtable) : Prop :=
  ∀ id row, table.lookup id = some row → ∃ doc ∈ docs, EntryOf config doc (id, row)

theorem TableOf.mono {docs more : List Json} {table : Memtable} (rows : TableOf config docs table)
    (sub : ∀ doc ∈ docs, doc ∈ more) : TableOf config more table := by
  intro id row found
  obtain ⟨doc, member, stands⟩ := rows id row found
  exact ⟨doc, sub doc member, stands⟩

/-- Writes in version order are clean, and the memtable then has rows of both. -/
theorem TableOf.applyWrites {docs seen : List Json} {writes : List (String × Json)} {table : Memtable}
    (rows : TableOf config seen table) (entries : List.Forall₂ (EntryOf config) docs writes)
    (order : (seen ++ docs).Pairwise (NotOlder config)) :
    CleanWrites config table writes ∧ TableOf config (seen ++ docs) (applyWrites table writes) := by
  induction entries generalizing seen table with
  | nil =>
    rw [List.append_nil]
    exact ⟨trivial, rows⟩
  | @cons doc write docs writes stands _ ih =>
    have next : TableOf config (seen ++ [doc]) (table.insert write.1 write.2) := by
      intro id row found
      by_cases own : id = write.1
      · rw [own, AList.lookup_insert] at found
        obtain rfl := Option.some.inj found
        exact ⟨doc, List.mem_append_right _ (.head _), own ▸ stands⟩
      · rw [AList.lookup_insert_ne own] at found
        obtain ⟨other, member, standsOther⟩ := rows id row found
        exact ⟨other, List.mem_append_left _ member, standsOther⟩
    have both : seen ++ [doc] ++ docs = seen ++ doc :: docs := List.append_assoc _ _ _
    obtain ⟨clean, table⟩ := ih next (both ▸ order)
    refine ⟨⟨fun old found => ?_, clean⟩, both ▸ table⟩
    obtain ⟨other, member, standsOther⟩ := rows write.1 old found
    refine .inr ⟨write.1, stands.docId?, standsOther.docId?, ?_⟩
    have newer := (List.pairwise_append.mp order).2.2 other member doc (.head _) write.1
      standsOther.1 stands.1
    rw [isCandidateNewer_iff] at newer ⊢
    rw [stands.docScore]
    exact standsOther.docScore.trans_le newer

/-! ## What a flush moves -/

/-- What memory and the manifest hold. -/
def Held (config : LsmConfig) (s : Collection) (row : Json) : Prop :=
  Active s row ∨ Parked s row ∨ Stored config s row

/-- The manifest that the running flush asks for is of a size that `load` reads. -/
def ManifestFits (config : LsmConfig) (s : Collection) : Prop :=
  ∀ snapshot lsn n published, s.flush = some ⟨snapshot, lsn, .written n⟩ →
    publishedSsts config.codec s.dir = .ok published →
      let next := flushManifest (load config.codec s.dir).manifest? published n lsn
      (config.codec.dump { next with sstFiles := sortNames next.sstFiles }).length ≤ kMaxManifestBytes

/-- A failed publish section leaves no SST of its own. -/
theorem flushPublish_error_absent {codec : ManifestCodec} {faults : CallerFaults} {dir left : LsmDir}
    {n : String} {lsn : Nat} {reason : String} (absent : dir.lookup n = none)
    (failed : flushPublish codec faults dir n lsn = (left, .error reason)) :
    left.lookup n = none := by
  rcases publishSection_error failed with request | ⟨moved, next, after, why, request, rfl, -⟩
  · unfold flushRequest at request
    split at request
    · cases request
      exact absent
    · split at request
      · cases request
        exact absent
      · split at request
        · cases request
          exact lookup_removeAll_of_mem (by simp [artifactNames])
        · cases request
  · exact lookup_removeAll_of_mem (.head _)

theorem flushPublish_loads {codec : ManifestCodec} {faults : CallerFaults} {dir left : LsmDir}
    {n : String} {lsn : Nat} {next : LsmManifest}
    (fits : ∀ published, publishedSsts codec dir = .ok published →
      let next := flushManifest (load codec dir).manifest? published n lsn
      (codec.dump { next with sstFiles := sortNames next.sstFiles }).length ≤ kMaxManifestBytes)
    (done : flushPublish codec faults dir n lsn = (left, .ok next)) :
    ∃ manifest, load codec left = .ok manifest := by
  obtain ⟨moved, after, request, rfl, success⟩ := publishSection_ok done
  obtain ⟨-, -, -, published, known, asks⟩ := flushRequest_ok (fun _ _ => not_false) request
  have small := fits published known
  dsimp only at small
  rw [← asks] at small
  exact load_of_publish_ok success small

/-- What a step of `flush` does to the rows. -/
structure FlushStep (config : LsmConfig) (s t : Collection) : Prop where
  log : t.log = s.log
  walRecords : t.walRecords = s.walRecords
  reclaimed : t.reclaimed = s.reclaimed
  compactions : t.compactions = s.compactions
  memtable : t.memtable = s.memtable ∨ t.memtable = ∅
  parked : ∀ row, Parked t row → Active s row ∨ Parked s row
  present : ∀ name, extension name = sstExtension → ∀ row ∈ sstRows t.dir name,
    row ∈ sstRows s.dir name ∨ Parked s row
  held : ∀ row, Held config s row → Held config t row
  loads : (∀ reason, load config.codec s.dir ≠ .error reason) →
    ∀ reason, load config.codec t.dir ≠ .error reason

/-- A step that writes files of the unpublished SST `n` and moves no rows. -/
theorem FlushStep.framed (ok : FilesOk config s) (n : String)
    (same : t = { s with dir := t.dir, flush := t.flush, handedOut := t.handedOut })
    (frame : SameOn (fun name => OtherFile n name ∨ name = kManifestName) s.dir t.dir)
    (unlisted : n ∉ listed config.codec s.dir) (absent : t.dir.lookup n = none) :
    FlushStep config s t := by
  have immutables : t.immutables = s.immutables := by rw [same]
  have other : ∀ name ∈ listed config.codec s.dir, t.dir.lookup name = s.dir.lookup name :=
    fun name member => frame name (.inl (.inl
      ⟨extension_of_safe (ok.listedSafe name member), fun own => unlisted (own ▸ member)⟩))
  constructor
  case log => rw [same]
  case walRecords => rw [same]; rfl
  case reclaimed => rw [same]
  case compactions => rw [same]
  case memtable => exact .inl (by rw [same])
  case parked =>
    unfold Parked
    rw [immutables]
    exact fun row held => .inr held
  case present =>
    intro name ext row member
    refine .inl ?_
    by_cases own : name = n
    · rw [own, sstRows, absent] at member
      cases member
    · rwa [sstRows, frame name (.inl (.inl ⟨ext, own⟩)), ← sstRows] at member
  case held =>
    obtain ⟨rows, -⟩ := @listedRows_congr config.codec s.dir t.dir (frame _ (.inr rfl)) other
    have memtable : t.memtable = s.memtable := by rw [same]
    have reclaimed : t.reclaimed = s.reclaimed := by rw [same]
    unfold Held Active Parked Stored
    rw [memtable, immutables, rows, reclaimed]
    exact fun row held => held
  case loads => exact fun loads => load_congr_listed (frame _ (.inr rfl)) other ▸ loads

theorem FlushStep.of_step (inv : CheckpointInv config s) {e : Event} (clean : CleanEvent config s e)
    (fits : ∀ faults, e = .flushPublish faults → ManifestFits config s)
    (flushing : e.isFlush = true) (taken : step config s e = some t) : FlushStep config s t := by
  cases e with
  | flushBegin =>
    obtain ⟨-, rfl⟩ := Collection.flushBegin_some taken
    refine ⟨rfl, rfl, rfl, rfl, .inr rfl, ?_, fun _ _ row member => .inl member, ?_, id⟩
    · rintro row ⟨immutable, member, held⟩
      rcases List.mem_cons.mp member with rfl | old
      · exact .inl held
      · exact .inr ⟨immutable, old, held⟩
    · rintro row (held | ⟨immutable, member, held⟩ | held)
      · exact .inr (.inl ⟨_, .head _, held⟩)
      · exact .inr (.inl ⟨immutable, .tail _ member, held⟩)
      · exact .inr (.inr held)
  | flushWrite micros sequence sidecars =>
    obtain ⟨snapshot, lsn, n, running, fresh, rfl⟩ := Collection.flushWrite_some taken
    obtain ⟨unused, safe⟩ := Collection.freshName_eq_some fresh
    have free := inv.files.unused safe unused
    have frame := sameOn_write_unfinished s.dir
      (.sst (s.snapshotTable ⟨snapshot, lsn, .swapped⟩).rows) sidecars safe
      (not_otherFile_writingOf n) (.of_writingOf n)
    refine .framed inv.files n rfl (frame.mono fun name kept => kept.imp_right .inr) free.unlisted ?_
    exact (frame n (.inr (.inl rfl))).trans free.absent
  | flushWriteFails micros sequence leftover =>
    obtain ⟨n, dir, fresh, shape, rfl⟩ := Collection.flushWriteFails_some taken
    obtain ⟨unused, safe⟩ := Collection.freshName_eq_some fresh
    have free := inv.files.unused safe unused
    refine .framed inv.files n rfl ?_ free.unlisted ?_
    · rcases shape with rfl | ⟨body, rfl⟩
      · exact .refl
      · refine .insert ?_
        rintro (other | manifest)
        · exact not_otherFile_writingOf n other
        · exact (Auxiliary.of_writingOf n).notManifest manifest
    · rcases shape with rfl | ⟨body, rfl⟩
      · exact free.absent
      · refine (AList.lookup_insert_ne fun own => ?_).trans free.absent
        exact (Auxiliary.of_writingOf n).extension_ne (own ▸ extension_of_safe safe)
  | flushPublish faults =>
    obtain ⟨alone, synced⟩ := clean
    obtain ⟨snapshot, lsn, n, running, outcome⟩ := Collection.flushPublish_some taken
    have pending : PendingName s n := .inl ⟨_, running, rfl⟩
    have safe := inv.files.pendingSafe n pending
    rcases outcome with ⟨left, reason, failed, rfl⟩ | ⟨left, next, done, rfl⟩
    · exact .framed inv.files n rfl (flushPublish_failed safe synced failed)
        (inv.files.pendingUnlisted n pending)
        (flushPublish_error_absent (inv.files.pendingAbsent n pending) failed)
    · obtain ⟨published, -⟩ := flushPublish_ok safe done
      have frame := published.others safe
      refine ⟨rfl, rfl, rfl, rfl, .inl rfl, ?_, ?_, ?_, ?_⟩
      · rintro row ⟨immutable, member, held⟩
        exact .inr ⟨immutable, (List.mem_filter.mp member).1, held⟩
      · intro name ext row member
        by_cases own : name = n
        · -- The new SST holds the rows of the snapshot.
          refine .inr ?_
          rw [own, sstRows, published.inPlace, inv.files.flushFile _ n running rfl,
            Collection.snapshotTable] at member
          obtain ⟨table, parked, immutables⟩ := inv.snapshot _ running rfl
          rw [immutables, List.lookup_cons, beq_self_eq_true] at member
          have isRow : row ∈ table.rows := member
          refine ⟨(snapshot, table), ?_, Memtable.mem_rows.mp isRow⟩
          rw [immutables]
          exact .head _
        · rw [sstRows, frame name (.inl ⟨ext, own⟩), ← sstRows] at member
          exact .inl member
      · rintro row (held | held)
        · exact .inl held
        · exact .inr (.inr (inv.stored_flushPublish alone running done row held))
      · intro _ reason failed
        obtain ⟨manifest, loads⟩ := flushPublish_loads
          (fun published known => fits faults rfl snapshot lsn n published running known) done
        rw [loads] at failed
        cases failed
  | _ => cases flushing

/-! ## The invariant -/

/-- The documents written since the drop. -/
def Collection.docs (s : Collection) : List Json := s.log.flatMap WalRecord.docs

/-- Where the rows are from, whatever the process is doing. -/
structure RowsInv (config : LsmConfig) (s : Collection) : Prop where
  checkpoint : CheckpointInv config s
  idle : s.compactions = ∅
  unreclaimed : s.reclaimed = []
  loads : ∀ reason, load config.codec s.dir ≠ .error reason
  identified : ∀ record ∈ s.log, record.docs ≠ [] ∧
    ∀ doc ∈ record.docs, ∃ id, docId? config.dump doc = some id
  versions : s.docs.Pairwise (NotOlder config)
  logOrdered : Ordered s.log
  walOrdered : Ordered s.walRecords
  present : ∀ name, extension name = sstExtension → ∀ row ∈ sstRows s.dir name,
    RowOf config s.docs row
  parked : ∀ row, Parked s row → RowOf config s.docs row

theorem TableOf.rowOf {docs : List Json} (rows : TableOf config docs s.memtable) {row : Json}
    (held : Active s row) : RowOf config docs row := by
  obtain ⟨id, found⟩ := held
  obtain ⟨doc, member, stands⟩ := rows id row found
  exact ⟨doc, member, id, stands⟩

theorem RowsInv.flush (inv : RowsInv config s) (files : CheckpointInv config t)
    (rows : TableOf config s.docs s.memtable) (moved : FlushStep config s t) : RowsInv config t := by
  have docs : t.docs = s.docs := by rw [Collection.docs, moved.log, Collection.docs]
  constructor
  case checkpoint => exact files
  case idle => exact moved.compactions.trans inv.idle
  case unreclaimed => exact moved.reclaimed.trans inv.unreclaimed
  case loads => exact moved.loads inv.loads
  case identified => rw [moved.log]; exact inv.identified
  case versions => rw [docs]; exact inv.versions
  case logOrdered => rw [moved.log]; exact inv.logOrdered
  case walOrdered => rw [moved.walRecords]; exact inv.walOrdered
  case present =>
    rw [docs]
    intro name ext row member
    rcases moved.present name ext row member with old | held
    · exact inv.present name ext row old
    · exact inv.parked row held
  case parked =>
    rw [docs]
    intro row held
    rcases moved.parked row held with held | held
    · exact rows.rowOf held
    · exact inv.parked row held

/-- A record is appended. -/
theorem RowsInv.logged (inv : RowsInv config s) (files : CheckpointInv config t) {docs : List Json}
    {rollover : Bool}
    (same : t = { s.logRecord docs rollover with memtable := t.memtable, progress := t.progress })
    (nonempty : docs ≠ []) (identified : ∀ doc ∈ docs, ∃ id, docId? config.dump doc = some id)
    (versions : (s.docs ++ docs).Pairwise (NotOlder config)) :
    t.docs = s.docs ++ docs ∧ RowsInv config t := by
  have log : t.log = s.log ++ [{ lsn := s.nextLsn, docs }] := by rw [same]; simp
  have dir : t.dir = s.dir := by rw [same]; simp
  have immutables : t.immutables = s.immutables := by rw [same]; simp
  have walRecords : t.walRecords = s.walRecords ++ [{ lsn := s.nextLsn, docs }] := by
    rw [same, ← Collection.logRecord_walRecords s docs rollover]
    rfl
  have all : t.docs = s.docs ++ docs := by
    rw [Collection.docs, log, List.flatMap_append, List.flatMap_singleton, Collection.docs]
  have more : ∀ row, RowOf config s.docs row → RowOf config t.docs row := by
    rintro row ⟨doc, member, stands⟩
    exact ⟨doc, all ▸ List.mem_append_left _ member, stands⟩
  have appended : ∀ records : List WalRecord, Ordered records →
      (∀ record ∈ records, record.lsn < s.nextLsn) →
        Ordered (records ++ [{ lsn := s.nextLsn, docs }]) := by
    intro records ordered recent
    refine List.pairwise_append.mpr ⟨ordered, List.pairwise_singleton _ _, ?_⟩
    intro record member last isLast
    rw [List.mem_singleton.mp isLast]
    exact recent record member
  refine ⟨all, ?_⟩
  constructor
  case checkpoint => exact files
  case idle => rw [same]; simpa using inv.idle
  case unreclaimed => rw [same]; simpa using inv.unreclaimed
  case loads => rw [dir]; exact inv.loads
  case identified =>
    intro record member
    rw [log] at member
    rcases List.mem_append.mp member with old | new
    · exact inv.identified record old
    · rw [List.mem_singleton.mp new]
      exact ⟨nonempty, identified⟩
  case versions => rw [all]; exact versions
  case logOrdered => rw [log]; exact appended _ inv.logOrdered inv.checkpoint.logRecent
  case walOrdered => rw [walRecords]; exact appended _ inv.walOrdered inv.checkpoint.walRecent
  case present =>
    rw [dir]
    exact fun name ext row member => more row (inv.present name ext row member)
  case parked =>
    unfold Parked
    rw [immutables]
    exact fun row held => more row (inv.parked row held)

theorem sublist_flatten_reclaimThrough {coveredLsn removed : Nat} {segments : List (List WalRecord)} :
    (reclaimThrough coveredLsn removed segments).flatten.Sublist segments.flatten := by
  induction segments generalizing removed with
  | nil => exact .slnil
  | cons segment rest ih =>
    unfold reclaimThrough
    split
    · split
      · exact ih.trans (List.sublist_append_right _ _)
      · exact (List.Sublist.refl segment).append ih
    · exact (List.Sublist.refl segment).append ih

/-- What stays when only the WAL files and the bookkeeping of memory change. -/
theorem RowsInv.narrow (inv : RowsInv config s) (files : CheckpointInv config t)
    (log : t.log = s.log) (dir : t.dir = s.dir) (compactions : t.compactions = ∅)
    (reclaimed : t.reclaimed = s.reclaimed)
    (walRecords : t.walRecords.Sublist s.walRecords)
    (immutables : ∀ immutable ∈ t.immutables, immutable ∈ s.immutables) : RowsInv config t where
  checkpoint := files
  idle := compactions
  unreclaimed := reclaimed.trans inv.unreclaimed
  loads := by rw [dir]; exact inv.loads
  identified := by rw [log]; exact inv.identified
  versions := by rw [Collection.docs, log]; exact inv.versions
  logOrdered := by rw [log]; exact inv.logOrdered
  walOrdered := inv.walOrdered.sublist walRecords
  present := by rw [Collection.docs, log, dir]; exact inv.present
  parked := by
    rw [Collection.docs, log]
    rintro row ⟨immutable, member, held⟩
    exact inv.parked row ⟨immutable, immutables immutable member, held⟩

/-! ## Drop, restart and replay -/

/-- An empty directory that no job has files in. -/
theorem FilesOk.emptied (handedOut : ∀ name ∈ t.handedOut, safeSstName name = true) (dir : t.dir = ∅)
    (flush : t.flush = none) (compactions : t.compactions = ∅) : FilesOk config t := by
  have none : ∀ name, ¬PendingName t name := by
    rintro name (⟨job, running, -⟩ | ⟨id, job, merge, running, -⟩)
    · rw [flush] at running
      cases running
    · rw [compactions] at running
      cases running
  constructor
  case handedOutSafe => exact handedOut
  case listedHandedOut =>
    rw [dir]
    rintro name ⟨⟩
  case presentHandedOut =>
    rw [dir]
    rintro name - ⟨⟩
  case pendingHandedOut => exact fun name pending => absurd pending (none name)
  case pendingAbsent => exact fun name pending => absurd pending (none name)
  case pendingUnlisted => exact fun name pending => absurd pending (none name)
  case pendingNotInput => exact fun name pending => absurd pending (none name)
  case inputsHandedOut =>
    rw [compactions]
    rintro id job ⟨⟩
  case flushFile => exact fun job name running => by rw [flush] at running; cases running
  case mergedFile =>
    rw [compactions]
    rintro id job merge ⟨⟩
  case flushApart => exact fun job id other merge running => by rw [flush] at running; cases running
  case mergesApart =>
    rw [compactions]
    rintro id job merge otherId other otherMerge ⟨⟩

/-- What a drop that returns true leaves. -/
theorem Collection.dropCollection_done {faults : DropFaults}
    (done : (s.dropCollection faults).2 = true) :
    s.flush = none ∧
      (s.dropCollection faults).1 = { s with memtable := ∅, immutables := [], dir := ∅ } := by
  unfold dropCollection at done ⊢
  split at done
  · cases done
  next idle =>
    rw [Bool.or_eq_true, not_or, Option.isSome_iff_ne_none, not_not] at idle
    rw [if_neg (by simpa using ⟨by simpa using idle.1, idle.2⟩)]
    dsimp only at done ⊢
    split at done
    · cases done
    next whole => exact ⟨idle.2, rfl⟩

/-- After a drop nothing of the collection is left but WAL records. -/
theorem RowsInv.dropped (inv : RowsInv config s) (idle : s.flush = none) :
    RowsInv config { s with memtable := ∅, immutables := [], dir := ∅, log := [], reclaimed := [] } := by
  have files : FilesOk config
      { s with memtable := ∅, immutables := [], dir := ∅, log := [], reclaimed := [] } :=
    .emptied inv.checkpoint.files.handedOutSafe rfl idle inv.idle
  have checkpoint : CheckpointInv config
      { s with memtable := ∅, immutables := [], dir := ∅, log := [], reclaimed := [] } := by
    constructor
    case files => exact files
    case logRecent => rintro record ⟨⟩
    case markedRecent => exact inv.checkpoint.markedRecent
    case flushRecent => exact inv.checkpoint.flushRecent
    case coveredRecent => exact (Nat.zero_le _).trans_lt inv.checkpoint.coveredRecent
    case snapshot => exact fun job running => by rw [idle] at running; cases running
    case publishedCovered => exact fun job lsn running => by rw [idle] at running; cases running
    case mergesClean =>
      rw [inv.idle]
      rintro id job merge ⟨⟩
    case applied => rintro record ⟨⟩
    case flushed => rintro job - record ⟨⟩
    case covered => rintro record ⟨⟩
    case ordered => exact inv.checkpoint.ordered
    case activeOrdered => exact inv.checkpoint.activeOrdered
    case walRecent => exact inv.checkpoint.walRecent
    case live => rintro record ⟨⟩
  constructor
  case checkpoint => exact checkpoint
  case idle => exact inv.idle
  case unreclaimed => rfl
  case loads => rintro reason ⟨⟩
  case identified => rintro record ⟨⟩
  case versions => exact .nil
  case logOrdered => exact .nil
  case walOrdered => exact inv.walOrdered
  case present => rintro name - row ⟨⟩
  case parked => rintro row ⟨immutable, ⟨⟩, -⟩

/-- A restart forgets memory; what the new process counts as applied is covered. -/
theorem RowsInv.restarted (inv : RowsInv config s) (progress : WalApplyProgress)
    (covered : ∀ n, Marked progress n → n ≤ coveredWalLsn config.codec s.dir) :
    RowsInv config { s with memtable := ∅, immutables := [], poisoned := false, flush := none,
                            compactions := ∅, progress } := by
  refine inv.narrow ?_ rfl rfl rfl rfl (List.Sublist.refl _) (by rintro immutable ⟨⟩)
  constructor
  case files =>
    refine inv.checkpoint.files.narrow rfl rfl ?_ ?_
    · rintro job name ⟨⟩
    · rintro id job ⟨⟩
  case logRecent => exact inv.checkpoint.logRecent
  case markedRecent =>
    exact fun n marked => (covered n marked).trans_lt inv.checkpoint.coveredRecent
  case flushRecent => rintro job ⟨⟩
  case coveredRecent => exact inv.checkpoint.coveredRecent
  case snapshot => rintro job ⟨⟩
  case publishedCovered => rintro job lsn ⟨⟩
  case mergesClean => rintro id job merge ⟨⟩
  case applied =>
    intro record member marked doc inDocs
    exact (inv.checkpoint.covered record member (covered _ marked) doc inDocs).mono
      fun row held => .inr (.inr held)
  case flushed => rintro job ⟨⟩
  case covered => exact inv.checkpoint.covered
  case ordered => exact inv.checkpoint.ordered
  case activeOrdered => exact inv.checkpoint.activeOrdered
  case walRecent => exact inv.checkpoint.walRecent
  case live => exact inv.checkpoint.live

theorem Ordered.unique {records : List WalRecord} (ordered : Ordered records) {record other : WalRecord}
    (member : record ∈ records) (isOther : other ∈ records) (same : other.lsn = record.lsn) :
    other = record := by
  induction records with
  | nil => cases member
  | cons first rest ih =>
    obtain ⟨above, ordered⟩ := List.pairwise_cons.mp ordered
    rcases List.mem_cons.mp member with rfl | later
    · rcases List.mem_cons.mp isOther with own | otherLater
      · exact own
      · exact absurd same (above other otherLater).ne'
    · rcases List.mem_cons.mp isOther with rfl | otherLater
      · exact absurd same (above record later).ne
      · exact ih ordered later otherLater

/-- Clean writes keep what is held, and the documents they are entries of. -/
theorem CleanWrites.held {writes : List (String × Json)} (progress : WalApplyProgress)
    (clean : CleanWrites config s.memtable writes) {doc : Json}
    (kept : Kept config (Held config s) doc ∨ ∃ entry ∈ writes, EntryOf config doc entry) :
    Kept config (Held config { s with memtable := applyWrites s.memtable writes, progress }) doc := by
  rcases kept with kept | ⟨entry, isEntry, stands⟩
  · refine kept.trans fun row held => ?_
    rcases held with held | held
    · exact (clean.kept (.inl held)).mono fun _ held => .inl held
    · exact .of_holds (.inr held)
  · obtain ⟨row, held, newer⟩ := clean.kept (.inr ⟨entry.1, isEntry⟩)
    exact ⟨row, .inl held, newer.trans stands.covers⟩

/-- The entries of a logged record are put into the memtable. -/
theorem CheckpointInv.replayed (inv : CheckpointInv config s) {record : WalRecord}
    {writes : List (String × Json)} (logged : record ∈ s.log)
    (unique : ∀ other ∈ s.log, other.lsn = record.lsn → other = record)
    (clean : CleanWrites config s.memtable writes)
    (entries : ∀ doc ∈ record.docs, ∃ entry ∈ writes, EntryOf config doc entry) :
    CheckpointInv config { s with memtable := applyWrites s.memtable writes
                                  progress := markWalApplied s.progress record.lsn record.lsn } := by
  constructor
  case files => exact inv.files.narrow rfl rfl (fun _ _ running _ => ⟨running, rfl⟩) fun _ _ found => found
  case logRecent => exact inv.logRecent
  case markedRecent =>
    intro n marked
    rcases marked_markWalApplied marked with old | ⟨-, below⟩
    · exact inv.markedRecent n old
    · exact below.trans_lt (inv.logRecent record logged)
  case flushRecent => exact inv.flushRecent
  case coveredRecent => exact inv.coveredRecent
  case snapshot => exact inv.snapshot
  case publishedCovered => exact inv.publishedCovered
  case mergesClean => exact inv.mergesClean
  case applied =>
    intro other member marked doc inDocs
    rcases marked_markWalApplied marked with old | ⟨above, below⟩
    · exact clean.held _ (.inl (inv.applied other member old doc inDocs))
    · obtain rfl := unique other member (le_antisymm below above)
      exact clean.held _ (.inr (entries doc inDocs))
  case flushed => exact inv.flushed
  case covered => exact inv.covered
  case ordered => exact inv.ordered
  case activeOrdered => exact inv.activeOrdered
  case walRecent => exact inv.walRecent
  case live => exact inv.live

/-- A record of identified documents replays, each document under its id. -/
theorem mapM_replayDocument {docs : List Json}
    (identified : ∀ doc ∈ docs, ∃ id, docId? config.dump doc = some id) :
    ∃ writes, docs.mapM (replayDocument config) = .ok writes ∧
      List.Forall₂ (EntryOf config) docs writes ∧
      ∀ doc ∈ docs, ∃ entry ∈ writes, EntryOf config doc entry := by
  induction docs with
  | nil => exact ⟨[], rfl, .nil, by rintro doc ⟨⟩⟩
  | cons doc docs ih =>
    obtain ⟨first, rest⟩ := List.forall_mem_cons.mp identified
    obtain ⟨id, known⟩ := first
    obtain ⟨writes, replayed, entries, every⟩ := ih rest
    have one : replayDocument config doc = .ok (id, doc.set "id" (.string id)) := by
      rw [replayDocument, isObject_of_docId? known, known]
      rfl
    have stands : EntryOf config doc (id, doc.set "id" (.string id)) := ⟨known, .inr rfl⟩
    refine ⟨(id, doc.set "id" (.string id)) :: writes, ?_, .cons stands entries,
      List.forall_mem_cons.mpr ⟨⟨_, .head _, stands⟩, fun other member => ?_⟩⟩
    · rw [List.mapM_cons, one, replayed]
      rfl
    · obtain ⟨entry, isEntry, standsOther⟩ := every other member
      exact ⟨entry, .tail _ isEntry, standsOther⟩

/-! ## Every run -/

/-- The memtable entries of a write stand for its documents. -/
theorem Event.entries {e : Event} {docs : List Json} {writes : List (String × Json)}
    {applied rollover : Bool} (event : e.writes config s = some (docs, writes, applied, rollover))
    (identified : ∀ doc ∈ docs, ∃ id, docId? config.dump doc = some id) :
    List.Forall₂ (EntryOf config) docs writes := by
  have own : ∀ time doc, (∃ id, docId? config.dump doc = some id) →
      EntryOf config doc (storageId config time doc, doc) := by
    rintro time doc ⟨id, known⟩
    refine ⟨?_, .inl rfl⟩
    rw [storageId, known]
    rfl
  cases e with
  | put doc committedIndex time roll =>
    cases event
    exact .cons (own time _ (identified _ (.head _))) .nil
  | putMany sources committedIndex time roll =>
    simp only [Event.writes, Option.some.injEq, Prod.mk.injEq] at event
    obtain ⟨rfl, rfl, -, -⟩ := event
    have objects : ∀ doc ∈ sources.map fun doc =>
        stampVisibilityMetadata config.raft doc committedIndex, doc.isObject = true := by
      intro doc member
      obtain ⟨id, known⟩ := identified doc member
      exact isObject_of_docId? known
    rw [List.filter_eq_self.mpr objects, List.forall₂_map_right_iff, List.forall₂_same]
    exact fun doc member => own time doc (identified doc member)
  | del id previousVersion nowNs nowMs committedIndex roll =>
    obtain ⟨version, -, rest⟩ := Option.bind_eq_some_iff.mp event
    cases rest
    refine .cons ⟨?_, .inl rfl⟩ .nil
    rw [docId?, tombstone, field?_stampVisibilityMetadata (by decide)]
    rfl
  | _ => cases event

/-- The condition on the state before a step. Writes are of documents with an id and
do not go back in versions, and none fails after its record reached the WAL. A flush
publishes alone, with a manifest of a readable size, and its last sync works. No
compaction runs. A crash finds no record of a dropped collection in the segments that
the manifest does not cover. -/
def Lifetime.Clean (config : LsmConfig) (life : Lifetime) : LifetimeEvent → Prop
  | .run (.flushPublish faults) => life.collection.immutables.length ≤ 1 ∧
      faults.syncPublishedDirectory = true ∧ ManifestFits config life.collection
  | .run (.walFails _ written _) => written = false
  | .run (.compactSelect _) => False
  | .run e => ∀ docs writes applied rollover,
      e.writes config life.collection = some (docs, writes, applied, rollover) →
        (∀ doc ∈ docs, ∃ id, docId? config.dump doc = some id) ∧
          (life.collection.docs ++ docs).Pairwise (NotOlder config)
  | .crash => ∀ record ∈ life.collection.walRecords,
      coveredWalLsn config.codec life.collection.dir < record.lsn → record ∈ life.collection.log
  | _ => True

/-- How far the memtable is: everything written, or what the scan has passed. -/
def Lifetime.Progress (config : LsmConfig) (life : Lifetime) : Prop :=
  match life.phase with
  | .serving => TableOf config life.collection.docs life.collection.memtable
  | .replaying coveredLsn left => ∃ done,
      life.collection.log = done ++ left.filter (fun record => coveredLsn < record.lsn) ∧
      TableOf config (done.flatMap WalRecord.docs) life.collection.memtable ∧
      ∀ record ∈ done, ∀ doc ∈ record.docs, Kept config (Held config life.collection) doc
  | .failed _ => False

structure LifetimeInv (config : LsmConfig) (life : Lifetime) : Prop where
  rows : RowsInv config life.collection
  progress : life.Progress config

/-- Of records in LSN order those up to a boundary come first. -/
theorem Ordered.split {records : List WalRecord} (ordered : Ordered records) (boundary : Nat) :
    records = records.filter (fun record => record.lsn ≤ boundary) ++
      records.filter (fun record => boundary < record.lsn) := by
  induction records with
  | nil => rfl
  | cons first rest ih =>
    obtain ⟨above, ordered⟩ := List.pairwise_cons.mp ordered
    by_cases low : first.lsn ≤ boundary
    · rw [List.filter_cons_of_pos (by simpa using low),
        List.filter_cons_of_neg (by simpa using low), List.cons_append, ← ih ordered]
    · have high : ∀ record ∈ rest, boundary < record.lsn := fun record member =>
        (not_le.mp low).trans (above record member)
      have none : rest.filter (fun record => record.lsn ≤ boundary) = [] := by
        refine List.filter_eq_nil_iff.mpr fun record member => ?_
        simpa using high record member
      have all : rest.filter (fun record => boundary < record.lsn) = rest :=
        List.filter_eq_self.mpr fun record member => by simpa using high record member
      rw [List.filter_cons_of_neg (by simpa using low),
        List.filter_cons_of_pos (by simpa using low), none, all, List.nil_append]

/-- A crash in a clean state: what is left to replay are the uncovered records since
the drop. -/
theorem LifetimeInv.restart (inv : RowsInv config s)
    (clean : ∀ record ∈ s.walRecords, coveredWalLsn config.codec s.dir < record.lsn →
      record ∈ s.log) : LifetimeInv config (s.restart config) := by
  have stored : ∀ record ∈ s.log, record.lsn ≤ coveredWalLsn config.codec s.dir →
      ∀ doc ∈ record.docs, Kept config (Stored config s) doc := inv.checkpoint.covered
  unfold Collection.restart
  dsimp only
  split
  next none =>
    refine ⟨inv.restarted {} ?_, s.log, (List.append_nil _).symm, ?_, fun record member doc inDocs => ?_⟩
    · rintro n (zero | ⟨interval, ⟨⟩, -⟩)
      exact zero.trans (Nat.zero_le _)
    · rintro id row ⟨⟩
    · have covered := (inv.checkpoint.live record member).resolve_left fun live => by
        rw [none] at live
        cases live
      exact (stored record member covered doc inDocs).mono fun row held => .inr (.inr held)
  next reason _ failed => exact absurd failed (inv.loads reason)
  next first left records _ =>
    have boundary := coveredWalLsn_of_load inv.loads
    rw [boundary]
    refine ⟨inv.restarted { contiguous := coveredWalLsn config.codec s.dir } ?_,
      s.log.filter fun record => record.lsn ≤ coveredWalLsn config.codec s.dir, ?_, ?_,
      fun record member doc inDocs => ?_⟩
    · rintro n (below | ⟨interval, ⟨⟩, -⟩)
      exact below
    · have rest : s.log.filter (fun record => coveredWalLsn config.codec s.dir < record.lsn) =
          s.walRecords.filter fun record => coveredWalLsn config.codec s.dir < record.lsn := by
        refine (inv.logOrdered.sublist List.filter_sublist).eq_of_mem_iff
          (inv.walOrdered.sublist List.filter_sublist) fun record => ?_
        simp only [List.mem_filter, decide_eq_true_eq]
        constructor
        · rintro ⟨member, above⟩
          exact ⟨(inv.checkpoint.live record member).resolve_right (not_le.mpr above), above⟩
        · rintro ⟨member, above⟩
          exact ⟨clean record member above, above⟩
      rw [← records, ← rest]
      exact inv.logOrdered.split _
    · rintro id row ⟨⟩
    · obtain ⟨logged, below⟩ := List.mem_filter.mp member
      exact (stored record logged (of_decide_eq_true below) doc inDocs).mono
        fun row held => .inr (.inr held)

/-- One record of the scan. -/
theorem LifetimeInv.replayRecord {coveredLsn : Nat} {record : WalRecord} {left : List WalRecord}
    (inv : LifetimeInv config { collection := s, phase := .replaying coveredLsn (record :: left) }) :
    ∃ t, s.replayRecord config coveredLsn record = .ok t ∧
      LifetimeInv config { collection := t, phase := .replaying coveredLsn left } := by
  obtain ⟨done, log, rows, kept⟩ := inv.progress
  dsimp only at log rows kept
  by_cases skipped : record.lsn ≤ coveredLsn
  · rw [List.filter_cons_of_neg (by simpa using skipped)] at log
    exact ⟨s, if_pos skipped, inv.rows, done, log, rows, kept⟩
  · rw [List.filter_cons_of_pos (by simpa using skipped)] at log
    have logged : record ∈ s.log := log ▸ List.mem_append_right _ (.head _)
    obtain ⟨nonempty, identified⟩ := inv.rows.identified record logged
    obtain ⟨writes, replayed, entries, every⟩ := mapM_replayDocument identified
    have versions : (done.flatMap WalRecord.docs ++ record.docs).Pairwise (NotOlder config) := by
      have all := inv.rows.versions
      rw [Collection.docs, log, List.flatMap_append, List.flatMap_cons, ← List.append_assoc] at all
      exact (List.pairwise_append.mp all).1
    obtain ⟨clean, table⟩ := rows.applyWrites entries versions
    have checkpoint := inv.rows.checkpoint.replayed logged
      (fun other member same => inv.rows.logOrdered.unique logged member same) clean every
    refine ⟨_, ?_, inv.rows.narrow checkpoint rfl rfl inv.rows.idle rfl (.refl _)
      fun _ member => member, done ++ [record], ?_, ?_, ?_⟩
    · rw [Collection.replayRecord, if_neg skipped, if_neg (by simpa using nonempty), replayed]
      rfl
    · rw [List.append_assoc]
      exact log
    · rw [List.flatMap_append, List.flatMap_singleton]
      exact table
    · intro other member doc inDocs
      rcases List.mem_append.mp member with old | own
      · exact clean.held _ (.inl (kept other old doc inDocs))
      · rw [List.mem_singleton.mp own] at inDocs
        exact clean.held _ (.inr (every doc inDocs))

/-- The steps of a flush, in either phase. -/
theorem LifetimeInv.flush {life : Lifetime} (inv : LifetimeInv config life) {e : Event}
    (flushing : e.isFlush = true) (clean : life.Clean config (.run e))
    (taken : Lsm.step config life.collection e = some t) :
    LifetimeInv config { life with collection := t } := by
  have event : CleanEvent config life.collection e := by
    cases e with
    | flushPublish faults => exact ⟨clean.1, clean.2.1⟩
    | flushBegin => rintro docs writes applied rollover ⟨⟩
    | flushWrite micros sequence sidecars => rintro docs writes applied rollover ⟨⟩
    | flushWriteFails micros sequence leftover => rintro docs writes applied rollover ⟨⟩
    | _ => cases flushing
  have moved : FlushStep config life.collection t := by
    refine .of_step inv.rows.checkpoint event ?_ flushing taken
    rintro faults rfl
    exact clean.2.2
  have checkpoint := inv.rows.checkpoint.step event taken
  have docs : t.docs = life.collection.docs := by rw [Collection.docs, moved.log, Collection.docs]
  have table : ∀ {docs : List Json}, TableOf config docs life.collection.memtable →
      TableOf config docs t.memtable := by
    intro docs rows
    rcases moved.memtable with same | empty
    · rw [same]
      exact rows
    · rw [empty]
      rintro id row ⟨⟩
  have progress := inv.progress
  unfold Lifetime.Progress at progress
  cases phase : life.phase with
  | serving =>
    rw [phase] at progress
    refine ⟨inv.rows.flush checkpoint progress moved, ?_⟩
    change TableOf config t.docs t.memtable
    rw [docs]
    exact table progress
  | replaying coveredLsn left =>
    rw [phase] at progress
    obtain ⟨done, log, rows, kept⟩ := progress
    have all : TableOf config life.collection.docs life.collection.memtable := by
      refine rows.mono fun doc member => ?_
      rw [Collection.docs, log, List.flatMap_append]
      exact List.mem_append_left _ member
    refine ⟨inv.rows.flush checkpoint all moved, ?_⟩
    exact ⟨done, moved.log.trans log, table rows, fun record member doc inDocs =>
      (kept record member doc inDocs).mono moved.held⟩
  | failed reason =>
    rw [phase] at progress
    exact progress.elim

/-- A write of documents in version order. -/
theorem LifetimeInv.write {life : Lifetime} (inv : LifetimeInv config life) {e : Event}
    {docs : List Json} {writes : List (String × Json)} {applied rollover : Bool}
    (serving : life.phase = .serving)
    (event : e.writes config life.collection = some (docs, writes, applied, rollover))
    (nonempty : docs ≠ []) (identified : ∀ doc ∈ docs, ∃ id, docId? config.dump doc = some id)
    (versions : (life.collection.docs ++ docs).Pairwise (NotOlder config))
    (taken : Lsm.step config life.collection e = some t) :
    LifetimeInv config { life with collection := t } := by
  have rows := inv.progress
  unfold Lifetime.Progress at rows
  rw [serving] at rows
  obtain ⟨clean, table⟩ := rows.applyWrites (Event.entries event identified) versions
  obtain ⟨-, shape⟩ := Collection.write_some (step_write event taken)
  have memtable : t.memtable = applyWrites life.collection.memtable writes := by rw [shape]
  have written : CleanEvent config life.collection e := by
    cases e with
    | put doc committedIndex time roll =>
      rintro docs writes applied rollover again
      cases event.symm.trans again
      exact clean
    | putMany sources committedIndex time roll =>
      rintro docs writes applied rollover again
      cases event.symm.trans again
      exact clean
    | del id previousVersion nowNs nowMs committedIndex roll =>
      rintro docs writes applied rollover again
      cases event.symm.trans again
      exact clean
    | _ => cases event
  obtain ⟨all, kept⟩ := inv.rows.logged (inv.rows.checkpoint.step written taken)
    (by rw [shape]) nonempty identified versions
  refine ⟨kept, ?_⟩
  rw [Lifetime.Progress, serving]
  dsimp only
  rw [all, memtable]
  exact table

/-- A step of the serving process that leaves log and memtable alone. -/
theorem LifetimeInv.still {life : Lifetime} (inv : LifetimeInv config life)
    (serving : life.phase = .serving) (rows : RowsInv config t) (log : t.log = life.collection.log)
    (memtable : t.memtable = life.collection.memtable) :
    LifetimeInv config { life with collection := t } := by
  have table := inv.progress
  unfold Lifetime.Progress at table
  rw [serving] at table
  refine ⟨rows, ?_⟩
  rw [Lifetime.Progress, serving]
  dsimp only
  rw [Collection.docs, log, memtable]
  exact table

theorem LifetimeInv.serve {life : Lifetime} (inv : LifetimeInv config life) {e : Event}
    (serving : life.phase = .serving) (clean : life.Clean config (.run e))
    (taken : Lsm.step config life.collection e = some t) :
    LifetimeInv config { life with collection := t } := by
  have none : ∀ job, life.collection.compactions.lookup job = none := by
    rw [inv.rows.idle]
    exact fun job => rfl
  cases e with
  | put doc committedIndex time rollover =>
    obtain ⟨identified, versions⟩ := clean _ _ _ _ rfl
    exact inv.write serving rfl (by simp) identified versions taken
  | putMany docs committedIndex time rollover =>
    obtain ⟨identified, versions⟩ := clean _ _ _ _ rfl
    refine inv.write serving rfl ?_ identified versions taken
    dsimp only [Lsm.step] at taken
    split at taken
    · cases taken
    next some => simpa using some
  | del id previousVersion nowNs nowMs committedIndex rollover =>
    obtain ⟨version, found, -⟩ := Option.bind_eq_some_iff.mp taken
    have event : (Event.del id previousVersion nowNs nowMs committedIndex rollover).writes config
        life.collection = some ([tombstone config committedIndex id version nowMs],
          [(id, tombstone config committedIndex id version nowMs)], true, rollover) := by
      rw [Event.writes, found]
      rfl
    obtain ⟨identified, versions⟩ := clean _ _ _ _ event
    exact inv.write serving event (by simp) identified versions taken
  | walFails docs written rollover =>
    obtain rfl : written = false := clean
    have checkpoint := inv.rows.checkpoint.step (e := .walFails docs false rollover)
      (by rintro docs writes applied rollover ⟨⟩) taken
    dsimp only [Lsm.step] at taken
    split at taken
    · cases taken
    · cases taken
      refine ⟨inv.rows.narrow checkpoint rfl rfl inv.rows.idle rfl (.refl _) fun _ member => member, ?_⟩
      have rows := inv.progress
      unfold Lifetime.Progress at rows ⊢
      rw [serving] at rows ⊢
      exact rows
  | reclaim removed =>
    have checkpoint := inv.rows.checkpoint.step (e := .reclaim removed)
      (by rintro docs writes applied rollover ⟨⟩) taken
    obtain ⟨snapshot, lsn, publishedWalLsn, running, rfl⟩ := Collection.reclaim_some taken
    refine inv.still serving (inv.rows.narrow checkpoint rfl rfl inv.rows.idle rfl ?_
      fun _ member => member) rfl rfl
    refine List.Sublist.append ?_ (List.Sublist.refl _)
    dsimp only
    split
    · exact sublist_flatten_reclaimThrough
    · exact List.Sublist.refl _
  | compactSelect job => exact clean.elim
  | compactCoverage job =>
    obtain ⟨inputs, total, published, running, -⟩ := Collection.compactCoverage_some taken
    rw [none job] at running
    cases running
  | compactMerge job committedIndex clock micros sequence sidecars =>
    obtain ⟨inputs, fullCoverage, read, outName, running, -⟩ := Collection.compactMerge_some taken
    rw [none job] at running
    cases running
  | compactPublish job faults =>
    obtain ⟨inputs, merge, running, -⟩ := Collection.compactPublish_some taken
    rw [none job] at running
    cases running
  | compactAbort job =>
    have checkpoint := inv.rows.checkpoint.step (e := .compactAbort job)
      (by rintro docs writes applied rollover ⟨⟩) taken
    cases taken
    have none : life.collection.compactions.erase job = ∅ := by
      rw [inv.rows.idle]
      rfl
    have rows := inv.rows.narrow checkpoint rfl rfl none rfl (.refl _) fun _ member => member
    exact inv.still serving rows rfl rfl
  | flushBegin => exact inv.flush rfl clean taken
  | flushWrite micros sequence sidecars => exact inv.flush rfl clean taken
  | flushWriteFails micros sequence leftover => exact inv.flush rfl clean taken
  | flushPublish faults => exact inv.flush rfl clean taken

theorem LifetimeInv.step {life after : Lifetime} {event : LifetimeEvent} (inv : LifetimeInv config life)
    (clean : life.Clean config event) (taken : life.step config event = some after) :
    LifetimeInv config after := by
  cases event with
  | run e =>
    unfold Lifetime.step at taken
    dsimp only at taken
    split at taken
    next serving =>
      obtain ⟨t, inner, rfl⟩ := Option.map_eq_some_iff.mp taken
      exact inv.serve serving clean inner
    · split at taken
      next flushing =>
        obtain ⟨t, inner, rfl⟩ := Option.map_eq_some_iff.mp taken
        exact inv.flush flushing clean inner
      · cases taken
    · cases taken
  | drop faults =>
    unfold Lifetime.step at taken
    dsimp only at taken
    split at taken
    next s serving dropped =>
      cases taken
      unfold Collection.dropCollection at dropped
      split at dropped
      · cases dropped
      next ready =>
        dsimp only at dropped
        split at dropped
        · cases dropped
        · obtain ⟨rfl, -⟩ := Prod.mk.inj dropped
          have idle : life.collection.flush = none := by
            simp only [Bool.or_eq_true, not_or] at ready
            simpa using ready.2
          refine ⟨inv.rows.dropped idle, ?_⟩
          unfold Lifetime.Progress
          rw [serving]
          rintro id row ⟨⟩
    · cases taken
  | crash =>
    unfold Lifetime.step at taken
    dsimp only at taken
    split at taken
    · cases taken
    · cases taken
      exact .restart inv.rows clean
  | replay =>
    unfold Lifetime.step at taken
    dsimp only at taken
    split at taken
    next coveredLsn record left replaying =>
      obtain ⟨s, phase⟩ := life
      cases replaying
      obtain ⟨t, replayed, kept⟩ := inv.replayRecord
      rw [replayed] at taken
      cases taken
      exact kept
    · cases taken

theorem LifetimeInv.init : LifetimeInv config {} where
  rows :=
    { checkpoint := .init
      idle := rfl
      unreclaimed := rfl
      loads := by rintro reason ⟨⟩
      identified := by rintro record ⟨⟩
      versions := .nil
      logOrdered := .nil
      walOrdered := .nil
      present := by rintro name - row ⟨⟩
      parked := by rintro row ⟨immutable, ⟨⟩, -⟩ }
  progress := by rintro id row ⟨⟩

namespace Lifetime

/-- What a read finds: memory and the SSTs of the manifest. -/
def Recovered (config : LsmConfig) (life : Lifetime) (row : Json) : Prop :=
  Active life.collection row ∨ Parked life.collection row ∨
    row ∈ listedRows config.codec life.collection.dir

/-- In every clean run of writes, flushes, drops, crashes and replays: no replay fails,
and when the scan is through, the rows are those of the documents written since the
last drop, and each of these documents is there in its own or a newer version. -/
theorem restore_of_reach {life : Lifetime} (reached : Reach (step config) (Clean config) {} life) :
    (∀ reason, life.phase ≠ .failed reason) ∧
      ∀ coveredLsn, life.phase = .replaying coveredLsn [] →
        (∀ row, life.Recovered config row → RowOf config life.collection.docs row) ∧
          ∀ doc ∈ life.collection.docs, Kept config (life.Recovered config) doc := by
  have inv : LifetimeInv config life := reached.invariant .init fun inv clean taken =>
    inv.step clean taken
  have progress := inv.progress
  unfold Progress at progress
  refine ⟨fun reason failed => ?_, fun coveredLsn finished => ?_⟩
  · rw [failed] at progress
    exact progress
  · rw [finished] at progress
    obtain ⟨done, log, rows, kept⟩ := progress
    rw [List.filter_nil, List.append_nil] at log
    have docs : life.collection.docs = done.flatMap WalRecord.docs := by rw [Collection.docs, log]
    refine ⟨fun row held => ?_, fun doc member => ?_⟩
    · rcases held with held | held | held
      · exact docs ▸ rows.rowOf held
      · exact inv.rows.parked row held
      · obtain ⟨name, member, isRow⟩ := mem_listedRows.mp held
        exact inv.rows.present name
          (extension_of_safe (inv.rows.checkpoint.files.listedSafe name member)) row isRow
    · rw [docs] at member
      obtain ⟨record, isRecord, inDocs⟩ := List.mem_flatMap.mp member
      refine (kept record isRecord doc inDocs).mono fun row held => ?_
      rcases held with held | held | held | held
      · exact .inl held
      · exact .inr (.inl held)
      · exact .inr (.inr held)
      · rw [inv.rows.unreclaimed] at held
        cases held

/-! ## A drop that holds and one that does not -/

/-- `a` is put and the collection dropped; `b` is put, and a flush has written it. -/
def recreated : Lifetime where
  collection :=
    { immutables := [(0, AList.insert "b" (storedOne "b") ∅)]
      nextHandle := 1
      progress := { contiguous := 2 }
      nextLsn := 3
      activeSegment := [⟨1, [storedOne "a"]⟩, ⟨2, [storedOne "b"]⟩]
      dir := unfinishedB
      flush := some ⟨0, 2, .written "2_1.sst"⟩
      log := [⟨2, [storedOne "b"]⟩]
      handedOut := ["2_1.sst"] }

/-- The flush publishes, so that the manifest covers the record of the old `a`. -/
def republished : Lifetime where
  collection :=
    { recreated.collection with
      immutables := []
      dir := publishedB
      flush := some ⟨0, 2, .published 2⟩ }

theorem clean_put {life : Lifetime} (empty : life.collection.docs = []) (id : String) :
    life.Clean standalone (.run (.put (versionOne id) 0 0 false)) := by
  rintro docs writes applied rollover ⟨⟩
  rw [empty]
  refine ⟨fun doc member => ?_, List.pairwise_singleton _ _⟩
  rw [List.mem_singleton.mp member]
  exact ⟨id, rfl⟩

theorem reach_recreated : Reach (step standalone) (Clean standalone) {} recreated := by
  have dropped := ((@Reach.refl _ _ (step standalone) (Clean standalone) {}).tail
    (clean_put rfl "a") rfl).tail (e := .drop {}) (by exact trivial) rfl
  have swapped := (dropped.tail (clean_put rfl "b") rfl).tail (e := .run .flushBegin)
    (by rintro docs writes applied rollover ⟨⟩) rfl
  exact swapped.tail (e := .run (.flushWrite 2 1 {})) (by rintro docs writes applied rollover ⟨⟩) rfl

theorem reach_republished : Reach (step standalone) (Clean standalone) {} republished := by
  refine reach_recreated.tail (e := .run (.flushPublish {})) ⟨le_rfl, rfl, ?_⟩ rfl
  rintro snapshot lsn n published ⟨⟩ known
  have none : publishedSsts jsonCodec unfinishedB = .ok [] := by rfl
  obtain rfl : published = [] := Except.ok.inj (known.symm.trans none)
  decide

/-- The collection is dropped and created again; the record of the old `a` is covered
when the process crashes, and only `b` is recovered. -/
theorem restore_of_reach_covered : ∃ life, Reach (step standalone) (Clean standalone) {} life ∧
    life.phase = .replaying 2 [] ∧ life.collection.docs = [storedOne "b"] ∧
    ∀ row, life.Recovered standalone row → RowOf standalone life.collection.docs row := by
  have crash : republished.Clean standalone .crash := by
    intro record member above
    have covers : coveredWalLsn jsonCodec publishedB = 2 := publishedB_spec.covered
    change coveredWalLsn jsonCodec publishedB < record.lsn at above
    rw [covers] at above
    rcases List.mem_cons.mp member with rfl | member
    · cases above.not_ge (by decide)
    · rw [List.mem_singleton.mp member] at above
      cases above.not_ge le_rfl
  have recovered := ((reach_republished.tail crash rfl).tail (e := .replay) (by exact trivial) rfl).tail
    (e := .replay) (by exact trivial) rfl
  exact ⟨_, recovered, rfl, rfl, ((restore_of_reach recovered).2 2 rfl).1⟩

/-- A put, a drop that returns true and a crash: the replay brings the document back. -/
theorem dropped_document_returns : ∃ life,
    run (step standalone) {} [.run (.put (versionOne "a") 0 0 false), .drop {}, .crash, .replay] =
      some life ∧
    life.phase = .replaying 0 [] ∧ life.collection.docs = [] ∧
    life.Recovered standalone ((storedOne "a").set "id" (.string "a")) :=
  ⟨_, rfl, rfl, rfl, .inl ⟨"a", rfl⟩⟩

end Lifetime

end PacificDb.Lsm
