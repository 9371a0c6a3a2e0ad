import PacificDb.Lsm.Publish

/-!
# One collection

The collection as the storage engine keeps it: the WAL, the active memtable,
the memtables a flush has swapped out, the apply progress, and the `.lsm`
directory. Writes, flushes and compactions are steps; a step is one section
that the source runs under the collection lock, or one stretch of file access
between two such sections. Every call that can fail carries its outcome.

Three fields are history, read by no step: every WAL record ever written, the
tombstones compaction has dropped, and the SST names handed out so far.
-/

namespace PacificDb.Lsm

/-- `Memtable`: documents by id. -/
abbrev Memtable := AList fun _ : String => Json

/-- The rows in the order an SST stores them. -/
def Memtable.rows (table : Memtable) : List Json :=
  (sortNames table.keys).filterMap fun id => table.lookup id

theorem Memtable.mem_rows {table : Memtable} {row : Json} :
    row ∈ table.rows ↔ ∃ id, table.lookup id = some row := by
  simp only [Memtable.rows, List.mem_filterMap, mem_sortNames]
  constructor
  · rintro ⟨id, -, found⟩
    exact ⟨id, found⟩
  · rintro ⟨id, found⟩
    refine ⟨id, ?_, found⟩
    rw [← AList.mem_keys, ← AList.lookup_isSome, found]
    rfl

/-- What the storage code takes from the rest of the engine: the JSON text
library, the Raft core's mode, the stored size of an SST, and its settings. -/
structure LsmConfig where
  codec : ManifestCodec
  dump : Json → String
  raft : RaftView
  fileSize : List Json → Nat
  maxSstBytes : Nat := 16 * 1024 * 1024
  fanout : Nat := 8

/-! ## Apply progress -/

/-- `WalApplyProgress`: everything up to `contiguous` is applied, and so is
every interval; the intervals are ordered by their first LSN. -/
structure WalApplyProgress where
  contiguous : Nat := 0
  intervals : List (Nat × Nat) := []
  deriving Repr, DecidableEq

/-- Merge the intervals that touch `[first, last]` into it. -/
def absorbFollowing (first last : Nat) : List (Nat × Nat) → List (Nat × Nat)
  | [] => [(first, last)]
  | next :: rest =>
      if next.1 ≤ last + 1 then absorbFollowing first (max last next.2) rest
      else (first, last) :: next :: rest

/-- Join `[first, last]` to the interval before it when they touch. -/
def joinPrevious (first last : Nat) (before : List (Nat × Nat)) :
    List (Nat × Nat) × Nat × Nat :=
  match before.getLast? with
  | some previous =>
      if first - 1 ≤ previous.2 then (before.dropLast, previous.1, max last previous.2)
      else (before, first, last)
  | none => (before, first, last)

/-- Move the leading intervals into `contiguous`. -/
def advanceContiguous (contiguous : Nat) : List (Nat × Nat) → WalApplyProgress
  | [] => { contiguous }
  | next :: rest =>
      if next.1 ≤ contiguous + 1 then advanceContiguous (max contiguous next.2) rest
      else { contiguous, intervals := next :: rest }

def markWalApplied (progress : WalApplyProgress) (first last : Nat) : WalApplyProgress :=
  if first = 0 ∨ last < first then progress
  else if last ≤ progress.contiguous then progress
  else
    let first := max first (progress.contiguous + 1)
    let (before, start, stop) :=
      joinPrevious first last (progress.intervals.takeWhile fun interval => interval.1 < first)
    let after := progress.intervals.dropWhile fun interval => interval.1 < first
    advanceContiguous progress.contiguous (before ++ absorbFollowing start stop after)

/-! ## State -/

/-- A physical WAL record: its LSN and the documents of its entry. -/
structure WalRecord where
  lsn : Nat
  docs : List Json

/-- How far the running flush is. -/
inductive FlushPhase where
  | swapped
  | written (sstName : String)
  | published (publishedWalLsn : Nat)

/-- The running flush (`CollectionFlushGuard`): the handle of its snapshot and the WAL boundary it took
when it swapped the memtable. -/
structure FlushJob where
  snapshot : Nat
  coveredWalLsn : Nat
  phase : FlushPhase

/-- The finished merge of a compaction: what it `read` in each input, the commit
index it filtered by, and the tombstones it left out of its output. -/
structure Merge where
  outName : String
  fullCoverage : Bool
  committedIndex : Nat
  read : List (String × List Json)
  tombstones : List Json

inductive CompactPhase where
  | selected (totalSstBytes : Nat)
  | covered (fullCoverage : Bool)
  | merged (merge : Merge)

structure CompactJob where
  inputs : List String
  phase : CompactPhase

structure Collection where
  memtable : Memtable := ∅
  immutables : List (Nat × Memtable) := []
  nextHandle : Nat := 0
  progress : WalApplyProgress := {}
  nextLsn : Nat := 1
  sealedSegments : List (List WalRecord) := []
  activeSegment : List WalRecord := []
  poisoned : Bool := false
  dir : LsmDir := ∅
  flush : Option FlushJob := none
  compactions : AList (fun _ : Nat => CompactJob) := ∅
  log : List WalRecord := []
  reclaimed : List Json := []
  handedOut : List String := []

/-- The records still in a WAL file. -/
def Collection.walRecords (s : Collection) : List WalRecord :=
  s.sealedSegments.flatten ++ s.activeSegment

/-! ## Writes -/

/-- Append one physical record, in a new segment file when the active one is full. -/
def Collection.logRecord (s : Collection) (docs : List Json) (rollover : Bool) : Collection :=
  let record : WalRecord := { lsn := s.nextLsn, docs }
  if rollover && !s.activeSegment.isEmpty then
    { s with sealedSegments := s.sealedSegments ++ [s.activeSegment], activeSegment := [record],
             nextLsn := s.nextLsn + 1, log := s.log ++ [record] }
  else
    { s with activeSegment := s.activeSegment ++ [record],
             nextLsn := s.nextLsn + 1, log := s.log ++ [record] }

section LogRecord

variable (s : Collection) (docs : List Json) (rollover : Bool)

@[simp] theorem Collection.logRecord_dir : (s.logRecord docs rollover).dir = s.dir := by
  unfold logRecord; split <;> rfl

@[simp] theorem Collection.logRecord_handedOut :
    (s.logRecord docs rollover).handedOut = s.handedOut := by
  unfold logRecord; split <;> rfl

@[simp] theorem Collection.logRecord_flush : (s.logRecord docs rollover).flush = s.flush := by
  unfold logRecord; split <;> rfl

@[simp] theorem Collection.logRecord_compactions :
    (s.logRecord docs rollover).compactions = s.compactions := by
  unfold logRecord; split <;> rfl

@[simp] theorem Collection.logRecord_immutables :
    (s.logRecord docs rollover).immutables = s.immutables := by
  unfold logRecord; split <;> rfl

@[simp] theorem Collection.logRecord_memtable :
    (s.logRecord docs rollover).memtable = s.memtable := by
  unfold logRecord; split <;> rfl

@[simp] theorem Collection.logRecord_progress :
    (s.logRecord docs rollover).progress = s.progress := by
  unfold logRecord; split <;> rfl

@[simp] theorem Collection.logRecord_reclaimed :
    (s.logRecord docs rollover).reclaimed = s.reclaimed := by
  unfold logRecord; split <;> rfl

@[simp] theorem Collection.logRecord_nextLsn :
    (s.logRecord docs rollover).nextLsn = s.nextLsn + 1 := by
  unfold logRecord; split <;> rfl

@[simp] theorem Collection.logRecord_log :
    (s.logRecord docs rollover).log = s.log ++ [{ lsn := s.nextLsn, docs }] := by
  unfold logRecord; split <;> rfl

@[simp] theorem Collection.logRecord_walRecords :
    (s.logRecord docs rollover).walRecords = s.walRecords ++ [{ lsn := s.nextLsn, docs }] := by
  unfold logRecord walRecords; split <;> simp

end LogRecord

/-- `memtables[key][id] = doc` for each document in turn. -/
def applyWrites (table : Memtable) (writes : List (String × Json)) : Memtable :=
  writes.foldl (fun table write => table.insert write.1 write.2) table

/-- The section all writes share: WAL append, memtable, apply progress. A
poisoned WAL refuses the append, and the exception leaves the state as it is. -/
def Collection.write (s : Collection) (docs : List Json) (writes : List (String × Json))
    (applied rollover : Bool) : Option Collection :=
  if s.poisoned then none
  else
    let logged := s.logRecord docs rollover
    let progress := if applied then markWalApplied s.progress s.nextLsn s.nextLsn else s.progress
    some { logged with memtable := applyWrites s.memtable writes, progress }

/-- The id a row is stored under: its own, or the clock reading. -/
def storageId (config : LsmConfig) (time : Nat) (doc : Json) : String :=
  (docId? config.dump doc).getD (toString time)

/-- The document `LSM::put` stores: stamped, its id normalized to a string. -/
def putDocument (config : LsmConfig) (committedIndex : Nat) (doc : Json) : Json :=
  let stored := stampVisibilityMetadata config.raft doc committedIndex
  match docId? config.dump stored with
  | some id => stored.set "id" (.string id)
  | none => stored

/-- The version of the tombstone `LSM::del` writes; none is `mvcc_version_exhausted`. -/
def tombVersion (table : Memtable) (id : String) (previousVersion : Nat) (nowNs : Int) :
    Option Nat :=
  if previousVersion = 2 ^ 64 - 1 then none
  else
    let version := max (max 1 nowNs).toNat (previousVersion + 1)
    match (table.lookup id).bind extractDocVersionScore with
    | some current =>
        if 0 ≤ current ∧ version ≤ current.toNat then
          if current.toNat = 2 ^ 64 - 1 then none else some (current.toNat + 1)
        else some version
    | none => some version

def tombstone (config : LsmConfig) (committedIndex : Nat) (id : String) (version : Nat)
    (nowMs : Int) : Json :=
  stampVisibilityMetadata config.raft
    (.object [("id", .string id), ("_deleted", .bool true), ("version", .unsigned version),
      ("_mvcc_version", .unsigned version), ("deleted_txn", .unsigned version),
      ("deleted_at_ms", .integer nowMs)]) committedIndex

/-! ## Compaction input and output -/

/-- The longest run from the front of similarly sized files, at most `fanout`. -/
def sizeTieredRun (config : LsmConfig) (seedBytes : Nat) (ssts : List (String × Nat)) :
    List String :=
  ((ssts.takeWhile fun sst => decide ((seedBytes + 1) / 2 ≤ sst.2) &&
    decide (sst.2 ≤ seedBytes * 2) && decide (sst.2 ≤ config.maxSstBytes)).take
      config.fanout).map Prod.fst

/-- The first run of exactly `fanout` files. -/
def selectSsts (config : LsmConfig) : List (String × Nat) → List String
  | [] => []
  | sst :: rest =>
      let run := sizeTieredRun config sst.2 (sst :: rest)
      if sst.2 ≠ 0 ∧ sst.2 ≤ config.maxSstBytes ∧ run.length = config.fanout then run
      else selectSsts config rest

def sstRows (dir : LsmDir) (name : String) : List Json :=
  match dir.lookup name with
  | some (.sst rows) => rows
  | _ => []

def sstBytes (config : LsmConfig) (dir : LsmDir) (name : String) : Nat :=
  match dir.lookup name with
  | some (.sst rows) => config.fileSize rows
  | some (.text bytes) => bytes.length
  | _ => 0

/-- Store a row under its id unless the stored one is newer. -/
def upsertNewer (table : Memtable) (id : String) (row : Json) : Memtable :=
  match table.lookup id with
  | some current => if isCandidateNewer row current then table.insert id row else table
  | none => table.insert id row

/-- One row of the merge, with the clock reading for a row without an id. -/
def mergeRow (config : LsmConfig) (committedIndex : Nat) (merged : Memtable)
    (row : Json × Nat) : Memtable :=
  if !docVisibleByCommitIndex config.raft row.1 committedIndex then merged
  else upsertNewer merged (storageId config row.2 row.1) row.1

/-- Phase 2 of a compaction over the rows of its inputs. -/
def mergeRows (config : LsmConfig) (committedIndex : Nat) (rows : List (Json × Nat)) : Memtable :=
  rows.foldl (mergeRow config committedIndex) ∅

/-- The rows of the output: without tombstones when every SST was an input. -/
def compactedRows (fullCoverage : Bool) (merged : Memtable) : List Json :=
  merged.rows.filter fun row => !(fullCoverage && isDeletedDoc row)

def droppedTombstones (fullCoverage : Bool) (merged : Memtable) : List Json :=
  merged.rows.filter fun row => fullCoverage && isDeletedDoc row

/-- `scanSst` over one input: none when the file is gone or damaged. -/
def scanSst (dir : LsmDir) (name : String) : Option (String × List Json) :=
  match dir.lookup name with
  | some (.sst rows) => some (name, rows)
  | _ => none

/-! ## Steps -/

/-- The files `buildBloomForSST` and `buildSparseIndexForSST` leave beside an SST. -/
structure Sidecars where
  bloom : Bool := true
  sparse : Bool := true

def withSidecars (dir : LsmDir) (name : String) (sidecars : Sidecars) : LsmDir :=
  let bloomed := if sidecars.bloom then dir.insert (bloomOf name) (.text []) else dir
  if sidecars.sparse then bloomed.insert (sparseOf name) (.text []) else bloomed

/-- The environment's part of a step: arguments, clock readings, commit index
and the outcome of every call that can fail. -/
inductive Event where
  | put (doc : Json) (committedIndex time : Nat) (rollover : Bool)
  | putMany (docs : List Json) (committedIndex time : Nat) (rollover : Bool)
  | del (id : String) (previousVersion : Nat) (nowNs nowMs : Int) (committedIndex : Nat)
      (rollover : Bool)
  | walFails (docs : List Json) (written rollover : Bool)
  | flushBegin
  | flushWrite (micros sequence : Nat) (sidecars : Sidecars)
  | flushWriteFails (micros sequence : Nat) (leftover : Option FileBody)
  | flushPublish (faults : CallerFaults)
  | reclaim (removed : Nat)
  | compactSelect (job : Nat)
  | compactCoverage (job : Nat)
  | compactMerge (job : Nat) (committedIndex : Nat) (clock : Nat → Nat) (micros sequence : Nat)
      (sidecars : Sidecars)
  | compactPublish (job : Nat) (faults : CallerFaults)
  | compactAbort (job : Nat)

/-- `WAL::reclaimThrough`: drop the first `removed` of the sealed segments whose
last LSN is covered; a failure in between leaves the rest. -/
def reclaimThrough (coveredLsn : Nat) : Nat → List (List WalRecord) → List (List WalRecord)
  | _, [] => []
  | removed, segment :: rest =>
      match segment.getLast? with
      | some last =>
          if last.lsn ≤ coveredLsn ∧ 0 < removed then reclaimThrough coveredLsn (removed - 1) rest
          else segment :: reclaimThrough coveredLsn removed rest
      | none => segment :: reclaimThrough coveredLsn removed rest

/-- A name `nextSstFileName` has not handed out. With the counter of the process
(`Numbered`) the guard refuses no name. -/
def Collection.freshName (s : Collection) (micros sequence : Nat) : Option String :=
  let name := nextSstFileName micros sequence
  if name ∈ s.handedOut then none else some name

def Collection.flushBegin (s : Collection) : Option Collection :=
  match s.flush with
  | some _ => none
  | none =>
      if s.memtable.keys.isEmpty then none
      else some { s with
        memtable := ∅
        immutables := (s.nextHandle, s.memtable) :: s.immutables
        nextHandle := s.nextHandle + 1
        flush := some
          { snapshot := s.nextHandle, coveredWalLsn := s.progress.contiguous, phase := .swapped } }

/-- The snapshot of the running flush. -/
def Collection.snapshotTable (s : Collection) (job : FlushJob) : Memtable :=
  (s.immutables.lookup job.snapshot).getD ∅

def Collection.flushWrite (s : Collection) (micros sequence : Nat) (sidecars : Sidecars) :
    Option Collection :=
  match s.flush with
  | some ⟨snapshot, coveredWalLsn, .swapped⟩ => do
      let sstName ← s.freshName micros sequence
      let rows := (s.snapshotTable ⟨snapshot, coveredWalLsn, .swapped⟩).rows
      let written := s.dir.insert (writingOf sstName) (.sst rows)
      return { s with
        dir := withSidecars written (writingOf sstName) sidecars
        handedOut := sstName :: s.handedOut
        flush := some ⟨snapshot, coveredWalLsn, .written sstName⟩ }
  | _ => none

/-- `writeSst` returns false, or a sidecar cannot be built: `flush` returns, its
snapshot stays parked. -/
def Collection.flushWriteFails (s : Collection) (micros sequence : Nat)
    (leftover : Option FileBody) : Option Collection :=
  match s.flush with
  | some ⟨_, _, .swapped⟩ => do
      let sstName ← s.freshName micros sequence
      return { s with
        dir := match leftover with
          | some body => s.dir.insert (writingOf sstName) body
          | none => s.dir
        handedOut := sstName :: s.handedOut
        flush := none }
  | _ => none

def Collection.flushPublish (config : LsmConfig) (s : Collection) (faults : CallerFaults) :
    Option Collection :=
  match s.flush with
  | some ⟨snapshot, coveredWalLsn, .written sstName⟩ =>
      match Lsm.flushPublish config.codec faults s.dir sstName coveredWalLsn with
      -- The exception leaves the snapshot among the immutable memtables.
      | (left, .error _) => some { s with dir := left, flush := none }
      | (left, .ok next) =>
          some { s with
            dir := left
            immutables := s.immutables.filter fun immutable => immutable.1 != snapshot
            flush := some ⟨snapshot, coveredWalLsn, .published next.coveredWalLsn⟩ }
  | _ => none

def Collection.reclaim (s : Collection) (removed : Nat) : Option Collection :=
  match s.flush with
  | some ⟨_, _, .published publishedWalLsn⟩ =>
      some { s with
        sealedSegments :=
          if 0 < publishedWalLsn then reclaimThrough publishedWalLsn removed s.sealedSegments
          else s.sealedSegments
        flush := none }
  | _ => none

def Collection.compactSelect (config : LsmConfig) (s : Collection) (job : Nat) :
    Option Collection :=
  match s.compactions.lookup job, publishedSsts config.codec s.dir with
  | none, .ok published =>
      let sized := (sortNames published).map fun name => (name, sstBytes config s.dir name)
      let inputs := selectSsts config sized
      if inputs.isEmpty then none
      else some { s with compactions :=
        s.compactions.insert job { inputs, phase := .selected (sized.map Prod.snd).sum } }
  | _, _ => none

/-- Whether the inputs are all published SSTs, asked again without the lock. -/
def Collection.compactCoverage (config : LsmConfig) (s : Collection) (job : Nat) :
    Option Collection :=
  match s.compactions.lookup job, publishedSsts config.codec s.dir with
  | some ⟨inputs, .selected totalSstBytes⟩, .ok published =>
      let fullCoverage := decide (0 < totalSstBytes) && published.length == inputs.length
      some { s with compactions := s.compactions.insert job ⟨inputs, .covered fullCoverage⟩ }
  | _, _ => none

def Collection.compactMerge (config : LsmConfig) (s : Collection) (job committedIndex : Nat)
    (clock : Nat → Nat) (micros sequence : Nat) (sidecars : Sidecars) : Option Collection :=
  match s.compactions.lookup job with
  | some ⟨inputs, .covered fullCoverage⟩ => do
      let read ← inputs.mapM (scanSst s.dir)
      let outName ← s.freshName micros sequence
      let rows := (read.flatMap Prod.snd).mapIdx fun i row => (row, clock i)
      let merged := mergeRows config committedIndex rows
      let written := s.dir.insert (tmpOf outName) (.sst (compactedRows fullCoverage merged))
      let merge := { outName, fullCoverage, committedIndex, read,
                     tombstones := droppedTombstones fullCoverage merged }
      return { s with
        dir := withSidecars written (tmpOf outName) sidecars
        handedOut := outName :: s.handedOut
        compactions := s.compactions.insert job ⟨inputs, .merged merge⟩ }
  | _ => none

def Collection.compactPublish (config : LsmConfig) (s : Collection) (job : Nat)
    (faults : CallerFaults) : Option Collection :=
  match s.compactions.lookup job with
  | some ⟨inputs, .merged merge⟩ =>
      match Lsm.compactPublish config.codec faults s.dir merge.outName inputs with
      | (left, .error _) => some { s with dir := left, compactions := s.compactions.erase job }
      | (left, .ok _) =>
          some { s with
            dir := left
            compactions := s.compactions.erase job
            reclaimed := s.reclaimed ++ merge.tombstones }
  | _ => none

def step (config : LsmConfig) (s : Collection) : Event → Option Collection
  | .put doc committedIndex time rollover =>
      let stored := putDocument config committedIndex doc
      s.write [stored] [(storageId config time stored, stored)] true rollover
  | .putMany docs committedIndex time rollover =>
      let stored := docs.map fun doc => stampVisibilityMetadata config.raft doc committedIndex
      let objects := stored.filter Json.isObject
      if docs.isEmpty then none
      else s.write stored (objects.map fun doc => (storageId config time doc, doc))
        (docs.all Json.isObject) rollover
  | .del id previousVersion nowNs nowMs committedIndex rollover => do
      let version ← tombVersion s.memtable id previousVersion nowNs
      let tomb := tombstone config committedIndex id version nowMs
      s.write [tomb] [(id, tomb)] true rollover
  | .walFails docs written rollover =>
      if s.poisoned then none
      else some { (if written then s.logRecord docs rollover else s) with poisoned := true }
  | .flushBegin => s.flushBegin
  | .flushWrite micros sequence sidecars => s.flushWrite micros sequence sidecars
  | .flushWriteFails micros sequence leftover => s.flushWriteFails micros sequence leftover
  | .flushPublish faults => s.flushPublish config faults
  | .reclaim removed => s.reclaim removed
  | .compactSelect job => s.compactSelect config job
  | .compactCoverage job => s.compactCoverage config job
  | .compactMerge job committedIndex clock micros sequence sidecars =>
      s.compactMerge config job committedIndex clock micros sequence sidecars
  | .compactPublish job faults => s.compactPublish config job faults
  | .compactAbort job => some { s with compactions := s.compactions.erase job }

/-! ## What a step does -/

theorem Collection.write_some {s t : Collection} {docs : List Json} {writes : List (String × Json)}
    {applied rollover : Bool} (taken : s.write docs writes applied rollover = some t) :
    s.poisoned = false ∧ t = { s.logRecord docs rollover with
      memtable := applyWrites s.memtable writes
      progress := if applied then markWalApplied s.progress s.nextLsn s.nextLsn else s.progress } := by
  unfold write at taken
  split at taken
  · cases taken
  next healthy =>
    cases taken
    exact ⟨Bool.eq_false_of_not_eq_true healthy, rfl⟩

/-- The documents a write logs and the memtable entries it makes. -/
def Event.writes (config : LsmConfig) (s : Collection) :
    Event → Option (List Json × List (String × Json) × Bool × Bool)
  | .put doc committedIndex time rollover =>
      let stored := putDocument config committedIndex doc
      some ([stored], [(storageId config time stored, stored)], true, rollover)
  | .putMany docs committedIndex time rollover =>
      let stored := docs.map fun doc => stampVisibilityMetadata config.raft doc committedIndex
      let objects := stored.filter Json.isObject
      some (stored, objects.map fun doc => (storageId config time doc, doc), docs.all Json.isObject,
        rollover)
  | .del id previousVersion nowNs nowMs committedIndex rollover => do
      let version ← tombVersion s.memtable id previousVersion nowNs
      let tomb := tombstone config committedIndex id version nowMs
      some ([tomb], [(id, tomb)], true, rollover)
  | _ => none

/-- Put, putMany and del are the same section with their own documents. -/
theorem step_write {config : LsmConfig} {s t : Collection} {e : Event} {docs : List Json}
    {writes : List (String × Json)} {applied rollover : Bool}
    (event : e.writes config s = some (docs, writes, applied, rollover))
    (taken : step config s e = some t) : s.write docs writes applied rollover = some t := by
  cases e with
  | put doc committedIndex time roll =>
    cases event
    exact taken
  | putMany docs committedIndex time roll =>
    cases event
    dsimp only [step] at taken
    split at taken
    · cases taken
    · exact taken
  | del id previousVersion nowNs nowMs committedIndex roll =>
    obtain ⟨version, found, rest⟩ := Option.bind_eq_some_iff.mp event
    cases rest
    obtain ⟨_, again, rest⟩ := Option.bind_eq_some_iff.mp taken
    cases found.symm.trans again
    exact rest
  | _ => cases event

section Inversion

variable {config : LsmConfig} {s t : Collection}

theorem Collection.flushBegin_some (taken : s.flushBegin = some t) :
    s.flush = none ∧ t = { s with
      memtable := ∅
      immutables := (s.nextHandle, s.memtable) :: s.immutables
      nextHandle := s.nextHandle + 1
      flush := some ⟨s.nextHandle, s.progress.contiguous, .swapped⟩ } := by
  unfold flushBegin at taken
  split at taken
  · cases taken
  next idle =>
    split at taken
    · cases taken
    · cases taken
      exact ⟨idle, rfl⟩

theorem Collection.flushWrite_some {micros sequence : Nat} {sidecars : Sidecars}
    (taken : s.flushWrite micros sequence sidecars = some t) :
    ∃ snapshot lsn n, s.flush = some ⟨snapshot, lsn, .swapped⟩ ∧
      s.freshName micros sequence = some n ∧ t = { s with
        dir := withSidecars (s.dir.insert (writingOf n)
          (.sst (s.snapshotTable ⟨snapshot, lsn, .swapped⟩).rows)) (writingOf n) sidecars
        handedOut := n :: s.handedOut
        flush := some ⟨snapshot, lsn, .written n⟩ } := by
  unfold flushWrite at taken
  split at taken
  next snapshot lsn running =>
    obtain ⟨n, fresh, rest⟩ := Option.bind_eq_some_iff.mp taken
    cases rest
    exact ⟨snapshot, lsn, n, running, fresh, rfl⟩
  next => cases taken

theorem Collection.flushWriteFails_some {micros sequence : Nat} {leftover : Option FileBody}
    (taken : s.flushWriteFails micros sequence leftover = some t) :
    ∃ n dir, s.freshName micros sequence = some n ∧
      (dir = s.dir ∨ ∃ body, dir = s.dir.insert (writingOf n) body) ∧
      t = { s with dir, handedOut := n :: s.handedOut, flush := none } := by
  unfold flushWriteFails at taken
  split at taken
  next =>
    obtain ⟨n, fresh, rest⟩ := Option.bind_eq_some_iff.mp taken
    cases rest
    refine ⟨n, _, fresh, ?_, rfl⟩
    cases leftover with
    | none => exact .inl rfl
    | some body => exact .inr ⟨body, rfl⟩
  next => cases taken

theorem Collection.flushPublish_some {faults : CallerFaults}
    (taken : s.flushPublish config faults = some t) :
    ∃ snapshot lsn n, s.flush = some ⟨snapshot, lsn, .written n⟩ ∧
      ((∃ left reason, Lsm.flushPublish config.codec faults s.dir n lsn = (left, .error reason) ∧
          t = { s with dir := left, flush := none }) ∨
        ∃ left next, Lsm.flushPublish config.codec faults s.dir n lsn = (left, .ok next) ∧
          t = { s with
            dir := left
            immutables := s.immutables.filter fun immutable => immutable.1 != snapshot
            flush := some ⟨snapshot, lsn, .published next.coveredWalLsn⟩ }) := by
  unfold flushPublish at taken
  split at taken
  next snapshot lsn n running =>
    refine ⟨snapshot, lsn, n, running, ?_⟩
    split at taken
    next left reason failed =>
      cases taken
      exact .inl ⟨left, reason, failed, rfl⟩
    next left next done =>
      cases taken
      exact .inr ⟨left, next, done, rfl⟩
  next => cases taken

theorem Collection.reclaim_some {removed : Nat} (taken : s.reclaim removed = some t) :
    ∃ snapshot lsn publishedWalLsn, s.flush = some ⟨snapshot, lsn, .published publishedWalLsn⟩ ∧
      t = { s with
        sealedSegments :=
          if 0 < publishedWalLsn then reclaimThrough publishedWalLsn removed s.sealedSegments
          else s.sealedSegments
        flush := none } := by
  unfold reclaim at taken
  split at taken
  next snapshot lsn publishedWalLsn running =>
    cases taken
    exact ⟨snapshot, lsn, publishedWalLsn, running, rfl⟩
  next => cases taken

theorem Collection.compactSelect_some {job : Nat} (taken : s.compactSelect config job = some t) :
    s.compactions.lookup job = none ∧ ∃ published inputs totalSstBytes,
      publishedSsts config.codec s.dir = .ok published ∧
      inputs = selectSsts config
        ((sortNames published).map fun name => (name, sstBytes config s.dir name)) ∧
      t = { s with compactions :=
        s.compactions.insert job ⟨inputs, .selected totalSstBytes⟩ } := by
  unfold compactSelect at taken
  split at taken
  next published idle names =>
    dsimp only at taken
    split at taken
    · cases taken
    · cases taken
      exact ⟨idle, published, _, _, names, rfl, rfl⟩
  next => cases taken

theorem Collection.compactCoverage_some {job : Nat}
    (taken : s.compactCoverage config job = some t) :
    ∃ inputs totalSstBytes published, s.compactions.lookup job =
        some ⟨inputs, .selected totalSstBytes⟩ ∧ publishedSsts config.codec s.dir = .ok published ∧
      t = { s with compactions := s.compactions.insert job ⟨inputs,
        .covered (decide (0 < totalSstBytes) && published.length == inputs.length)⟩ } := by
  unfold compactCoverage at taken
  split at taken
  next inputs totalSstBytes published running names =>
    cases taken
    exact ⟨inputs, totalSstBytes, published, running, names, rfl⟩
  next => cases taken

theorem Collection.compactMerge_some {job committedIndex micros sequence : Nat}
    {clock : Nat → Nat} {sidecars : Sidecars}
    (taken : s.compactMerge config job committedIndex clock micros sequence sidecars = some t) :
    ∃ inputs fullCoverage read outName,
      s.compactions.lookup job = some ⟨inputs, .covered fullCoverage⟩ ∧
      inputs.mapM (scanSst s.dir) = some read ∧ s.freshName micros sequence = some outName ∧
      let merged := mergeRows config committedIndex
        ((read.flatMap Prod.snd).mapIdx fun i row => (row, clock i))
      t = { s with
        dir := withSidecars
          (s.dir.insert (tmpOf outName) (.sst (compactedRows fullCoverage merged))) (tmpOf outName)
          sidecars
        handedOut := outName :: s.handedOut
        compactions := s.compactions.insert job ⟨inputs, .merged
          { outName, fullCoverage, committedIndex, read,
            tombstones := droppedTombstones fullCoverage merged }⟩ } := by
  unfold compactMerge at taken
  split at taken
  next inputs fullCoverage running =>
    obtain ⟨read, scanned, rest⟩ := Option.bind_eq_some_iff.mp taken
    obtain ⟨outName, fresh, rest⟩ := Option.bind_eq_some_iff.mp rest
    cases rest
    exact ⟨inputs, fullCoverage, read, outName, running, scanned, fresh, rfl⟩
  next => cases taken

theorem Collection.compactPublish_some {job : Nat} {faults : CallerFaults}
    (taken : s.compactPublish config job faults = some t) :
    ∃ inputs merge, s.compactions.lookup job = some ⟨inputs, .merged merge⟩ ∧
      ((∃ left reason,
          Lsm.compactPublish config.codec faults s.dir merge.outName inputs = (left, .error reason) ∧
          t = { s with dir := left, compactions := s.compactions.erase job }) ∨
        ∃ left next,
          Lsm.compactPublish config.codec faults s.dir merge.outName inputs = (left, .ok next) ∧
          t = { s with
            dir := left
            compactions := s.compactions.erase job
            reclaimed := s.reclaimed ++ merge.tombstones }) := by
  unfold compactPublish at taken
  split at taken
  next inputs merge running =>
    refine ⟨inputs, merge, running, ?_⟩
    split at taken
    next left reason failed =>
      cases taken
      exact .inl ⟨left, reason, failed, rfl⟩
    next left next done =>
      cases taken
      exact .inr ⟨left, next, done, rfl⟩
  next => cases taken

end Inversion

/-! ## A small engine for concrete runs -/

/-- A standalone engine with the text the code writes. -/
def standalone : LsmConfig where
  codec := jsonCodec
  dump _ := ""
  raft := { enabled := false, standaloneBypass := false }
  fileSize rows := rows.length

def versionOne (id : String) : Json := .object [("id", .string id), ("version", .unsigned 1)]

end PacificDb.Lsm
