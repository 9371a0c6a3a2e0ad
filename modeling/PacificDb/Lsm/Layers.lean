import PacificDb.Lsm.Digest
import PacificDb.Lsm.Drop

/-!
# The rows of a collection, layer by layer

A flush moves rows from memory to an SST and a compaction replaces SSTs by their
merge. Neither adds a row (`Maintains.sub`), and each row that goes is covered by
one that stays, or by a tombstone that no row elsewhere needs
(`Maintains.answered`).
-/

namespace PacificDb.Lsm

open Lib

variable {config : LsmConfig} {s t : Collection}

/-- A row of a published SST. -/
def OnDisk (config : LsmConfig) (dir : LsmDir) (row : Json) : Prop :=
  ∃ names, publishedSsts config.codec dir = .ok names ∧ ∃ name ∈ names, row ∈ sstRows dir name

def Present (config : LsmConfig) (s : Collection) (row : Json) : Prop :=
  Active s row ∨ Parked s row ∨ OnDisk config s.dir row

def SameId (config : LsmConfig) (row other : Json) : Prop :=
  ∃ id, docId? config.dump row = some id ∧ docId? config.dump other = some id

/-- A version of the row or a newer one is there, or a tombstone answers for it and
nothing older than that tombstone is there. -/
def Answered (config : LsmConfig) (from_ holds : Json → Prop) (row : Json) : Prop :=
  Kept config holds row ∨ ∃ tomb, from_ tomb ∧ isDeletedDoc tomb = true ∧ Covers config tomb row ∧
    ∀ other, holds other → SameId config tomb other → docScore tomb ≤ docScore other

/-- The published SSTs can all be scanned. -/
def Readable (config : LsmConfig) (dir : LsmDir) : Prop :=
  ∃ names, publishedSsts config.codec dir = .ok names ∧
    ∀ name ∈ names, ∃ rows, dir.lookup name = some (.sst rows)

structure LayersOk (config : LsmConfig) (s : Collection) : Prop where
  files : FilesOk config s
  handles : (s.immutables.map Prod.fst).Nodup
  handed : ∀ immutable ∈ s.immutables, immutable.1 < s.nextHandle
  readable : Readable config s.dir
  mergesClean : ∀ id job merge, s.compactions.lookup id = some job → job.merge? = some merge →
    ∀ row ∈ merge.read.flatMap Prod.snd, CleanRow config merge.committedIndex row

/-- What a step of a flush or a compaction does to the rows. -/
structure Maintains (config : LsmConfig) (s t : Collection) : Prop where
  layers : LayersOk config t
  memtable : t.memtable = s.memtable ∨ t.memtable = ∅
  parked : ∀ row, Parked t row → Active s row ∨ Parked s row
  sub : ∀ row, Present config t row → Present config s row
  answered : ∀ row, Present config s row → Answered config (Present config s) (Present config t) row

/-- The steps of flushes and compactions. -/
def Event.maintains : Event → Bool
  | .put .. | .putMany .. | .del .. | .walFails .. => false
  | _ => true

/-- The rows outside the inputs of a merge. -/
def Elsewhere (config : LsmConfig) (s : Collection) (inputs : List String) (row : Json) : Prop :=
  Active s row ∨ Parked s row ∨ ∃ names, publishedSsts config.codec s.dir = .ok names ∧
    ∃ name ∈ names, name ∉ inputs ∧ row ∈ sstRows s.dir name

/-- The condition under which maintenance keeps the rows: the manifest it asks for is of
a size that `load` reads and its last directory sync does not fail, a merge reads only
visible rows with an id, and it drops no tombstone that an older row elsewhere needs. -/
def CleanMaintenance (config : LsmConfig) (s : Collection) : Event → Prop
  | .flushPublish faults => faults.syncPublishedDirectory = true ∧ ManifestFits config s
  | .compactMerge job committedIndex clock micros sequence sidecars =>
      CleanEvent config s (.compactMerge job committedIndex clock micros sequence sidecars)
  | .compactPublish job faults => faults.syncPublishedDirectory = true ∧
      ∀ inputs merge, s.compactions.lookup job = some ⟨inputs, .merged merge⟩ →
        (∀ left next, compactPublish config.codec faults s.dir merge.outName inputs =
            (left, .ok next) →
          (config.codec.dump { next with sstFiles := sortNames next.sstFiles }).length ≤
            kMaxManifestBytes) ∧
        ∀ tomb ∈ merge.tombstones, ∀ row, Elsewhere config s inputs row →
          SameId config tomb row → docScore tomb ≤ docScore row
  | e => e.maintains = true

theorem CleanMaintenance.synced {e : Event} (clean : CleanMaintenance config s e) : SyncedEvent e := by
  cases e with
  | flushPublish faults => exact clean.1
  | compactPublish job faults => exact clean.1
  | _ => trivial

/-! ## Steps that publish nothing -/

theorem FilesOk.publishedSst (ok : FilesOk config s) {names : List String} {name : String}
    (published : publishedSsts config.codec s.dir = .ok names) (member : name ∈ names) :
    extension name = sstExtension :=
  extension_of_safe (ok.handedOutSafe name (ok.published published member).1)

/-- Only SSTs and the manifest decide which rows are on disk. -/
theorem LayersOk.onDisk_congr (ok : LayersOk config s) {left : LsmDir}
    (same : SameOn (fun name => extension name = sstExtension ∨ name = kManifestName) s.dir left) :
    Readable config left ∧ ∀ row, OnDisk config left row ↔ OnDisk config s.dir row := by
  obtain ⟨names, published, bodies⟩ := ok.readable
  have after := publishedSsts_congr (same _ (.inr rfl)) (fun name ext => same name (.inl ext)) published
  have kept : ∀ name ∈ names, left.lookup name = s.dir.lookup name := fun name member =>
    same name (.inl (ok.files.publishedSst published member))
  refine ⟨⟨names, after, fun name member => ?_⟩, fun row => ⟨?_, ?_⟩⟩
  · rw [kept name member]
    exact bodies name member
  · rintro ⟨others, isOthers, name, member, isRow⟩
    cases after.symm.trans isOthers
    refine ⟨names, published, name, member, ?_⟩
    rwa [sstRows, kept name member, ← sstRows] at isRow
  · rintro ⟨others, isOthers, name, member, isRow⟩
    cases published.symm.trans isOthers
    refine ⟨names, after, name, member, ?_⟩
    rwa [sstRows, kept name member, ← sstRows]

/-- A step that leaves the SSTs and the manifest alone. -/
theorem Maintains.quiet (ok : LayersOk config s) (files : FilesOk config t)
    (same : SameOn (fun name => extension name = sstExtension ∨ name = kManifestName) s.dir t.dir)
    (memory : (t.memtable = s.memtable ∧ t.immutables = s.immutables ∧ t.nextHandle = s.nextHandle) ∨
      (t.memtable = ∅ ∧ t.immutables = (s.nextHandle, s.memtable) :: s.immutables ∧
        t.nextHandle = s.nextHandle + 1))
    (merges : ∀ id job merge, t.compactions.lookup id = some job → job.merge? = some merge →
      ∀ row ∈ merge.read.flatMap Prod.snd, CleanRow config merge.committedIndex row) :
    Maintains config s t := by
  obtain ⟨readable, disk⟩ := ok.onDisk_congr same
  rcases memory with ⟨memtable, immutables, handle⟩ | ⟨memtable, immutables, handle⟩
  · have present : ∀ row, Present config t row ↔ Present config s row := by
      intro row
      unfold Present Active Parked
      rw [memtable, immutables, disk]
    constructor
    case layers =>
      refine ⟨files, ?_, ?_, readable, merges⟩
      · rw [immutables]
        exact ok.handles
      · rw [immutables, handle]
        exact ok.handed
    case memtable => exact .inl memtable
    case parked =>
      unfold Parked
      rw [immutables]
      exact fun row held => .inr held
    case sub => exact fun row held => (present row).mp held
    case answered => exact fun row held => .inl (.of_holds ((present row).mpr held))
  · have parked : ∀ row, Parked t row ↔ Active s row ∨ Parked s row := by
      intro row
      unfold Parked Active
      rw [immutables]
      constructor
      · rintro ⟨immutable, member, held⟩
        rcases List.mem_cons.mp member with rfl | old
        · exact .inl held
        · exact .inr ⟨immutable, old, held⟩
      · rintro (held | ⟨immutable, old, held⟩)
        · exact ⟨_, .head _, held⟩
        · exact ⟨immutable, .tail _ old, held⟩
    have inactive : ∀ row, ¬Active t row := by
      rintro row ⟨id, found⟩
      rw [memtable] at found
      cases found
    constructor
    case layers =>
      refine ⟨files, ?_, ?_, readable, merges⟩
      · rw [immutables, List.map_cons, List.nodup_cons]
        refine ⟨fun member => ?_, ok.handles⟩
        obtain ⟨immutable, old, same⟩ := List.mem_map.mp member
        exact (ok.handed immutable old).ne same
      · intro immutable member
        rw [immutables] at member
        rw [handle]
        rcases List.mem_cons.mp member with rfl | old
        · exact Nat.lt_succ_self _
        · exact (ok.handed immutable old).trans (Nat.lt_succ_self _)
    case memtable => exact .inr memtable
    case parked => exact fun row held => (parked row).mp held
    case sub =>
      rintro row (held | held | held)
      · exact absurd held (inactive row)
      · exact ((parked row).mp held).imp_right .inl
      · exact .inr (.inr ((disk row).mp held))
    case answered =>
      rintro row (held | held | held)
      · exact .inl (.of_holds (.inr (.inl ((parked row).mpr (.inl held)))))
      · exact .inl (.of_holds (.inr (.inl ((parked row).mpr (.inr held)))))
      · exact .inl (.of_holds (.inr (.inr ((disk row).mpr held))))

/-- A job for `n` that leaves the other SSTs and the manifest alone, and no SST of its own. -/
theorem sameOn_ssts {dir left : LsmDir} {n : String}
    (frame : SameOn (fun name => OtherFile n name ∨ name = kManifestName) dir left)
    (own : left.lookup n = dir.lookup n) :
    SameOn (fun name => extension name = sstExtension ∨ name = kManifestName) dir left := by
  rintro name (ext | manifest)
  · by_cases same : name = n
    · rw [same, own]
    · exact frame name (.inl (.inl ⟨ext, same⟩))
  · exact frame name (.inr manifest)

theorem sameOn_unfinished {dir : LsmDir} {n source : String} (body : FileBody) (sidecars : Sidecars)
    (safe : safeSstName n = true) (own : ¬OtherFile n source) (aux : Auxiliary source) :
    SameOn (fun name => extension name = sstExtension ∨ name = kManifestName) dir
      (withSidecars (dir.insert source body) source sidecars) := by
  have frame := sameOn_write_unfinished dir body sidecars safe own aux
  exact sameOn_ssts (frame.mono fun name kept => kept.imp_right .inr) (frame n (.inr (.inl rfl)))

/-- A failed publish section of a compaction leaves no SST of its own. -/
theorem compactPublish_error_absent {codec : ManifestCodec} {faults : CallerFaults}
    {dir left : LsmDir} {n : String} {inputs : List String} {reason : String}
    (safe : safeSstName n = true) (absent : dir.lookup n = none)
    (failed : compactPublish codec faults dir n inputs = (left, .error reason)) :
    left.lookup n = none := by
  have apart : ∀ source, ∀ sidecar ∈ sidecarsOf source, sidecar ≠ n := by
    rintro source sidecar member rfl
    rw [(Auxiliary.of_mem_sidecarsOf member).notSst] at safe
    cases safe
  have bloomed : ∀ state : LsmDir × Bool, ∀ source target succeeds, source ≠ n → target ≠ n →
      (renameSidecar state source target succeeds).1.lookup n = state.1.lookup n := by
    intro state source target succeeds first second
    exact @sameOn_renameSidecar (· = n) state source target succeeds first second n rfl
  have bloomNe : ∀ source, bloomOf source ≠ n := fun source => apart source _ (.head _)
  have sparseNe : ∀ source, sparseOf source ≠ n := fun source => apart source _ (.tail _ (.head _))
  rcases publishSection_error failed with request | ⟨moved, next, after, why, request, rfl, -⟩
  · unfold compactRequest at request
    dsimp only at request
    split at request
    · cases request
      rw [bloomed _ _ _ _ (bloomNe _) (bloomNe _), absent]
    · split at request
      · cases request
        rw [lookup_removeAll_of_not_mem fun member => bloomNe n (List.mem_singleton.mp member).symm,
          bloomed _ _ _ _ (sparseNe _) (sparseNe _), bloomed _ _ _ _ (bloomNe _) (bloomNe _), absent]
      · split at request
        next refused =>
          cases request
          rw [lookup_removeAll_of_not_mem fun member => apart n n member rfl]
          -- The rename that fails leaves the directory as it is.
          unfold renameArtifact at refused ⊢
          split
          · split
            next moved renamed => simp [*] at refused
            next =>
              rw [bloomed _ _ _ _ (sparseNe _) (sparseNe _),
                bloomed _ _ _ _ (bloomNe _) (bloomNe _), absent]
          · rw [bloomed _ _ _ _ (sparseNe _) (sparseNe _),
              bloomed _ _ _ _ (bloomNe _) (bloomNe _), absent]
        · split at request
          · cases request
            exact lookup_removeAll_of_mem (.head _)
          · cases request
            exact lookup_removeAll_of_mem (.head _)
          · split at request
            · cases request
            · cases request
              exact lookup_removeAll_of_mem (.head _)
  · exact lookup_removeAll_of_mem (.head _)

/-! ## A published flush -/

theorem lookup_of_mem_nodup {immutables : List (Nat × Memtable)} {immutable : Nat × Memtable}
    (handles : (immutables.map Prod.fst).Nodup) (member : immutable ∈ immutables) :
    immutables.lookup immutable.1 = some immutable.2 := by
  induction immutables with
  | nil => cases member
  | cons first rest ih =>
    rw [List.map_cons, List.nodup_cons] at handles
    rw [List.lookup_cons]
    rcases List.mem_cons.mp member with rfl | later
    · rw [beq_self_eq_true]
    · have apart : (immutable.1 == first.1) = false := by
        rw [beq_eq_false_iff_ne]
        exact fun same => handles.1 (same ▸ List.mem_map_of_mem later)
      rw [apart]
      exact ih handles.2 later

theorem mem_of_lookup_eq_some {immutables : List (Nat × Memtable)} {handle : Nat} {table : Memtable}
    (found : immutables.lookup handle = some table) : (handle, table) ∈ immutables := by
  induction immutables with
  | nil => cases found
  | cons first rest ih =>
    rw [List.lookup_cons] at found
    cases same : handle == first.1 with
    | true =>
      rw [same] at found
      cases found
      rw [beq_iff_eq.mp same]
      exact .head _
    | false =>
      rw [same] at found
      exact .tail _ (ih found)

theorem Maintains.flushPublish (ok : LayersOk config s) (files : FilesOk config t)
    {faults : CallerFaults} (synced : faults.syncPublishedDirectory = true)
    (fits : ManifestFits config s) (taken : s.flushPublish config faults = some t) :
    Maintains config s t := by
  obtain ⟨snapshot, lsn, n, running, outcome⟩ := Collection.flushPublish_some taken
  have pending : PendingName s n := .inl ⟨_, running, rfl⟩
  have safe := ok.files.pendingSafe n pending
  rcases outcome with ⟨left, reason, failed, rfl⟩ | ⟨left, next, done, rfl⟩
  · have absent := ok.files.pendingAbsent n pending
    exact .quiet ok files
      (sameOn_ssts (flushPublish_failed safe synced failed) ((flushPublish_error_absent absent failed).trans absent.symm))
      (.inl ⟨rfl, rfl, rfl⟩) ok.mergesClean
  · obtain ⟨published, -⟩ := flushPublish_ok safe done
    obtain ⟨names, before, listedIff⟩ := published.names
    obtain ⟨manifest, loads⟩ := flushPublish_loads
      (fun published known => fits snapshot lsn n published running known) done
    have after : publishedSsts config.codec left = .ok manifest.sstFiles := by
      rw [publishedSsts, loads]
    have members : ∀ name, name ∈ manifest.sstFiles ↔ name ∈ names ∨ name = n := fun name => by
      rw [← listed_of_load_ok loads, listedIff]
    have kept : ∀ name ∈ names, left.lookup name = s.dir.lookup name := by
      intro name member
      have other : name ≠ n := fun own => (ok.files.published before member).2 (own ▸ pending)
      exact published.others safe name (.inl ⟨ok.files.publishedSst before member, other⟩)
    have file : left.lookup n = some (.sst (s.snapshotTable ⟨snapshot, lsn, .written n⟩).rows) := by
      rw [published.inPlace, ok.files.flushFile _ n running rfl]
    obtain ⟨others, isOthers, bodies⟩ := ok.readable
    cases before.symm.trans isOthers
    have parkedSub : ∀ row, (∃ immutable ∈ s.immutables.filter fun immutable =>
        immutable.1 != snapshot, ∃ id, immutable.2.lookup id = some row) → Parked s row := by
      rintro row ⟨immutable, member, held⟩
      exact ⟨immutable, (List.mem_filter.mp member).1, held⟩
    constructor
    case layers =>
      refine ⟨files, ?_, fun immutable member => ok.handed immutable (List.mem_filter.mp member).1,
        ⟨_, after, fun name member => ?_⟩, ok.mergesClean⟩
      · exact ok.handles.sublist (List.filter_sublist.map _)
      · rcases (members name).mp member with old | rfl
        · rw [kept name old]
          exact bodies name old
        · exact ⟨_, file⟩
    case memtable => exact .inl rfl
    case parked => exact fun row held => .inr (parkedSub row held)
    case sub =>
      rintro row (held | held | ⟨others, isOthers, name, member, isRow⟩)
      · exact .inl held
      · exact .inr (.inl (parkedSub row held))
      · cases after.symm.trans isOthers
        rcases (members name).mp member with old | rfl
        · dsimp only at isRow
          rw [sstRows, kept name old, ← sstRows] at isRow
          exact .inr (.inr ⟨names, before, name, old, isRow⟩)
        · dsimp only at isRow
          rw [sstRows, file, Collection.snapshotTable] at isRow
          cases found : s.immutables.lookup snapshot with
          | none =>
            rw [found] at isRow
            cases isRow
          | some table =>
            rw [found] at isRow
            exact .inr (.inl ⟨_, mem_of_lookup_eq_some found, Memtable.mem_rows.mp isRow⟩)
    case answered =>
      rintro row (held | ⟨immutable, member, held⟩ | ⟨others, isOthers, name, member, isRow⟩)
      · exact .inl (.of_holds (.inl held))
      · by_cases own : immutable.1 = snapshot
        · refine .inl (.of_holds (.inr (.inr ⟨_, after, n, (members n).mpr (.inr rfl), ?_⟩)))
          dsimp only
          rw [sstRows, file, Collection.snapshotTable, ← own, lookup_of_mem_nodup ok.handles member]
          exact Memtable.mem_rows.mpr held
        · refine .inl (.of_holds (.inr (.inl ⟨immutable, List.mem_filter.mpr ⟨member, ?_⟩, held⟩)))
          exact bne_iff_ne.mpr own
      · cases before.symm.trans isOthers
        refine .inl (.of_holds (.inr (.inr ⟨_, after, name, (members name).mpr (.inl member), ?_⟩)))
        dsimp only
        rwa [sstRows, kept name member, ← sstRows]

/-! ## A published compaction -/

/-- A merge writes only rows it has read. -/
theorem mem_of_lookup_mergeRows {committedIndex : Nat} {rows : List (Json × Nat)} {id : String}
    {row : Json} (found : (mergeRows config committedIndex rows).lookup id = some row) :
    ∃ read ∈ rows, read.1 = row := by
  suffices folded : ∀ table : Memtable,
      (rows.foldl (mergeRow config committedIndex) table).lookup id = some row →
        table.lookup id = some row ∨ ∃ read ∈ rows, read.1 = row by
    rcases folded ∅ found with empty | read
    · cases empty
    · exact read
  clear found
  induction rows with
  | nil => exact fun table found => .inl found
  | cons first rest ih =>
    intro table found
    rw [List.foldl_cons] at found
    rcases ih _ found with early | ⟨read, member, same⟩
    · unfold mergeRow at early
      split at early
      · exact .inl early
      · rw [lookup_upsertNewer] at early
        split at early
        next own =>
          cases old : table.lookup (storageId config first.2 first.1) with
          | none =>
            rw [old] at early
            cases early
            exact .inr ⟨first, .head _, rfl⟩
          | some current =>
            rw [old] at early
            simp only [latest] at early
            split at early
            · cases early
              exact .inr ⟨first, .head _, rfl⟩
            · exact .inl (own ▸ old.trans early)
        next => exact .inl early
    · exact .inr ⟨read, .tail _ member, same⟩

theorem Merge.mem_read {merge : Merge} {clock : Nat → Nat} {row : Json}
    (isRow : row ∈ (merge.table config clock).rows) : row ∈ merge.read.flatMap Prod.snd := by
  obtain ⟨id, found⟩ := Memtable.mem_rows.mp isRow
  obtain ⟨read, member, rfl⟩ := mem_of_lookup_mergeRows found
  obtain ⟨i, inBounds, rfl⟩ := List.mem_mapIdx.mp member
  exact List.getElem_mem inBounds

theorem Merge.table_keyed {merge : Merge} (clock : Nat → Nat)
    (clean : ∀ row ∈ merge.read.flatMap Prod.snd, CleanRow config merge.committedIndex row) :
    Keyed config (merge.table config clock) := by
  refine (mergeRows_keeps fun pair inMerge => ?_).1
  obtain ⟨i, inBounds, rfl⟩ := List.mem_mapIdx.mp inMerge
  exact clean _ (List.getElem_mem inBounds)

/-- A row of an id is the only one of the merge. -/
theorem Merge.table_unique {merge : Merge} {clock : Nat → Nat}
    (keyed : Keyed config (merge.table config clock)) {row other : Json}
    (isRow : row ∈ (merge.table config clock).rows) (isOther : other ∈ (merge.table config clock).rows)
    (same : SameId config row other) : row = other := by
  obtain ⟨id, rowId, otherId⟩ := same
  obtain ⟨key, found⟩ := Memtable.mem_rows.mp isRow
  obtain ⟨otherKey, otherFound⟩ := Memtable.mem_rows.mp isOther
  cases (keyed key row found).symm.trans rowId
  cases (keyed otherKey other otherFound).symm.trans otherId
  exact Option.some.inj (found.symm.trans otherFound)

theorem Maintains.compactPublish (ok : LayersOk config s) (files : FilesOk config t) {job : Nat}
    {faults : CallerFaults} (clean : CleanMaintenance config s (.compactPublish job faults))
    (taken : s.compactPublish config job faults = some t) : Maintains config s t := by
  obtain ⟨synced, cleanMerge⟩ := clean
  obtain ⟨inputs, merge, running, outcome⟩ := Collection.compactPublish_some taken
  obtain ⟨fits, needed⟩ := cleanMerge inputs merge running
  have pending : PendingName s merge.outName := .inr ⟨job, _, merge, running, rfl, rfl⟩
  have safe := ok.files.pendingSafe _ pending
  have merges : ∀ id other otherMerge, (s.compactions.erase job).lookup id = some other →
      other.merge? = some otherMerge → ∀ row ∈ otherMerge.read.flatMap Prod.snd,
        CleanRow config otherMerge.committedIndex row := fun id other otherMerge looked =>
    ok.mergesClean id other otherMerge (lookup_erase_eq_some looked).2
  rcases outcome with ⟨left, reason, failed, rfl⟩ | ⟨left, next, done, rfl⟩
  · have absent := ok.files.pendingAbsent _ pending
    exact .quiet ok files
      (sameOn_ssts (compactPublish_failed safe synced failed)
        ((compactPublish_error_absent safe absent failed).trans absent.symm))
      (.inl ⟨rfl, rfl, rfl⟩) merges
  · obtain ⟨names, before, bodies⟩ := ok.readable
    obtain ⟨after, published⟩ := ok.files.publishedAfter running done (fits left next done) before
    have merged := ok.files.mergedFile job _ merge running rfl
    have readNames : merge.read.map Prod.fst = inputs := merged.inputs
    obtain ⟨clock, written, tombstones⟩ := merged.output
    have mergeClean := ok.mergesClean job _ merge running rfl
    have keyed := Merge.table_keyed clock mergeClean
    have output : left.lookup merge.outName =
        some (.sst (compactedRows merge.fullCoverage (merge.table config clock))) := by
      rw [published.output, written]
    -- The rows the merge has read are those of its inputs.
    have read : ∀ row, row ∈ merge.read.flatMap Prod.snd ↔
        ∃ name ∈ inputs, row ∈ sstRows s.dir name := by
      have body : ∀ pair ∈ merge.read, sstRows s.dir pair.1 = pair.2 := by
        intro pair member
        have isInput : pair.1 ∈ inputs := readNames ▸ List.mem_map_of_mem member
        obtain ⟨rows, found⟩ := bodies pair.1 (published.inputsPublished _ isInput)
        have same := merged.unchanged pair member _ found
        rw [sstRows, found, same]
      intro row
      rw [List.mem_flatMap]
      constructor
      · rintro ⟨pair, member, isRow⟩
        exact ⟨pair.1, readNames ▸ List.mem_map_of_mem member, (body pair member).symm ▸ isRow⟩
      · rintro ⟨name, isInput, isRow⟩
        have inRead : name ∈ merge.read.map Prod.fst := by
          rw [readNames]
          exact isInput
        obtain ⟨pair, member, rfl⟩ := List.mem_map.mp inRead
        exact ⟨pair, member, body pair member ▸ isRow⟩
    have wasPresent : ∀ row, row ∈ merge.read.flatMap Prod.snd → Present config s row := by
      intro row member
      obtain ⟨name, isInput, isRow⟩ := (read row).mp member
      exact .inr (.inr ⟨names, before, name, published.inputsPublished name isInput, isRow⟩)
    have isOutput : ∀ row ∈ compactedRows merge.fullCoverage (merge.table config clock),
        row ∈ (merge.table config clock).rows := fun row member => (List.mem_filter.mp member).1
    have presentAfter : ∀ row, Present config
        { s with
          dir := left
          compactions := s.compactions.erase job
          reclaimed := s.reclaimed ++ merge.tombstones } row →
        Elsewhere config s inputs row ∨
          row ∈ compactedRows merge.fullCoverage (merge.table config clock) := by
      rintro row (held | held | ⟨others, isOthers, name, member, isRow⟩)
      · exact .inl (.inl held)
      · exact .inl (.inr (.inl held))
      · cases published.published.symm.trans isOthers
        dsimp only at isRow
        rcases (published.members name).mp member with ⟨old, notInput⟩ | rfl
        · rw [sstRows, published.kept name old notInput, ← sstRows] at isRow
          exact .inl (.inr (.inr ⟨names, before, name, old, notInput, isRow⟩))
        · rw [sstRows, output] at isRow
          exact .inr isRow
    constructor
    case layers =>
      refine ⟨files, ok.handles, ok.handed, ⟨after, published.published, fun name member => ?_⟩, merges⟩
      rcases (published.members name).mp member with ⟨old, notInput⟩ | rfl
      · dsimp only
        rw [published.kept name old notInput]
        exact bodies name old
      · exact ⟨_, output⟩
    case memtable => exact .inl rfl
    case parked => exact fun row held => .inr held
    case sub =>
      intro row held
      rcases presentAfter row held with (active | parked | ⟨others, isOthers, name, old, -, isRow⟩) | out
      · exact .inl active
      · exact .inr (.inl parked)
      · exact .inr (.inr ⟨others, isOthers, name, old, isRow⟩)
      · exact wasPresent row (Merge.mem_read (isOutput row out))
    case answered =>
      rintro row (held | held | ⟨others, isOthers, name, member, isRow⟩)
      · exact .inl (.of_holds (.inl held))
      · exact .inl (.of_holds (.inr (.inl held)))
      · cases before.symm.trans isOthers
        by_cases input : name ∈ inputs
        · obtain ⟨kept, stays, covers⟩ := Merge.keeps clock mergeClean row
            ((read row).mpr ⟨name, input, isRow⟩)
          rcases stays with stays | dropped
          · refine .inl ⟨kept, .inr (.inr ⟨after, published.published, merge.outName,
              (published.members _).mpr (.inr rfl), ?_⟩), covers⟩
            dsimp only
            rwa [sstRows, output]
          · -- A dropped tombstone: what is left of its id is not older.
            obtain ⟨isKept, gone⟩ := List.mem_filter.mp dropped
            refine .inr ⟨kept, wasPresent kept (Merge.mem_read isKept),
              (Bool.and_eq_true _ _ |>.mp gone).2, covers, fun other present same => ?_⟩
            rcases presentAfter other present with elsewhere | out
            · exact needed kept (tombstones ▸ dropped) other elsewhere same
            · rw [Merge.table_unique keyed isKept (isOutput other out) same]
        · refine .inl (.of_holds (.inr (.inr ⟨after, published.published, name,
            (published.members name).mpr (.inl ⟨member, input⟩), ?_⟩)))
          dsimp only
          rwa [sstRows, published.kept name member input, ← sstRows]

/-! ## Every step -/

/-- A clean step of a flush or a compaction adds no row and leaves every row answered for. -/
theorem LayersOk.maintains (ok : LayersOk config s) {e : Event} (maintenance : e.maintains = true)
    (clean : CleanMaintenance config s e) (taken : step config s e = some t) :
    Maintains config s t := by
  have files := ok.files.step clean.synced taken
  have idle : ∀ {id : Nat} {inputs : List String} {phase : CompactPhase},
      (CompactJob.merge? ⟨inputs, phase⟩ = none) → ∀ other job merge,
        (s.compactions.insert id ⟨inputs, phase⟩).lookup other = some job → job.merge? = some merge →
          ∀ row ∈ merge.read.flatMap Prod.snd, CleanRow config merge.committedIndex row := by
    intro id inputs phase none other job merge looked merged
    rcases lookup_insert_eq_some looked with ⟨-, rfl⟩ | ⟨-, was⟩
    · rw [none] at merged
      cases merged
    · exact ok.mergesClean other job merge was merged
  cases e with
  | put | putMany | del | walFails => cases maintenance
  | flushBegin =>
    obtain ⟨-, rfl⟩ := Collection.flushBegin_some taken
    exact .quiet ok files .refl (.inr ⟨rfl, rfl, rfl⟩) ok.mergesClean
  | flushWrite micros sequence sidecars =>
    obtain ⟨snapshot, lsn, n, running, fresh, rfl⟩ := Collection.flushWrite_some taken
    obtain ⟨-, safe⟩ := Collection.freshName_eq_some fresh
    exact .quiet ok files
      (sameOn_unfinished _ sidecars safe (not_otherFile_writingOf n) (.of_writingOf n))
      (.inl ⟨rfl, rfl, rfl⟩) ok.mergesClean
  | flushWriteFails micros sequence leftover =>
    obtain ⟨n, dir, fresh, shape, rfl⟩ := Collection.flushWriteFails_some taken
    obtain ⟨-, safe⟩ := Collection.freshName_eq_some fresh
    refine .quiet ok files ?_ (.inl ⟨rfl, rfl, rfl⟩) ok.mergesClean
    rcases shape with rfl | ⟨body, rfl⟩
    · exact .refl
    · refine .insert ?_
      rintro (ext | manifest)
      · exact (Auxiliary.of_writingOf n).extension_ne ext
      · exact (Auxiliary.of_writingOf n).notManifest manifest
  | flushPublish faults => exact .flushPublish ok files clean.1 clean.2 taken
  | reclaim removed =>
    obtain ⟨snapshot, lsn, publishedWalLsn, running, rfl⟩ := Collection.reclaim_some taken
    exact .quiet ok files .refl (.inl ⟨rfl, rfl, rfl⟩) ok.mergesClean
  | compactSelect job =>
    obtain ⟨-, published, inputs, total, names, rfl, rfl⟩ := Collection.compactSelect_some taken
    exact .quiet ok files .refl (.inl ⟨rfl, rfl, rfl⟩) (idle rfl)
  | compactCoverage job =>
    obtain ⟨inputs, total, published, running, -, rfl⟩ := Collection.compactCoverage_some taken
    exact .quiet ok files .refl (.inl ⟨rfl, rfl, rfl⟩) (idle rfl)
  | compactMerge job committedIndex clock micros sequence sidecars =>
    obtain ⟨inputs, fullCoverage, read, n, running, scanned, fresh, rfl⟩ :=
      Collection.compactMerge_some taken
    obtain ⟨-, safe⟩ := Collection.freshName_eq_some fresh
    obtain ⟨names, bodies⟩ := map_fst_of_mapM_scanSst scanned
    refine .quiet ok files
      (sameOn_unfinished _ sidecars safe (not_otherFile_tmpOf n) (.of_tmpOf n))
      (.inl ⟨rfl, rfl, rfl⟩) fun id other merge looked merged row member => ?_
    rcases lookup_insert_eq_some looked with ⟨-, rfl⟩ | ⟨-, was⟩
    · cases merged
      obtain ⟨input, isRead, inRows⟩ := List.mem_flatMap.mp member
      refine clean _ running input.1 (names ▸ List.mem_map_of_mem isRead) row ?_
      rw [sstRows, bodies input isRead]
      exact inRows
    · exact ok.mergesClean id other merge was merged row member
  | compactPublish job faults => exact .compactPublish ok files clean taken
  | compactAbort job =>
    cases taken
    exact .quiet ok files .refl (.inl ⟨rfl, rfl, rfl⟩) fun id other merge looked =>
      ok.mergesClean id other merge (lookup_erase_eq_some looked).2

end PacificDb.Lsm
