import Mathlib.Data.List.TakeWhile
import PacificDb.Lsm.Files

/-!
# Checkpoint soundness

A published manifest promises that the WAL up to its `coveredWalLsn` is no
longer needed: the effect of every record up to there is in an SST it lists.
`flush` takes that LSN from the apply progress when it swaps the memtable, and
a flush that fails leaves its memtable parked among the immutable ones, where
no later flush picks it up although its LSNs are applied.

The promise is kept in every run in which no flush publishes while such a
memtable is parked (`checkpoint_sound`), the last directory sync of a
publication does not fail, no write replaces a newer version in the memtable,
and no compaction merges rows that are invisible or without an id.
-/

namespace PacificDb.Lsm

open Lib

variable {config : LsmConfig} {s t : Collection}

/-! ## Versions -/

/-- `row` is `doc`, or the same or a newer version of its id. -/
def Covers (config : LsmConfig) (row doc : Json) : Prop :=
  row = doc ∨ ∃ id, docId? config.dump row = some id ∧ docId? config.dump doc = some id ∧
    isCandidateNewer row doc = true

theorem Covers.refl (doc : Json) : Covers config doc doc := .inl rfl

theorem Covers.trans {last row doc : Json} (second : Covers config last row)
    (first : Covers config row doc) : Covers config last doc := by
  rcases second with rfl | ⟨id, lastId, rowId, newer⟩
  · exact first
  · rcases first with rfl | ⟨otherId, sameId, docsId, older⟩
    · exact .inr ⟨id, lastId, rowId, newer⟩
    · obtain rfl : id = otherId := Option.some.inj (rowId.symm.trans sameId)
      refine .inr ⟨id, lastId, docsId, ?_⟩
      rw [isCandidateNewer_iff] at newer older ⊢
      exact older.trans newer

/-- The version of `doc`, or a newer one, is among the rows of `holds`. -/
def Kept (config : LsmConfig) (holds : Json → Prop) (doc : Json) : Prop :=
  ∃ row, holds row ∧ Covers config row doc

theorem Kept.of_holds {holds : Json → Prop} {doc : Json} (held : holds doc) :
    Kept config holds doc :=
  ⟨doc, held, .refl doc⟩

theorem Kept.trans {holds after : Json → Prop} {doc : Json} (kept : Kept config holds doc)
    (moves : ∀ row, holds row → Kept config after row) : Kept config after doc := by
  obtain ⟨row, held, covers⟩ := kept
  obtain ⟨last, stays, newer⟩ := moves row held
  exact ⟨last, stays, newer.trans covers⟩

theorem Kept.mono {holds after : Json → Prop} {doc : Json} (kept : Kept config holds doc)
    (sub : ∀ row, holds row → after row) : Kept config after doc :=
  kept.trans fun row held => .of_holds (sub row held)

/-! ## Apply progress -/

/-- The progress counts `n` as applied. -/
def Marked (progress : WalApplyProgress) (n : Nat) : Prop :=
  n ≤ progress.contiguous ∨ ∃ interval ∈ progress.intervals, interval.1 ≤ n ∧ n ≤ interval.2

theorem mem_absorbFollowing {first last n : Nat} {following : List (Nat × Nat)}
    (order : first ≤ last + 1)
    (covered : ∃ interval ∈ absorbFollowing first last following,
      interval.1 ≤ n ∧ n ≤ interval.2) :
    (first ≤ n ∧ n ≤ last) ∨ ∃ interval ∈ following, interval.1 ≤ n ∧ n ≤ interval.2 := by
  induction following generalizing last with
  | nil => simpa [absorbFollowing] using covered
  | cons next rest ih =>
    unfold absorbFollowing at covered
    split at covered
    next touches =>
      rcases ih (by omega) covered with ⟨lower, upper⟩ | ⟨interval, member, inside⟩
      · by_cases own : n ≤ last
        · exact .inl ⟨lower, own⟩
        · exact .inr ⟨next, .head _, by omega, by omega⟩
      · exact .inr ⟨interval, .tail _ member, inside⟩
    next =>
      obtain ⟨interval, member, inside⟩ := covered
      rcases List.mem_cons.mp member with rfl | member
      · exact .inl inside
      · exact .inr ⟨interval, member, inside⟩

theorem marked_advanceContiguous {contiguous n : Nat} {intervals : List (Nat × Nat)}
    (marked : Marked (advanceContiguous contiguous intervals) n) :
    n ≤ contiguous ∨ ∃ interval ∈ intervals, interval.1 ≤ n ∧ n ≤ interval.2 := by
  induction intervals generalizing contiguous with
  | nil => simpa [advanceContiguous, Marked] using marked
  | cons next rest ih =>
    unfold advanceContiguous at marked
    split at marked
    next touches =>
      rcases ih marked with upper | ⟨interval, member, inside⟩
      · by_cases own : n ≤ contiguous
        · exact .inl own
        · exact .inr ⟨next, .head _, by omega, by omega⟩
      · exact .inr ⟨interval, .tail _ member, inside⟩
    next => exact marked

/-- The joined range is the given one and the interval before it. -/
theorem joinPrevious_spec {first last : Nat} {before : List (Nat × Nat)} (order : first ≤ last)
    (lower : ∀ interval ∈ before, interval.1 < first) :
    (∀ interval ∈ (joinPrevious first last before).1, interval ∈ before) ∧
      (joinPrevious first last before).2.1 ≤ (joinPrevious first last before).2.2 + 1 ∧
      ∀ n, (joinPrevious first last before).2.1 ≤ n → n ≤ (joinPrevious first last before).2.2 →
        (first ≤ n ∧ n ≤ last) ∨ ∃ interval ∈ before, interval.1 ≤ n ∧ n ≤ interval.2 := by
  unfold joinPrevious
  split
  next previous isLast =>
    have isPrevious : previous ∈ before := List.mem_of_getLast? isLast
    have starts := lower previous isPrevious
    split
    next touches =>
      refine ⟨fun interval member => List.dropLast_subset before member, by dsimp only; omega,
        fun n above below => ?_⟩
      by_cases joined : n ≤ previous.2
      · exact .inr ⟨previous, isPrevious, above, joined⟩
      · dsimp only at above below
        exact .inl ⟨by omega, by omega⟩
    next => exact ⟨fun _ member => member, by dsimp only; omega, fun n above below => .inl ⟨above, below⟩⟩
  next => exact ⟨fun _ member => member, by dsimp only; omega, fun n above below => .inl ⟨above, below⟩⟩

/-- `markWalApplied` adds nothing but the given range. -/
theorem marked_markWalApplied {progress : WalApplyProgress} {first last n : Nat}
    (marked : Marked (markWalApplied progress first last) n) :
    Marked progress n ∨ (first ≤ n ∧ n ≤ last) := by
  unfold markWalApplied at marked
  split at marked
  · exact .inl marked
  · split at marked
    · exact .inl marked
    next advance =>
      dsimp only at marked
      set start := max first (progress.contiguous + 1) with startEq
      set before := progress.intervals.takeWhile fun interval => interval.1 < start
      set following := progress.intervals.dropWhile fun interval => interval.1 < start
      have old : ∀ interval, interval ∈ before ∨ interval ∈ following →
          interval ∈ progress.intervals := by
        intro interval member
        rw [← List.takeWhile_append_dropWhile (p := fun interval => decide (interval.1 < start))
          (l := progress.intervals)]
        exact List.mem_append.mpr member
      have lower : ∀ interval ∈ before, interval.1 < start := fun interval member => by
        simpa using List.mem_takeWhile_imp member
      obtain ⟨kept, order, joined⟩ := joinPrevious_spec (show start ≤ last by omega) lower
      rcases marked_advanceContiguous marked with low | ⟨interval, member, inside⟩
      · exact .inl (.inl low)
      rcases List.mem_append.mp member with member | member
      · exact .inl (.inr ⟨interval, old _ (.inl (kept _ member)), inside⟩)
      rcases mem_absorbFollowing order ⟨interval, member, inside⟩ with
        ⟨above, below⟩ | ⟨other, isOld, covers⟩
      · rcases joined n above below with ⟨above, below⟩ | ⟨other, isOld, covers⟩
        · exact .inr ⟨by omega, below⟩
        · exact .inl (.inr ⟨other, old _ (.inl isOld), covers⟩)
      · exact .inl (.inr ⟨other, old _ (.inr isOld), covers⟩)

/-! ## Where the rows are -/

def Active (s : Collection) (row : Json) : Prop := ∃ id, s.memtable.lookup id = some row

def Parked (s : Collection) (row : Json) : Prop :=
  ∃ immutable ∈ s.immutables, ∃ id, immutable.2.lookup id = some row

/-- In an SST the manifest lists, or a tombstone compaction has dropped together
with everything older. -/
def Stored (config : LsmConfig) (s : Collection) (row : Json) : Prop :=
  row ∈ listedRows config.codec s.dir ∨ row ∈ s.reclaimed

/-- Each write in turn is not older than the entry it replaces. -/
def CleanWrites (config : LsmConfig) : Memtable → List (String × Json) → Prop
  | _, [] => True
  | table, write :: rest =>
      (∀ old, table.lookup write.1 = some old → Covers config write.2 old) ∧
        CleanWrites config (table.insert write.1 write.2) rest

theorem applyWrites_cons {table : Memtable} {write : String × Json} {rest : List (String × Json)} :
    applyWrites table (write :: rest) = applyWrites (table.insert write.1 write.2) rest := rfl

/-- Clean writes keep what is in the memtable and what they write. -/
theorem CleanWrites.kept {writes : List (String × Json)} {table : Memtable} {row : Json}
    (clean : CleanWrites config table writes)
    (held : (∃ id, table.lookup id = some row) ∨ ∃ id, (id, row) ∈ writes) :
    Kept config (fun kept => ∃ id, (applyWrites table writes).lookup id = some kept) row := by
  induction writes generalizing table row with
  | nil =>
    rcases held with held | ⟨id, member⟩
    · exact .of_holds held
    · cases member
  | cons write rest ih =>
    obtain ⟨notOlder, clean⟩ := clean
    rw [applyWrites_cons]
    rcases held with ⟨id, found⟩ | ⟨id, member⟩
    · by_cases same : id = write.1
      · subst same
        obtain ⟨last, stays, newer⟩ := @ih (table.insert write.1 write.2) write.2 clean
          (.inl ⟨_, AList.lookup_insert _⟩)
        exact ⟨last, stays, newer.trans (notOlder row found)⟩
      · exact ih clean (.inl ⟨id, by rw [AList.lookup_insert_ne same, found]⟩)
    · rcases List.mem_cons.mp member with rfl | member
      · exact ih clean (.inl ⟨id, AList.lookup_insert _⟩)
      · exact ih clean (.inr ⟨id, member⟩)

/-! ## The merge keeps its input -/

/-- The rows a merge is clean on: visible at its commit index, with an id. -/
def CleanRow (config : LsmConfig) (committedIndex : Nat) (row : Json) : Prop :=
  docVisibleByCommitIndex config.raft row committedIndex = true ∧
    (docId? config.dump row).isSome = true

/-- Every entry of a merge is stored under its own id. -/
def Keyed (config : LsmConfig) (table : Memtable) : Prop :=
  ∀ id row, table.lookup id = some row → docId? config.dump row = some id

/-- A clean row replaces the entry of its id unless that one is strictly newer. -/
theorem mergeRow_cases {committedIndex : Nat} {table : Memtable} {row : Json × Nat} {id : String}
    (visible : docVisibleByCommitIndex config.raft row.1 committedIndex = true)
    (idEq : docId? config.dump row.1 = some id) :
    (mergeRow config committedIndex table row = table.insert id row.1 ∧
        ∀ current, table.lookup id = some current → isCandidateNewer row.1 current = true) ∨
      (mergeRow config committedIndex table row = table ∧
        ∃ current, table.lookup id = some current ∧ isCandidateNewer row.1 current = false) := by
  have key : storageId config row.2 row.1 = id := by rw [storageId, idEq, Option.getD_some]
  have merges : mergeRow config committedIndex table row = upsertNewer table id row.1 := by
    simp [mergeRow, visible, key]
  rw [merges, upsertNewer]
  cases found : table.lookup id with
  | none => simp
  | some current => cases newer : isCandidateNewer row.1 current <;> simp [newer]

theorem mergeRow_spec {committedIndex : Nat} {table : Memtable} {row : Json × Nat}
    (keyed : Keyed config table) (clean : CleanRow config committedIndex row.1) :
    Keyed config (mergeRow config committedIndex table row) ∧
      ∀ old, (old = row.1 ∨ ∃ id, table.lookup id = some old) → Kept config
        (fun kept => ∃ id, (mergeRow config committedIndex table row).lookup id = some kept) old := by
  obtain ⟨visible, hasId⟩ := clean
  obtain ⟨id, idEq⟩ := Option.isSome_iff_exists.mp hasId
  rcases mergeRow_cases visible idEq with ⟨merged, newer⟩ | ⟨merged, current, found, older⟩
  · rw [merged]
    refine ⟨fun other found looked => ?_, ?_⟩
    · rcases lookup_insert_eq_some looked with ⟨rfl, rfl⟩ | ⟨-, was⟩
      · exact idEq
      · exact keyed other found was
    · rintro old (rfl | ⟨other, looked⟩)
      · exact .of_holds ⟨id, AList.lookup_insert _⟩
      · by_cases same : other = id
        · subst same
          exact ⟨row.1, ⟨other, AList.lookup_insert _⟩,
            .inr ⟨other, idEq, keyed other old looked, newer old looked⟩⟩
        · exact .of_holds ⟨other, by rw [AList.lookup_insert_ne same, looked]⟩
  · rw [merged]
    refine ⟨keyed, ?_⟩
    rintro old (rfl | held)
    · refine ⟨current, ⟨id, found⟩, .inr ⟨id, keyed id current found, idEq, ?_⟩⟩
      rw [← Bool.not_eq_true, isCandidateNewer_iff] at older
      exact isCandidateNewer_iff.mpr (le_of_not_ge older)
    · exact .of_holds held

theorem mergeRows_keeps {committedIndex : Nat} {rows : List (Json × Nat)}
    (clean : ∀ row ∈ rows, CleanRow config committedIndex row.1) :
    Keyed config (mergeRows config committedIndex rows) ∧ ∀ row ∈ rows, Kept config
      (fun kept => ∃ id, (mergeRows config committedIndex rows).lookup id = some kept) row.1 := by
  -- Generalized over the table the fold starts from.
  suffices folded : ∀ table : Memtable, Keyed config table →
      Keyed config (rows.foldl (mergeRow config committedIndex) table) ∧
        ∀ old, ((∃ row ∈ rows, old = row.1) ∨ ∃ id, table.lookup id = some old) → Kept config
          (fun kept => ∃ id,
            (rows.foldl (mergeRow config committedIndex) table).lookup id = some kept) old by
    have empty : Keyed config ∅ := by rintro id row ⟨⟩
    exact ⟨(folded ∅ empty).1, fun row member => (folded ∅ empty).2 row.1 (.inl ⟨row, member, rfl⟩)⟩
  induction rows with
  | nil =>
    intro table keyed
    refine ⟨keyed, ?_⟩
    rintro old (⟨row, member, -⟩ | held)
    · cases member
    · exact .of_holds held
  | cons first rest ih =>
    intro table keyed
    obtain ⟨firstClean, restClean⟩ := List.forall_mem_cons.mp clean
    obtain ⟨nextKeyed, nextKept⟩ := mergeRow_spec keyed firstClean
    obtain ⟨lastKeyed, lastKept⟩ := ih restClean _ nextKeyed
    refine ⟨lastKeyed, ?_⟩
    rintro old (⟨row, member, rfl⟩ | held)
    · rcases List.mem_cons.mp member with rfl | member
      · exact (nextKept _ (.inl rfl)).trans fun kept held => lastKept kept (.inr held)
      · exact lastKept _ (.inl ⟨row, member, rfl⟩)
    · exact (nextKept old (.inr held)).trans fun kept held => lastKept kept (.inr held)

/-- What a clean merge read is in its output or among the tombstones it dropped. -/
theorem Merge.keeps {merge : Merge} (clock : Nat → Nat)
    (clean : ∀ row ∈ merge.read.flatMap Prod.snd, CleanRow config merge.committedIndex row) :
    ∀ row ∈ merge.read.flatMap Prod.snd, Kept config (fun kept =>
      kept ∈ compactedRows merge.fullCoverage (merge.table config clock) ∨
        kept ∈ droppedTombstones merge.fullCoverage (merge.table config clock)) row := by
  intro row member
  have rows : ∀ pair ∈ (merge.read.flatMap Prod.snd).mapIdx fun i row => (row, clock i),
      CleanRow config merge.committedIndex pair.1 := by
    intro pair inMerge
    obtain ⟨i, inBounds, rfl⟩ := List.mem_mapIdx.mp inMerge
    exact clean _ (List.getElem_mem inBounds)
  obtain ⟨i, inBounds, rfl⟩ := List.mem_iff_getElem.mp member
  have kept := (mergeRows_keeps rows).2 (_, clock i) (List.mem_mapIdx.mpr ⟨i, inBounds, rfl⟩)
  refine kept.mono fun out held => ?_
  have isRow : out ∈ (merge.table config clock).rows := Memtable.mem_rows.mpr held
  cases dropped : merge.fullCoverage && isDeletedDoc out with
  | false => exact .inl (List.mem_filter.mpr ⟨isRow, by rw [dropped]; rfl⟩)
  | true => exact .inr (List.mem_filter.mpr ⟨isRow, dropped⟩)

/-! ## The invariant -/

/-- The condition on the state before a step under which checkpoints stay
sound. -/
def CleanEvent (config : LsmConfig) (s : Collection) : Event → Prop
  | .flushPublish faults => s.immutables.length ≤ 1 ∧ faults.syncPublishedDirectory = true
  | .compactMerge job committedIndex _ _ _ _ => ∀ compaction,
      s.compactions.lookup job = some compaction → ∀ input ∈ compaction.inputs,
        ∀ row ∈ sstRows s.dir input, CleanRow config committedIndex row
  | .compactPublish _ faults => faults.syncPublishedDirectory = true
  | e => ∀ docs writes applied rollover,
      e.writes config s = some (docs, writes, applied, rollover) →
        CleanWrites config s.memtable writes

theorem CleanEvent.synced {e : Event} (clean : CleanEvent config s e) : SyncedEvent e := by
  cases e with
  | flushPublish faults => exact clean.2
  | compactPublish job faults => exact clean
  | _ => trivial

def FlushJob.publishedLsn? : FlushJob → Option Nat
  | ⟨_, _, .published lsn⟩ => some lsn
  | _ => none

/-- The records of a segment are in LSN order. -/
def Ordered (segment : List WalRecord) : Prop :=
  segment.Pairwise fun first next => first.lsn < next.lsn

structure CheckpointInv (config : LsmConfig) (s : Collection) : Prop where
  files : FilesOk config s
  logRecent : ∀ record ∈ s.log, record.lsn < s.nextLsn
  markedRecent : ∀ n, Marked s.progress n → n < s.nextLsn
  flushRecent : ∀ job, s.flush = some job → job.coveredWalLsn < s.nextLsn
  coveredRecent : coveredWalLsn config.codec s.dir < s.nextLsn
  snapshot : ∀ job, s.flush = some job → job.publishedLsn? = none →
    ∃ table parked, s.immutables = (job.snapshot, table) :: parked
  publishedCovered : ∀ job lsn, s.flush = some job → job.publishedLsn? = some lsn →
    lsn ≤ coveredWalLsn config.codec s.dir
  mergesClean : ∀ id job merge, s.compactions.lookup id = some job → job.merge? = some merge →
    ∀ row ∈ merge.read.flatMap Prod.snd, CleanRow config merge.committedIndex row
  applied : ∀ record ∈ s.log, Marked s.progress record.lsn → ∀ doc ∈ record.docs,
    Kept config (fun row => Active s row ∨ Parked s row ∨ Stored config s row) doc
  flushed : ∀ job, s.flush = some job → ∀ record ∈ s.log, record.lsn ≤ job.coveredWalLsn →
    ∀ doc ∈ record.docs, Kept config (fun row => Parked s row ∨ Stored config s row) doc
  covered : ∀ record ∈ s.log, record.lsn ≤ coveredWalLsn config.codec s.dir →
    ∀ doc ∈ record.docs, Kept config (Stored config s) doc
  ordered : ∀ segment ∈ s.sealedSegments, Ordered segment
  activeOrdered : Ordered s.activeSegment
  walRecent : ∀ record ∈ s.walRecords, record.lsn < s.nextLsn
  live : ∀ record ∈ s.log, record ∈ s.walRecords ∨
    record.lsn ≤ coveredWalLsn config.codec s.dir

theorem CheckpointInv.init : CheckpointInv config {} where
  files := .init
  logRecent := by rintro record ⟨⟩
  markedRecent := by
    rintro n (zero | ⟨interval, ⟨⟩, -⟩)
    exact Nat.lt_succ_of_le zero
  flushRecent := by rintro job ⟨⟩
  coveredRecent := Nat.zero_lt_one
  snapshot := by rintro job ⟨⟩
  publishedCovered := by rintro job lsn ⟨⟩
  mergesClean := by rintro id job merge ⟨⟩
  applied := by rintro record ⟨⟩
  flushed := by rintro job ⟨⟩
  covered := by rintro record ⟨⟩
  ordered := by rintro segment ⟨⟩
  activeOrdered := .nil
  walRecent := by rintro record ⟨⟩
  live := by rintro record ⟨⟩

/-- A step that leaves the WAL and the memtables alone and loses nothing stored. -/
theorem CheckpointInv.still (inv : CheckpointInv config s) (files : FilesOk config t)
    (same : t = { s with dir := t.dir, flush := t.flush, compactions := t.compactions,
                         reclaimed := t.reclaimed, handedOut := t.handedOut,
                         poisoned := t.poisoned })
    (stored : ∀ row, Stored config s row → Kept config (Stored config t) row)
    (covers : coveredWalLsn config.codec t.dir = coveredWalLsn config.codec s.dir)
    (flush : ∀ job, t.flush = some job → ∃ old, s.flush = some old ∧ old.snapshot = job.snapshot ∧
      old.coveredWalLsn = job.coveredWalLsn ∧ old.publishedLsn? = job.publishedLsn?)
    (merges : ∀ id job merge, t.compactions.lookup id = some job → job.merge? = some merge →
      ∀ row ∈ merge.read.flatMap Prod.snd, CleanRow config merge.committedIndex row) :
    CheckpointInv config t := by
  have log : t.log = s.log := by rw [same]
  have progress : t.progress = s.progress := by rw [same]
  have nextLsn : t.nextLsn = s.nextLsn := by rw [same]
  have immutables : t.immutables = s.immutables := by rw [same]
  have walRecords : t.walRecords = s.walRecords := by rw [same]; rfl
  have active : ∀ row, Active s row → Active t row := by rw [same]; exact fun _ held => held
  have parked : ∀ row, Parked s row → Parked t row := by
    unfold Parked; rw [immutables]; exact fun _ held => held
  constructor
  case files => exact files
  case logRecent => rw [log, nextLsn]; exact inv.logRecent
  case markedRecent => rw [progress, nextLsn]; exact inv.markedRecent
  case flushRecent =>
    intro job running
    obtain ⟨old, was, -, lsn, -⟩ := flush job running
    rw [nextLsn, ← lsn]
    exact inv.flushRecent old was
  case coveredRecent => rw [covers, nextLsn]; exact inv.coveredRecent
  case snapshot =>
    intro job running unpublished
    obtain ⟨old, was, handle, -, published⟩ := flush job running
    rw [immutables, ← handle]
    exact inv.snapshot old was (published.trans unpublished)
  case publishedCovered =>
    intro job lsn running published
    obtain ⟨old, was, -, -, before⟩ := flush job running
    rw [covers]
    exact inv.publishedCovered old lsn was (before.trans published)
  case mergesClean => exact merges
  case applied =>
    intro record member marked doc inDocs
    rw [log] at member
    rw [progress] at marked
    refine (inv.applied record member marked doc inDocs).trans fun row held => ?_
    rcases held with held | held | held
    · exact .of_holds (.inl (active row held))
    · exact .of_holds (.inr (.inl (parked row held)))
    · exact (stored row held).mono fun _ held => .inr (.inr held)
  case flushed =>
    intro job running record member below doc inDocs
    obtain ⟨old, was, -, lsn, -⟩ := flush job running
    rw [log] at member
    rw [← lsn] at below
    refine (inv.flushed old was record member below doc inDocs).trans fun row held => ?_
    rcases held with held | held
    · exact .of_holds (.inl (parked row held))
    · exact (stored row held).mono fun _ held => .inr held
  case covered =>
    intro record member below doc inDocs
    rw [log] at member
    rw [covers] at below
    exact (inv.covered record member below doc inDocs).trans stored
  case ordered => rw [same]; exact inv.ordered
  case activeOrdered => rw [same]; exact inv.activeOrdered
  case walRecent => rw [walRecords, nextLsn]; exact inv.walRecent
  case live => rw [log, walRecords, covers]; exact inv.live

/-! ## Writes -/

theorem Collection.logRecord_ordered (s : Collection) (docs : List Json) (rollover : Bool)
    (ordered : ∀ segment ∈ s.sealedSegments, Ordered segment) (activeOrdered : Ordered s.activeSegment)
    (recent : ∀ record ∈ s.walRecords, record.lsn < s.nextLsn) :
    (∀ segment ∈ (s.logRecord docs rollover).sealedSegments, Ordered segment) ∧
      Ordered (s.logRecord docs rollover).activeSegment := by
  unfold logRecord
  split
  · refine ⟨fun segment member => ?_, List.pairwise_singleton _ _⟩
    rcases List.mem_append.mp member with member | member
    · exact ordered segment member
    · rw [List.mem_singleton.mp member]
      exact activeOrdered
  · refine ⟨ordered, List.pairwise_append.mpr ⟨activeOrdered, List.pairwise_singleton _ _, ?_⟩⟩
    intro record member last isLast
    rw [List.mem_singleton.mp isLast]
    exact recent record (List.mem_append_right _ member)

/-- A record is appended; the new memtable keeps the old one, and only a record
whose documents it keeps may become applied. -/
theorem CheckpointInv.logged (inv : CheckpointInv config s) (docs : List Json) (rollover : Bool)
    (files : FilesOk config t)
    (same : t = { s.logRecord docs rollover with
      memtable := t.memtable, progress := t.progress, poisoned := t.poisoned })
    (active : ∀ row, Active s row → Kept config (Active t) row)
    (marks : ∀ n, Marked t.progress n → Marked s.progress n ∨
      (n = s.nextLsn ∧ ∀ doc ∈ docs, Kept config (Active t) doc)) : CheckpointInv config t := by
  have log : t.log = s.log ++ [{ lsn := s.nextLsn, docs }] := by rw [same]; simp
  have nextLsn : t.nextLsn = s.nextLsn + 1 := by rw [same]; simp
  have dir : t.dir = s.dir := by rw [same]; simp
  have flush : t.flush = s.flush := by rw [same]; simp
  have compactions : t.compactions = s.compactions := by rw [same]; simp
  have immutables : t.immutables = s.immutables := by rw [same]; simp
  have walRecords : t.walRecords = s.walRecords ++ [{ lsn := s.nextLsn, docs }] := by
    rw [same, ← Collection.logRecord_walRecords s docs rollover]
    rfl
  have parked : ∀ row, Parked s row → Parked t row := by
    unfold Parked; rw [immutables]; exact fun _ held => held
  have stored : ∀ row, Stored config s row → Stored config t row := by
    have reclaimed : t.reclaimed = s.reclaimed := by rw [same]; simp
    unfold Stored; rw [dir, reclaimed]; exact fun _ held => held
  have orders := s.logRecord_ordered docs rollover inv.ordered inv.activeOrdered inv.walRecent
  -- The new record is above every boundary there is.
  have records : ∀ record ∈ t.log, record ∈ s.log ∨ record = { lsn := s.nextLsn, docs } := by
    intro record member
    rw [log] at member
    rcases List.mem_append.mp member with member | member
    · exact .inl member
    · exact .inr (List.mem_singleton.mp member)
  constructor
  case files => exact files
  case logRecent =>
    intro record member
    rw [nextLsn]
    rcases records record member with old | rfl
    · exact Nat.lt_succ_of_lt (inv.logRecent record old)
    · exact Nat.lt_succ_self _
  case markedRecent =>
    intro n marked
    rw [nextLsn]
    rcases marks n marked with old | ⟨rfl, -⟩
    · exact Nat.lt_succ_of_lt (inv.markedRecent n old)
    · exact Nat.lt_succ_self _
  case flushRecent =>
    rw [flush, nextLsn]
    exact fun job running => Nat.lt_succ_of_lt (inv.flushRecent job running)
  case coveredRecent => rw [dir, nextLsn]; exact Nat.lt_succ_of_lt inv.coveredRecent
  case snapshot => rw [flush, immutables]; exact inv.snapshot
  case publishedCovered => rw [flush, dir]; exact inv.publishedCovered
  case mergesClean => rw [compactions]; exact inv.mergesClean
  case applied =>
    intro record member marked doc inDocs
    rcases records record member with old | rfl
    · rcases marks record.lsn marked with was | ⟨own, -⟩
      · refine (inv.applied record old was doc inDocs).trans fun row held => ?_
        rcases held with held | held | held
        · exact (active row held).mono fun _ held => .inl held
        · exact .of_holds (.inr (.inl (parked row held)))
        · exact .of_holds (.inr (.inr (stored row held)))
      · exact absurd (inv.logRecent record old) (by omega)
    · rcases marks s.nextLsn marked with was | ⟨-, kept⟩
      · exact absurd (inv.markedRecent _ was) (lt_irrefl _)
      · exact (kept doc inDocs).mono fun _ held => .inl held
  case flushed =>
    intro job running record member below doc inDocs
    rw [flush] at running
    rcases records record member with old | rfl
    · refine (inv.flushed job running record old below doc inDocs).mono fun row held => ?_
      rcases held with held | held
      · exact .inl (parked row held)
      · exact .inr (stored row held)
    · exact absurd (inv.flushRecent job running) (not_lt.mpr below)
  case covered =>
    intro record member below doc inDocs
    rw [dir] at below
    rcases records record member with old | rfl
    · exact (inv.covered record old below doc inDocs).mono stored
    · exact absurd inv.coveredRecent (not_lt.mpr below)
  case ordered => rw [same]; exact orders.1
  case activeOrdered => rw [same]; exact orders.2
  case walRecent =>
    intro record member
    rw [walRecords] at member
    rw [nextLsn]
    rcases List.mem_append.mp member with member | member
    · exact Nat.lt_succ_of_lt (inv.walRecent record member)
    · rw [List.mem_singleton.mp member]
      exact Nat.lt_succ_self _
  case live =>
    intro record member
    rw [walRecords, dir, List.mem_append]
    rcases records record member with old | rfl
    · exact (inv.live record old).imp_left .inl
    · exact .inl (.inr (.head _))

/-- Every document of an applied record is among the memtable entries. -/
theorem Event.writes_all (e : Event) {docs : List Json} {writes : List (String × Json)}
    {rollover : Bool} (event : e.writes config s = some (docs, writes, true, rollover)) :
    ∀ doc ∈ docs, ∃ id, (id, doc) ∈ writes := by
  intro doc member
  cases e with
  | put source committedIndex time roll =>
    cases event
    exact ⟨_, by rw [List.mem_singleton.mp member]; exact .head _⟩
  | putMany sources committedIndex time roll =>
    simp only [Event.writes, Option.some.injEq, Prod.mk.injEq] at event
    obtain ⟨rfl, rfl, all, -⟩ := event
    obtain ⟨source, isSource, rfl⟩ := List.mem_map.mp member
    refine ⟨_, List.mem_map.mpr ⟨_, List.mem_filter.mpr ⟨member, ?_⟩, rfl⟩⟩
    rw [isObject_stampVisibilityMetadata]
    exact List.all_eq_true.mp all source isSource
  | del id previousVersion nowNs nowMs committedIndex roll =>
    obtain ⟨version, -, rest⟩ := Option.bind_eq_some_iff.mp event
    cases rest
    exact ⟨_, by rw [List.mem_singleton.mp member]; exact .head _⟩
  | _ => cases event

theorem CheckpointInv.write (inv : CheckpointInv config s) {docs : List Json}
    {writes : List (String × Json)} {applied rollover : Bool}
    (clean : CleanWrites config s.memtable writes)
    (all : applied = true → ∀ doc ∈ docs, ∃ id, (id, doc) ∈ writes)
    (taken : s.write docs writes applied rollover = some t) : CheckpointInv config t := by
  have files := inv.files.write taken
  obtain ⟨-, shape⟩ := Collection.write_some taken
  have memtable : t.memtable = applyWrites s.memtable writes := by rw [shape]
  have progress : t.progress =
      if applied then markWalApplied s.progress s.nextLsn s.nextLsn else s.progress := by rw [shape]
  refine inv.logged docs rollover files (by rw [shape]) ?_ ?_
  · intro row held
    unfold Active
    rw [memtable]
    exact clean.kept (.inl held)
  · intro n marked
    rw [progress] at marked
    cases applied with
    | false => exact .inl marked
    | true =>
      rcases marked_markWalApplied marked with old | ⟨above, below⟩
      · exact .inl old
      · refine .inr ⟨le_antisymm below above, fun doc member => ?_⟩
        unfold Active
        rw [memtable]
        exact clean.kept (.inr (all rfl doc member))

/-! ## Flush and reclaim -/

theorem CheckpointInv.flushBegin (inv : CheckpointInv config s) (files : FilesOk config t)
    (taken : s.flushBegin = some t) : CheckpointInv config t := by
  obtain ⟨-, rfl⟩ := Collection.flushBegin_some taken
  -- The whole memtable becomes the newest immutable one.
  have moves : ∀ row, Active s row ∨ Parked s row ∨ Stored config s row →
      (∃ immutable ∈ (s.nextHandle, s.memtable) :: s.immutables,
        ∃ id, immutable.2.lookup id = some row) ∨ Stored config s row := by
    rintro row (held | ⟨immutable, member, held⟩ | held)
    · exact .inl ⟨_, .head _, held⟩
    · exact .inl ⟨immutable, .tail _ member, held⟩
    · exact .inr held
  constructor
  case files => exact files
  case logRecent => exact inv.logRecent
  case markedRecent => exact inv.markedRecent
  case flushRecent =>
    rintro job ⟨⟩
    exact inv.markedRecent _ (.inl le_rfl)
  case coveredRecent => exact inv.coveredRecent
  case snapshot =>
    rintro job ⟨⟩ -
    exact ⟨_, _, rfl⟩
  case publishedCovered => rintro job lsn ⟨⟩ ⟨⟩
  case mergesClean => exact inv.mergesClean
  case applied =>
    intro record member marked doc inDocs
    exact (inv.applied record member marked doc inDocs).mono fun row held => .inr (moves row held)
  case flushed =>
    rintro job ⟨⟩ record member below doc inDocs
    exact (inv.applied record member (.inl below) doc inDocs).mono moves
  case covered => exact inv.covered
  case ordered => exact inv.ordered
  case activeOrdered => exact inv.activeOrdered
  case walRecent => exact inv.walRecent
  case live => exact inv.live

theorem listedRows_congr {codec : ManifestCodec} {dir other : LsmDir}
    (manifest : other.lookup kManifestName = dir.lookup kManifestName)
    (ssts : ∀ name ∈ listed codec dir, other.lookup name = dir.lookup name) :
    listedRows codec other = listedRows codec dir ∧
      coveredWalLsn codec other = coveredWalLsn codec dir := by
  have text := @manifestOnDisk_congr dir other codec manifest
  have names : listed codec other = listed codec dir := by rw [listed, text, listed]
  refine ⟨?_, by rw [coveredWalLsn, text, coveredWalLsn]⟩
  rw [listedRows, names, listedRows]
  refine List.flatMap_congr fun name member => ?_
  rw [sstRows, ssts name member, sstRows]

/-- A step of a job for `n` that leaves the manifest alone. -/
theorem CheckpointInv.framed (inv : CheckpointInv config s) (n : String) (files : FilesOk config t)
    (same : t = { s with dir := t.dir, flush := t.flush, compactions := t.compactions,
                         handedOut := t.handedOut })
    (frame : SameOn (fun name => OtherFile n name ∨ name = kManifestName) s.dir t.dir)
    (unlisted : n ∉ listed config.codec s.dir)
    (flush : ∀ job, t.flush = some job → ∃ old, s.flush = some old ∧ old.snapshot = job.snapshot ∧
      old.coveredWalLsn = job.coveredWalLsn ∧ old.publishedLsn? = job.publishedLsn?)
    (merges : ∀ id job merge, t.compactions.lookup id = some job → job.merge? = some merge →
      ∀ row ∈ merge.read.flatMap Prod.snd, CleanRow config merge.committedIndex row) :
    CheckpointInv config t := by
  obtain ⟨rows, covers⟩ := @listedRows_congr config.codec s.dir t.dir (frame _ (.inr rfl))
    fun name member => frame name (.inl (.inl
      ⟨extension_of_safe (inv.files.listedSafe name member), fun own => unlisted (own ▸ member)⟩))
  have reclaimed : t.reclaimed = s.reclaimed := by rw [same]
  refine inv.still files (by rw [same]) (fun row held => .of_holds ?_) covers flush merges
  unfold Stored
  rwa [rows, reclaimed]

theorem CheckpointInv.flushWrite (inv : CheckpointInv config s) (files : FilesOk config t)
    {micros sequence : Nat} {sidecars : Sidecars}
    (taken : s.flushWrite micros sequence sidecars = some t) : CheckpointInv config t := by
  obtain ⟨snapshot, lsn, n, running, fresh, rfl⟩ := Collection.flushWrite_some taken
  obtain ⟨unused, safe⟩ := Collection.freshName_eq_some fresh
  refine inv.framed n files rfl ?_ (inv.files.unused safe unused).unlisted ?_ inv.mergesClean
  · refine (sameOn_write_unfinished s.dir _ sidecars safe (not_otherFile_writingOf n)
      (.of_writingOf n)).mono fun name kept => ?_
    exact kept.imp_right .inr
  · rintro job ⟨⟩
    exact ⟨_, running, rfl, rfl, rfl⟩

theorem CheckpointInv.flushWriteFails (inv : CheckpointInv config s) (files : FilesOk config t)
    {micros sequence : Nat} {leftover : Option FileBody}
    (taken : s.flushWriteFails micros sequence leftover = some t) : CheckpointInv config t := by
  obtain ⟨n, dir, fresh, shape, rfl⟩ := Collection.flushWriteFails_some taken
  obtain ⟨unused, safe⟩ := Collection.freshName_eq_some fresh
  refine inv.framed n files rfl ?_ (inv.files.unused safe unused).unlisted ?_ inv.mergesClean
  · rcases shape with rfl | ⟨body, rfl⟩
    · exact .refl
    · refine .insert ?_
      rintro (other | manifest)
      · exact not_otherFile_writingOf n other
      · exact (Auxiliary.of_writingOf n).notManifest manifest
  · rintro job ⟨⟩

theorem mem_listedRows_of_lookup {codec : ManifestCodec} {dir : LsmDir} {name : String}
    {rows : List Json} {row : Json} (member : name ∈ listed codec dir)
    (found : dir.lookup name = some (.sst rows)) (isRow : row ∈ rows) :
    row ∈ listedRows codec dir := by
  refine mem_listedRows.mpr ⟨name, member, ?_⟩
  rw [sstRows, found]
  exact isRow

/-- A flush that publishes while no other memtable is parked has its rows in the new
SST and keeps what was stored. -/
theorem CheckpointInv.stored_flushPublish (inv : CheckpointInv config s) {faults : CallerFaults}
    {snapshot lsn : Nat} {n : String} {left : LsmDir} {next : LsmManifest}
    (alone : s.immutables.length ≤ 1) (running : s.flush = some ⟨snapshot, lsn, .written n⟩)
    (done : Lsm.flushPublish config.codec faults s.dir n lsn = (left, .ok next)) (row : Json)
    (held : Parked s row ∨ Stored config s row) :
    row ∈ listedRows config.codec left ∨ row ∈ s.reclaimed := by
  have pending : PendingName s n := .inl ⟨_, running, rfl⟩
  have safe := inv.files.pendingSafe n pending
  obtain ⟨published, -⟩ := flushPublish_ok safe done
  obtain ⟨names, asked, listedIff⟩ := published.names
  have frame := published.others safe
  obtain ⟨table, parked, immutables⟩ := inv.snapshot _ running rfl
  have only : s.immutables = [(snapshot, table)] := by
    rw [immutables] at alone ⊢
    cases parked with
    | nil => rfl
    | cons _ _ => simp at alone
  have file : left.lookup n = some (.sst table.rows) := by
    rw [published.inPlace, inv.files.flushFile _ n running rfl, Collection.snapshotTable, only]
    simp
  rcases held with ⟨immutable, member, held⟩ | held | held
  · rw [only, List.mem_singleton] at member
    subst member
    exact .inl (mem_listedRows_of_lookup ((listedIff n).mpr (.inr rfl)) file
      (Memtable.mem_rows.mpr held))
  · obtain ⟨name, member, isRow⟩ := mem_listedRows.mp held
    refine .inl (mem_listedRows.mpr ⟨name, (listedIff name).mpr
      (.inl (mem_published_of_mem_listed asked member)), ?_⟩)
    have ne : name ≠ n := fun own => inv.files.pendingUnlisted n pending (own ▸ member)
    rwa [sstRows, frame name (.inl ⟨extension_of_safe (inv.files.listedSafe name member), ne⟩),
      ← sstRows]
  · exact .inr held

theorem CheckpointInv.flushPublish (inv : CheckpointInv config s) (files : FilesOk config t)
    {faults : CallerFaults} (alone : s.immutables.length ≤ 1)
    (synced : faults.syncPublishedDirectory = true)
    (taken : s.flushPublish config faults = some t) : CheckpointInv config t := by
  obtain ⟨snapshot, lsn, n, running, outcome⟩ := Collection.flushPublish_some taken
  have pending : PendingName s n := .inl ⟨_, running, rfl⟩
  have safe := inv.files.pendingSafe n pending
  rcases outcome with ⟨left, reason, failed, rfl⟩ | ⟨left, next, done, rfl⟩
  · refine inv.framed n files rfl (flushPublish_failed safe synced failed)
      (inv.files.pendingUnlisted n pending) ?_ inv.mergesClean
    rintro job ⟨⟩
  · obtain ⟨published, nextLsn⟩ := flushPublish_ok safe done
    have recent : lsn < s.nextLsn := inv.flushRecent _ running
    have stored := inv.stored_flushPublish alone running done
    constructor
    case files => exact files
    case logRecent => exact inv.logRecent
    case markedRecent => exact inv.markedRecent
    case flushRecent =>
      rintro job ⟨⟩
      exact recent
    case coveredRecent =>
      rw [published.covered]
      exact max_lt recent inv.coveredRecent
    case snapshot => rintro job ⟨⟩ ⟨⟩
    case publishedCovered =>
      rintro job lsn ⟨⟩ ⟨⟩
      exact nextLsn.le
    case mergesClean => exact inv.mergesClean
    case applied =>
      intro record member marked doc inDocs
      refine (inv.applied record member marked doc inDocs).mono fun row held => ?_
      rcases held with held | held
      · exact .inl held
      · exact .inr (.inr (stored row held))
    case flushed =>
      rintro job ⟨⟩ record member below doc inDocs
      exact (inv.flushed _ running record member below doc inDocs).mono fun row held =>
        .inr (stored row held)
    case covered =>
      intro record member below doc inDocs
      rw [published.covered] at below
      rcases le_max_iff.mp below with below | below
      · exact (inv.flushed _ running record member below doc inDocs).mono stored
      · exact (inv.covered record member below doc inDocs).mono fun row held =>
          stored row (.inr held)
    case ordered => exact inv.ordered
    case activeOrdered => exact inv.activeOrdered
    case walRecent => exact inv.walRecent
    case live =>
      intro record member
      rw [published.covered]
      exact (inv.live record member).imp_right fun below => below.trans (le_max_right _ _)

/-- Reclaiming drops only segments whose last LSN is covered. -/
theorem mem_flatten_reclaimThrough {coveredLsn removed : Nat} {segments : List (List WalRecord)}
    {record : WalRecord} (ordered : ∀ segment ∈ segments, Ordered segment)
    (member : record ∈ segments.flatten) :
    record ∈ (reclaimThrough coveredLsn removed segments).flatten ∨ record.lsn ≤ coveredLsn := by
  induction segments generalizing removed with
  | nil => cases member
  | cons segment rest ih =>
    obtain ⟨segmentOrdered, restOrdered⟩ := List.forall_mem_cons.mp ordered
    rw [List.flatten_cons, List.mem_append] at member
    unfold reclaimThrough
    split
    next last isLast =>
      split
      next dropped =>
        rcases member with own | member
        · obtain ⟨front, rfl⟩ := List.getLast?_eq_some_iff.mp isLast
          rcases List.mem_append.mp own with own | own
          · have before := (List.pairwise_append.mp segmentOrdered).2.2 record own last (.head _)
            exact .inr (before.le.trans dropped.1)
          · rw [List.mem_singleton.mp own]
            exact .inr dropped.1
        · exact ih restOrdered member
      next =>
        rw [List.flatten_cons, List.mem_append]
        rcases member with own | member
        · exact .inl (.inl own)
        · exact (ih restOrdered member).imp_left .inr
    next =>
      rw [List.flatten_cons, List.mem_append]
      rcases member with own | member
      · exact .inl (.inl own)
      · exact (ih restOrdered member).imp_left .inr

theorem reclaimThrough_subset {coveredLsn removed : Nat} {segments : List (List WalRecord)} :
    ∀ segment ∈ reclaimThrough coveredLsn removed segments, segment ∈ segments := by
  induction segments generalizing removed with
  | nil => exact fun _ member => member
  | cons first rest ih =>
    intro segment member
    unfold reclaimThrough at member
    split at member
    next =>
      split at member
      next => exact .tail _ (ih segment member)
      next =>
        rcases List.mem_cons.mp member with rfl | member
        · exact .head _
        · exact .tail _ (ih segment member)
    next =>
      rcases List.mem_cons.mp member with rfl | member
      · exact .head _
      · exact .tail _ (ih segment member)

theorem CheckpointInv.reclaim (inv : CheckpointInv config s) (files : FilesOk config t)
    {removed : Nat} (taken : s.reclaim removed = some t) : CheckpointInv config t := by
  obtain ⟨snapshot, lsn, publishedWalLsn, running, rfl⟩ := Collection.reclaim_some taken
  have below := inv.publishedCovered _ publishedWalLsn running rfl
  set segments := if 0 < publishedWalLsn then
    reclaimThrough publishedWalLsn removed s.sealedSegments else s.sealedSegments with segmentsEq
  have subset : ∀ segment ∈ segments, segment ∈ s.sealedSegments := by
    rw [segmentsEq]
    split
    · exact reclaimThrough_subset
    · exact fun _ member => member
  have left : ∀ record ∈ s.sealedSegments.flatten,
      record ∈ segments.flatten ∨ record.lsn ≤ publishedWalLsn := by
    intro record member
    rw [segmentsEq]
    split
    · exact mem_flatten_reclaimThrough inv.ordered member
    · exact .inl member
  constructor
  case files => exact files
  case logRecent => exact inv.logRecent
  case markedRecent => exact inv.markedRecent
  case flushRecent => rintro job ⟨⟩
  case coveredRecent => exact inv.coveredRecent
  case snapshot => rintro job ⟨⟩
  case publishedCovered => rintro job lsn ⟨⟩
  case mergesClean => exact inv.mergesClean
  case applied => exact inv.applied
  case flushed => rintro job ⟨⟩
  case covered => exact inv.covered
  case ordered => exact fun segment member => inv.ordered segment (subset segment member)
  case activeOrdered => exact inv.activeOrdered
  case walRecent =>
    intro record member
    refine inv.walRecent record ?_
    rcases List.mem_append.mp member with member | member
    · obtain ⟨segment, isSegment, inSegment⟩ := List.mem_flatten.mp member
      exact List.mem_append_left _
        (List.mem_flatten.mpr ⟨segment, subset segment isSegment, inSegment⟩)
    · exact List.mem_append_right _ member
  case live =>
    intro record member
    rcases inv.live record member with inWal | covered
    · rcases List.mem_append.mp inWal with inSealed | inActive
      · rcases left record inSealed with kept | gone
        · exact .inl (List.mem_append_left _ kept)
        · exact .inr (gone.trans below)
      · exact .inl (List.mem_append_right _ inActive)
    · exact .inr covered

/-! ## Compaction -/

theorem CheckpointInv.compactMerge (inv : CheckpointInv config s) (files : FilesOk config t)
    {job committedIndex micros sequence : Nat} {clock : Nat → Nat} {sidecars : Sidecars}
    (clean : CleanEvent config s (.compactMerge job committedIndex clock micros sequence sidecars))
    (taken : s.compactMerge config job committedIndex clock micros sequence sidecars = some t) :
    CheckpointInv config t := by
  obtain ⟨inputs, fullCoverage, read, n, running, scanned, fresh, rfl⟩ :=
    Collection.compactMerge_some taken
  obtain ⟨unused, safe⟩ := Collection.freshName_eq_some fresh
  obtain ⟨names, bodies⟩ := map_fst_of_mapM_scanSst scanned
  refine inv.framed n files rfl ?_ (inv.files.unused safe unused).unlisted ?_ ?_
  · refine (sameOn_write_unfinished s.dir _ sidecars safe (not_otherFile_tmpOf n)
      (.of_tmpOf n)).mono fun name kept => ?_
    exact kept.imp_right .inr
  · exact fun flush flushing => ⟨flush, flushing, rfl, rfl, rfl⟩
  · intro id other merge looked merged row member
    rcases lookup_insert_eq_some looked with ⟨-, rfl⟩ | ⟨-, was⟩
    · cases merged
      obtain ⟨input, isRead, inRows⟩ := List.mem_flatMap.mp member
      refine clean _ running input.1 (names ▸ List.mem_map_of_mem isRead) row ?_
      rw [sstRows, bodies input isRead]
      exact inRows
    · exact inv.mergesClean id other merge was merged row member

theorem CheckpointInv.compactPublish (inv : CheckpointInv config s) (files : FilesOk config t)
    {job : Nat} {faults : CallerFaults} (synced : faults.syncPublishedDirectory = true)
    (taken : s.compactPublish config job faults = some t) : CheckpointInv config t := by
  obtain ⟨inputs, merge, running, outcome⟩ := Collection.compactPublish_some taken
  have pending : PendingName s merge.outName := .inr ⟨job, _, merge, running, rfl, rfl⟩
  have safe := inv.files.pendingSafe _ pending
  have merges : ∀ id other otherMerge, (s.compactions.erase job).lookup id = some other →
      other.merge? = some otherMerge → ∀ row ∈ otherMerge.read.flatMap Prod.snd,
        CleanRow config otherMerge.committedIndex row := fun id other otherMerge looked =>
    inv.mergesClean id other otherMerge (lookup_erase_eq_some looked).2
  rcases outcome with ⟨left, reason, failed, rfl⟩ | ⟨left, next, done, rfl⟩
  · exact inv.framed _ files rfl (compactPublish_failed safe synced failed)
      (inv.files.pendingUnlisted _ pending)
      (fun flush flushing => ⟨flush, flushing, rfl, rfl, rfl⟩) merges
  · have notInput := inv.files.pendingNotInput _ pending job _ running
    have published := compactPublish_ok safe (fun input => inv.files.inputSafe running) notInput done
    obtain ⟨moved, names, same, asked, -, listedIff⟩ := published.names
    have before := inv.files.mergedFile job _ merge running rfl
    obtain ⟨clock, output, tombstones⟩ := before.output
    have keeps := Merge.keeps clock (inv.mergesClean job _ merge running rfl)
    have listedMoved : listed config.codec moved = listed config.codec s.dir := by
      have text := same kManifestName fun touched =>
        not_outside_of_mem_artifactNames safe (.of_tmpOf _) touched (.inl rfl)
      rw [listed, manifestOnDisk_congr text, listed]
    refine inv.still files rfl ?_ published.covered
      (fun flush flushing => ⟨flush, flushing, rfl, rfl, rfl⟩) merges
    rintro row (held | held)
    · obtain ⟨name, member, isRow⟩ := mem_listedRows.mp held
      have ne : name ≠ merge.outName := fun own =>
        inv.files.pendingUnlisted _ pending (own ▸ member)
      by_cases input : name ∈ inputs
      · -- A row of an input: the merge has it, or dropped it as a tombstone.
        have read : row ∈ merge.read.flatMap Prod.snd := by
          have isInput : name ∈ merge.read.map Prod.fst := before.inputs ▸ input
          obtain ⟨pair, isRead, rfl⟩ := List.mem_map.mp isInput
          refine List.mem_flatMap.mpr ⟨pair, isRead, ?_⟩
          unfold sstRows at isRow
          split at isRow
          next rows found =>
            cases before.unchanged pair isRead _ found
            exact isRow
          next => cases isRow
        refine (keeps row read).mono fun kept held => ?_
        rcases held with held | held
        · refine .inl (mem_listedRows_of_lookup ((listedIff _).mpr (.inr rfl)) ?_ held)
          rw [published.inPlace, output]
        · exact .inr (List.mem_append_right _ (tombstones ▸ held))
      · refine .of_holds (.inl (mem_listedRows.mpr ⟨name, (listedIff name).mpr (.inl
          ⟨mem_published_of_mem_listed asked (listedMoved ▸ member), input⟩), ?_⟩))
        have ext := extension_of_safe (inv.files.listedSafe name member)
        have kept := published.others safe name ⟨.inl ⟨ext, ne⟩, input⟩
        rwa [sstRows, kept, ← sstRows]
    · exact .of_holds (.inr (List.mem_append_left _ held))

/-! ## Every run -/

theorem CheckpointInv.step (inv : CheckpointInv config s) {e : Event}
    (clean : CleanEvent config s e) (taken : step config s e = some t) :
    CheckpointInv config t := by
  have files := inv.files.step clean.synced taken
  cases e with
  | put doc committedIndex time rollover =>
    exact inv.write (clean _ _ _ _ rfl)
      (fun _ => (Event.put doc committedIndex time rollover).writes_all (s := s) rfl)
      (step_write rfl taken)
  | putMany docs committedIndex time rollover =>
    refine inv.write (clean _ _ _ _ rfl) (fun applied => ?_) (step_write rfl taken)
    exact (Event.putMany docs committedIndex time rollover).writes_all (s := s)
      (by rw [Event.writes, applied])
  | del id previousVersion nowNs nowMs committedIndex rollover =>
    obtain ⟨version, found, written⟩ := Option.bind_eq_some_iff.mp taken
    have event : (Event.del id previousVersion nowNs nowMs committedIndex rollover).writes config s =
        some ([tombstone config committedIndex id version nowMs],
          [(id, tombstone config committedIndex id version nowMs)], true, rollover) := by
      rw [Event.writes, found]
      rfl
    exact inv.write (clean _ _ _ _ event) (fun _ => Event.writes_all _ event) written
  | walFails docs written rollover =>
    dsimp only [Lsm.step] at taken
    split at taken
    · cases taken
    · cases taken
      cases written with
      | false =>
        exact inv.still files rfl (fun row held => .of_holds held) rfl
          (fun job running => ⟨job, running, rfl, rfl, rfl⟩) inv.mergesClean
      | true =>
        refine inv.logged docs rollover files rfl (fun row held => .of_holds ?_)
          fun n marked => .inl ?_
        · simpa [Active] using held
        · simpa using marked
  | flushBegin => exact inv.flushBegin files taken
  | flushWrite micros sequence sidecars => exact inv.flushWrite files taken
  | flushWriteFails micros sequence leftover => exact inv.flushWriteFails files taken
  | flushPublish faults => exact inv.flushPublish files clean.1 clean.2 taken
  | reclaim removed => exact inv.reclaim files taken
  | compactSelect job =>
    obtain ⟨-, published, inputs, total, names, rfl, rfl⟩ := Collection.compactSelect_some taken
    refine inv.still files rfl (fun row held => .of_holds held) rfl
      (fun job running => ⟨job, running, rfl, rfl, rfl⟩) fun id other merge looked merged => ?_
    rcases lookup_insert_eq_some looked with ⟨-, rfl⟩ | ⟨-, was⟩
    · cases merged
    · exact inv.mergesClean id other merge was merged
  | compactCoverage job =>
    obtain ⟨inputs, total, published, running, -, rfl⟩ := Collection.compactCoverage_some taken
    refine inv.still files rfl (fun row held => .of_holds held) rfl
      (fun job running => ⟨job, running, rfl, rfl, rfl⟩) fun id other merge looked merged => ?_
    rcases lookup_insert_eq_some looked with ⟨-, rfl⟩ | ⟨-, was⟩
    · cases merged
    · exact inv.mergesClean id other merge was merged
  | compactMerge job committedIndex clock micros sequence sidecars =>
    exact inv.compactMerge files clean taken
  | compactPublish job faults => exact inv.compactPublish files clean taken
  | compactAbort job =>
    cases taken
    exact inv.still files rfl (fun row held => .of_holds held) rfl
      (fun job running => ⟨job, running, rfl, rfl, rfl⟩) fun id other merge looked =>
        inv.mergesClean id other merge (lookup_erase_eq_some looked).2

/-- A manifest on disk accounts for the WAL up to its boundary. -/
def CheckpointSound (config : LsmConfig) (s : Collection) : Prop :=
  (∀ manifest, manifestOnDisk config.codec s.dir = some manifest →
    ∀ record ∈ s.log, record.lsn ≤ manifest.coveredWalLsn →
      ∀ doc ∈ record.docs, Kept config (Stored config s) doc) ∧
  ∀ record ∈ s.log, record ∉ s.walRecords →
    ∀ doc ∈ record.docs, Kept config (Stored config s) doc

theorem checkpoint_sound (config : LsmConfig) (s : Collection)
    (reached : Reach (step config) (CleanEvent config) {} s) : CheckpointSound config s := by
  have inv : CheckpointInv config s := reached.invariant .init fun inv clean taken =>
    inv.step clean taken
  refine ⟨fun manifest onDisk record member below => ?_, fun record member gone => ?_⟩
  · refine inv.covered record member ?_
    rw [coveredWalLsn, onDisk]
    exact below
  · exact inv.covered record member ((inv.live record member).resolve_left gone)

/-! ## A clean run and a parked memtable -/

/-- What is stored of `versionOne id`. -/
def storedOne (id : String) : Json := putDocument standalone 0 (versionOne id)

/-- One put and its flush. -/
theorem checkpoint_sound_oneFlush : ∃ s, Reach (step standalone) (CleanEvent standalone) {} s ∧
    s.flush = some ⟨0, 1, .published 1⟩ ∧ CheckpointSound standalone s := by
  have put : CleanEvent standalone {} (.put (versionOne "a") 0 0 false) := by
    rintro docs writes applied rollover ⟨⟩
    exact ⟨fun old found => (nomatch found), trivial⟩
  have reached := (((@Reach.refl _ _ (step standalone) _ _).tail put rfl).tail
    (e := .flushBegin) (by rintro docs writes applied rollover ⟨⟩) rfl).tail
    (e := .flushWrite 1 0 {}) (by rintro docs writes applied rollover ⟨⟩) rfl
  exact ⟨_, reached.tail (e := .flushPublish {}) ⟨le_rfl, rfl⟩ rfl, rfl,
    checkpoint_sound standalone _ (reached.tail (e := .flushPublish {}) ⟨le_rfl, rfl⟩ rfl)⟩

/-- A flush of `a` cannot write its SST; the flush of `b` after it publishes. -/
def parkedFlush : List Event :=
  [.put (versionOne "a") 0 0 false, .flushBegin, .flushWriteFails 1 0 none,
    .put (versionOne "b") 0 0 false, .flushBegin, .flushWrite 2 1 {}, .flushPublish {}]

/-- The directory with the unfinished SST of `b`. -/
def unfinishedB : LsmDir :=
  withSidecars (AList.insert (writingOf "2_1.sst") (.sst [storedOne "b"]) ∅) (writingOf "2_1.sst") {}

def publishedB : LsmDir := (flushPublish jsonCodec {} unfinishedB "2_1.sst" 2).1

/-- The state that `parkedFlush` ends in. -/
def afterParkedFlush : Collection where
  immutables := [(0, AList.insert "a" (storedOne "a") ∅)]
  nextHandle := 2
  progress := { contiguous := 2 }
  nextLsn := 3
  activeSegment := [⟨1, [storedOne "a"]⟩, ⟨2, [storedOne "b"]⟩]
  dir := publishedB
  flush := some ⟨1, 2, .published 2⟩
  log := [⟨1, [storedOne "a"]⟩, ⟨2, [storedOne "b"]⟩]
  handedOut := ["2_1.sst", "1_0.sst"]

theorem run_parkedFlush : run (step standalone) {} parkedFlush = some afterParkedFlush := by
  rfl

theorem publishedB_spec : FlushPublished jsonCodec unfinishedB publishedB "2_1.sst" 2 := by
  have done : flushPublish jsonCodec {} unfinishedB "2_1.sst" 2 = (publishedB,
      .ok { generation := 1, coveredWalLsn := 2, sstFiles := ["2_1.sst"] }) := by rfl
  exact (flushPublish_ok (by decide) done).1

/-- Only `b` is in the SST of the manifest, whose boundary is past `a`. -/
theorem listedRows_publishedB {row : Json} (member : row ∈ listedRows jsonCodec publishedB) :
    row = storedOne "b" := by
  obtain ⟨name, isListed, isRow⟩ := mem_listedRows.mp member
  obtain ⟨names, asked, listedIff⟩ := publishedB_spec.names
  have none : publishedSsts jsonCodec unfinishedB = .ok [] := by rfl
  obtain rfl : names = [] := by
    rw [none] at asked
    cases asked
    rfl
  rcases (listedIff name).mp isListed with old | rfl
  · cases old
  · have file : publishedB.lookup "2_1.sst" = some (.sst [storedOne "b"]) :=
      publishedB_spec.inPlace.trans (by rfl)
    rw [sstRows, file] at isRow
    exact List.mem_singleton.mp isRow

theorem manifestOnDisk_publishedB :
    ∃ manifest, manifestOnDisk jsonCodec publishedB = some manifest ∧ manifest.coveredWalLsn = 2 := by
  have covers : coveredWalLsn jsonCodec publishedB = 2 := publishedB_spec.covered
  cases text : manifestOnDisk jsonCodec publishedB with
  | none => rw [coveredWalLsn, text] at covers; cases covers
  | some manifest => rw [coveredWalLsn, text] at covers; exact ⟨manifest, rfl, covers⟩

theorem checkpoint_unsound : ∃ s, run (step standalone) {} parkedFlush = some s ∧
    ¬CheckpointSound standalone s := by
  refine ⟨afterParkedFlush, run_parkedFlush, fun sound => ?_⟩
  obtain ⟨manifest, onDisk, boundary⟩ := manifestOnDisk_publishedB
  obtain ⟨row, held, newer⟩ := sound.1 manifest onDisk ⟨1, [storedOne "a"]⟩ (.head _)
    (by rw [boundary]; decide) (storedOne "a") (.head _)
  have isB : row = storedOne "b" := by
    rcases held with held | held
    · exact listedRows_publishedB held
    · cases held
  have idA : docId? standalone.dump (storedOne "a") = some "a" := by rfl
  have idB : docId? standalone.dump (storedOne "b") = some "b" := by rfl
  subst isB
  rcases newer with same | ⟨id, first, second, -⟩
  · rw [same, idA] at idB
    revert idB
    decide
  · rw [idB] at first
    rw [idA, ← first] at second
    revert second
    decide

end PacificDb.Lsm
