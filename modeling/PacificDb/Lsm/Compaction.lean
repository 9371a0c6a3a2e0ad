import PacificDb.Lsm.Files
import PacificDb.Lsm.Reads

/-!
# Compaction and reads

What a compaction does to the documents a read returns. Its first phases only
write files no read looks at. Publishing replaces its inputs by one SST, whose
name puts it after most others, whose rows are those visible at the commit index
of the merge, and which has no tombstones when the inputs were all SSTs.

`CleanCompaction` says when a read at that commit index or any later one cannot
tell the difference.
-/

namespace PacificDb.Lsm

open Lib

variable {config : LsmConfig} {s t : Collection} {committedIndex : Nat} {id : String}

/-! ## What a read depends on -/

/-- `load` reads the manifest text and the files it lists. -/
theorem load_congr_listed {codec : ManifestCodec} {dir other : LsmDir}
    (manifest : other.lookup kManifestName = dir.lookup kManifestName)
    (ssts : ∀ name ∈ listed codec dir, other.lookup name = dir.lookup name) :
    load codec other = load codec dir := by
  unfold load
  rw [manifest]
  cases text : dir.lookup kManifestName with
  | none => rfl
  | some body =>
    cases body with
    | sst rows => rfl
    | directory => rfl
    | text bytes =>
      dsimp only
      cases parsed : codec.parse bytes with
      | error reason => rfl
      | ok onDisk =>
        have names : listed codec dir = onDisk.sstFiles := by
          rw [listed, manifestOnDisk, text]
          simp [parsed, Except.toOption]
        have same : validateManifest other onDisk false = validateManifest dir onDisk false := by
          unfold validateManifest
          have checks : (sortNames onDisk.sstFiles).forM (validateSst other false) =
              (sortNames onDisk.sstFiles).forM (validateSst dir false) := by
            refine forM_congr fun name member => ?_
            rw [mem_sortNames, ← names] at member
            simp [validateSst, LsmDir.isRegularFile, ssts name member]
          dsimp only
          rw [checks]
        dsimp only
        rw [same]

theorem listed_of_load_ok {codec : ManifestCodec} {dir : LsmDir} {manifest : LsmManifest}
    (loads : load codec dir = .ok manifest) {name : String} :
    name ∈ listed codec dir ↔ name ∈ manifest.sstFiles := by
  obtain ⟨onDisk, text, rfl⟩ := manifestOnDisk_of_load_ok loads
  rw [listed, text]
  exact mem_sortNames.symm

/-- The legacy enumeration looks at names ending in `.sst` only. -/
theorem legacySsts_congr {dir other : LsmDir} {names : List String}
    (ssts : ∀ name, extension name = sstExtension → other.lookup name = dir.lookup name)
    (legacy : legacySsts dir = .ok names) : legacySsts other = .ok names := by
  obtain ⟨sorted, members⟩ := legacySsts_ok legacy
  cases result : legacySsts other with
  | error reason =>
    unfold legacySsts at result legacy
    dsimp only at result legacy
    split at result
    next name found =>
      have member := List.mem_of_find?_eq_some found
      have refused := List.find?_some found
      rw [List.mem_filter, Bool.and_eq_true, beq_iff_eq] at member
      obtain ⟨isKey, regular, ext⟩ := member
      have present : name ∈ dir := by
        rw [← AList.lookup_isSome, ← ssts name ext, AList.lookup_isSome]
        exact AList.mem_keys.mpr isKey
      split at legacy
      · cases legacy
      next valid =>
        have inDir : name ∈ dir.keys.filter fun name =>
            dir.isRegularFile name && extension name == sstExtension := by
          rw [List.mem_filter, Bool.and_eq_true, beq_iff_eq]
          refine ⟨AList.mem_keys.mp present, ?_, ext⟩
          rw [LsmDir.isRegularFile, ← ssts name ext]
          exact regular
        have accepted := List.find?_eq_none.mp valid name inDir
        rw [← ssts name ext] at accepted
        exact absurd refused accepted
    · cases result
  | ok others =>
    obtain ⟨otherSorted, otherMembers⟩ := legacySsts_ok result
    have same : ∀ name, name ∈ others ↔ name ∈ names := by
      intro name
      rw [otherMembers, members]
      exact and_congr_right fun ext => by rw [ssts name ext]
    have perm : others.Perm names := (List.perm_ext_iff_of_nodup
      (otherSorted.imp ne_of_lt) (sorted.imp ne_of_lt)).mpr same
    rw [perm.eq_of_pairwise (fun _ _ _ _ below above => absurd below above.not_gt) otherSorted sorted]

theorem publishedSsts_congr {codec : ManifestCodec} {dir other : LsmDir} {names : List String}
    (manifest : other.lookup kManifestName = dir.lookup kManifestName)
    (ssts : ∀ name, extension name = sstExtension → other.lookup name = dir.lookup name)
    (published : publishedSsts codec dir = .ok names) : publishedSsts codec other = .ok names := by
  have loads : load codec other = load codec dir :=
    load_congr manifest fun name safe => ssts name (extension_of_safe safe)
  unfold publishedSsts at published ⊢
  rw [loads]
  split at published
  · cases published
  next => exact published
  next => exact legacySsts_congr ssts published

/-! ## The inputs -/

theorem selectSsts_sublist (config : LsmConfig) (ssts : List (String × Nat)) :
    (selectSsts config ssts).Sublist (ssts.map Prod.fst) := by
  induction ssts with
  | nil => exact .slnil
  | cons sst rest ih =>
    unfold selectSsts
    dsimp only
    split
    · exact ((List.take_sublist _ _).trans (List.takeWhile_sublist _)).map _
    · exact ih.cons _

/-- Every running compaction has its inputs in name order. -/
def InputsSorted (s : Collection) : Prop :=
  ∀ id job, s.compactions.lookup id = some job → job.inputs.Pairwise (· < ·)

theorem InputsSorted.insert (sorted : InputsSorted s) {id : Nat} {job : CompactJob}
    (compactions : t.compactions = s.compactions.insert id job)
    (inputs : job.inputs.Pairwise (· < ·)) : InputsSorted t := by
  intro other found looked
  rw [compactions] at looked
  rcases lookup_insert_eq_some looked with ⟨-, rfl⟩ | ⟨-, was⟩
  · exact inputs
  · exact sorted other found was

theorem InputsSorted.erase (sorted : InputsSorted s) {id : Nat}
    (compactions : t.compactions = s.compactions.erase id) : InputsSorted t := by
  intro other found looked
  rw [compactions] at looked
  exact sorted other found (lookup_erase_eq_some looked).2

theorem InputsSorted.same (sorted : InputsSorted s) (compactions : t.compactions = s.compactions) :
    InputsSorted t := by
  intro id job looked
  rw [compactions] at looked
  exact sorted id job looked

theorem InputsSorted.write (sorted : InputsSorted s) {docs : List Json}
    {writes : List (String × Json)} {applied rollover : Bool}
    (taken : s.write docs writes applied rollover = some t) : InputsSorted t := by
  obtain ⟨-, rfl⟩ := Collection.write_some taken
  exact sorted.same (by simp)

theorem InputsSorted.step (sorted : InputsSorted s) {e : Event} (taken : step config s e = some t) :
    InputsSorted t := by
  cases e with
  | put doc committedIndex time rollover => exact sorted.write (step_write rfl taken)
  | putMany docs committedIndex time rollover => exact sorted.write (step_write rfl taken)
  | del id previousVersion nowNs nowMs committedIndex rollover =>
    obtain ⟨version, found, written⟩ := Option.bind_eq_some_iff.mp taken
    exact sorted.write written
  | walFails docs written rollover =>
    dsimp only [Lsm.step] at taken
    split at taken
    · cases taken
    · cases taken
      refine sorted.same ?_
      cases written <;> simp
  | flushBegin =>
    obtain ⟨-, rfl⟩ := Collection.flushBegin_some taken
    exact sorted
  | flushWrite micros sequence sidecars =>
    obtain ⟨snapshot, lsn, n, -, -, rfl⟩ := Collection.flushWrite_some taken
    exact sorted
  | flushWriteFails micros sequence leftover =>
    obtain ⟨n, dir, -, -, rfl⟩ := Collection.flushWriteFails_some taken
    exact sorted
  | flushPublish faults =>
    obtain ⟨snapshot, lsn, n, -, ⟨left, reason, -, rfl⟩ | ⟨left, next, -, rfl⟩⟩ :=
      Collection.flushPublish_some taken
    · exact sorted
    · exact sorted
  | reclaim removed =>
    obtain ⟨snapshot, lsn, publishedWalLsn, -, rfl⟩ := Collection.reclaim_some taken
    exact sorted
  | compactSelect job =>
    obtain ⟨-, published, inputs, total, names, rfl, rfl⟩ := Collection.compactSelect_some taken
    refine sorted.insert rfl ?_
    have selected := selectSsts_sublist config
      ((sortNames published).map fun name => (name, sstBytes config s.dir name))
    rw [List.map_map, show (Prod.fst ∘ fun name : String => (name, sstBytes config s.dir name)) = id
      from rfl, List.map_id] at selected
    exact (pairwise_sortNames ((publishedSsts_sorted names).imp ne_of_lt)).sublist selected
  | compactCoverage job =>
    obtain ⟨inputs, total, published, running, -, rfl⟩ := Collection.compactCoverage_some taken
    have before := sorted job _ running
    exact sorted.insert rfl before
  | compactMerge job committedIndex clock micros sequence sidecars =>
    obtain ⟨inputs, fullCoverage, read, n, running, -, -, rfl⟩ :=
      Collection.compactMerge_some taken
    have before := sorted job _ running
    exact sorted.insert rfl before
  | compactPublish job faults =>
    obtain ⟨inputs, merge, -, ⟨left, reason, -, rfl⟩ | ⟨left, next, -, rfl⟩⟩ :=
      Collection.compactPublish_some taken
    · exact sorted.erase rfl
    · exact sorted.erase rfl
  | compactAbort job =>
    cases taken
    exact sorted.erase rfl

/-! ## The merged rows -/

/-- The key a merge stores a row under: none for a row it leaves out. -/
def mergeKey (config : LsmConfig) (committedIndex : Nat) (row : Json × Nat) : Option String :=
  if docVisibleByCommitIndex config.raft row.1 committedIndex then
    some (storageId config row.2 row.1)
  else none

theorem rowKey_eq_some {row : Json} : rowKey config row = some id ↔
    docId? config.dump row = some id ∧ id ≠ "" := by
  rw [rowKey, Option.filter_eq_some_iff, decide_eq_true_eq]

/-- With an id on every visible row, a merge holds per id the row a read keeps. -/
theorem Merge.lookup_table (config : LsmConfig) {merge : Merge} (clock : Nat → Nat)
    (keyed : ∀ row ∈ merge.read.flatMap Prod.snd,
      docVisibleByCommitIndex config.raft row merge.committedIndex = true →
        (rowKey config row).isSome = true) (id : String) :
    (merge.table config clock).lookup id = lastMax docScore
      (rowsOf config id (visibleRows config merge.committedIndex (merge.read.flatMap Prod.snd))) := by
  set rows := merge.read.flatMap Prod.snd
  have merges : merge.table config clock = (rows.mapIdx fun i row => (row, clock i)).foldl
      (upsertKeyed (mergeKey config merge.committedIndex) Prod.fst) ∅ := by
    rw [Merge.table, mergeRows]
    congr 1
    funext table item
    rw [mergeRow, upsertKeyed, mergeKey]
    cases docVisibleByCommitIndex config.raft item.1 merge.committedIndex <;> rfl
  have keys : ∀ item ∈ rows.mapIdx fun i row => (row, clock i),
      decide (mergeKey config merge.committedIndex item = some id) =
        (decide (rowKey config item.1 = some id) &&
          docVisibleByCommitIndex config.raft item.1 merge.committedIndex) := by
    intro item member
    obtain ⟨i, inBounds, rfl⟩ := List.mem_mapIdx.mp member
    rw [mergeKey]
    cases visible : docVisibleByCommitIndex config.raft rows[i] merge.committedIndex with
    | false => simp
    | true =>
      obtain ⟨own, named⟩ := Option.isSome_iff_exists.mp
        (keyed rows[i] (List.getElem_mem inBounds) visible)
      have key : storageId config (clock i) rows[i] = own := by
        rw [storageId, (rowKey_eq_some.mp named).1, Option.getD_some]
      simp [key, named]
  have same : (rows.mapIdx fun i row => (row, clock i)).map Prod.fst = rows := by
    refine List.ext_getElem? fun i => ?_
    rw [List.getElem?_map, List.getElem?_mapIdx, Option.map_map]
    exact Option.map_id'
  rw [merges, lookup_foldl_upsertKeyed,
    AList.lookup_empty, List.filter_congr keys, rowsOf, visibleRows, List.filter_filter]
  conv_rhs => rw [← same, List.filter_map]
  rfl

/-- What a read at or after the commit index finds in the output for an id: the
row the merge holds, unless it was dropped. -/
theorem rowsOf_compactedRows {fullCoverage : Bool} {table : Memtable}
    (own : ∀ id row, table.lookup id = some row → rowKey config row = some id)
    (visible : ∀ id row, table.lookup id = some row →
      docVisibleByCommitIndex config.raft row committedIndex = true) {row : Json} :
    row ∈ rowsOf config id (visibleRows config committedIndex (compactedRows fullCoverage table)) ↔
      table.lookup id = some row ∧ (fullCoverage && isDeletedDoc row) = false := by
  simp only [rowsOf, visibleRows, compactedRows, List.mem_filter, Memtable.mem_rows,
    decide_eq_true_eq, Bool.not_eq_true']
  constructor
  · rintro ⟨⟨⟨⟨other, found⟩, kept⟩, -⟩, keyed⟩
    have same : other = id := Option.some.inj ((own other row found).symm.trans keyed)
    exact ⟨same ▸ found, kept⟩
  · rintro ⟨found, kept⟩
    exact ⟨⟨⟨⟨id, found⟩, kept⟩, visible id row found⟩, own id row found⟩

theorem lastMax_of_unique {rows : List Json} {row : Json} (member : row ∈ rows)
    (unique : ∀ other ∈ rows, other = row) : lastMax docScore rows = some row := by
  cases found : lastMax docScore rows with
  | none =>
    rw [lastMax_eq_none_iff] at found
    rw [found] at member
    cases member
  | some best => rw [unique best (mem_of_lastMax found)]

/-! ## The sources of a read -/

/-- What a read has for an id: the published SSTs in name order, then memory. -/
def sources (config : LsmConfig) (s : Collection) (committedIndex : Nat) (id : String)
    (names : List String) : List (WithTop String × List Json) :=
  (names.map fun name : String => ((name : WithTop String),
      rowsOf config id (visibleRows config committedIndex (sstRows s.dir name)))) ++
    [(⊤, rowsOf config id (visibleRows config committedIndex s.memoryRows))]

section Sources

variable {names : List String}

theorem sources_sorted (sorted : names.Pairwise (· < ·)) :
    (sources config s committedIndex id names).Pairwise fun source next => source.1 < next.1 := by
  refine List.pairwise_append.mpr ⟨?_, List.pairwise_singleton _ _, ?_⟩
  · exact List.pairwise_map.mpr (sorted.imp fun below => WithTop.coe_lt_coe.mpr below)
  · intro source member memory isMemory
    obtain ⟨name, -, rfl⟩ := List.mem_map.mp member
    rw [List.mem_singleton.mp isMemory]
    exact WithTop.coe_lt_top name

theorem rowsOf_flatten (config : LsmConfig) (committedIndex : Nat) (id : String)
    (groups : List (List Json)) :
    rowsOf config id (visibleRows config committedIndex groups.flatten) =
      (groups.map fun rows => rowsOf config id (visibleRows config committedIndex rows)).flatten := by
  simp only [rowsOf, visibleRows, List.filter_flatten, List.map_map]
  rfl

theorem flatMap_sources :
    (sources config s committedIndex id names).flatMap Prod.snd =
      rowsOf config id (visibleRows config committedIndex
        ((names.map fun name => (name, sstRows s.dir name)).flatMap Prod.snd ++ s.memoryRows)) := by
  have ssts := rowsOf_flatten config committedIndex id (names.map (sstRows s.dir))
  rw [List.map_map] at ssts
  rw [visibleRows, List.filter_append, rowsOf, List.filter_append, ← visibleRows, ← visibleRows,
    ← rowsOf, ← rowsOf, List.flatMap_map]
  rw [show (names.flatMap fun name => sstRows s.dir name) = (names.map (sstRows s.dir)).flatten from
    List.flatMap_def, ssts, sources, List.flatMap_append, List.flatMap_map, List.flatMap_singleton]
  rfl

end Sources

/-! ## The published SSTs before and after -/

/-- The manifest of a published compaction loads, unless its text is too long. -/
theorem compactPublish_loads {codec : ManifestCodec} {faults : CallerFaults} {dir left : LsmDir}
    {outName : String} {inputs : List String} {next : LsmManifest}
    (inputSsts : ∀ input ∈ inputs, safeSstName input = true) (notInput : outName ∉ inputs)
    (fits : (codec.dump { next with sstFiles := sortNames next.sstFiles }).length ≤
      kMaxManifestBytes)
    (done : compactPublish codec faults dir outName inputs = (left, .ok next)) :
    ∃ manifest, load codec left = .ok manifest := by
  obtain ⟨moved, after, request, rfl, success⟩ := publishSection_ok done
  obtain ⟨-, -, -, published, -, -, asks⟩ := compactRequest_ok (fun _ _ => not_false) request
  obtain ⟨manifest, loads⟩ := load_of_publish_ok success fits
  -- The files that go afterwards are not among those it lists.
  refine ⟨manifest, (load_congr_listed ?_ fun name member => ?_).trans loads⟩
  · refine lookup_removeAll_of_not_mem fun member => ?_
    rcases List.mem_append.mp member with input | sidecar
    · exact absurd (inputSsts _ input) (by decide)
    · obtain ⟨input, -, sidecar⟩ := List.mem_flatMap.mp sidecar
      exact (Auxiliary.of_mem_sidecarsOf sidecar).notManifest rfl
  · have named := (mem_listed_of_publish_ok success).mp member
    have safe := (manifestOnDisk_of_publish_ok success).2 name named
    refine lookup_removeAll_of_not_mem fun gone => ?_
    rcases List.mem_append.mp gone with input | sidecar
    · rw [asks, mem_compactManifest] at named
      rcases named with ⟨-, kept⟩ | rfl
      · exact kept input
      · exact notInput input
    · obtain ⟨input, -, sidecar⟩ := List.mem_flatMap.mp sidecar
      rw [(Auxiliary.of_mem_sidecarsOf sidecar).notSst] at safe
      cases safe

/-- Moving the output in place publishes no other SST and hides none. -/
theorem mem_published_moved (ok : FilesOk config s) {outName : String} (name : String) {moved : LsmDir}
    {names published : List String} (pending : PendingName s outName)
    (same : SameOn (fun name => name ∉ artifactNames (tmpOf outName) outName) s.dir moved)
    (before : publishedSsts config.codec s.dir = .ok names)
    (after : publishedSsts config.codec moved = .ok published) (other : name ≠ outName) :
    name ∈ published ↔ name ∈ names := by
  have safe := ok.pendingSafe outName pending
  have kept : ∀ name, extension name = sstExtension → name ≠ outName →
      moved.lookup name = s.dir.lookup name := by
    intro name ext ne
    refine same name fun touched => ?_
    exact not_otherFile_of_mem_artifactNames safe (not_otherFile_tmpOf outName) touched
      (.inl ⟨ext, ne⟩)
  have manifest : moved.lookup kManifestName = s.dir.lookup kManifestName :=
    same _ fun touched =>
      not_outside_of_mem_artifactNames safe (.of_tmpOf outName) touched (.inl rfl)
  have loads : load config.codec moved = load config.codec s.dir := by
    refine load_congr_listed manifest fun name member => kept name
      (extension_of_safe (ok.listedSafe name member)) ?_
    rintro rfl
    exact ok.pendingUnlisted name pending member
  unfold publishedSsts at before after
  rw [loads] at after
  cases result : load config.codec s.dir with
  | error reason =>
    rw [result] at before
    cases before
  | ok manifest =>
    rw [result] at before after
    cases before
    cases after
    rfl
  | absent =>
    rw [result] at before after
    rw [(legacySsts_ok before).2, (legacySsts_ok after).2]
    exact and_congr_right fun ext => by rw [kept name ext other]

/-- The published SSTs after a compaction, and their files. -/
structure PublishedAfter (config : LsmConfig) (dir left : LsmDir) (outName : String)
    (inputs names after : List String) : Prop where
  published : publishedSsts config.codec left = .ok after
  members : ∀ name, name ∈ after ↔ (name ∈ names ∧ name ∉ inputs) ∨ name = outName
  inputsPublished : ∀ input ∈ inputs, input ∈ names
  fresh : outName ∉ names
  kept : ∀ name ∈ names, name ∉ inputs → left.lookup name = dir.lookup name
  output : left.lookup outName = dir.lookup (tmpOf outName)

theorem FilesOk.publishedAfter (ok : FilesOk config s) {job : Nat} {inputs names : List String}
    {merge : Merge} {faults : CallerFaults} {left : LsmDir} {next : LsmManifest}
    (running : s.compactions.lookup job = some ⟨inputs, .merged merge⟩)
    (done : Lsm.compactPublish config.codec faults s.dir merge.outName inputs = (left, .ok next))
    (fits : (config.codec.dump { next with sstFiles := sortNames next.sstFiles }).length ≤
      kMaxManifestBytes)
    (before : publishedSsts config.codec s.dir = .ok names) :
    ∃ after, PublishedAfter config s.dir left merge.outName inputs names after := by
  have pending : PendingName s merge.outName := .inr ⟨job, _, merge, running, rfl, rfl⟩
  have safe := ok.pendingSafe _ pending
  have inputSsts : ∀ input ∈ inputs, safeSstName input = true := fun input member =>
    ok.inputSafe running member
  have notInput := ok.pendingNotInput _ pending job _ running
  have published := compactPublish_ok safe inputSsts notInput done
  obtain ⟨manifest, loads⟩ := compactPublish_loads inputSsts notInput fits done
  obtain ⟨moved, movedNames, same, asked, still, listedIff⟩ := published.names
  have fresh : merge.outName ∉ names := fun member => (ok.published before member).2 pending
  have moves := fun name => mem_published_moved ok name pending same before asked
  refine ⟨manifest.sstFiles, ?_, fun name => ?_, ?_, fresh, ?_, published.inPlace⟩
  · rw [publishedSsts, loads]
  · rw [← listed_of_load_ok loads, listedIff]
    by_cases own : name = merge.outName
    · simp [own]
    · rw [moves name own]
  · intro input member
    have other : input ≠ merge.outName := fun own => notInput (own ▸ member)
    exact (moves input other).mp (still input member)
  · intro name member kept
    have ext := extension_of_safe (ok.handedOutSafe name (ok.published before member).1)
    have other : name ≠ merge.outName := fun own => fresh (own ▸ member)
    exact published.others safe name ⟨.inl ⟨ext, other⟩, kept⟩

/-! ## When a read cannot tell -/

/-- A read at the commit index or a later one can show the row. -/
def Shown (config : LsmConfig) (committedIndex : Nat) (row : Json) : Prop :=
  ∃ later, committedIndex ≤ later ∧ docVisibleByCommitIndex config.raft row later = true

/-- The newest row a merge has read for an id. -/
def Merge.newest? (config : LsmConfig) (merge : Merge) (id : String) : Option Json :=
  lastMax docScore
    (rowsOf config id (visibleRows config merge.committedIndex (merge.read.flatMap Prod.snd)))

/-- The rows of the published SSTs a merge has not read. -/
def KeptRow (config : LsmConfig) (s : Collection) (merge : Merge) (name : String) (row : Json) :
    Prop :=
  ∃ published, publishedSsts config.codec s.dir = .ok published ∧ name ∈ published ∧
    name ∉ merge.read.map Prod.fst ∧ row ∈ sstRows s.dir name

/-- The condition under which publishing a merge changes no read: every row it
has read that can ever be shown is visible at its commit index and has an id;
where a row elsewhere has the version of a row it has read, its output takes the
place of that row's SST; and it drops no tombstone that some row elsewhere needs. -/
structure CleanCompaction (config : LsmConfig) (s : Collection) (merge : Merge) : Prop where
  shown : ∀ row ∈ merge.read.flatMap Prod.snd, Shown config merge.committedIndex row →
    docVisibleByCommitIndex config.raft row merge.committedIndex = true ∧
      (rowKey config row).isSome = true
  ties : ∀ input ∈ merge.read, ∀ row ∈ input.2, ∀ name kept, KeptRow config s merge name kept →
    Shown config merge.committedIndex row → Shown config merge.committedIndex kept →
    (∃ id, rowKey config row = some id ∧ rowKey config kept = some id) →
    docScore kept = docScore row → (name < input.1 ↔ name < merge.outName)
  tombstones : merge.fullCoverage = true → ∀ id tomb, merge.newest? config id = some tomb →
    isDeletedDoc tomb = true →
    (∀ row ∈ s.memoryRows, rowKey config row = some id → Shown config merge.committedIndex row →
      docScore tomb ≤ docScore row) ∧
    ∀ name row, KeptRow config s merge name row → rowKey config row = some id →
      Shown config merge.committedIndex row → docScore tomb < docScore row ∨
        (docScore tomb = docScore row ∧ ∀ input ∈ merge.read, input.1 < name)

/-- Every read of `s` at or after the commit index has the same documents in `t`. -/
def ReadsKept (config : LsmConfig) (s t : Collection) (committedIndex : Nat) : Prop :=
  ∀ later, committedIndex ≤ later → ∀ docs, readAllCollectionRows config s later = .ok docs →
    ∃ others, readAllCollectionRows config t later = .ok others ∧
      ∀ doc, doc ∈ others ↔ doc ∈ docs

/-- A read of an id finds the winner of its sources. -/
theorem lastMax_rows_iff {names : List String} {doc : Json} (sorted : names.Pairwise (· < ·)) :
    lastMax docScore (rowsOf config id (visibleRows config committedIndex
        ((names.map fun name => (name, sstRows s.dir name)).flatMap Prod.snd ++ s.memoryRows))) =
      some doc ↔ Wins docScore (sources config s committedIndex id names) doc := by
  rw [← lastMax_flatMap_iff (sources_sorted sorted), flatMap_sources]

section Publish

variable {merge : Merge} {inputs names after : List String} {left : LsmDir} {later : Nat}

/-- Whether a rank is that of an input. -/
def isInput (inputs : List String) (rank : WithTop String) : Bool :=
  decide (rank ∈ inputs.map fun name : String => (name : WithTop String))

theorem isInput_coe {name : String} : isInput inputs name = true ↔ name ∈ inputs := by
  simp [isInput]

theorem isInput_coe_false {name : String} : isInput inputs name = false ↔ name ∉ inputs := by
  rw [← isInput_coe, Bool.not_eq_true]

theorem isInput_top : isInput inputs ⊤ = false := by
  simp [isInput]

/-- The sources of a read after the publication. -/
theorem mem_sources_after (later : Nat) (id : String)
    (published : PublishedAfter config s.dir left merge.outName inputs names after)
    (dir : t.dir = left) (memory : t.memoryRows = s.memoryRows)
    (source : WithTop String × List Json) :
    source ∈ sources config t later id after ↔
      (source ∈ sources config s later id names ∧ isInput inputs source.1 = false) ∨
        source = ((merge.outName : WithTop String),
          rowsOf config id (visibleRows config later (sstRows left merge.outName))) := by
  subst dir
  have same : ∀ name ∈ names, name ∉ inputs → sstRows t.dir name = sstRows s.dir name := by
    intro name member kept
    rw [sstRows, published.kept name member kept, sstRows]
  simp only [sources, List.mem_append, List.mem_map, List.mem_singleton, memory]
  constructor
  · rintro (⟨name, member, rfl⟩ | rfl)
    · rcases (published.members name).mp member with ⟨was, kept⟩ | rfl
      · exact .inl ⟨.inl ⟨name, was, by rw [same name was kept]⟩, isInput_coe_false.mpr kept⟩
      · exact .inr rfl
    · exact .inl ⟨.inr rfl, isInput_top⟩
  · rintro (⟨⟨name, member, rfl⟩ | rfl, kept⟩ | rfl)
    · have notInput := isInput_coe_false.mp kept
      exact .inl ⟨name, (published.members name).mpr (.inl ⟨member, notInput⟩),
        by rw [same name member notInput]⟩
    · exact .inr rfl
    · exact .inl ⟨merge.outName, (published.members _).mpr (.inr rfl), rfl⟩

/-- The rows of the inputs, as the read before the publication has them. -/
theorem flatMap_inputs (config : LsmConfig) (later : Nat) (id : String)
    (sorted : names.Pairwise (· < ·)) (inputsSorted : inputs.Pairwise (· < ·))
    (subset : ∀ input ∈ inputs, input ∈ names)
    (read : merge.read = inputs.map fun name => (name, sstRows s.dir name)) :
    ((sources config s later id names).filter fun source => isInput inputs source.1).flatMap
        Prod.snd =
      rowsOf config id (visibleRows config later (merge.read.flatMap Prod.snd)) := by
  have chosen : (names.filter fun name : String => isInput inputs name) = inputs := by
    have perm : (names.filter fun name : String => isInput inputs name).Perm inputs := by
      refine (List.perm_ext_iff_of_nodup ((sorted.imp ne_of_lt).filter _)
        (inputsSorted.imp ne_of_lt)).mpr fun name => ?_
      rw [List.mem_filter, isInput_coe]
      exact ⟨And.right, fun member => ⟨subset name member, member⟩⟩
    exact perm.eq_of_pairwise (fun _ _ _ _ below above => absurd below above.not_gt)
      (sorted.filter _) inputsSorted
  have ssts := rowsOf_flatten config later id (inputs.map (sstRows s.dir))
  rw [List.map_map] at ssts
  rw [sources, List.filter_append, List.filter_map, List.flatMap_append]
  have memory : [((⊤ : WithTop String), rowsOf config id (visibleRows config later s.memoryRows))].filter
      (fun source => isInput inputs source.1) = [] := by
    simp [isInput_top]
  rw [memory, List.flatMap_nil, List.append_nil, read, List.flatMap_map, List.flatMap_map]
  rw [show (fun source : WithTop String × List Json => isInput inputs source.1) ∘
      (fun name : String => ((name : WithTop String),
        rowsOf config id (visibleRows config later (sstRows s.dir name)))) =
      fun name : String => isInput inputs name from rfl, chosen]
  rw [show (inputs.flatMap fun name => sstRows s.dir name) = (inputs.map (sstRows s.dir)).flatten from
    List.flatMap_def, ssts]
  rfl

/-- The rows of the inputs that a later read shows are those the merge kept. -/
theorem CleanCompaction.visibleRows_eq (clean : CleanCompaction config s merge)
    (order : merge.committedIndex ≤ later) :
    visibleRows config later (merge.read.flatMap Prod.snd) =
      visibleRows config merge.committedIndex (merge.read.flatMap Prod.snd) := by
  refine List.filter_congr fun row member => ?_
  rw [Bool.eq_iff_iff]
  exact ⟨fun visible => (clean.shown row member ⟨later, order, visible⟩).1,
    docVisibleByCommitIndex_mono order⟩

theorem shown_of_mem {row : Json} {rows : List Json} (order : committedIndex ≤ later)
    (member : row ∈ rowsOf config id (visibleRows config later rows)) :
    row ∈ rows ∧ rowKey config row = some id ∧ Shown config committedIndex row := by
  rw [rowsOf, List.mem_filter, visibleRows, List.mem_filter, decide_eq_true_eq] at member
  exact ⟨member.1.1, member.2, later, order, member.1.2⟩

/-- The output of a clean merge, as a later read sees it. -/
theorem CleanCompaction.output (clean : CleanCompaction config s merge) {clock : Nat → Nat}
    (order : merge.committedIndex ≤ later) (row : Json) :
    row ∈ rowsOf config id (visibleRows config later
        (compactedRows merge.fullCoverage (merge.table config clock))) ↔
      merge.newest? config id = some row ∧ (merge.fullCoverage && isDeletedDoc row) = false := by
  have lookup := Merge.lookup_table config clock fun row member visible =>
    (clean.shown row member ⟨_, le_rfl, visible⟩).2
  rw [Merge.newest?, ← lookup]
  refine rowsOf_compactedRows ?_ ?_
  · intro own row found
    rw [lookup] at found
    exact (rowKey_of_lastMax found).2
  · intro own row found
    rw [lookup] at found
    have member := (rowKey_of_lastMax found).1
    rw [visibleRows, List.mem_filter] at member
    exact docVisibleByCommitIndex_mono order member.2

/-- A source that stays is a published SST that is no input, or memory. -/
theorem kept_source {source : WithTop String × List Json} {row : Json}
    (before : publishedSsts config.codec s.dir = .ok names)
    (read : merge.read.map Prod.fst = inputs) (order : committedIndex ≤ later)
    (member : source ∈ sources config s later id names) (notInput : isInput inputs source.1 = false)
    (isRow : row ∈ source.2) :
    rowKey config row = some id ∧ Shown config committedIndex row ∧
      ((source.1 = ⊤ ∧ row ∈ s.memoryRows) ∨
        ∃ name : String, source.1 = name ∧ KeptRow config s merge name row) := by
  rcases List.mem_append.mp member with sst | isMemory
  · obtain ⟨name, isName, rfl⟩ := List.mem_map.mp sst
    obtain ⟨inSst, keyed, shown⟩ := shown_of_mem order isRow
    refine ⟨keyed, shown, .inr ⟨name, rfl, names, before, isName, ?_, inSst⟩⟩
    rw [read]
    exact isInput_coe_false.mp notInput
  · obtain rfl := List.mem_singleton.mp isMemory
    obtain ⟨inMemory, keyed, shown⟩ := shown_of_mem order isRow
    exact ⟨keyed, shown, .inl ⟨rfl, inMemory⟩⟩

/-- A source that goes is one of the inputs. -/
theorem input_source {source : WithTop String × List Json}
    (read : merge.read = inputs.map fun name => (name, sstRows s.dir name))
    (order : committedIndex ≤ later) (member : source ∈ sources config s later id names)
    (wasInput : isInput inputs source.1 = true) :
    ∃ input ∈ merge.read, source.1 = (input.1 : WithTop String) ∧ ∀ row ∈ source.2,
      row ∈ input.2 ∧ rowKey config row = some id ∧ Shown config committedIndex row := by
  rcases List.mem_append.mp member with sst | isMemory
  · obtain ⟨name, isName, rfl⟩ := List.mem_map.mp sst
    refine ⟨(name, sstRows s.dir name), ?_, rfl, fun row isRow => shown_of_mem order isRow⟩
    rw [read]
    exact List.mem_map_of_mem (isInput_coe.mp wasInput)
  · obtain rfl := List.mem_singleton.mp isMemory
    rw [isInput_top] at wasInput
    cases wasInput

/-- The winner for an id is the same before and after, tombstones apart. -/
theorem CleanCompaction.wins_iff (clean : CleanCompaction config s merge) {doc : Json}
    {clock : Nat → Nat} (before : publishedSsts config.codec s.dir = .ok names)
    (inputsSorted : inputs.Pairwise (· < ·))
    (read : merge.read = inputs.map fun name => (name, sstRows s.dir name))
    (published : PublishedAfter config s.dir left merge.outName inputs names after)
    (output : sstRows left merge.outName =
      compactedRows merge.fullCoverage (merge.table config clock))
    (dir : t.dir = left) (memory : t.memoryRows = s.memoryRows)
    (order : merge.committedIndex ≤ later) (alive : isDeletedDoc doc = false) :
    Wins docScore (sources config s later id names) doc ↔
      Wins docScore (sources config t later id after) doc := by
  have sorted := publishedSsts_sorted before
  have members := mem_sources_after later id published dir memory
  have most : lastMax docScore (((sources config s later id names).filter fun source =>
      isInput inputs source.1).flatMap Prod.snd) = merge.newest? config id := by
    rw [flatMap_inputs config later id sorted inputsSorted published.inputsPublished read,
      clean.visibleRows_eq order, Merge.newest?]
  rw [output] at members
  have offered : ∀ row, row ∈ rowsOf config id (visibleRows config later
      (compactedRows merge.fullCoverage (merge.table config clock))) ↔
      merge.newest? config id = some row ∧ (merge.fullCoverage && isDeletedDoc row) = false :=
    clean.output order
  have readNames : merge.read.map Prod.fst = inputs := by
    rw [read, List.map_map]
    exact List.map_id inputs
  by_cases dropped : ∃ top, merge.newest? config id = some top ∧
      (merge.fullCoverage && isDeletedDoc top) = true
  · obtain ⟨top, found, gone⟩ := dropped
    obtain ⟨full, deleted⟩ := Bool.and_eq_true _ _ |>.mp gone
    obtain ⟨inMemory, inSsts⟩ := clean.tombstones full id top found deleted
    refine wins_drop_iff (sources_sorted sorted) members ?_ (most.trans found) ?_ ?_
    · refine List.eq_nil_iff_forall_not_mem.mpr fun row member => ?_
      obtain ⟨again, stays⟩ := (offered row).mp member
      rw [found] at again
      cases again
      rw [gone] at stays
      cases stays
    · intro source member notInput row isRow
      obtain ⟨keyed, shown, ⟨isTop, isMemory⟩ | ⟨name, isName, isKept⟩⟩ :=
        kept_source before readNames order member notInput isRow
      · rcases (inMemory row isMemory keyed shown).lt_or_eq with less | same
        · exact .inl less
        · refine .inr ⟨same, fun other isOther wasInput => ?_⟩
          obtain ⟨input, -, isInput, -⟩ := input_source read order isOther wasInput
          rw [isInput, isTop]
          exact WithTop.coe_lt_top _
      · rcases inSsts name row isKept keyed shown with less | ⟨same, after⟩
        · exact .inl less
        · refine .inr ⟨same, fun other isOther wasInput => ?_⟩
          obtain ⟨input, isRead, isInput, -⟩ := input_source read order isOther wasInput
          rw [isInput, isName]
          exact WithTop.coe_lt_coe.mpr (after input isRead)
    · rintro rfl
      rw [alive] at deleted
      cases deleted
  · refine wins_merge_iff (sources_sorted sorted) members ?_ ?_ ?_
    · rw [most]
      cases found : merge.newest? config id with
      | none =>
        rw [lastMax_eq_none_iff, List.eq_nil_iff_forall_not_mem]
        intro row member
        rw [((offered row).mp member).1] at found
        cases found
      | some top =>
        refine lastMax_of_unique ((offered top).mpr ⟨found, ?_⟩) fun row member => ?_
        · rw [← Bool.not_eq_true]
          exact fun gone => dropped ⟨top, found, gone⟩
        · exact Option.some.inj (((offered row).mp member).1.symm.trans found)
    · intro source member notInput other isOther wasInput row isRow rival isRival tie
      obtain ⟨input, isRead, isInput, rows⟩ := input_source read order isOther wasInput
      obtain ⟨inInput, rivalKeyed, rivalShown⟩ := rows rival isRival
      obtain ⟨keyed, shown, ⟨isTop, -⟩ | ⟨name, isName, isKept⟩⟩ :=
        kept_source before readNames order member notInput isRow
      · rw [isTop]
        exact iff_of_false not_top_lt not_top_lt
      · rw [isName, isInput, WithTop.coe_lt_coe, WithTop.coe_lt_coe]
        exact clean.ties input isRead rival inInput name row isKept rivalShown shown
          ⟨id, rivalKeyed, keyed⟩ tie
    · intro source member notInput same
      rcases List.mem_append.mp member with sst | isMemory
      · obtain ⟨name, isName, rfl⟩ := List.mem_map.mp sst
        exact published.fresh (WithTop.coe_injective same ▸ isName)
      · obtain rfl := List.mem_singleton.mp isMemory
        exact WithTop.top_ne_coe same

/-- A document without an id is in no input and not in the output. -/
theorem CleanCompaction.mem_visibleRows_iff (clean : CleanCompaction config s merge) {doc : Json}
    {clock : Nat → Nat} (read : merge.read = inputs.map fun name => (name, sstRows s.dir name))
    (published : PublishedAfter config s.dir left merge.outName inputs names after)
    (output : sstRows left merge.outName =
      compactedRows merge.fullCoverage (merge.table config clock))
    (dir : t.dir = left) (memory : t.memoryRows = s.memoryRows)
    (order : merge.committedIndex ≤ later) (unkeyed : rowKey config doc = none) :
    doc ∈ visibleRows config later
        ((after.map fun name => (name, sstRows t.dir name)).flatMap Prod.snd ++ t.memoryRows) ↔
      doc ∈ visibleRows config later
        ((names.map fun name => (name, sstRows s.dir name)).flatMap Prod.snd ++ s.memoryRows) := by
  subst dir
  rw [visibleRows, visibleRows, List.mem_filter, List.mem_filter, List.mem_append, List.mem_append,
    memory, List.flatMap_map, List.flatMap_map, List.mem_flatMap, List.mem_flatMap]
  refine and_congr_left fun visible => or_congr_left ⟨?_, ?_⟩
  · rintro ⟨name, member, isRow⟩
    rcases (published.members name).mp member with ⟨was, kept⟩ | rfl
    · refine ⟨name, was, ?_⟩
      rwa [sstRows, published.kept name was kept, ← sstRows] at isRow
    · dsimp only at isRow
      rw [output, compactedRows, List.mem_filter, Memtable.mem_rows] at isRow
      obtain ⟨⟨id, found⟩, -⟩ := isRow
      rw [Merge.lookup_table config clock fun row member visible =>
        (clean.shown row member ⟨_, le_rfl, visible⟩).2] at found
      rw [(rowKey_of_lastMax found).2] at unkeyed
      cases unkeyed
  · rintro ⟨name, member, isRow⟩
    have kept : name ∉ inputs := by
      intro isInput
      have inRead : doc ∈ merge.read.flatMap Prod.snd := by
        rw [read, List.flatMap_map]
        exact List.mem_flatMap.mpr ⟨name, isInput, isRow⟩
      have keyed := (clean.shown doc inRead ⟨later, order, visible⟩).2
      rw [unkeyed] at keyed
      cases keyed
    refine ⟨name, (published.members name).mpr (.inl ⟨member, kept⟩), ?_⟩
    dsimp only at isRow ⊢
    rwa [sstRows, published.kept name member kept, ← sstRows]

/-- Publishing a clean merge changes no later read. -/
theorem CleanCompaction.readsKept (clean : CleanCompaction config s merge) {clock : Nat → Nat}
    (inputsSorted : inputs.Pairwise (· < ·))
    (unchanged : ∀ input ∈ merge.read, ∀ body, s.dir.lookup input.1 = some body →
      body = .sst input.2)
    (readNames : merge.read.map Prod.fst = inputs)
    (published : ∀ names, publishedSsts config.codec s.dir = .ok names →
      ∃ after, PublishedAfter config s.dir left merge.outName inputs names after)
    (output : left.lookup merge.outName =
      some (.sst (compactedRows merge.fullCoverage (merge.table config clock))))
    (dir : t.dir = left) (memory : t.memoryRows = s.memoryRows) :
    ReadsKept config s t merge.committedIndex := by
  intro later order docs reads
  obtain ⟨names, before, bodies, rfl⟩ := readAllCollectionRows_ok.mp reads
  obtain ⟨after, published⟩ := published names before
  have outRows : sstRows left merge.outName =
      compactedRows merge.fullCoverage (merge.table config clock) := by rw [sstRows, output]
  have read : merge.read = inputs.map fun name => (name, sstRows s.dir name) := by
    rw [← readNames, List.map_map]
    refine (List.map_id' _).symm.trans (List.map_congr_left fun input member => ?_)
    obtain ⟨rows, body⟩ := bodies input.1
      (published.inputsPublished input.1 (readNames ▸ List.mem_map_of_mem member))
    have same := unchanged input member _ body
    rw [Function.comp_apply, sstRows, body, same]
  subst dir
  refine ⟨_, readAllCollectionRows_ok.mpr ⟨after, published.published, ?_, rfl⟩, fun doc => ?_⟩
  · intro name member
    rcases (published.members name).mp member with ⟨was, kept⟩ | rfl
    · rw [published.kept name was kept]
      exact bodies name was
    · exact ⟨_, output⟩
  rw [mem_latestDocs, mem_latestDocs]
  refine and_congr_right fun alive => or_congr (and_congr_right fun unkeyed => ?_)
    (exists_congr fun id => ?_)
  · exact clean.mem_visibleRows_iff read published outRows rfl memory order unkeyed
  · rw [lastMax_rows_iff (publishedSsts_sorted published.published),
      lastMax_rows_iff (publishedSsts_sorted before)]
    exact (clean.wins_iff before inputsSorted read published outRows rfl memory order alive).symm

end Publish

/-! ## Whole runs -/

/-- The steps of a compaction before it publishes. -/
def Event.preparesCompaction : Event → Bool
  | .compactSelect _ | .compactCoverage _ | .compactMerge _ _ _ _ _ _ | .compactAbort _ => true
  | _ => false

theorem ReadsKept.of_same (dir : t.dir = s.dir) (memtable : t.memtable = s.memtable)
    (immutables : t.immutables = s.immutables) : ReadsKept config s t 0 := by
  intro later _ docs reads
  refine ⟨docs, ?_, fun _ => Iff.rfl⟩
  rw [readAllCollectionRows, dir, Collection.memoryRows, memtable, immutables]
  exact reads

/-- Before it publishes, a compaction writes nothing that a read looks at. -/
theorem readsKept_of_preparesCompaction (ok : FilesOk config s) {e : Event}
    (prepares : e.preparesCompaction = true) (taken : step config s e = some t) :
    ReadsKept config s t 0 := by
  cases e with
  | compactSelect job =>
    obtain ⟨-, published, inputs, total, names, rfl, rfl⟩ := Collection.compactSelect_some taken
    exact .of_same rfl rfl rfl
  | compactCoverage job =>
    obtain ⟨inputs, total, published, running, -, rfl⟩ := Collection.compactCoverage_some taken
    exact .of_same rfl rfl rfl
  | compactAbort job =>
    cases taken
    exact .of_same rfl rfl rfl
  | compactMerge job committedIndex clock micros sequence sidecars =>
    obtain ⟨inputs, fullCoverage, read, n, running, -, fresh, rfl⟩ :=
      Collection.compactMerge_some taken
    obtain ⟨unused, safe⟩ := Collection.freshName_eq_some fresh
    intro later _ docs reads
    obtain ⟨names, before, bodies, rfl⟩ := readAllCollectionRows_ok.mp reads
    have written := sameOn_write_unfinished s.dir (.sst (compactedRows fullCoverage (mergeRows config
      committedIndex ((read.flatMap Prod.snd).mapIdx fun i row => (row, clock i))))) sidecars safe
      (not_otherFile_tmpOf n) (.of_tmpOf n)
    have ssts : ∀ name, extension name = sstExtension → _ = s.dir.lookup name := fun name ext => by
      by_cases own : name = n
      · exact written name (.inr (.inl own))
      · exact written name (.inl (.inl ⟨ext, own⟩))
    have same : ∀ name ∈ names, _ = s.dir.lookup name := fun name member =>
      ssts name (extension_of_safe (ok.handedOutSafe name (ok.published before member).1))
    refine ⟨_, readAllCollectionRows_ok.mpr ⟨names,
      publishedSsts_congr (written _ (.inr (.inr rfl))) ssts before, fun name member => ?_, ?_⟩,
      fun _ => Iff.rfl⟩
    · rw [same name member]
      exact bodies name member
    · refine congrArg (fun read : List (String × List Json) => latestDocs config (visibleRows config
        later (read.flatMap Prod.snd ++ s.memoryRows))) (List.map_congr_left fun name member => ?_)
      rw [sstRows, sstRows, same name member]
  | _ => cases prepares

/-- In every reachable state, a compaction changes no read: not before it
publishes, and when it publishes a clean merge, no read at the commit index of
the merge or later. -/
theorem compaction_preserves_reads (config : LsmConfig) (s : Collection)
    (reached : Reach (step config) (fun _ => SyncedEvent) {} s) :
    (∀ e t, e.preparesCompaction = true → step config s e = some t → ReadsKept config s t 0) ∧
    ∀ job faults inputs merge left next t,
      s.compactions.lookup job = some ⟨inputs, .merged merge⟩ → CleanCompaction config s merge →
      Lsm.compactPublish config.codec faults s.dir merge.outName inputs = (left, .ok next) →
      (config.codec.dump { next with sstFiles := sortNames next.sstFiles }).length ≤
        kMaxManifestBytes →
      step config s (.compactPublish job faults) = some t →
        ReadsKept config s t merge.committedIndex := by
  have files : FilesOk config s := reached.invariant .init fun ok synced taken => ok.step synced taken
  have sorted : InputsSorted s := reached.invariant (fun _ _ found => nomatch found)
    fun sorted _ taken => sorted.step taken
  refine ⟨fun e t prepares taken => readsKept_of_preparesCompaction files prepares taken, ?_⟩
  intro job faults inputs merge left next t running clean done fits taken
  have merged := files.mergedFile job _ merge running rfl
  obtain ⟨clock, written, -⟩ := merged.output
  have pending : PendingName s merge.outName := .inr ⟨job, _, merge, running, rfl, rfl⟩
  have published := compactPublish_ok (files.pendingSafe _ pending)
    (fun input member => files.inputSafe running member)
    (files.pendingNotInput _ pending job _ running) done
  have after : t = { s with
      dir := left
      compactions := s.compactions.erase job
      reclaimed := s.reclaimed ++ merge.tombstones } := by
    rw [step, Collection.compactPublish, running] at taken
    dsimp only at taken
    rw [done] at taken
    exact (Option.some.inj taken).symm
  refine clean.readsKept (sorted job _ running) merged.unchanged merged.inputs
    (fun names before => files.publishedAfter running done fits before)
    (published.inPlace.trans written) ?_ ?_
  · rw [after]
  · rw [after]
    rfl

/-! ## A clean compaction and a resurrected row -/

/-- Compactions of two SSTs at a time. -/
def pairs : LsmConfig := { standalone with fanout := 2 }

/-- Two flushes and the merge of their SSTs. -/
def twoFlushes : List Event :=
  [.put (versionOne "a") 0 0 false, .flushBegin, .flushWrite 1 0 {}, .flushPublish {}, .reclaim 0,
    .put (versionOne "b") 0 0 false, .flushBegin, .flushWrite 2 1 {}, .flushPublish {}, .reclaim 0,
    .compactSelect 0, .compactCoverage 0, .compactMerge 0 0 (fun _ => 0) 3 2 {}]

def mergedPair : Merge where
  outName := "3_2.sst"
  fullCoverage := true
  committedIndex := 0
  read := [("1_0.sst", [putDocument pairs 0 (versionOne "a")]),
    ("2_1.sst", [putDocument pairs 0 (versionOne "b")])]
  tombstones := []

theorem run_twoFlushes : (run (step pairs) {} twoFlushes).map (fun s =>
      (s.compactions.lookup 0, publishedSsts pairs.codec s.dir,
        (Lsm.compactPublish pairs.codec {} s.dir mergedPair.outName ["1_0.sst", "2_1.sst"]).2)) =
    some (some ⟨["1_0.sst", "2_1.sst"], .merged mergedPair⟩, .ok ["1_0.sst", "2_1.sst"],
      .ok { generation := 3, coveredWalLsn := 2, sstFiles := ["3_2.sst"] }) := by
  rfl

/-- All SSTs were read, no row is hidden, and none is a tombstone. -/
theorem cleanCompaction_mergedPair {s : Collection}
    (published : publishedSsts pairs.codec s.dir = .ok ["1_0.sst", "2_1.sst"]) :
    CleanCompaction pairs s mergedPair := by
  have nothingElse : ∀ name row, ¬KeptRow pairs s mergedPair name row := by
    rintro name row ⟨names, found, member, other, -⟩
    rw [published] at found
    cases found
    exact other member
  constructor
  · intro row member _
    rcases List.mem_pair.mp (show row ∈ [putDocument pairs 0 (versionOne "a"),
      putDocument pairs 0 (versionOne "b")] from member) with rfl | rfl
    · exact ⟨by rfl, by rfl⟩
    · exact ⟨by rfl, by rfl⟩
  · exact fun input _ row _ name kept isKept => absurd isKept (nothingElse name kept)
  · intro _ id tomb found deleted
    have member := (rowKey_of_lastMax found).1
    rw [visibleRows, List.mem_filter] at member
    rcases List.mem_pair.mp (show tomb ∈ [putDocument pairs 0 (versionOne "a"),
      putDocument pairs 0 (versionOne "b")] from member.1) with rfl | rfl
    · exact absurd deleted (by decide)
    · exact absurd deleted (by decide)

theorem compaction_preserves_reads_twoFlushes :
    ∃ s t, Reach (step pairs) (fun _ => SyncedEvent) {} s ∧
      step pairs s (.compactPublish 0 {}) = some t ∧ ReadsKept pairs s t 0 := by
  obtain ⟨s, runs, found⟩ := Option.map_eq_some_iff.mp run_twoFlushes
  obtain ⟨running, rest⟩ := Prod.mk.inj found
  obtain ⟨published, result⟩ := Prod.mk.inj rest
  have reached : Reach (step pairs) (fun _ => SyncedEvent) {} s := by
    refine Reach.refl.of_run ?_ runs
    simp [twoFlushes, SyncedEvent]
  obtain ⟨left, done⟩ : ∃ left, Lsm.compactPublish pairs.codec {} s.dir mergedPair.outName
      ["1_0.sst", "2_1.sst"] = (left, .ok _) := ⟨_, Prod.ext rfl result⟩
  have taken : step pairs s (.compactPublish 0 {}) = some { s with
      dir := left
      compactions := s.compactions.erase 0
      reclaimed := s.reclaimed ++ mergedPair.tombstones } := by
    rw [step, Collection.compactPublish, running]
    dsimp only
    rw [done]
  refine ⟨s, _, reached, taken, ?_⟩
  exact (compaction_preserves_reads pairs s reached).2 0 {} _ mergedPair left _ _ running
    (cleanCompaction_mergedPair published) done (by decide) taken

/-- The flush of `a` fails; the tombstone of `a` and the row of `b` are flushed
and merged. -/
def resurrection : List Event :=
  [.put (versionOne "a") 0 0 false, .flushBegin, .flushWriteFails 1 0 none,
    .del "a" 1 2 0 0 false, .flushBegin, .flushWrite 2 1 {}, .flushPublish {}, .reclaim 0,
    .put (versionOne "b") 0 0 false, .flushBegin, .flushWrite 3 2 {}, .flushPublish {}, .reclaim 0,
    .compactSelect 0, .compactCoverage 0, .compactMerge 0 0 (fun _ => 0) 4 3 {}]

/-- The ids a read returns. -/
def readIds (config : LsmConfig) (s : Collection) (committedIndex : Nat) :
    Option (List (Option String)) :=
  (readAllCollectionRows config s committedIndex).toOption.map (List.map (docId? config.dump))

theorem readIds_eq_some {ids : List (Option String)}
    (read : readIds config s committedIndex = some ids) :
    ∃ docs, readAllCollectionRows config s committedIndex = .ok docs ∧
      docs.map (docId? config.dump) = ids := by
  unfold readIds at read
  cases result : readAllCollectionRows config s committedIndex with
  | error reason => rw [result] at read; cases read
  | ok docs =>
    rw [result] at read
    cases read
    exact ⟨docs, rfl, rfl⟩

theorem run_resurrection : ((run (step pairs) {} resurrection).bind fun s =>
      (step pairs s (.compactPublish 0 {})).map fun t => (readIds pairs s 0, readIds pairs t 0)) =
    some (some [some "b"], some [some "a", some "b"]) := by
  decide

/-- Publishing drops the tombstone of `a`, and the row in memory is back. -/
theorem compaction_resurrects : ∃ s t, run (step pairs) {} resurrection = some s ∧
    step pairs s (.compactPublish 0 {}) = some t ∧ ¬ReadsKept pairs s t 0 := by
  obtain ⟨s, runs, found⟩ := Option.bind_eq_some_iff.mp run_resurrection
  obtain ⟨t, taken, ids⟩ := Option.map_eq_some_iff.mp found
  obtain ⟨before, after⟩ := Prod.mk.inj ids
  refine ⟨s, t, runs, taken, fun kept => ?_⟩
  obtain ⟨docs, reads, docIds⟩ := readIds_eq_some before
  obtain ⟨others, othersRead, otherIds⟩ := readIds_eq_some after
  obtain ⟨_, again, same⟩ := kept 0 le_rfl docs reads
  cases othersRead.symm.trans again
  have back : some "a" ∈ others.map (docId? pairs.dump) := by simp [otherIds]
  obtain ⟨doc, member, isA⟩ := List.mem_map.mp back
  have was := List.mem_map_of_mem (f := docId? pairs.dump) ((same doc).mp member)
  rw [docIds, isA] at was
  revert was
  decide

end PacificDb.Lsm
