import PacificDb.Lib.Machine
import PacificDb.Lsm.Listed

/-!
# The files of a collection

Who owns which file of the `.lsm` directory. Every SST name comes from
`nextSstFileName` once; until its job has published, the name itself is unused
and only the job's unfinished copy exists. So a publish section can touch the
files of its own job, the manifest, and for a compaction its inputs, and nothing
a second running job relies on.

`FilesOk` is that ownership as an invariant of every run in which the directory
sync after a manifest rename does not fail. That `nextSstFileName` never gives a
name twice is the work of its counter, which `Numbered` carries.
-/

namespace PacificDb.Lsm

open Lib

variable {config : LsmConfig} {s t : Collection}

/-! ## The files of other jobs -/

/-- The files that a job for `sstName` leaves alone: other SSTs and the
unfinished copies of other names. -/
def OtherFile (sstName name : String) : Prop :=
  (extension name = sstExtension ∧ name ≠ sstName) ∨
    ∃ other, other ≠ sstName ∧ safeSstName other = true ∧
      (name = writingOf other ∨ name = tmpOf other)

theorem Auxiliary.not_otherFile {sstName name : String} (aux : Auxiliary name)
    (finished : ∀ other, other ≠ sstName → safeSstName other = true →
      name ≠ writingOf other ∧ name ≠ tmpOf other) : ¬OtherFile sstName name := by
  rintro (⟨ext, -⟩ | ⟨other, ne, safe, writing | tmp⟩)
  · exact aux.extension_ne ext
  · exact (finished other ne safe).1 writing
  · exact (finished other ne safe).2 tmp

theorem not_otherFile_sidecar {sstName name sidecar : String} (member : sidecar ∈ sidecarsOf name) :
    ¬OtherFile sstName sidecar := by
  refine (Auxiliary.of_mem_sidecarsOf member).not_otherFile fun other _ _ => ?_
  rcases lastChar_of_mem_sidecarsOf member with m | x
  · exact ⟨ne_of_lastChar m (lastChar_writingOf other) (by decide),
      ne_of_lastChar m (lastChar_tmpOf other) (by decide)⟩
  · exact ⟨ne_of_lastChar x (lastChar_writingOf other) (by decide),
      ne_of_lastChar x (lastChar_tmpOf other) (by decide)⟩

theorem not_otherFile_writingOf (sstName : String) : ¬OtherFile sstName (writingOf sstName) :=
  (Auxiliary.of_writingOf sstName).not_otherFile fun other ne _ =>
    ⟨fun same => ne (append_suffix_inj same).symm,
      ne_of_lastChar (lastChar_writingOf sstName) (lastChar_tmpOf other) (by decide)⟩

theorem not_otherFile_tmpOf (sstName : String) : ¬OtherFile sstName (tmpOf sstName) :=
  (Auxiliary.of_tmpOf sstName).not_otherFile fun other ne _ =>
    ⟨ne_of_lastChar (lastChar_tmpOf sstName) (lastChar_writingOf other) (by decide),
      fun same => ne (append_suffix_inj same).symm⟩

theorem not_otherFile_self {sstName : String} (safe : safeSstName sstName = true) :
    ¬OtherFile sstName sstName := by
  have ends := lastChar_of_safe safe
  rintro (⟨-, ne⟩ | ⟨other, -, -, writing | tmp⟩)
  · exact ne rfl
  · exact ne_of_lastChar ends (lastChar_writingOf other) (by decide) writing
  · exact ne_of_lastChar ends (lastChar_tmpOf other) (by decide) tmp

theorem not_otherFile_temporary (sstName : String) : ¬OtherFile sstName kTemporaryName :=
  Auxiliary.temporary.not_otherFile fun other _ safe =>
    ⟨ne_of_lastChar (by decide : kTemporaryName.toList.getLast? = some 'p')
      (lastChar_writingOf other) (by decide), (tmpOf_ne_kTemporaryName safe).symm⟩

theorem not_otherFile_manifest (sstName : String) : ¬OtherFile sstName kManifestName := by
  have ends : kManifestName.toList.getLast? = some 'n' := by decide
  rintro (⟨ext, -⟩ | ⟨other, -, -, writing | tmp⟩)
  · revert ext
    decide
  · exact ne_of_lastChar ends (lastChar_writingOf other) (by decide) writing
  · exact ne_of_lastChar ends (lastChar_tmpOf other) (by decide) tmp

theorem not_otherFile_of_mem_artifactNames {sstName source name : String}
    (safe : safeSstName sstName = true) (own : ¬OtherFile sstName source)
    (member : name ∈ artifactNames source sstName) : ¬OtherFile sstName name := by
  rcases List.mem_append.mp member with member | member
  · rcases List.mem_cons.mp member with rfl | member
    · exact own
    · exact not_otherFile_sidecar member
  · rcases List.mem_cons.mp member with rfl | member
    · exact not_otherFile_self safe
    · exact not_otherFile_sidecar member

theorem artifacts_apart {sstName source : String} (safe : safeSstName sstName = true)
    (own : ¬OtherFile sstName source) (auxiliary : Auxiliary source) :
    ∀ name ∈ artifactNames source sstName, ¬(OtherFile sstName name ∨ name = kManifestName) := by
  rintro name member (other | manifest)
  · exact not_otherFile_of_mem_artifactNames safe own member other
  · exact not_outside_of_mem_artifactNames safe auxiliary member (.inl manifest)

theorem temporary_apart (sstName : String) :
    ¬(OtherFile sstName kTemporaryName ∨ kTemporaryName = kManifestName) := by
  rintro (other | manifest)
  · exact not_otherFile_temporary sstName other
  · revert manifest; decide

section Failed

variable {codec : ManifestCodec} {faults : CallerFaults} {dir left : LsmDir} {sstName reason : String}

/-- A failed publish leaves the other files and the manifest. -/
theorem flushPublish_failed {coveredWalLsn : Nat} (safe : safeSstName sstName = true)
    (synced : faults.syncPublishedDirectory = true)
    (failed : flushPublish codec faults dir sstName coveredWalLsn = (left, .error reason)) :
    SameOn (fun name => OtherFile sstName name ∨ name = kManifestName) dir left :=
  sameOn_flushPublish_error synced (temporary_apart sstName)
    (artifacts_apart safe (not_otherFile_writingOf sstName) (.of_writingOf sstName)) failed

theorem compactPublish_failed {inputs : List String} (safe : safeSstName sstName = true)
    (synced : faults.syncPublishedDirectory = true)
    (failed : compactPublish codec faults dir sstName inputs = (left, .error reason)) :
    SameOn (fun name => OtherFile sstName name ∨ name = kManifestName) dir left :=
  sameOn_compactPublish_error synced (temporary_apart sstName)
    (artifacts_apart safe (not_otherFile_tmpOf sstName) (.of_tmpOf sstName)) failed

end Failed

/-- A publish leaves the files of other SSTs that are no inputs. -/
theorem FlushPublished.others {codec : ManifestCodec} {dir left : LsmDir} {sstName : String}
    {coveredWalLsn : Nat} (published : FlushPublished codec dir left sstName coveredWalLsn)
    (safe : safeSstName sstName = true) : SameOn (OtherFile sstName) dir left :=
  published.frame _
    (fun _ => not_otherFile_of_mem_artifactNames safe (not_otherFile_writingOf sstName))
    (not_otherFile_temporary sstName) (not_otherFile_manifest sstName)

theorem CompactPublished.others {codec : ManifestCodec} {dir left : LsmDir} {outName : String}
    {inputs : List String} (published : CompactPublished codec dir left outName inputs)
    (safe : safeSstName outName = true) :
    SameOn (fun name => OtherFile outName name ∧ name ∉ inputs) dir left :=
  published.frame _
    (fun _ member kept =>
      not_otherFile_of_mem_artifactNames safe (not_otherFile_tmpOf outName) member kept.1)
    (fun _ isInput => ⟨fun kept => kept.2 isInput, fun _ isSidecar kept =>
      not_otherFile_sidecar isSidecar kept.1⟩)
    (fun kept => not_otherFile_temporary _ kept.1) fun kept => not_otherFile_manifest _ kept.1

/-- Writing an unfinished file and its sidecars touches no other file. -/
theorem sameOn_withSidecars {keep : String → Prop} {dir : LsmDir} {source : String} {body : FileBody}
    {sidecars : Sidecars} (changed : ¬keep source)
    (sidecarsChanged : ∀ sidecar ∈ sidecarsOf source, ¬keep sidecar) :
    SameOn keep dir (withSidecars (dir.insert source body) source sidecars) := by
  have bloom := sidecarsChanged (bloomOf source) (by simp [sidecarsOf])
  have sparse := sidecarsChanged (sparseOf source) (by simp [sidecarsOf])
  unfold withSidecars
  have file : SameOn keep dir (dir.insert source body) := .insert changed
  refine file.trans ?_
  cases sidecars.bloom with
  | false =>
    cases sidecars.sparse with
    | false => exact .refl
    | true => exact .insert sparse
  | true =>
    cases sidecars.sparse with
    | false => exact .insert bloom
    | true => exact (SameOn.insert bloom).trans (.insert sparse)

theorem lookup_withSidecars {dir : LsmDir} {source : String} {body : FileBody} {sidecars : Sidecars}
    (apart : ∀ sidecar ∈ sidecarsOf source, source ≠ sidecar) :
    (withSidecars (dir.insert source body) source sidecars).lookup source = some body := by
  have bloom := apart (bloomOf source) (by simp [sidecarsOf])
  have sparse := apart (sparseOf source) (by simp [sidecarsOf])
  unfold withSidecars
  cases sidecars.bloom <;> cases sidecars.sparse <;>
    simp [AList.lookup_insert_ne bloom, AList.lookup_insert_ne sparse]

/-! ## The invariant -/

/-- The name a flush will publish under. -/
def FlushJob.sstName? : FlushJob → Option String
  | ⟨_, _, .written sstName⟩ => some sstName
  | _ => none

def CompactJob.merge? : CompactJob → Option Merge
  | ⟨_, .merged merge⟩ => some merge
  | _ => none

/-- A running job will publish under this name. -/
def PendingName (s : Collection) (name : String) : Prop :=
  (∃ job, s.flush = some job ∧ job.sstName? = some name) ∨
    ∃ id job merge, s.compactions.lookup id = some job ∧ job.merge? = some merge ∧
      merge.outName = name

/-- The rows a merge keeps by id. -/
def Merge.table (config : LsmConfig) (merge : Merge) (clock : Nat → Nat) : Memtable :=
  mergeRows config merge.committedIndex
    ((merge.read.flatMap Prod.snd).mapIdx fun i row => (row, clock i))

/-- What a compaction has read is still there, unless it was removed, and what
it has written is the merge of what it has read. -/
structure MergedFile (config : LsmConfig) (dir : LsmDir) (inputs : List String) (merge : Merge) :
    Prop where
  inputs : merge.read.map Prod.fst = inputs
  unchanged : ∀ input ∈ merge.read, ∀ body, dir.lookup input.1 = some body → body = .sst input.2
  output : ∃ clock, dir.lookup (tmpOf merge.outName) =
      some (.sst (compactedRows merge.fullCoverage (merge.table config clock))) ∧
    merge.tombstones = droppedTombstones merge.fullCoverage (merge.table config clock)

structure FilesOk (config : LsmConfig) (s : Collection) : Prop where
  handedOutSafe : ∀ name ∈ s.handedOut, safeSstName name = true
  listedHandedOut : ∀ name ∈ listed config.codec s.dir, name ∈ s.handedOut
  presentHandedOut : ∀ name, extension name = sstExtension → (s.dir.lookup name).isSome = true →
    name ∈ s.handedOut
  pendingHandedOut : ∀ name, PendingName s name → name ∈ s.handedOut
  pendingAbsent : ∀ name, PendingName s name → s.dir.lookup name = none
  pendingUnlisted : ∀ name, PendingName s name → name ∉ listed config.codec s.dir
  pendingNotInput : ∀ name, PendingName s name → ∀ id job,
    s.compactions.lookup id = some job → name ∉ job.inputs
  inputsHandedOut : ∀ id job, s.compactions.lookup id = some job →
    ∀ input ∈ job.inputs, input ∈ s.handedOut
  flushFile : ∀ job sstName, s.flush = some job → job.sstName? = some sstName →
    s.dir.lookup (writingOf sstName) = some (.sst (s.snapshotTable job).rows)
  mergedFile : ∀ id job merge, s.compactions.lookup id = some job → job.merge? = some merge →
    MergedFile config s.dir job.inputs merge
  flushApart : ∀ flush id job merge, s.flush = some flush →
    s.compactions.lookup id = some job → job.merge? = some merge →
      flush.sstName? ≠ some merge.outName
  mergesApart : ∀ id job merge otherId other otherMerge,
    s.compactions.lookup id = some job → job.merge? = some merge →
    s.compactions.lookup otherId = some other → other.merge? = some otherMerge →
      merge.outName = otherMerge.outName → id = otherId

theorem FilesOk.pendingSafe (ok : FilesOk config s) (name : String) (pending : PendingName s name) :
    safeSstName name = true :=
  ok.handedOutSafe name (ok.pendingHandedOut name pending)

theorem FilesOk.listedSafe (ok : FilesOk config s) (name : String)
    (member : name ∈ listed config.codec s.dir) : safeSstName name = true :=
  ok.handedOutSafe name (ok.listedHandedOut name member)

theorem FilesOk.inputSafe (ok : FilesOk config s) {id : Nat} {job : CompactJob} {input : String}
    (running : s.compactions.lookup id = some job) (member : input ∈ job.inputs) :
    safeSstName input = true :=
  ok.handedOutSafe input (ok.inputsHandedOut id job running input member)

/-! ## Preservation -/

theorem FilesOk.init : FilesOk config {} where
  handedOutSafe := by rintro name ⟨⟩
  listedHandedOut := by rintro name ⟨⟩
  presentHandedOut := by rintro name - ⟨⟩
  pendingHandedOut := by rintro name (⟨job, ⟨⟩, -⟩ | ⟨id, job, merge, ⟨⟩, -⟩)
  pendingAbsent := by rintro name (⟨job, ⟨⟩, -⟩ | ⟨id, job, merge, ⟨⟩, -⟩)
  pendingUnlisted := by rintro name (⟨job, ⟨⟩, -⟩ | ⟨id, job, merge, ⟨⟩, -⟩)
  pendingNotInput := by rintro name - id job ⟨⟩
  inputsHandedOut := by rintro id job ⟨⟩
  flushFile := by rintro job sstName ⟨⟩
  mergedFile := by rintro id job merge ⟨⟩
  flushApart := by rintro flush id job merge ⟨⟩
  mergesApart := by rintro id job merge otherId other otherMerge ⟨⟩

/-- Dropping jobs, or changing what no file depends on. -/
theorem FilesOk.narrow (ok : FilesOk config s) (dir : t.dir = s.dir)
    (handedOut : t.handedOut = s.handedOut)
    (flush : ∀ job name, t.flush = some job → job.sstName? = some name →
      s.flush = some job ∧ t.snapshotTable job = s.snapshotTable job)
    (compactions : ∀ id job, t.compactions.lookup id = some job →
      s.compactions.lookup id = some job) : FilesOk config t := by
  have pending : ∀ name, PendingName t name → PendingName s name := by
    rintro name (⟨job, running, named⟩ | ⟨id, job, merge, running, merged, named⟩)
    · exact .inl ⟨job, (flush job name running named).1, named⟩
    · exact .inr ⟨id, job, merge, compactions id job running, merged, named⟩
  constructor
  case handedOutSafe => rw [handedOut]; exact ok.handedOutSafe
  case listedHandedOut => rw [dir, handedOut]; exact ok.listedHandedOut
  case presentHandedOut => rw [dir, handedOut]; exact ok.presentHandedOut
  case pendingHandedOut =>
    rw [handedOut]
    exact fun name h => ok.pendingHandedOut name (pending name h)
  case pendingAbsent => rw [dir]; exact fun name h => ok.pendingAbsent name (pending name h)
  case pendingUnlisted => rw [dir]; exact fun name h => ok.pendingUnlisted name (pending name h)
  case pendingNotInput =>
    exact fun name h id job running =>
      ok.pendingNotInput name (pending name h) id job (compactions id job running)
  case inputsHandedOut =>
    rw [handedOut]
    exact fun id job running => ok.inputsHandedOut id job (compactions id job running)
  case flushFile =>
    intro job sstName running named
    rw [dir, (flush job sstName running named).2]
    exact ok.flushFile job sstName (flush job sstName running named).1 named
  case mergedFile =>
    rw [dir]
    exact fun id job merge running => ok.mergedFile id job merge (compactions id job running)
  case flushApart =>
    intro job id other merge running compacting merged named
    exact ok.flushApart job id other merge (flush job merge.outName running named).1
      (compactions id other compacting) merged named
  case mergesApart =>
    intro id job merge otherId other otherMerge first merged second otherMerged
    exact ok.mergesApart id job merge otherId other otherMerge (compactions id job first) merged
      (compactions otherId other second) otherMerged

/-- The job for `n` ends: it may have changed its own files and the manifest,
and removed its inputs. -/
theorem FilesOk.settle (ok : FilesOk config s) {n : String} (removed : List String)
    (pending : PendingName s n) (removedSafe : ∀ name ∈ removed, safeSstName name = true)
    (same : SameOn (fun name => OtherFile n name ∧ name ∉ removed) s.dir t.dir)
    (gone : ∀ name ∈ removed, t.dir.lookup name = none)
    (handedOut : t.handedOut = s.handedOut)
    (listedSafe : ∀ name ∈ listed config.codec t.dir, safeSstName name = true)
    (listedFrom : ∀ name ∈ listed config.codec t.dir, name = n ∨
      name ∈ listed config.codec s.dir ∨ (s.dir.lookup name).isSome = true)
    (flush : ∀ job name, t.flush = some job → job.sstName? = some name →
      s.flush = some job ∧ t.snapshotTable job = s.snapshotTable job ∧ name ≠ n)
    (compactions : ∀ id job, t.compactions.lookup id = some job →
      s.compactions.lookup id = some job ∧
        ∀ merge, job.merge? = some merge → merge.outName ≠ n) : FilesOk config t := by
  have pendings : ∀ name, PendingName t name → PendingName s name ∧ name ≠ n := by
    rintro name (⟨job, running, named⟩ | ⟨id, job, merge, running, merged, rfl⟩)
    · obtain ⟨was, -, ne⟩ := flush job name running named
      exact ⟨.inl ⟨job, was, named⟩, ne⟩
    · obtain ⟨was, ne⟩ := compactions id job running
      exact ⟨.inr ⟨id, job, merge, was, merged, rfl⟩, ne merge merged⟩
  -- What is left of another SST is what was there.
  have sst : ∀ name body, extension name = sstExtension → name ≠ n →
      t.dir.lookup name = some body → s.dir.lookup name = some body := by
    intro name body ext ne found
    have kept : name ∉ removed := by
      intro member
      rw [gone name member] at found
      cases found
    rw [← same name ⟨.inl ⟨ext, ne⟩, kept⟩, found]
  have unfinished : ∀ name other, safeSstName other = true → other ≠ n →
      name = writingOf other ∨ name = tmpOf other → t.dir.lookup name = s.dir.lookup name := by
    intro name other safe ne shape
    refine same name ⟨.inr ⟨other, ne, safe, shape⟩, fun member => ?_⟩
    have aux : safeSstName name = false := by
      rcases shape with rfl | rfl
      · exact (Auxiliary.of_writingOf other).notSst
      · exact (Auxiliary.of_tmpOf other).notSst
    rw [removedSafe name member] at aux
    cases aux
  have present : ∀ name, extension name = sstExtension → (t.dir.lookup name).isSome = true →
      name ∈ s.handedOut := by
    intro name ext found
    obtain ⟨body, found⟩ := Option.isSome_iff_exists.mp found
    by_cases own : name = n
    · exact own ▸ ok.pendingHandedOut n pending
    · exact ok.presentHandedOut name ext (by rw [sst name body ext own found]; rfl)
  constructor
  case handedOutSafe => rw [handedOut]; exact ok.handedOutSafe
  case listedHandedOut =>
    intro name member
    rw [handedOut]
    rcases listedFrom name member with rfl | before | before
    · exact ok.pendingHandedOut name pending
    · exact ok.listedHandedOut name before
    · exact ok.presentHandedOut name (extension_of_safe (listedSafe name member)) before
  case presentHandedOut => rw [handedOut]; exact present
  case pendingHandedOut =>
    rw [handedOut]
    exact fun name h => ok.pendingHandedOut name (pendings name h).1
  case pendingAbsent =>
    intro name h
    obtain ⟨before, ne⟩ := pendings name h
    cases found : t.dir.lookup name with
    | none => rfl
    | some body =>
      have was := sst name body (extension_of_safe (ok.pendingSafe name before)) ne found
      rw [ok.pendingAbsent name before] at was
      cases was
  case pendingUnlisted =>
    intro name h member
    obtain ⟨before, ne⟩ := pendings name h
    rcases listedFrom name member with own | was | was
    · exact ne own
    · exact ok.pendingUnlisted name before was
    · rw [ok.pendingAbsent name before] at was
      cases was
  case pendingNotInput =>
    exact fun name h id job running =>
      ok.pendingNotInput name (pendings name h).1 id job (compactions id job running).1
  case inputsHandedOut =>
    rw [handedOut]
    exact fun id job running => ok.inputsHandedOut id job (compactions id job running).1
  case flushFile =>
    intro job name running named
    obtain ⟨was, table, ne⟩ := flush job name running named
    have safe := ok.pendingSafe name (.inl ⟨job, was, named⟩)
    rw [table, unfinished (writingOf name) name safe ne (.inl rfl)]
    exact ok.flushFile job name was named
  case mergedFile =>
    intro id job merge running merged
    obtain ⟨was, ne⟩ := compactions id job running
    have before := ok.mergedFile id job merge was merged
    have safe := ok.pendingSafe merge.outName (.inr ⟨id, job, merge, was, merged, rfl⟩)
    refine ⟨before.inputs, fun input member body found => ?_, ?_⟩
    · have isInput : input.1 ∈ job.inputs := before.inputs ▸ List.mem_map_of_mem member
      have own : input.1 ≠ n := fun own =>
        ok.pendingNotInput n pending id job was (own ▸ isInput)
      exact before.unchanged input member body
        (sst input.1 body (extension_of_safe (ok.inputSafe was isInput)) own found)
    · rw [unfinished (tmpOf merge.outName) _ safe (ne merge merged) (.inr rfl)]
      exact before.output
  case flushApart =>
    intro job id other merge running compacting merged named
    exact ok.flushApart job id other merge (flush job merge.outName running named).1
      (compactions id other compacting).1 merged named
  case mergesApart =>
    intro id job merge otherId other otherMerge first merged second otherMerged
    exact ok.mergesApart id job merge otherId other otherMerge (compactions id job first).1 merged
      (compactions otherId other second).1 otherMerged

/-- A name that was never handed out plays no part in the collection. -/
structure Unused (config : LsmConfig) (s : Collection) (n : String) : Prop where
  safe : safeSstName n = true
  notPending : ¬PendingName s n
  absent : s.dir.lookup n = none
  unlisted : n ∉ listed config.codec s.dir
  notInput : ∀ id job, s.compactions.lookup id = some job → n ∉ job.inputs

theorem FilesOk.unused (ok : FilesOk config s) {n : String} (safe : safeSstName n = true)
    (fresh : n ∉ s.handedOut) : Unused config s n where
  safe := safe
  notPending h := fresh (ok.pendingHandedOut n h)
  absent := by
    cases found : s.dir.lookup n with
    | none => rfl
    | some body =>
      exact absurd (ok.presentHandedOut n (extension_of_safe safe) (by rw [found]; rfl)) fresh
  unlisted member := fresh (ok.listedHandedOut n member)
  notInput id job running member := fresh (ok.inputsHandedOut id job running n member)

/-- A job takes a new name and writes beside it. -/
theorem FilesOk.prepare (ok : FilesOk config s) {n : String} {dir : LsmDir}
    (unused : Unused config s n)
    (same : SameOn (fun name => OtherFile n name ∨ name = n ∨ name = kManifestName) s.dir dir) :
    FilesOk config { s with dir, handedOut := n :: s.handedOut } ∧
      Unused config { s with dir, handedOut := n :: s.handedOut } n := by
  have manifest : manifestOnDisk config.codec dir = manifestOnDisk config.codec s.dir :=
    manifestOnDisk_congr (same _ (.inr (.inr rfl)))
  have names : listed config.codec dir = listed config.codec s.dir := by rw [listed, manifest, listed]
  have ssts : ∀ name, extension name = sstExtension → dir.lookup name = s.dir.lookup name := by
    intro name ext
    by_cases own : name = n
    · exact same name (.inr (.inl own))
    · exact same name (.inl (.inl ⟨ext, own⟩))
  have apart : ∀ name, PendingName s name → name ≠ n := fun name h own =>
    unused.notPending (own ▸ h)
  refine ⟨?_, unused.safe, unused.notPending,
    (ssts n (extension_of_safe unused.safe)).trans unused.absent,
    names ▸ unused.unlisted, unused.notInput⟩
  constructor
  case handedOutSafe =>
    intro name member
    rcases List.mem_cons.mp member with rfl | member
    · exact unused.safe
    · exact ok.handedOutSafe name member
  case listedHandedOut =>
    exact fun name member => .tail _ (ok.listedHandedOut name (names ▸ member))
  case presentHandedOut =>
    exact fun name ext found => .tail _ (ok.presentHandedOut name ext (ssts name ext ▸ found))
  case pendingHandedOut => exact fun name h => .tail _ (ok.pendingHandedOut name h)
  case pendingAbsent =>
    exact fun name h => (ssts name (extension_of_safe (ok.pendingSafe name h))).trans
      (ok.pendingAbsent name h)
  case pendingUnlisted => exact fun name h => names ▸ ok.pendingUnlisted name h
  case pendingNotInput => exact ok.pendingNotInput
  case inputsHandedOut =>
    exact fun id job running input member =>
      .tail _ (ok.inputsHandedOut id job running input member)
  case flushFile =>
    intro job name running named
    have pending : PendingName s name := .inl ⟨job, running, named⟩
    have kept := same (writingOf name)
      (.inl (.inr ⟨name, apart name pending, ok.pendingSafe name pending, .inl rfl⟩))
    exact kept.trans (ok.flushFile job name running named)
  case mergedFile =>
    intro id job merge running merged
    have before := ok.mergedFile id job merge running merged
    have pending : PendingName s merge.outName := .inr ⟨id, job, merge, running, merged, rfl⟩
    have kept := same (tmpOf merge.outName)
      (.inl (.inr ⟨_, apart _ pending, ok.pendingSafe _ pending, .inr rfl⟩))
    refine ⟨before.inputs, fun input member body found => ?_, ?_⟩
    · have isInput : input.1 ∈ job.inputs := before.inputs ▸ List.mem_map_of_mem member
      rw [ssts _ (extension_of_safe (ok.inputSafe running isInput))] at found
      exact before.unchanged input member body found
    · obtain ⟨clock, output, tombstones⟩ := before.output
      exact ⟨clock, kept.trans output, tombstones⟩
  case flushApart => exact ok.flushApart
  case mergesApart => exact ok.mergesApart

/-- The names of the jobs once one of them has claimed `n`. -/
theorem FilesOk.claimed (ok : FilesOk config s) {n : String} (unused : Unused config s n)
    (handedOut : n ∈ s.handedOut) {name : String} (pending : name = n ∨ PendingName s name) :
    name ∈ s.handedOut ∧ s.dir.lookup name = none ∧ name ∉ listed config.codec s.dir ∧
      ∀ id job, s.compactions.lookup id = some job → name ∉ job.inputs := by
  rcases pending with rfl | pending
  · exact ⟨handedOut, unused.absent, unused.unlisted, unused.notInput⟩
  · exact ⟨ok.pendingHandedOut name pending, ok.pendingAbsent name pending,
      ok.pendingUnlisted name pending, ok.pendingNotInput name pending⟩

/-- The flush whose file is written takes its name. -/
theorem FilesOk.claimFlush (ok : FilesOk config s) {n : String} {job : FlushJob}
    (unused : Unused config s n) (handedOut : n ∈ s.handedOut) (named : job.sstName? = some n)
    (written : s.dir.lookup (writingOf n) = some (.sst (s.snapshotTable job).rows)) :
    FilesOk config { s with flush := some job } := by
  have pendings : ∀ name, PendingName { s with flush := some job } name →
      name = n ∨ PendingName s name := by
    rintro name (⟨_, ⟨⟩, own⟩ | other)
    · exact .inl (Option.some.inj (own.symm.trans named))
    · exact .inr (.inr other)
  constructor
  case handedOutSafe => exact ok.handedOutSafe
  case listedHandedOut => exact ok.listedHandedOut
  case presentHandedOut => exact ok.presentHandedOut
  case pendingHandedOut => exact fun name h => (ok.claimed unused handedOut (pendings name h)).1
  case pendingAbsent => exact fun name h => (ok.claimed unused handedOut (pendings name h)).2.1
  case pendingUnlisted => exact fun name h => (ok.claimed unused handedOut (pendings name h)).2.2.1
  case pendingNotInput => exact fun name h => (ok.claimed unused handedOut (pendings name h)).2.2.2
  case inputsHandedOut => exact ok.inputsHandedOut
  case flushFile =>
    rintro _ name ⟨⟩ own
    obtain rfl : name = n := Option.some.inj (own.symm.trans named)
    exact written
  case mergedFile => exact ok.mergedFile
  case flushApart =>
    rintro _ id other merge ⟨⟩ running merged own
    have same : n = merge.outName := Option.some.inj (named.symm.trans own)
    exact unused.notPending (.inr ⟨id, other, merge, running, merged, same.symm⟩)
  case mergesApart => exact ok.mergesApart

/-- A compaction starts or moves on, without a name of its own yet. -/
theorem FilesOk.insertJob (ok : FilesOk config s) {id : Nat} {job : CompactJob}
    (unmerged : job.merge? = none)
    (inputs : ∀ input ∈ job.inputs, input ∈ s.handedOut ∧ ¬PendingName s input) :
    FilesOk config { s with compactions := s.compactions.insert id job } := by
  have before : ∀ other found merge, (s.compactions.insert id job).lookup other = some found →
      found.merge? = some merge → s.compactions.lookup other = some found := by
    intro other found merge looked merged
    rcases lookup_insert_eq_some looked with ⟨-, rfl⟩ | ⟨-, was⟩
    · rw [unmerged] at merged
      cases merged
    · exact was
  have pendings : ∀ name,
      PendingName { s with compactions := s.compactions.insert id job } name →
        PendingName s name := by
    rintro name (flush | ⟨other, found, merge, looked, merged, named⟩)
    · exact .inl flush
    · exact .inr ⟨other, found, merge, before other found merge looked merged, merged, named⟩
  constructor
  case handedOutSafe => exact ok.handedOutSafe
  case listedHandedOut => exact ok.listedHandedOut
  case presentHandedOut => exact ok.presentHandedOut
  case pendingHandedOut => exact fun name h => ok.pendingHandedOut name (pendings name h)
  case pendingAbsent => exact fun name h => ok.pendingAbsent name (pendings name h)
  case pendingUnlisted => exact fun name h => ok.pendingUnlisted name (pendings name h)
  case pendingNotInput =>
    intro name h other found looked member
    rcases lookup_insert_eq_some looked with ⟨-, rfl⟩ | ⟨-, was⟩
    · exact (inputs name member).2 (pendings name h)
    · exact ok.pendingNotInput name (pendings name h) other found was member
  case inputsHandedOut =>
    intro other found looked
    rcases lookup_insert_eq_some looked with ⟨-, rfl⟩ | ⟨-, was⟩
    · exact fun input member => (inputs input member).1
    · exact ok.inputsHandedOut other found was
  case flushFile => exact ok.flushFile
  case mergedFile =>
    intro other found merge looked merged
    exact ok.mergedFile other found merge (before other found merge looked merged) merged
  case flushApart =>
    intro flush other found merge running looked merged
    exact ok.flushApart flush other found merge running
      (before other found merge looked merged) merged
  case mergesApart =>
    intro first found merge second other otherMerge looked merged otherLooked otherMerged
    exact ok.mergesApart first found merge second other otherMerge
      (before first found merge looked merged) merged
      (before second other otherMerge otherLooked otherMerged) otherMerged

/-- A compaction whose output is written takes its name. -/
theorem FilesOk.claimMerge (ok : FilesOk config s) {id : Nat} {job old : CompactJob} {merge : Merge}
    (unused : Unused config s merge.outName) (handedOut : merge.outName ∈ s.handedOut)
    (merged : job.merge? = some merge) (running : s.compactions.lookup id = some old)
    (inputs : job.inputs = old.inputs)
    (written : MergedFile config s.dir job.inputs merge) :
    FilesOk config { s with compactions := s.compactions.insert id job } := by
  have before : ∀ other found, (s.compactions.insert id job).lookup other = some found →
      (other = id ∧ found = job) ∨ (other ≠ id ∧ s.compactions.lookup other = some found) :=
    fun other found looked => lookup_insert_eq_some looked
  have pendings : ∀ name,
      PendingName { s with compactions := s.compactions.insert id job } name →
        name = merge.outName ∨ PendingName s name := by
    rintro name (flush | ⟨other, found, otherMerge, looked, otherMerged, named⟩)
    · exact .inr (.inl flush)
    · rcases before other found looked with ⟨-, rfl⟩ | ⟨-, was⟩
      · obtain rfl : merge = otherMerge := Option.some.inj (merged.symm.trans otherMerged)
        exact .inl named.symm
      · exact .inr (.inr ⟨other, found, otherMerge, was, otherMerged, named⟩)
  have oldInputs : ∀ other found, (s.compactions.insert id job).lookup other = some found →
      ∃ otherId was, s.compactions.lookup otherId = some was ∧ found.inputs = was.inputs := by
    intro other found looked
    rcases before other found looked with ⟨-, rfl⟩ | ⟨-, was⟩
    · exact ⟨id, old, running, inputs⟩
    · exact ⟨other, found, was, rfl⟩
  constructor
  case handedOutSafe => exact ok.handedOutSafe
  case listedHandedOut => exact ok.listedHandedOut
  case presentHandedOut => exact ok.presentHandedOut
  case pendingHandedOut => exact fun name h => (ok.claimed unused handedOut (pendings name h)).1
  case pendingAbsent => exact fun name h => (ok.claimed unused handedOut (pendings name h)).2.1
  case pendingUnlisted => exact fun name h => (ok.claimed unused handedOut (pendings name h)).2.2.1
  case pendingNotInput =>
    intro name h other found looked
    obtain ⟨otherId, was, lookedBefore, same⟩ := oldInputs other found looked
    rw [same]
    exact (ok.claimed unused handedOut (pendings name h)).2.2.2 otherId was lookedBefore
  case inputsHandedOut =>
    intro other found looked
    obtain ⟨otherId, was, lookedBefore, same⟩ := oldInputs other found looked
    rw [same]
    exact ok.inputsHandedOut otherId was lookedBefore
  case flushFile => exact ok.flushFile
  case mergedFile =>
    intro other found otherMerge looked otherMerged
    rcases before other found looked with ⟨-, rfl⟩ | ⟨-, was⟩
    · obtain rfl : merge = otherMerge := Option.some.inj (merged.symm.trans otherMerged)
      exact written
    · exact ok.mergedFile other found otherMerge was otherMerged
  case flushApart =>
    intro flush other found otherMerge flushing looked otherMerged named
    rcases before other found looked with ⟨-, rfl⟩ | ⟨-, was⟩
    · obtain rfl : merge = otherMerge := Option.some.inj (merged.symm.trans otherMerged)
      exact unused.notPending (.inl ⟨flush, flushing, named⟩)
    · exact ok.flushApart flush other found otherMerge flushing was otherMerged named
  case mergesApart =>
    intro first found firstMerge second other secondMerge looked firstMerged otherLooked
      secondMerged same
    rcases before first found looked with ⟨rfl, rfl⟩ | ⟨ne, was⟩
    · rcases before second other otherLooked with ⟨rfl, -⟩ | ⟨-, otherWas⟩
      · rfl
      · obtain rfl : merge = firstMerge := Option.some.inj (merged.symm.trans firstMerged)
        exact absurd (.inr ⟨second, other, secondMerge, otherWas, secondMerged, same.symm⟩)
          unused.notPending
    · rcases before second other otherLooked with ⟨rfl, rfl⟩ | ⟨-, otherWas⟩
      · obtain rfl : merge = secondMerge := Option.some.inj (merged.symm.trans secondMerged)
        exact absurd (.inr ⟨first, found, firstMerge, was, firstMerged, same⟩) unused.notPending
      · exact ok.mergesApart first found firstMerge second other secondMerge was firstMerged
          otherWas secondMerged same

/-! ## Every step -/

/-- The directory sync after a manifest rename does not fail. -/
def SyncedEvent : Event → Prop
  | .flushPublish faults => faults.syncPublishedDirectory = true
  | .compactPublish _ faults => faults.syncPublishedDirectory = true
  | _ => True

theorem Collection.freshName_eq_some {micros sequence : Nat} {name : String}
    (fresh : s.freshName micros sequence = some name) :
    name ∉ s.handedOut ∧ safeSstName name = true := by
  unfold freshName at fresh
  dsimp only at fresh
  split at fresh
  · cases fresh
  next unused =>
    cases fresh
    exact ⟨unused, safeSstName_nextSstFileName micros sequence⟩

/-- A published name is listed, or lies in a directory without a manifest. -/
theorem listed_or_present_of_published {codec : ManifestCodec} {dir : LsmDir}
    {published : List String} {name : String} (names : publishedSsts codec dir = .ok published)
    (member : name ∈ published) : name ∈ listed codec dir ∨
      (extension name = sstExtension ∧ (dir.lookup name).isSome = true) := by
  unfold publishedSsts at names
  split at names
  · cases names
  next manifest loads =>
    cases names
    obtain ⟨onDisk, text, rfl⟩ := manifestOnDisk_of_load_ok loads
    refine .inl ?_
    rw [listed, text]
    exact mem_sortNames.mp member
  next absent =>
    unfold legacySsts at names
    dsimp only at names
    split at names
    · cases names
    · cases names
      rw [mem_sortNames, List.mem_filter, Bool.and_eq_true, beq_iff_eq] at member
      refine .inr ⟨member.2.2, ?_⟩
      have regular := member.2.1
      unfold LsmDir.isRegularFile at regular
      cases found : dir.lookup name with
      | none => rw [found] at regular; cases regular
      | some body => rfl

/-- A name the new manifest lists was listed or lay in the directory before,
unless it is the compaction's own. -/
theorem CompactPublished.listedFrom {codec : ManifestCodec} {dir left : LsmDir} {outName : String}
    {inputs : List String} (published : CompactPublished codec dir left outName inputs)
    (safe : safeSstName outName = true) {name : String} (member : name ∈ listed codec left) :
    name = outName ∨ name ∈ listed codec dir ∨ (dir.lookup name).isSome = true := by
  obtain ⟨moved, names, same, asked, -, listedIff⟩ := published.names
  rcases (listedIff name).mp member with ⟨was, -⟩ | own
  · have kept : ∀ {name}, extension name = sstExtension ∨ name = kManifestName → name ≠ outName →
        moved.lookup name = dir.lookup name := by
      intro name shape ne
      refine same name fun touched => ?_
      have notOther := not_otherFile_of_mem_artifactNames safe (not_otherFile_tmpOf outName) touched
      rcases shape with ext | rfl
      · exact notOther (.inl ⟨ext, ne⟩)
      · exact not_outside_of_mem_artifactNames safe (.of_tmpOf outName) touched (.inl rfl)
    have notManifest : kManifestName ≠ outName := by
      rintro rfl
      revert safe
      decide
    rcases listed_or_present_of_published asked was with was | ⟨ext, present⟩
    · rw [listed, manifestOnDisk_congr (kept (.inr rfl) notManifest), ← listed] at was
      exact .inr (.inl was)
    · by_cases own : name = outName
      · exact .inl own
      · rw [kept (.inl ext) own] at present
        exact .inr (.inr present)
  · exact .inl own

theorem FilesOk.published (ok : FilesOk config s) {published : List String} {name : String}
    (names : publishedSsts config.codec s.dir = .ok published) (member : name ∈ published) :
    name ∈ s.handedOut ∧ ¬PendingName s name := by
  rcases listed_or_present_of_published names member with was | ⟨ext, present⟩
  · exact ⟨ok.listedHandedOut name was, fun h => ok.pendingUnlisted name h was⟩
  · refine ⟨ok.presentHandedOut name ext present, fun h => ?_⟩
    rw [ok.pendingAbsent name h] at present
    cases present

theorem selectSsts_subset {ssts : List (String × Nat)} {name : String}
    (member : name ∈ selectSsts config ssts) : name ∈ ssts.map Prod.fst := by
  induction ssts with
  | nil => cases member
  | cons sst rest ih =>
    unfold selectSsts at member
    dsimp only at member
    split at member
    · obtain ⟨found, inRun, rfl⟩ := List.mem_map.mp member
      exact List.mem_map_of_mem ((List.takeWhile_sublist _).subset (List.mem_of_mem_take inRun))
    · exact .tail _ (ih member)

theorem sameOn_write_unfinished {n source : String} (dir : LsmDir) (body : FileBody)
    (sidecars : Sidecars) (safe : safeSstName n = true) (own : ¬OtherFile n source)
    (aux : Auxiliary source) :
    SameOn (fun name => OtherFile n name ∨ name = n ∨ name = kManifestName) dir
      (withSidecars (dir.insert source body) source sidecars) := by
  have untouched : ∀ name, ¬OtherFile n name → Auxiliary name →
      ¬(OtherFile n name ∨ name = n ∨ name = kManifestName) := by
    rintro name notOther aux (other | rfl | rfl)
    · exact notOther other
    · exact absurd (aux.notSst.symm.trans safe) (by decide)
    · exact aux.notManifest rfl
  exact sameOn_withSidecars (untouched source own aux) fun sidecar member =>
    untouched sidecar (not_otherFile_sidecar member) (.of_mem_sidecarsOf member)

theorem FilesOk.write (ok : FilesOk config s) {docs : List Json} {writes : List (String × Json)}
    {applied rollover : Bool} (taken : s.write docs writes applied rollover = some t) :
    FilesOk config t := by
  obtain ⟨-, rfl⟩ := Collection.write_some taken
  refine ok.narrow (by simp) (by simp) (fun job name running _ => ⟨by simpa using running, ?_⟩)
    fun id job running => by simpa using running
  simp [Collection.snapshotTable]

theorem FilesOk.flushWrite (ok : FilesOk config s) {micros sequence : Nat} {sidecars : Sidecars}
    (taken : s.flushWrite micros sequence sidecars = some t) : FilesOk config t := by
  obtain ⟨snapshot, lsn, n, running, fresh, rfl⟩ := Collection.flushWrite_some taken
  obtain ⟨unused, safe⟩ := Collection.freshName_eq_some fresh
  have written := sameOn_write_unfinished s.dir
    (.sst (s.snapshotTable ⟨snapshot, lsn, .swapped⟩).rows) sidecars safe
    (not_otherFile_writingOf n) (.of_writingOf n)
  obtain ⟨prepared, stillUnused⟩ := ok.prepare (ok.unused safe unused) written
  refine prepared.claimFlush stillUnused (.head _) rfl ?_
  exact lookup_withSidecars fun sidecar member =>
    ne_of_mem_sidecars n (.inl (lastChar_writingOf n)) sidecar
      (List.mem_append_left _ member)

theorem FilesOk.flushWriteFails (ok : FilesOk config s) {micros sequence : Nat}
    {leftover : Option FileBody} (taken : s.flushWriteFails micros sequence leftover = some t) :
    FilesOk config t := by
  obtain ⟨n, dir, fresh, shape, rfl⟩ := Collection.flushWriteFails_some taken
  obtain ⟨unused, safe⟩ := Collection.freshName_eq_some fresh
  have same : SameOn (fun name => OtherFile n name ∨ name = n ∨ name = kManifestName) s.dir dir := by
    rcases shape with rfl | ⟨body, rfl⟩
    · exact .refl
    · refine .insert ?_
      rintro (other | own | manifest)
      · exact not_otherFile_writingOf n other
      · exact absurd ((Auxiliary.of_writingOf n).notSst.symm.trans (own ▸ safe)) (by decide)
      · exact (Auxiliary.of_writingOf n).notManifest manifest
  refine (ok.prepare (ok.unused safe unused) same).1.narrow rfl rfl ?_ fun _ _ running => running
  rintro job name ⟨⟩

theorem FilesOk.flushPublish (ok : FilesOk config s) {faults : CallerFaults}
    (synced : faults.syncPublishedDirectory = true)
    (taken : s.flushPublish config faults = some t) : FilesOk config t := by
  obtain ⟨snapshot, lsn, n, running, outcome⟩ := Collection.flushPublish_some taken
  have pending : PendingName s n := .inl ⟨_, running, rfl⟩
  have safe := ok.pendingSafe n pending
  have apart : ∀ id job, s.compactions.lookup id = some job →
      ∀ merge, job.merge? = some merge → merge.outName ≠ n := fun id job compacting merge merged own =>
    ok.flushApart _ id job merge running compacting merged (congrArg some own.symm)
  rcases outcome with ⟨left, reason, failed, rfl⟩ | ⟨left, next, done, rfl⟩
  · have same := flushPublish_failed safe synced failed
    have names : listed config.codec left = listed config.codec s.dir := by
      rw [listed, manifestOnDisk_congr (same _ (.inr rfl)), listed]
    refine ok.settle [] pending (by simp) (fun name kept => same name (.inl kept.1)) (by simp)
      rfl (names ▸ ok.listedSafe) (fun name member => .inr (.inl (names ▸ member))) ?_
      fun id job compacting => ⟨compacting, apart id job compacting⟩
    rintro job name ⟨⟩
  · obtain ⟨published, -⟩ := flushPublish_ok safe done
    obtain ⟨names, asked, listedIff⟩ := published.names
    have same := published.others safe
    refine ok.settle [] pending (by simp) (fun name kept => same name kept.1) (by simp)
      rfl published.safe ?_ ?_ fun id job compacting => ⟨compacting, apart id job compacting⟩
    · intro name member
      rcases (listedIff name).mp member with was | own
      · rcases listed_or_present_of_published asked was with was | ⟨-, was⟩
        · exact .inr (.inl was)
        · exact .inr (.inr was)
      · exact .inl own
    · rintro job name ⟨⟩ ⟨⟩

theorem FilesOk.compactSelect (ok : FilesOk config s) {job : Nat}
    (taken : s.compactSelect config job = some t) : FilesOk config t := by
  obtain ⟨-, published, inputs, total, names, rfl, rfl⟩ := Collection.compactSelect_some taken
  refine ok.insertJob rfl fun input member => ok.published names ?_
  have selected := selectSsts_subset member
  rwa [List.map_map, List.mem_map, ← List.mem_map, show (Prod.fst ∘ fun name : String =>
    (name, sstBytes config s.dir name)) = id from rfl, List.map_id, mem_sortNames] at selected

theorem FilesOk.compactCoverage (ok : FilesOk config s) {job : Nat}
    (taken : s.compactCoverage config job = some t) : FilesOk config t := by
  obtain ⟨inputs, total, published, running, -, rfl⟩ := Collection.compactCoverage_some taken
  refine ok.insertJob rfl fun input member => ⟨ok.inputsHandedOut job _ running input member, ?_⟩
  exact fun pending => ok.pendingNotInput input pending job _ running member

theorem map_fst_of_mapM_scanSst {dir : LsmDir} {inputs : List String}
    {read : List (String × List Json)} (scanned : inputs.mapM (scanSst dir) = some read) :
    read.map Prod.fst = inputs ∧ ∀ input ∈ read, dir.lookup input.1 = some (.sst input.2) := by
  induction inputs generalizing read with
  | nil =>
    cases scanned
    simp
  | cons input inputs ih =>
    rw [List.mapM_cons] at scanned
    obtain ⟨first, found, rest⟩ := Option.bind_eq_some_iff.mp scanned
    obtain ⟨others, scannedRest, rest⟩ := Option.bind_eq_some_iff.mp rest
    cases rest
    obtain ⟨names, bodies⟩ := ih scannedRest
    unfold scanSst at found
    split at found
    next rows body =>
      cases found
      exact ⟨by rw [List.map_cons, names], List.forall_mem_cons.mpr ⟨body, bodies⟩⟩
    next => cases found

theorem FilesOk.compactMerge (ok : FilesOk config s) {job committedIndex micros sequence : Nat}
    {clock : Nat → Nat} {sidecars : Sidecars}
    (taken : s.compactMerge config job committedIndex clock micros sequence sidecars = some t) :
    FilesOk config t := by
  obtain ⟨inputs, fullCoverage, read, n, running, scanned, fresh, rfl⟩ :=
    Collection.compactMerge_some taken
  obtain ⟨unused, safe⟩ := Collection.freshName_eq_some fresh
  obtain ⟨names, bodies⟩ := map_fst_of_mapM_scanSst scanned
  have written := sameOn_write_unfinished s.dir (.sst (compactedRows fullCoverage
    (mergeRows config committedIndex ((read.flatMap Prod.snd).mapIdx fun i row => (row, clock i)))))
    sidecars safe (not_otherFile_tmpOf n) (.of_tmpOf n)
  obtain ⟨prepared, stillUnused⟩ := ok.prepare (ok.unused safe unused) written
  refine prepared.claimMerge stillUnused (.head _) rfl running rfl ⟨names, ?_, clock, ?_, rfl⟩
  · intro input member body found
    have isInput : input.1 ∈ inputs := names ▸ List.mem_map_of_mem member
    have handedOut := ok.inputsHandedOut job _ running input.1 isInput
    have kept := written input.1 (.inl (.inl
      ⟨extension_of_safe (ok.handedOutSafe _ handedOut), fun own => unused (own ▸ handedOut)⟩))
    exact Option.some.inj (found.symm.trans (kept.trans (bodies input member)))
  · exact lookup_withSidecars fun sidecar member =>
      ne_of_mem_sidecars n (.inr (lastChar_tmpOf n)) sidecar (List.mem_append_left _ member)

theorem FilesOk.compactPublish (ok : FilesOk config s) {job : Nat} {faults : CallerFaults}
    (synced : faults.syncPublishedDirectory = true)
    (taken : s.compactPublish config job faults = some t) : FilesOk config t := by
  obtain ⟨inputs, merge, running, outcome⟩ := Collection.compactPublish_some taken
  have pending : PendingName s merge.outName := .inr ⟨job, _, merge, running, rfl, rfl⟩
  have safe := ok.pendingSafe _ pending
  have flushing : ∀ flush name, s.flush = some flush → flush.sstName? = some name →
      s.flush = some flush ∧ s.snapshotTable flush = s.snapshotTable flush ∧
        name ≠ merge.outName := fun flush name flushes named =>
    ⟨flushes, rfl, fun own => ok.flushApart flush job _ merge flushes running rfl (own ▸ named)⟩
  have others : ∀ id other, (s.compactions.erase job).lookup id = some other →
      s.compactions.lookup id = some other ∧
        ∀ otherMerge, other.merge? = some otherMerge → otherMerge.outName ≠ merge.outName := by
    intro id other looked
    obtain ⟨ne, was⟩ := lookup_erase_eq_some looked
    exact ⟨was, fun otherMerge merged same =>
      ne (ok.mergesApart id other otherMerge job _ merge was merged running rfl same)⟩
  rcases outcome with ⟨left, reason, failed, rfl⟩ | ⟨left, next, done, rfl⟩
  · have same := compactPublish_failed safe synced failed
    have names : listed config.codec left = listed config.codec s.dir := by
      rw [listed, manifestOnDisk_congr (same _ (.inr rfl)), listed]
    exact ok.settle [] pending (by simp) (fun name kept => same name (.inl kept.1)) (by simp) rfl
      (names ▸ ok.listedSafe) (fun name member => .inr (.inl (names ▸ member))) flushing others
  · have inputsSafe : ∀ input ∈ inputs, safeSstName input = true := fun input member =>
      ok.inputSafe running member
    have notInput := ok.pendingNotInput _ pending job _ running
    have published := compactPublish_ok safe inputsSafe notInput done
    exact ok.settle inputs pending inputsSafe (published.others safe) published.removed rfl
      published.safe (fun name member => published.listedFrom safe member) flushing others

theorem FilesOk.step (ok : FilesOk config s) {e : Event} (synced : SyncedEvent e)
    (taken : step config s e = some t) : FilesOk config t := by
  cases e with
  | put doc committedIndex time rollover => exact ok.write (step_write rfl taken)
  | putMany docs committedIndex time rollover => exact ok.write (step_write rfl taken)
  | del id previousVersion nowNs nowMs committedIndex rollover =>
    obtain ⟨version, found, written⟩ := Option.bind_eq_some_iff.mp taken
    exact ok.write written
  | walFails docs written rollover =>
    dsimp only [Lsm.step] at taken
    split at taken
    · cases taken
    · cases taken
      refine ok.narrow ?_ ?_ (fun job name running _ => ⟨?_, ?_⟩) fun id job running => ?_
      all_goals cases written <;> simp_all [Collection.snapshotTable]
  | flushBegin =>
    obtain ⟨-, rfl⟩ := Collection.flushBegin_some taken
    refine ok.narrow rfl rfl ?_ fun _ _ running => running
    rintro job name ⟨⟩ ⟨⟩
  | flushWrite micros sequence sidecars => exact ok.flushWrite taken
  | flushWriteFails micros sequence leftover => exact ok.flushWriteFails taken
  | flushPublish faults => exact ok.flushPublish synced taken
  | reclaim removed =>
    obtain ⟨snapshot, lsn, publishedWalLsn, -, rfl⟩ := Collection.reclaim_some taken
    refine ok.narrow rfl rfl ?_ fun _ _ running => running
    rintro job name ⟨⟩
  | compactSelect job => exact ok.compactSelect taken
  | compactCoverage job => exact ok.compactCoverage taken
  | compactMerge job committedIndex clock micros sequence sidecars => exact ok.compactMerge taken
  | compactPublish job faults => exact ok.compactPublish synced taken
  | compactAbort job =>
    cases taken
    exact ok.narrow rfl rfl (fun job name running _ => ⟨running, rfl⟩) fun id other looked =>
      (lookup_erase_eq_some looked).2

/-! ## The counter of names -/

/-- The number a step takes from `sstFileSequence`. -/
def Event.drawn : Event → Option Nat
  | .flushWrite _ sequence _ | .flushWriteFails _ sequence _ => some sequence
  | .compactMerge _ _ _ _ sequence _ => some sequence
  | _ => none

/-- A collection and the counter of its process. -/
structure Numbered where
  collection : Collection := {}
  sstFileSequence : Nat := 0

def Numbered.step (config : LsmConfig) (s : Numbered) (e : Event) : Option Numbered :=
  -- `fetch_add` gives a number once; those in between went to other collections.
  if ∀ number ∈ e.drawn, s.sstFileSequence ≤ number then
    (Lsm.step config s.collection e).map fun collection =>
      { collection, sstFileSequence := (e.drawn.map (· + 1)).getD s.sstFileSequence }
  else none

theorem number_of_nextSstFileName {micros number otherMicros other : Nat}
    (same : nextSstFileName micros number = nextSstFileName otherMicros other) : number = other := by
  have noBar : ∀ n, '_' ∉ Nat.toDigits 10 n := fun n member =>
    absurd (Nat.isDigit_of_mem_toDigits (by decide) (by decide) member) (by decide)
  have texts := String.ofList_injective (append_suffix_inj same)
  obtain ⟨-, -, digits⟩ := (List.append_cons_inj_of_notMem (noBar _) (noBar _)).mp texts
  rw [← Nat.ofDigitChars_ten_toDigits (n := number), digits, Nat.ofDigitChars_ten_toDigits]

theorem Collection.name_of_freshName {micros sequence : Nat} {name : String}
    (fresh : s.freshName micros sequence = some name) : name = nextSstFileName micros sequence := by
  unfold freshName at fresh
  dsimp only at fresh
  split at fresh
  · cases fresh
  · exact (Option.some.inj fresh).symm

theorem Collection.handedOut_write {docs : List Json} {writes : List (String × Json)}
    {applied rollover : Bool} (taken : s.write docs writes applied rollover = some t) :
    t.handedOut = s.handedOut := by
  obtain ⟨-, rfl⟩ := Collection.write_some taken
  exact Collection.logRecord_handedOut s docs rollover

/-- A step hands out the name it draws a number for, and no other. -/
theorem handedOut_step {e : Event} (taken : step config s e = some t) :
    (e.drawn = none ∧ t.handedOut = s.handedOut) ∨ ∃ micros number, e.drawn = some number ∧
      t.handedOut = nextSstFileName micros number :: s.handedOut := by
  cases e with
  | put doc committedIndex time rollover =>
    exact .inl ⟨rfl, Collection.handedOut_write (step_write rfl taken)⟩
  | putMany docs committedIndex time rollover =>
    exact .inl ⟨rfl, Collection.handedOut_write (step_write rfl taken)⟩
  | del id previousVersion nowNs nowMs committedIndex rollover =>
    obtain ⟨version, found, written⟩ := Option.bind_eq_some_iff.mp taken
    exact .inl ⟨rfl, Collection.handedOut_write written⟩
  | walFails docs written rollover =>
    dsimp only [Lsm.step] at taken
    split at taken
    · cases taken
    · cases taken
      exact .inl ⟨rfl, by cases written <;> simp⟩
  | flushBegin =>
    obtain ⟨-, rfl⟩ := Collection.flushBegin_some taken
    exact .inl ⟨rfl, rfl⟩
  | flushWrite micros sequence sidecars =>
    obtain ⟨snapshot, lsn, n, running, fresh, rfl⟩ := Collection.flushWrite_some taken
    exact .inr ⟨micros, sequence, rfl, by rw [Collection.name_of_freshName fresh]⟩
  | flushWriteFails micros sequence leftover =>
    obtain ⟨n, dir, fresh, shape, rfl⟩ := Collection.flushWriteFails_some taken
    exact .inr ⟨micros, sequence, rfl, by rw [Collection.name_of_freshName fresh]⟩
  | flushPublish faults =>
    obtain ⟨snapshot, lsn, n, running, outcome⟩ := Collection.flushPublish_some taken
    rcases outcome with ⟨left, reason, failed, rfl⟩ | ⟨left, next, done, rfl⟩ <;>
      exact .inl ⟨rfl, rfl⟩
  | reclaim removed =>
    obtain ⟨snapshot, lsn, publishedWalLsn, -, rfl⟩ := Collection.reclaim_some taken
    exact .inl ⟨rfl, rfl⟩
  | compactSelect job =>
    obtain ⟨-, published, inputs, total, names, rfl, rfl⟩ := Collection.compactSelect_some taken
    exact .inl ⟨rfl, rfl⟩
  | compactCoverage job =>
    obtain ⟨inputs, total, published, running, -, rfl⟩ := Collection.compactCoverage_some taken
    exact .inl ⟨rfl, rfl⟩
  | compactMerge job committedIndex clock micros sequence sidecars =>
    obtain ⟨inputs, fullCoverage, read, n, running, scanned, fresh, rfl⟩ :=
      Collection.compactMerge_some taken
    exact .inr ⟨micros, sequence, rfl, by rw [Collection.name_of_freshName fresh]⟩
  | compactPublish job faults =>
    obtain ⟨inputs, merge, running, outcome⟩ := Collection.compactPublish_some taken
    rcases outcome with ⟨left, reason, failed, rfl⟩ | ⟨left, next, done, rfl⟩ <;>
      exact .inl ⟨rfl, rfl⟩
  | compactAbort job =>
    cases taken
    exact .inl ⟨rfl, rfl⟩

theorem Numbered.step_collection {s t : Numbered} {e : Event}
    (taken : s.step config e = some t) : Lsm.step config s.collection e = some t.collection := by
  unfold Numbered.step at taken
  split at taken
  · obtain ⟨collection, stepped, rfl⟩ := Option.map_eq_some_iff.mp taken
    exact stepped
  · cases taken

/-- Every name handed out has a number below the counter. -/
def Numbered.Counted (s : Numbered) : Prop :=
  ∀ name ∈ s.collection.handedOut, ∃ micros number, name = nextSstFileName micros number ∧
    number < s.sstFileSequence

theorem Numbered.Counted.step {s t : Numbered} {e : Event} (counted : s.Counted)
    (taken : s.step config e = some t) : t.Counted := by
  unfold Numbered.step at taken
  split at taken
  next rising =>
    obtain ⟨collection, stepped, rfl⟩ := Option.map_eq_some_iff.mp taken
    intro name member
    rcases handedOut_step stepped with ⟨none, same⟩ | ⟨micros, drawn, number, named⟩
    · rw [same] at member
      rw [none]
      exact counted name member
    · rw [named] at member
      rw [number]
      rcases List.mem_cons.mp member with rfl | before
      · exact ⟨micros, drawn, rfl, Nat.lt_succ_self drawn⟩
      · obtain ⟨earlier, below, rfl, less⟩ := counted name before
        exact ⟨earlier, below, rfl, (less.trans_le (rising drawn number)).trans (Nat.lt_succ_self drawn)⟩
  next => cases taken

/-- Compactions of two SSTs at a time. -/
def pairwise : LsmConfig := { standalone with fanout := 2 }

/-- Two flushes, the merge of their SSTs, and a third flush that has written its file. -/
def threeNames : List Event :=
  [.put (versionOne "a") 0 0 false, .flushBegin, .flushWrite 1 0 {}, .flushPublish {}, .reclaim 0,
    .put (versionOne "b") 0 0 false, .flushBegin, .flushWrite 1 3 {}, .flushPublish {}, .reclaim 0,
    .compactSelect 0, .compactCoverage 0, .compactMerge 0 0 (fun _ => 0) 1 4 {},
    .put (versionOne "c") 0 0 false, .flushBegin, .flushWrite 1 5 {}]

end PacificDb.Lsm
