import Mathlib.Data.List.AList
import Mathlib.Data.List.Sort
import Mathlib.Data.String.Basic
import PacificDb.Json
import PacificDb.Lib.Checks

/-!
# The manifest of a collection's `.lsm` directory

`LsmManifestStore` publishes the set of live SSTs and the WAL boundary they
cover as one JSON file, `_manifest.json`, replaced by rename. This module has
the directory, `load`, `publishedSsts` and `publish` with every step that can
fail, and the publish sections of its two callers, `LSM::flush` and
`LSM::compact`, with their error handling.

The JSON text of a manifest is the library's: `ManifestCodec` has its `dump`
and `parse` with the round trip the code relies on. An SST body stands for a
file that `verifySst` accepts, with the rows `scanSst` reads from it.
-/

namespace PacificDb.Lsm

open Lib

/-- What a name of the directory holds. `verifySst` accepts exactly `sst`. -/
inductive FileBody where
  | text (bytes : List UInt8)
  | sst (rows : List Json)
  | directory

def FileBody.isRegular : FileBody → Bool
  | .directory => false
  | _ => true

def FileBody.verifySst : FileBody → Bool
  | .sst _ => true
  | _ => false

abbrev LsmDir := AList fun _ : String => FileBody

/-- `fs::is_regular_file`. -/
def LsmDir.isRegularFile (dir : LsmDir) (name : String) : Bool :=
  (dir.lookup name).any FileBody.isRegular

/-- `durable_file::rename`: fails without effect when the source is missing or
the system call fails, and otherwise replaces the target. -/
def LsmDir.rename (dir : LsmDir) (source target : String) (succeeds : Bool) : Option LsmDir :=
  match dir.lookup source with
  | some body => if succeeds then some ((dir.erase source).insert target body) else none
  | none => none

structure LsmManifest where
  formatVersion : Nat := 1
  generation : Nat := 0
  coveredWalLsn : Nat := 0
  sstFiles : List String := []
  deriving Repr, DecidableEq

inductive LsmManifestLoadResult where
  | absent
  | ok (manifest : LsmManifest)
  | error (reason : String)
  deriving Repr, DecidableEq

/-- The JSON text of a manifest: `parse` reads back the fields `load` asks for,
or says why it cannot. -/
structure ManifestCodec where
  dump : LsmManifest → List UInt8
  parse : List UInt8 → Except String LsmManifest
  parse_dump : ∀ manifest, parse (dump manifest) = .ok manifest
  dump_ne_nil : ∀ manifest, dump manifest ≠ []

def kManifestName : String := "_manifest.json"
def kTemporaryName : String := "_manifest.json.tmp"
def kFormatVersion : Nat := 1
def kMaxManifestBytes : Nat := 16 * 1024 * 1024

/-! ## Names -/

/-- `path::extension` of a single component: from the last dot, unless that dot
is the first character. -/
def extension (name : String) : List Char :=
  let tail := name.toList.reverse.takeWhile (· ≠ '.')
  if tail.length + 1 < name.toList.length then '.' :: tail.reverse else []

def sstExtension : List Char := ['.', 's', 's', 't']

/-- A non-empty relative single component with extension `.sst`. -/
def safeSstName (name : String) : Bool :=
  !name.toList.isEmpty && !name.toList.contains '/' && extension name == sstExtension

def bloomOf (name : String) : String := name ++ ".bloom"
def sparseOf (name : String) : String := name ++ ".sidx"
def writingOf (name : String) : String := name ++ ".writing"

/-- `std::sort` on file names. -/
def sortNames (names : List String) : List String := names.insertionSort (· ≤ ·)

/-- `std::adjacent_find` finds nothing. -/
def noAdjacentDuplicate : List String → Bool
  | first :: second :: rest => first != second && noAdjacentDuplicate (second :: rest)
  | _ => true

/-! ## Loading -/

/-- The per-file part of `validateManifest`. -/
def validateSst (dir : LsmDir) (verifyContents : Bool) (name : String) : Except String Unit :=
  if !safeSstName name then .error "unsafe SST name in LSM manifest"
  else if !dir.isRegularFile name then .error ("missing manifest SST " ++ name)
  else if verifyContents && !(dir.lookup name).any FileBody.verifySst then
    .error ("invalid manifest SST " ++ name)
  else .ok ()

/-- `validateManifest`, with the sorted manifest it leaves behind. -/
def validateManifest (dir : LsmDir) (manifest : LsmManifest) (verifyContents : Bool) :
    Except String LsmManifest :=
  if manifest.formatVersion ≠ kFormatVersion ∨ manifest.generation = 0 then
    .error "unsupported LSM manifest version or generation"
  else
    let sorted := { manifest with sstFiles := sortNames manifest.sstFiles }
    if !noAdjacentDuplicate sorted.sstFiles then .error "duplicate SST in LSM manifest"
    else do
      sorted.sstFiles.forM (validateSst dir verifyContents)
      return sorted

/-- `LsmManifestStore::load`. -/
def load (codec : ManifestCodec) (dir : LsmDir) : LsmManifestLoadResult :=
  match dir.lookup kManifestName with
  | none => .absent
  | some (.text bytes) =>
      if bytes.length = 0 ∨ kMaxManifestBytes < bytes.length then
        .error "invalid LSM manifest size"
      else
        match codec.parse bytes with
        | .error reason => .error reason
        | .ok manifest =>
            match validateManifest dir manifest false with
            | .error reason => .error reason
            | .ok manifest => .ok manifest
  | some _ => .error "invalid LSM manifest size"

/-- The names of a directory without a manifest that end in `.sst`; one that
`verifySst` refuses fails the enumeration. -/
def legacySsts (dir : LsmDir) : Except String (List String) :=
  let names := dir.keys.filter fun name =>
    dir.isRegularFile name && extension name == sstExtension
  match names.find? fun name => !(dir.lookup name).any FileBody.verifySst with
  | some name => .error ("invalid legacy SST " ++ name)
  | none => .ok (sortNames names)

/-- `LsmManifestStore::publishedSsts`. -/
def publishedSsts (codec : ManifestCodec) (dir : LsmDir) : Except String (List String) :=
  match load codec dir with
  | .error reason => .error reason
  | .ok manifest => .ok manifest.sstFiles
  | .absent => legacySsts dir

/-! ## Publishing -/

/-- An artifact path of `publish`, split at its normalized parent. -/
structure Artifact where
  inDirectory : Bool := true
  name : String
  deriving Repr, DecidableEq

/-- The outcome of every step of `publish` that can fail. A failed write of the
temporary file leaves `tornBytes` bytes of it. -/
structure PublishFaults where
  syncArtifact : String → Bool := fun _ => true
  syncSidecar : String → Bool := fun _ => true
  syncArtifactsDirectory : Bool := true
  writeTemporary : Bool := true
  tornBytes : Nat := 0
  syncTemporary : Bool := true
  renameManifest : Bool := true
  syncPublishedDirectory : Bool := true

/-- A name of the requested manifest is already published or a new SST. -/
def accountedFor (published : LsmManifest) (newArtifacts : List Artifact) (name : String) : Bool :=
  published.sstFiles.contains name || newArtifacts.any fun artifact =>
    extension artifact.name == sstExtension && artifact.name == name

/-- The checks of `publish` before it touches the disk. -/
def admitManifest (codec : ManifestCodec) (dir : LsmDir) (requested : LsmManifest)
    (newArtifacts : List Artifact) : Except String LsmManifest :=
  match load codec dir with
  | .error reason => .error reason
  | .absent => do
      let manifest ← validateManifest dir requested true
      ensure (newArtifacts.all Artifact.inDirectory)
        "new LSM artifact is outside the collection directory"
      return manifest
  | .ok published => do
      let manifest ← validateManifest dir requested false
      ensure (decide (published.generation < manifest.generation) &&
          decide (published.coveredWalLsn ≤ manifest.coveredWalLsn))
        "LSM manifest generation or WAL boundary regressed"
      ensure (newArtifacts.all Artifact.inDirectory)
        "new LSM artifact is outside the collection directory"
      ensure (manifest.sstFiles.all (accountedFor published newArtifacts))
        "manifest adds an SST that is not a new artifact"
      return manifest

/-- Synchronize one new artifact and, for an SST, its sidecars. -/
def syncNewArtifact (faults : PublishFaults) (dir : LsmDir) (verifyContents : Bool)
    (artifact : Artifact) : Except String Unit :=
  if !(dir.isRegularFile artifact.name && faults.syncArtifact artifact.name) then
    .error "cannot synchronize new LSM artifact"
  else if extension artifact.name == sstExtension then
    if verifyContents && !(dir.lookup artifact.name).any FileBody.verifySst then
      .error ("invalid new SST " ++ artifact.name)
    else if [bloomOf artifact.name, sparseOf artifact.name].all fun sidecar =>
        (dir.lookup sidecar).isNone || dir.isRegularFile sidecar && faults.syncSidecar sidecar then
      .ok ()
    else .error "cannot synchronize new LSM sidecar"
  else .ok ()

/-- Everything `publish` does before it writes the temporary manifest. -/
def preparePublish (codec : ManifestCodec) (faults : PublishFaults) (dir : LsmDir)
    (requested : LsmManifest) (newArtifacts : List Artifact) : Except String LsmManifest := do
  let manifest ← admitManifest codec dir requested newArtifacts
  newArtifacts.forM (syncNewArtifact faults dir (load codec dir != .absent))
  ensure faults.syncArtifactsDirectory "cannot synchronize LSM artifacts directory"
  return manifest

/-- `LsmManifestStore::publish`: the directory it leaves and its result. -/
def publish (codec : ManifestCodec) (faults : PublishFaults) (dir : LsmDir)
    (requested : LsmManifest) (newArtifacts : List Artifact) : LsmDir × Except String Unit :=
  match preparePublish codec faults dir requested newArtifacts with
  | .error reason => (dir, .error reason)
  | .ok manifest =>
      let text := codec.dump manifest
      if !faults.writeTemporary then
        (dir.insert kTemporaryName (.text (text.take faults.tornBytes)),
          .error "cannot write temporary LSM manifest")
      else
        let written := dir.insert kTemporaryName (.text text)
        if !faults.syncTemporary then
          (written, .error "cannot synchronize temporary LSM manifest")
        else
          match LsmDir.rename written kTemporaryName kManifestName faults.renameManifest with
          | none => (written, .error "cannot rename LSM manifest")
          | some replaced =>
              -- The rename has already made the new manifest visible to `load`.
              if !faults.syncPublishedDirectory then
                (replaced, .error "cannot synchronize published LSM manifest")
              else (replaced, .ok ())

/-! ## What `load` reads -/

theorem validateSst_ok_iff {dir : LsmDir} {verifyContents : Bool} {name : String} :
    validateSst dir verifyContents name = .ok () ↔
      safeSstName name = true ∧ dir.isRegularFile name = true ∧
        (verifyContents = true → (dir.lookup name).any FileBody.verifySst = true) := by
  unfold validateSst
  cases safeSstName name <;> cases dir.isRegularFile name <;> cases verifyContents <;>
    cases (dir.lookup name).any FileBody.verifySst <;> simp

/-- A manifest that validates comes back sorted, without duplicates, and names
only regular files with safe names. -/
theorem validateManifest_ok_iff {dir : LsmDir} {manifest sorted : LsmManifest}
    {verifyContents : Bool} :
    validateManifest dir manifest verifyContents = .ok sorted ↔
      manifest.formatVersion = kFormatVersion ∧ manifest.generation ≠ 0 ∧
        noAdjacentDuplicate (sortNames manifest.sstFiles) = true ∧
        (∀ name ∈ sortNames manifest.sstFiles,
          validateSst dir verifyContents name = .ok ()) ∧
        sorted = { manifest with sstFiles := sortNames manifest.sstFiles } := by
  unfold validateManifest
  by_cases header : manifest.formatVersion ≠ kFormatVersion ∨ manifest.generation = 0
  · rw [if_pos header]
    refine iff_of_false (by simp) fun valid => ?_
    rcases header with version | generation
    · exact version valid.1
    · exact valid.2.1 generation
  · rw [if_neg header]
    push Not at header
    cases unique : noAdjacentDuplicate (sortNames manifest.sstFiles) with
    | false => simp [unique]
    | true =>
      simp only [unique, Bool.not_true, Bool.false_eq_true, if_false, bind_eq_ok, pure_eq_ok,
        forM_eq_ok]
      exact ⟨fun ⟨_, files, eq⟩ => ⟨header.1, header.2, trivial, files, eq.symm⟩,
        fun valid => ⟨(), valid.2.2.2.1, valid.2.2.2.2.symm⟩⟩

theorem sortNames_sortNames (names : List String) :
    sortNames (sortNames names) = sortNames names :=
  (List.pairwise_insertionSort (· ≤ ·) names).insertionSort_eq

theorem mem_sortNames {names : List String} {name : String} :
    name ∈ sortNames names ↔ name ∈ names :=
  List.mem_insertionSort (· ≤ ·)

/-- `load` reads the manifest text and the files with a safe SST name, nothing
else of the directory. -/
theorem load_congr {codec : ManifestCodec} {dir other : LsmDir}
    (manifest : other.lookup kManifestName = dir.lookup kManifestName)
    (ssts : ∀ name, safeSstName name = true → other.lookup name = dir.lookup name) :
    load codec other = load codec dir := by
  have files : validateSst other false = validateSst dir false := by
    funext name
    cases safe : safeSstName name with
    | false => simp [validateSst, safe]
    | true => simp [validateSst, safe, LsmDir.isRegularFile, ssts name safe]
  have manifests : ∀ m, validateManifest other m false = validateManifest dir m false := by
    intro m
    unfold validateManifest
    rw [files]
  unfold load
  rw [manifest]
  simp only [manifests]

theorem safeSstName_kTemporaryName : safeSstName kTemporaryName = false := by decide

theorem safeSstName_kManifestName : safeSstName kManifestName = false := by decide

theorem load_insert_temporary {codec : ManifestCodec} {dir : LsmDir} {body : FileBody} :
    load codec (dir.insert kTemporaryName body) = load codec dir :=
  load_congr (AList.lookup_insert_ne (by decide)) fun name safe =>
    AList.lookup_insert_ne fun temporary => by
      rw [temporary, safeSstName_kTemporaryName] at safe
      cases safe

/-! ## What `publish` leaves -/

/-- Every step up to the rename of the manifest succeeds. -/
def reachesRename (codec : ManifestCodec) (faults : PublishFaults) (dir : LsmDir)
    (requested : LsmManifest) (newArtifacts : List Artifact) : Bool :=
  (preparePublish codec faults dir requested newArtifacts).isOk &&
    faults.writeTemporary && faults.syncTemporary && faults.renameManifest

/-- The directory after the rename: only the manifest text and the temporary
name differ from the directory before. -/
def replacedManifest (codec : ManifestCodec) (dir : LsmDir) (manifest : LsmManifest) : LsmDir :=
  AList.insert kManifestName (.text (codec.dump manifest))
    (AList.erase kTemporaryName
      (AList.insert kTemporaryName (.text (codec.dump manifest)) dir))

theorem lookup_replacedManifest_ne {codec : ManifestCodec} {dir : LsmDir}
    {manifest : LsmManifest} {name : String} (notManifest : name ≠ kManifestName)
    (notTemporary : name ≠ kTemporaryName) :
    (replacedManifest codec dir manifest).lookup name = dir.lookup name := by
  rw [replacedManifest, AList.lookup_insert_ne notManifest, AList.lookup_erase_ne notTemporary,
    AList.lookup_insert_ne notTemporary]

theorem lookup_replacedManifest_of_safe {codec : ManifestCodec} {dir : LsmDir}
    {manifest : LsmManifest} {name : String} (safe : safeSstName name = true) :
    (replacedManifest codec dir manifest).lookup name = dir.lookup name := by
  refine lookup_replacedManifest_ne ?_ ?_ <;> rintro rfl <;> revert safe <;> decide

/-- Before the rename, `publish` fails and `load` sees no difference. -/
theorem publish_of_not_reachesRename {codec : ManifestCodec} {faults : PublishFaults}
    {dir : LsmDir} {requested : LsmManifest} {newArtifacts : List Artifact}
    (early : reachesRename codec faults dir requested newArtifacts = false) :
    (∃ reason, (publish codec faults dir requested newArtifacts).2 = .error reason) ∧
      (∀ name, name ≠ kTemporaryName →
        (publish codec faults dir requested newArtifacts).1.lookup name = dir.lookup name) ∧
      load codec (publish codec faults dir requested newArtifacts).1 = load codec dir := by
  unfold reachesRename at early
  unfold publish
  cases prepared : preparePublish codec faults dir requested newArtifacts with
  | error reason => exact ⟨⟨_, rfl⟩, fun _ _ => rfl, rfl⟩
  | ok manifest =>
    simp only [prepared, Except.isOk, Except.toBool, Bool.true_and] at early
    cases write : faults.writeTemporary with
    | false =>
      exact ⟨⟨_, rfl⟩, fun _ ne => AList.lookup_insert_ne ne, load_insert_temporary⟩
    | true =>
      cases sync : faults.syncTemporary with
      | false =>
        exact ⟨⟨_, rfl⟩, fun _ ne => AList.lookup_insert_ne ne, load_insert_temporary⟩
      | true =>
        simp only [write, sync, Bool.true_and] at early
        simp only [LsmDir.rename, AList.lookup_insert, early, Bool.not_true,
          Bool.false_eq_true, if_false]
        exact ⟨⟨_, rfl⟩, fun _ ne => AList.lookup_insert_ne ne, load_insert_temporary⟩

/-- After the rename the new manifest is in place, whatever `publish` returns. -/
theorem publish_of_reachesRename {codec : ManifestCodec} {faults : PublishFaults}
    {dir : LsmDir} {requested : LsmManifest} {newArtifacts : List Artifact}
    (late : reachesRename codec faults dir requested newArtifacts = true) :
    ∃ manifest, preparePublish codec faults dir requested newArtifacts = .ok manifest ∧
      (publish codec faults dir requested newArtifacts).1 =
        replacedManifest codec dir manifest ∧
      ((publish codec faults dir requested newArtifacts).2 = .ok () ↔
        faults.syncPublishedDirectory = true) := by
  unfold reachesRename at late
  cases prepared : preparePublish codec faults dir requested newArtifacts with
  | error reason => simp [prepared, Except.isOk, Except.toBool] at late
  | ok manifest =>
    simp only [Bool.and_eq_true] at late
    obtain ⟨⟨⟨-, write⟩, sync⟩, rename⟩ := late
    refine ⟨manifest, rfl, ?_, ?_⟩
    · simp only [publish, prepared, write, sync, rename, LsmDir.rename, AList.lookup_insert,
        Bool.not_true, Bool.false_eq_true, if_false, if_true]
      cases faults.syncPublishedDirectory <;> rfl
    · simp only [publish, prepared, write, sync, rename, LsmDir.rename, AList.lookup_insert,
        Bool.not_true, Bool.false_eq_true, if_false, if_true]
      cases faults.syncPublishedDirectory <;> simp

theorem publish_ok_iff (codec : ManifestCodec) (faults : PublishFaults) (dir : LsmDir)
    (requested : LsmManifest) (newArtifacts : List Artifact) :
    (publish codec faults dir requested newArtifacts).2 = .ok () ↔
      reachesRename codec faults dir requested newArtifacts = true ∧
        faults.syncPublishedDirectory = true := by
  cases reached : reachesRename codec faults dir requested newArtifacts with
  | false =>
    obtain ⟨⟨reason, failed⟩, -⟩ := publish_of_not_reachesRename reached
    simp [failed]
  | true =>
    obtain ⟨-, -, -, returned⟩ := publish_of_reachesRename reached
    simp [returned]

/-- What `publish` has checked when it reaches the disk. -/
theorem preparePublish_ok {codec : ManifestCodec} {faults : PublishFaults} {dir : LsmDir}
    {requested manifest : LsmManifest} {newArtifacts : List Artifact}
    (prepared : preparePublish codec faults dir requested newArtifacts = .ok manifest) :
    (∃ verifyContents, validateManifest dir requested verifyContents = .ok manifest) ∧
      (∀ reason, load codec dir ≠ .error reason) ∧
      (∀ published, load codec dir = .ok published →
        published.generation < manifest.generation ∧
          published.coveredWalLsn ≤ manifest.coveredWalLsn) := by
  simp only [preparePublish, bind_eq_ok, pure_eq_ok] at prepared
  obtain ⟨accepted, admitted, -, -, -, -, rfl⟩ := prepared
  unfold admitManifest at admitted
  cases current : load codec dir with
  | error reason => simp [current] at admitted
  | absent =>
    simp only [current, bind_eq_ok, pure_eq_ok] at admitted
    obtain ⟨validated, valid, -, -, rfl⟩ := admitted
    exact ⟨⟨_, valid⟩, by simp, by simp⟩
  | ok published =>
    simp only [current, bind_eq_ok, pure_eq_ok, ensure_eq_ok, Bool.and_eq_true,
      decide_eq_true_eq] at admitted
    obtain ⟨validated, valid, -, advanced, -, -, -, -, rfl⟩ := admitted
    exact ⟨⟨_, valid⟩, by simp, by rintro _ ⟨⟩; exact advanced⟩

/-- Loading right after the rename gives the validated manifest, unless its
text is larger than `load` accepts. -/
theorem load_replacedManifest {codec : ManifestCodec} {dir : LsmDir}
    {requested manifest : LsmManifest} {verifyContents : Bool}
    (valid : validateManifest dir requested verifyContents = .ok manifest) :
    load codec (replacedManifest codec dir manifest) =
      if kMaxManifestBytes < (codec.dump manifest).length then
        .error "invalid LSM manifest size"
      else .ok manifest := by
  obtain ⟨version, generation, unique, files, rfl⟩ := validateManifest_ok_iff.mp valid
  set manifest : LsmManifest := { requested with sstFiles := sortNames requested.sstFiles }
  have again : validateManifest (replacedManifest codec dir manifest) manifest false =
      .ok manifest := by
    refine validateManifest_ok_iff.mpr ⟨version, generation, ?_, ?_, ?_⟩
    · rw [sortNames_sortNames]; exact unique
    · intro name member
      rw [sortNames_sortNames] at member
      have checked := validateSst_ok_iff.mp (files name member)
      have lookup : (replacedManifest codec dir manifest).lookup name = dir.lookup name :=
        lookup_replacedManifest_of_safe checked.1
      refine validateSst_ok_iff.mpr ⟨checked.1, ?_, by simp⟩
      rw [LsmDir.isRegularFile, lookup]
      exact checked.2.1
    · simp [manifest, sortNames_sortNames]
  have text : (replacedManifest codec dir manifest).lookup kManifestName =
      some (.text (codec.dump manifest)) := AList.lookup_insert _
  have nonempty : (codec.dump manifest).length ≠ 0 := by
    simpa using codec.dump_ne_nil manifest
  unfold load
  rw [text]
  simp only [nonempty, false_or, codec.parse_dump, again]

end PacificDb.Lsm
