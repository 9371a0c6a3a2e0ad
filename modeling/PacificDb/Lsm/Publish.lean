import Mathlib.Data.List.Dedup
import PacificDb.Lib.SameOn
import PacificDb.Lsm.ManifestText

/-!
# The publish sections of flush and compaction

Both callers of `LsmManifestStore::publish` hold the collection lock, move
their new SST into place, publish, and clean up when `publish` returns false.
The rename inside `publish` makes the new manifest visible before its last
fallible step, so a false result does not say that the old manifest is still
there, while the clean-up of both callers deletes the SST the manifest names.

`publication_atomic_iff` says exactly when this matters: a publication is
atomic unless the directory sync after the rename fails, or the manifest text
exceeds the size `load` accepts.
-/

namespace PacificDb.Lsm

open Lib

/-- `fs::remove` on each name. -/
def removeAll (dir : LsmDir) (names : List String) : LsmDir :=
  names.foldl (fun dir name => dir.erase name) dir

theorem lookup_removeAll_of_not_mem {names : List String} {name : String} {dir : LsmDir}
    (absent : name ∉ names) : (removeAll dir names).lookup name = dir.lookup name := by
  induction names generalizing dir with
  | nil => rfl
  | cons first rest ih =>
    rw [List.mem_cons, not_or] at absent
    exact (ih absent.2).trans (AList.lookup_erase_ne absent.1)

theorem lookup_removeAll_of_mem {names : List String} {name : String} {dir : LsmDir}
    (member : name ∈ names) : (removeAll dir names).lookup name = none := by
  induction names generalizing dir with
  | nil => cases member
  | cons first rest ih =>
    by_cases later : name ∈ rest
    · exact ih later
    · rw [List.mem_cons, or_iff_left later] at member
      subst member
      exact (lookup_removeAll_of_not_mem later).trans (AList.lookup_erase name dir)

/-- The sidecars a new SST and its unfinished copy can have. -/
def sidecarsOf (name : String) : List String := [bloomOf name, sparseOf name]

/-- The names of an unfinished SST, its target, and the sidecars of both. -/
def artifactNames (source target : String) : List String :=
  source :: sidecarsOf source ++ target :: sidecarsOf target

/-- The outcomes of the artifact renames of a caller, and of its `publish`. -/
structure CallerFaults extends PublishFaults where
  renameBloom : Bool := true
  renameSparse : Bool := true
  renameSst : Bool := true

/-- One artifact rename of a chain: skipped after a failure, and for a sidecar
that was never written. -/
def renameSidecar (state : LsmDir × Bool) (source target : String) (succeeds : Bool) :
    LsmDir × Bool :=
  if state.2 && (state.1.lookup source).isSome then
    match LsmDir.rename state.1 source target succeeds with
    | some moved => (moved, true)
    | none => (state.1, false)
  else state

def renameArtifact (state : LsmDir × Bool) (source target : String) (succeeds : Bool) :
    LsmDir × Bool :=
  if state.2 then
    match LsmDir.rename state.1 source target succeeds with
    | some moved => (moved, true)
    | none => (state.1, false)
  else state

/-- Move the artifacts of `source` to `target`: bloom, sparse index, SST. -/
def finalizeArtifacts (faults : CallerFaults) (dir : LsmDir) (source target : String) :
    LsmDir × Bool :=
  let bloom := renameSidecar (dir, true) (bloomOf source) (bloomOf target) faults.renameBloom
  let sparse := renameSidecar bloom (sparseOf source) (sparseOf target) faults.renameSparse
  renameArtifact sparse source target faults.renameSst

def LsmManifestLoadResult.manifest? : LsmManifestLoadResult → Option LsmManifest
  | .ok manifest => some manifest
  | _ => none

/-- `current + 1`, or the first generation. -/
def nextGeneration (current : Option LsmManifest) : Nat :=
  match current with
  | some manifest => manifest.generation + 1
  | none => 1

/-- `std::sort` and `std::unique`. -/
def sortUnique (names : List String) : List String := (sortNames names).dedup

/-! ## Flush -/

/-- The manifest a flush asks for. -/
def flushManifest (current : Option LsmManifest) (published : List String) (sstName : String)
    (flushCoveredWalLsn : Nat) : LsmManifest where
  generation := nextGeneration current
  coveredWalLsn := max flushCoveredWalLsn ((current.map LsmManifest.coveredWalLsn).getD 0)
  sstFiles := sortUnique (published ++ [sstName])

/-- The flush publish section up to the call of `publish`: the directory with
the artifacts in place and the requested manifest, or the directory and the
exception it leaves. -/
def flushRequest (codec : ManifestCodec) (faults : CallerFaults) (dir : LsmDir)
    (sstName : String) (flushCoveredWalLsn : Nat) :
    Except (LsmDir × String) (LsmDir × LsmManifest) :=
  match load codec dir with
  | .error reason => .error (dir, "cannot load LSM manifest before flush publish: " ++ reason)
  | current =>
      match publishedSsts codec dir with
      | .error reason => .error (dir, "cannot load published SST set: " ++ reason)
      | .ok published =>
          match finalizeArtifacts faults dir (writingOf sstName) sstName with
          | (moved, false) =>
              .error (removeAll moved (artifactNames (writingOf sstName) sstName),
                "cannot finalize LSM flush artifacts")
          | (moved, true) =>
              .ok (moved, flushManifest current.manifest? published sstName flushCoveredWalLsn)

/-- The publish section of `LSM::flush`. -/
def flushPublish (codec : ManifestCodec) (faults : CallerFaults) (dir : LsmDir)
    (sstName : String) (flushCoveredWalLsn : Nat) : LsmDir × Except String LsmManifest :=
  match flushRequest codec faults dir sstName flushCoveredWalLsn with
  | .error (left, reason) => (left, .error reason)
  | .ok (moved, next) =>
      match publish codec faults.toPublishFaults moved next [{ name := sstName }] with
      | (left, .error reason) =>
          (removeAll left (sstName :: sidecarsOf sstName),
            .error ("cannot publish LSM flush checkpoint: " ++ reason))
      | (left, .ok _) => (left, .ok next)

/-! ## Compaction -/

def tmpOf (name : String) : String := name ++ ".tmp"

/-- The manifest a compaction asks for: its inputs replaced by its output. -/
def compactManifest (current : Option LsmManifest) (published inputs : List String)
    (outName : String) : LsmManifest where
  generation := nextGeneration current
  coveredWalLsn := (current.map LsmManifest.coveredWalLsn).getD 0
  sstFiles := sortUnique (published.filter (fun name => !inputs.contains name) ++ [outName])

/-- The compaction publish section up to the call of `publish`. A failed rename
leaves what the source's three early returns leave. -/
def compactRequest (codec : ManifestCodec) (faults : CallerFaults) (dir : LsmDir)
    (outName : String) (inputs : List String) :
    Except (LsmDir × String) (LsmDir × LsmManifest) :=
  let bloom := renameSidecar (dir, true) (bloomOf (tmpOf outName)) (bloomOf outName)
    faults.renameBloom
  if !bloom.2 then .error (bloom.1, "Failed to finalize bloom sidecar")
  else
    let sparse := renameSidecar bloom (sparseOf (tmpOf outName)) (sparseOf outName)
      faults.renameSparse
    if !sparse.2 then
      .error (removeAll sparse.1 [bloomOf outName], "Failed to finalize sparse sidecar")
    else
      let merged := renameArtifact sparse (tmpOf outName) outName faults.renameSst
      if !merged.2 then
        .error (removeAll merged.1 (sidecarsOf outName), "Failed to finalize merged SST")
      else
        match load codec merged.1, publishedSsts codec merged.1 with
        | .error reason, _ => .error (removeAll merged.1 (outName :: sidecarsOf outName), reason)
        | _, .error reason => .error (removeAll merged.1 (outName :: sidecarsOf outName), reason)
        | current, .ok published =>
            if inputs.all published.contains then
              .ok (merged.1, compactManifest current.manifest? published inputs outName)
            else
              .error (removeAll merged.1 (outName :: sidecarsOf outName),
                "compaction input is no longer manifest-authoritative")

/-- The publish section of `LSM::compact`. -/
def compactPublish (codec : ManifestCodec) (faults : CallerFaults) (dir : LsmDir)
    (outName : String) (inputs : List String) : LsmDir × Except String LsmManifest :=
  match compactRequest codec faults dir outName inputs with
  | .error (left, reason) => (left, .error reason)
  | .ok (moved, next) =>
      match publish codec faults.toPublishFaults moved next [{ name := outName }] with
      | (left, .error reason) =>
          (removeAll left (outName :: sidecarsOf outName), .error reason)
      | (left, .ok _) =>
          (removeAll left (inputs ++ inputs.flatMap sidecarsOf), .ok next)

/-! ## Behind the request -/

section Section

variable {codec : ManifestCodec} {faults : CallerFaults} {name : String} {left : LsmDir}
variable {request : Except (LsmDir × String) (LsmDir × LsmManifest)} {clean finish : LsmDir → LsmDir}
variable {message : String → String}

/-- What the two publish sections share: how they clean up and how they finish is given. -/
def publishSection (codec : ManifestCodec) (faults : CallerFaults) (name : String)
    (clean finish : LsmDir → LsmDir) (message : String → String) :
    Except (LsmDir × String) (LsmDir × LsmManifest) → LsmDir × Except String LsmManifest
  | .error (left, reason) => (left, .error reason)
  | .ok (moved, next) =>
      match publish codec faults.toPublishFaults moved next [{ name := name }] with
      | (left, .error reason) => (clean left, .error (message reason))
      | (left, .ok _) => (finish left, .ok next)

theorem publishSection_ok {next : LsmManifest}
    (done : publishSection codec faults name clean finish message request = (left, .ok next)) :
    ∃ moved after, request = .ok (moved, next) ∧ finish after = left ∧
      publish codec faults.toPublishFaults moved next [{ name := name }] = (after, .ok ()) := by
  unfold publishSection at done
  split at done
  · cases done
  next moved asked =>
    split at done
    · cases done
    next after _ success =>
      cases done
      exact ⟨moved, after, rfl, rfl, success⟩

theorem publishSection_error {reason : String}
    (failed : publishSection codec faults name clean finish message request = (left, .error reason)) :
    request = .error (left, reason) ∨ ∃ moved next after why, request = .ok (moved, next) ∧
      clean after = left ∧
      publish codec faults.toPublishFaults moved next [{ name := name }] = (after, .error why) := by
  unfold publishSection at failed
  split at failed
  · cases failed
    exact .inl rfl
  next moved next =>
    split at failed
    next after why failure =>
      cases failed
      exact .inr ⟨moved, next, after, why, rfl, rfl, failure⟩
    · cases failed

end Section

/-! ## Names beside the SSTs -/

/-- The extension of a name with an appended suffix is that suffix. -/
theorem extension_append (name : String) {suffix : String} (letters : List Char)
    (dotted : suffix.toList = '.' :: letters) (plain : '.' ∉ letters) :
    extension (name ++ suffix) = if name.toList = [] then [] else '.' :: letters := by
  have reversed : (name ++ suffix).toList.reverse =
      letters.reverse ++ '.' :: name.toList.reverse := by
    simp [String.toList_append, dotted]
  have tail : (letters.reverse ++ '.' :: name.toList.reverse).takeWhile (· ≠ '.') =
      letters.reverse := by
    rw [List.takeWhile_append_of_pos fun c member => ?_]
    · simp
    · rw [List.mem_reverse] at member
      exact decide_eq_true fun dot => plain (dot ▸ member)
  have size : (name ++ suffix).toList.length = name.toList.length + (letters.length + 1) := by
    simp [String.toList_append, dotted]
  unfold extension
  rw [reversed, tail, size]
  cases name.toList with
  | nil => simp
  | cons c rest => simp

/-- A name that is neither an SST of a manifest nor the manifest. -/
structure Auxiliary (name : String) : Prop where
  extension_ne : extension name ≠ sstExtension
  notManifest : name ≠ kManifestName

theorem extension_of_safe {name : String} (safe : safeSstName name = true) :
    extension name = sstExtension := by
  simp only [safeSstName, Bool.and_eq_true, beq_iff_eq] at safe
  exact safe.2

theorem Auxiliary.notSst {name : String} (aux : Auxiliary name) : safeSstName name = false := by
  cases safe : safeSstName name with
  | false => rfl
  | true => exact absurd (extension_of_safe safe) aux.extension_ne

theorem Auxiliary.of_suffix {name suffix : String} (letters : List Char)
    (dotted : suffix.toList = '.' :: letters) (plain : '.' ∉ letters)
    (notSst : '.' :: letters ≠ sstExtension) (notJson : '.' :: letters ≠ extension kManifestName) :
    Auxiliary (name ++ suffix) where
  extension_ne := by
    rw [extension_append name letters dotted plain]
    split
    · decide
    · exact notSst
  notManifest := by
    intro same
    have ext := extension_append name letters dotted plain
    rw [same] at ext
    split at ext
    · revert ext; decide
    · exact notJson ext.symm

theorem Auxiliary.of_bloomOf (name : String) : Auxiliary (bloomOf name) :=
  .of_suffix ['b', 'l', 'o', 'o', 'm'] (by decide) (by decide) (by decide) (by decide)

theorem Auxiliary.of_sparseOf (name : String) : Auxiliary (sparseOf name) :=
  .of_suffix ['s', 'i', 'd', 'x'] (by decide) (by decide) (by decide) (by decide)

theorem Auxiliary.of_writingOf (name : String) : Auxiliary (writingOf name) :=
  .of_suffix ['w', 'r', 'i', 't', 'i', 'n', 'g'] (by decide) (by decide) (by decide)
    (by decide)

theorem Auxiliary.of_tmpOf (name : String) : Auxiliary (tmpOf name) :=
  .of_suffix ['t', 'm', 'p'] (by decide) (by decide) (by decide) (by decide)

theorem Auxiliary.temporary : Auxiliary kTemporaryName := ⟨by decide, by decide⟩

theorem Auxiliary.of_mem_sidecarsOf {name sidecar : String} (member : sidecar ∈ sidecarsOf name) :
    Auxiliary sidecar := by
  rcases List.mem_pair.mp member with rfl | rfl
  · exact .of_bloomOf name
  · exact .of_sparseOf name

/-! ## What a caller touches -/

section Frames

variable {keep : String → Prop} {sstName : String} {dir other : LsmDir}

theorem sameOn_removeAll (dir : LsmDir) {names : List String}
    (changed : ∀ name ∈ names, ¬keep name) : SameOn keep dir (removeAll dir names) :=
  fun _ kept => lookup_removeAll_of_not_mem fun member => changed _ member kept

theorem sameOn_rename {source target : String} {succeeds : Bool}
    (moved : LsmDir.rename dir source target succeeds = some other)
    (changesSource : ¬keep source) (changesTarget : ¬keep target) : SameOn keep dir other := by
  unfold LsmDir.rename at moved
  split at moved
  · split at moved
    · cases moved
      exact (SameOn.erase changesSource).trans (.insert changesTarget)
    · cases moved
  · cases moved

theorem sameOn_renameArtifact (state : LsmDir × Bool) {source target : String} {succeeds : Bool}
    (changesSource : ¬keep source) (changesTarget : ¬keep target) :
    SameOn keep state.1 (renameArtifact state source target succeeds).1 := by
  unfold renameArtifact
  split
  · split
    next moved => exact sameOn_rename moved changesSource changesTarget
    next => exact .refl
  · exact .refl

theorem sameOn_renameSidecar (state : LsmDir × Bool) {source target : String} {succeeds : Bool}
    (changesSource : ¬keep source) (changesTarget : ¬keep target) :
    SameOn keep state.1 (renameSidecar state source target succeeds).1 := by
  unfold renameSidecar
  split
  · split
    next moved => exact sameOn_rename moved changesSource changesTarget
    next => exact .refl
  · exact .refl

/-- The three renames of a caller, as far as they get. -/
theorem sameOn_renames (dir : LsmDir) {source target : String} (bloom sparse sst : Bool)
    (changed : ∀ name ∈ artifactNames source target, ¬keep name) :
    let first := renameSidecar (dir, true) (bloomOf source) (bloomOf target) bloom
    let second := renameSidecar first (sparseOf source) (sparseOf target) sparse
    SameOn keep dir first.1 ∧ SameOn keep dir second.1 ∧
      SameOn keep dir (renameArtifact second source target sst).1 := by
  simp only [artifactNames, sidecarsOf, List.cons_append, List.nil_append, List.forall_mem_cons]
    at changed
  obtain ⟨changesSource, sourceBloom, sourceSparse, changesTarget, targetBloom, targetSparse, -⟩ :=
    changed
  intro first second
  have one : SameOn keep dir first.1 := sameOn_renameSidecar (dir, true) sourceBloom targetBloom
  have two : SameOn keep dir second.1 :=
    one.trans (sameOn_renameSidecar first sourceSparse targetSparse)
  exact ⟨one, two, two.trans (sameOn_renameArtifact second changesSource changesTarget)⟩

theorem mem_sortUnique {names : List String} {name : String} :
    name ∈ sortUnique names ↔ name ∈ names := by
  rw [sortUnique, List.mem_dedup, mem_sortNames]

/-- A flush that stops before `publish` has touched only its own artifacts. -/
theorem flushRequest_error {codec : ManifestCodec} {faults : CallerFaults}
    {flushCoveredWalLsn : Nat} {reason : String}
    (changed : ∀ name ∈ artifactNames (writingOf sstName) sstName, ¬keep name)
    (stopped : flushRequest codec faults dir sstName flushCoveredWalLsn = .error (other, reason)) :
    SameOn keep dir other := by
  have finalized := (sameOn_renames dir faults.renameBloom faults.renameSparse faults.renameSst
    changed).2.2
  unfold flushRequest finalizeArtifacts at stopped
  split at stopped
  · cases stopped; exact .refl
  · split at stopped
    · cases stopped; exact .refl
    · split at stopped
      next moved renames =>
        cases stopped
        dsimp only at renames
        rw [renames] at finalized
        exact finalized.trans (sameOn_removeAll moved changed)
      next => cases stopped

/-- A flush that calls `publish` has loaded the manifest and the published
names before it moved its artifacts. -/
theorem flushRequest_ok {codec : ManifestCodec} {faults : CallerFaults}
    {flushCoveredWalLsn : Nat} {next : LsmManifest}
    (changed : ∀ name ∈ artifactNames (writingOf sstName) sstName, ¬keep name)
    (asked : flushRequest codec faults dir sstName flushCoveredWalLsn = .ok (other, next)) :
    SameOn keep dir other ∧
      finalizeArtifacts faults dir (writingOf sstName) sstName = (other, true) ∧
      (∀ reason, load codec dir ≠ .error reason) ∧
      ∃ published, publishedSsts codec dir = .ok published ∧
        next = flushManifest (load codec dir).manifest? published sstName flushCoveredWalLsn := by
  have finalized := (sameOn_renames dir faults.renameBloom faults.renameSparse faults.renameSst
    changed).2.2
  unfold flushRequest finalizeArtifacts at asked
  split at asked
  · cases asked
  next loads =>
    split at asked
    · cases asked
    next published names =>
      split at asked
      next => cases asked
      next moved renames =>
        cases asked
        dsimp only at renames
        rw [renames] at finalized
        exact ⟨finalized, renames, loads, published, names, rfl⟩

/-- A compaction that stops before `publish` has touched only its own artifacts. -/
theorem compactRequest_error {codec : ManifestCodec} {faults : CallerFaults}
    {inputs : List String} {reason : String}
    (changed : ∀ name ∈ artifactNames (tmpOf sstName) sstName, ¬keep name)
    (stopped : compactRequest codec faults dir sstName inputs = .error (other, reason)) :
    SameOn keep dir other := by
  obtain ⟨one, two, three⟩ := sameOn_renames dir faults.renameBloom faults.renameSparse
    faults.renameSst changed
  have cleaned : ∀ name ∈ sstName :: sidecarsOf sstName, ¬keep name := fun name member =>
    changed name (List.mem_append_right _ member)
  unfold compactRequest at stopped
  dsimp only at stopped
  split at stopped
  · cases stopped; exact one
  · split at stopped
    · cases stopped
      exact two.trans (sameOn_removeAll _ fun name member =>
        cleaned name (by rw [List.mem_singleton.mp member]; simp [sidecarsOf]))
    · split at stopped
      · cases stopped
        exact three.trans (sameOn_removeAll _ fun name member => cleaned name (.tail _ member))
      · split at stopped
        · cases stopped; exact three.trans (sameOn_removeAll _ cleaned)
        · cases stopped; exact three.trans (sameOn_removeAll _ cleaned)
        · split at stopped
          · cases stopped
          · cases stopped; exact three.trans (sameOn_removeAll _ cleaned)

/-- A compaction that calls `publish` has found its inputs published. -/
theorem compactRequest_ok {codec : ManifestCodec} {faults : CallerFaults}
    {inputs : List String} {next : LsmManifest}
    (changed : ∀ name ∈ artifactNames (tmpOf sstName) sstName, ¬keep name)
    (asked : compactRequest codec faults dir sstName inputs = .ok (other, next)) :
    SameOn keep dir other ∧
      finalizeArtifacts faults dir (tmpOf sstName) sstName = (other, true) ∧
      (∀ reason, load codec other ≠ .error reason) ∧
      ∃ published, publishedSsts codec other = .ok published ∧ inputs.all published.contains = true ∧
        next = compactManifest (load codec other).manifest? published inputs sstName := by
  obtain ⟨-, -, three⟩ := sameOn_renames dir faults.renameBloom faults.renameSparse
    faults.renameSst changed
  unfold compactRequest at asked
  dsimp only at asked
  split at asked
  · cases asked
  · split at asked
    · cases asked
    · split at asked
      · cases asked
      next renamed =>
        split at asked
        · cases asked
        · cases asked
        next published names loads =>
          split at asked
          next still =>
            cases asked
            refine ⟨three, Prod.ext rfl ?_, loads, published, names, still, rfl⟩
            simpa [finalizeArtifacts] using renamed
          next => cases asked

theorem mem_flushManifest {current : Option LsmManifest} {published : List String}
    {flushCoveredWalLsn : Nat} {name : String} :
    name ∈ (flushManifest current published sstName flushCoveredWalLsn).sstFiles ↔
      name ∈ published ∨ name = sstName := by
  simp [flushManifest, mem_sortUnique]

theorem mem_compactManifest {current : Option LsmManifest} {published inputs : List String}
    {name : String} :
    name ∈ (compactManifest current published inputs sstName).sstFiles ↔
      (name ∈ published ∧ name ∉ inputs) ∨ name = sstName := by
  simp [compactManifest, mem_sortUnique]

end Frames

variable {sstName : String} {dir other : LsmDir}

/-- What a caller for `sstName` must not touch: the manifest text and the other
SSTs. -/
def Outside (sstName name : String) : Prop :=
  name = kManifestName ∨ (safeSstName name = true ∧ name ≠ sstName)

theorem Auxiliary.not_outside {name : String} (aux : Auxiliary name) : ¬Outside sstName name := by
  rintro (manifest | ⟨safe, -⟩)
  · exact aux.notManifest manifest
  · exact absurd (aux.notSst.symm.trans safe) (by decide)

theorem not_outside_self (safe : safeSstName sstName = true) : ¬Outside sstName sstName := by
  rintro (manifest | ⟨-, ne⟩)
  · rw [manifest, safeSstName_kManifestName] at safe
    cases safe
  · exact ne rfl

theorem not_outside_of_mem_cleanUp {name : String} (safe : safeSstName sstName = true)
    (member : name ∈ sstName :: sidecarsOf sstName) : ¬Outside sstName name := by
  rcases List.mem_cons.mp member with rfl | member
  · exact not_outside_self safe
  · exact (Auxiliary.of_mem_sidecarsOf member).not_outside

theorem not_outside_of_mem_artifactNames {source name : String} (safe : safeSstName sstName = true)
    (unfinished : Auxiliary source) (member : name ∈ artifactNames source sstName) :
    ¬Outside sstName name := by
  rcases List.mem_append.mp member with member | member
  · rcases List.mem_cons.mp member with rfl | member
    · exact unfinished.not_outside
    · exact (Auxiliary.of_mem_sidecarsOf member).not_outside
  · exact not_outside_of_mem_cleanUp safe member

/-! ## The SSTs of the manifest on disk -/

/-- The manifest whose text is in place, whether or not its files are. -/
def manifestOnDisk (codec : ManifestCodec) (dir : LsmDir) : Option LsmManifest :=
  match dir.lookup kManifestName with
  | some (.text bytes) => (codec.parse bytes).toOption
  | _ => none

/-- Every SST the manifest on disk names exists. -/
def ManifestSstsExist (codec : ManifestCodec) (dir : LsmDir) : Prop :=
  ∀ manifest, manifestOnDisk codec dir = some manifest →
    ∀ name ∈ manifest.sstFiles, safeSstName name = true → dir.isRegularFile name = true

theorem manifestOnDisk_congr {codec : ManifestCodec}
    (same : other.lookup kManifestName = dir.lookup kManifestName) :
    manifestOnDisk codec other = manifestOnDisk codec dir := by
  rw [manifestOnDisk, manifestOnDisk, same]

theorem ManifestSstsExist.of_sameOn {codec : ManifestCodec}
    (exist : ManifestSstsExist codec dir) (fresh : dir.lookup sstName = none)
    (same : SameOn (Outside sstName) dir other) : ManifestSstsExist codec other := by
  intro manifest onDisk name listed safe
  have before : manifestOnDisk codec dir = some manifest := by
    rw [← onDisk, manifestOnDisk_congr (same _ (.inl rfl))]
  have regular := exist manifest before name listed safe
  have ne : name ≠ sstName := by
    rintro rfl
    simp [LsmDir.isRegularFile, fresh] at regular
  rw [LsmDir.isRegularFile, same name (.inr ⟨safe, ne⟩)]
  exact regular

theorem manifestOnDisk_replacedManifest {codec : ManifestCodec} {manifest : LsmManifest} :
    manifestOnDisk codec (replacedManifest codec dir manifest) = some manifest := by
  have text : (replacedManifest codec dir manifest).lookup kManifestName =
      some (.text (codec.dump manifest)) := AList.lookup_insert _
  rw [manifestOnDisk, text]
  simp [codec.parse_dump, Except.toOption]

/-- What a manifest that went through `publish` names is what was asked for,
and exists. -/
theorem preparePublish_names {codec : ManifestCodec} {faults : PublishFaults}
    {requested manifest : LsmManifest} {newArtifacts : List Artifact}
    (prepared : preparePublish codec faults dir requested newArtifacts = .ok manifest) :
    (∀ name, name ∈ manifest.sstFiles ↔ name ∈ requested.sstFiles) ∧
      ∀ name ∈ manifest.sstFiles, safeSstName name = true ∧ dir.isRegularFile name = true := by
  obtain ⟨⟨verifyContents, valid⟩, -⟩ := preparePublish_ok prepared
  obtain ⟨-, -, -, files, rfl⟩ := validateManifest_ok_iff.mp valid
  refine ⟨fun name => mem_sortNames, fun name member => ?_⟩
  have checked := validateSst_ok_iff.mp (files name member)
  exact ⟨checked.1, checked.2.1⟩

section Publication

variable {codec : ManifestCodec} {next : LsmManifest} (faults : CallerFaults)
  (artifacts : List Artifact)

/-- After the error handling of a caller, the SSTs of the manifest exist exactly
when `publish` did not fail after its rename. -/
theorem manifestSstsExist_cleanUp_iff (exist : ManifestSstsExist codec dir)
    (fresh : dir.lookup sstName = none) (safe : safeSstName sstName = true)
    (same : SameOn (Outside sstName) dir other) (asked : sstName ∈ next.sstFiles) :
    ManifestSstsExist codec
        (removeAll (publish codec faults.toPublishFaults other next artifacts).1
          (sstName :: sidecarsOf sstName)) ↔
      reachesRename codec faults.toPublishFaults other next artifacts = false := by
  have cleaned : ∀ name ∈ sstName :: sidecarsOf sstName, ¬Outside sstName name :=
    fun _ member => not_outside_of_mem_cleanUp safe member
  cases reached : reachesRename codec faults.toPublishFaults other next artifacts with
  | false =>
    refine iff_of_true ?_ rfl
    obtain ⟨-, untouched, -⟩ := publish_of_not_reachesRename reached
    have published : SameOn (Outside sstName) other
        (publish codec faults.toPublishFaults other next artifacts).1 := fun name kept =>
      untouched name fun temporary => Auxiliary.temporary.not_outside (temporary ▸ kept)
    exact exist.of_sameOn fresh ((same.trans published).trans (sameOn_removeAll _ cleaned))
  | true =>
    refine iff_of_false ?_ (by decide)
    obtain ⟨manifest, prepared, left, -⟩ := publish_of_reachesRename reached
    have listed : sstName ∈ manifest.sstFiles :=
      ((preparePublish_names prepared).1 sstName).mpr asked
    have kept := sameOn_removeAll (replacedManifest codec other manifest) cleaned kManifestName
      (.inl rfl)
    have onDisk : manifestOnDisk codec (removeAll (replacedManifest codec other manifest)
        (sstName :: sidecarsOf sstName)) = some manifest := by
      rw [manifestOnDisk_congr kept, manifestOnDisk_replacedManifest]
    rw [left]
    intro all
    have regular := all manifest onDisk sstName listed safe
    rw [LsmDir.isRegularFile, lookup_removeAll_of_mem (by simp)] at regular
    cases regular

/-- A publication that returns true leaves a manifest whose SSTs exist, also
after the removal of files that it does not name. -/
theorem manifestSstsExist_of_publish_ok (codec : ManifestCodec) (other : LsmDir)
    (next : LsmManifest) (faults : CallerFaults) (artifacts : List Artifact)
    (removed : List String)
    (published : (publish codec faults.toPublishFaults other next artifacts).2 = .ok ())
    (unnamed : ∀ name ∈ removed,
      name ≠ kManifestName ∧ (name ∈ next.sstFiles → safeSstName name = false)) :
    ManifestSstsExist codec
      (removeAll (publish codec faults.toPublishFaults other next artifacts).1 removed) := by
  cases reached : reachesRename codec faults.toPublishFaults other next artifacts with
  | false =>
    obtain ⟨⟨reason, failed⟩, -⟩ := publish_of_not_reachesRename reached
    rw [failed] at published
    cases published
  | true =>
    obtain ⟨manifest, prepared, left, -⟩ := publish_of_reachesRename reached
    obtain ⟨names, files⟩ := preparePublish_names prepared
    rw [left]
    intro onDisk text name listed safe
    have kept : (removeAll (replacedManifest codec other manifest) removed).lookup
        kManifestName = (replacedManifest codec other manifest).lookup kManifestName :=
      lookup_removeAll_of_not_mem fun member => (unnamed _ member).1 rfl
    rw [manifestOnDisk_congr kept, manifestOnDisk_replacedManifest] at text
    obtain rfl : manifest = onDisk := Option.some.inj text
    have notRemoved : name ∉ removed := fun member =>
      absurd (((unnamed _ member).2 ((names name).mp listed)).symm.trans safe) (by decide)
    rw [LsmDir.isRegularFile, lookup_removeAll_of_not_mem notRemoved,
      lookup_replacedManifest_of_safe safe]
    exact (files name listed).2

end Publication

/-! ## When publication is atomic -/

/-- What `load` returns changes only with a successful `publish`, and then to
what was asked for. -/
def PublishAtomic (codec : ManifestCodec) (faults : PublishFaults) (dir : LsmDir)
    (requested : LsmManifest) (newArtifacts : List Artifact) : Prop :=
  ((publish codec faults dir requested newArtifacts).2 ≠ .ok () →
    load codec (publish codec faults dir requested newArtifacts).1 = load codec dir) ∧
  ((publish codec faults dir requested newArtifacts).2 = .ok () →
    load codec (publish codec faults dir requested newArtifacts).1 =
      .ok { requested with sstFiles := sortNames requested.sstFiles })

/-- Once renamed, the new manifest is not what `load` returned before. -/
theorem load_replacedManifest_ne {codec : ManifestCodec} {faults : PublishFaults}
    {requested manifest : LsmManifest} {newArtifacts : List Artifact}
    (prepared : preparePublish codec faults dir requested newArtifacts = .ok manifest) :
    load codec (replacedManifest codec dir manifest) ≠ load codec dir := by
  obtain ⟨⟨verifyContents, valid⟩, loads, advances⟩ := preparePublish_ok prepared
  rw [load_replacedManifest valid]
  split
  · exact fun same => loads _ same.symm
  · intro same
    have := (advances manifest same.symm).1
    omega

theorem publishAtomic_iff {codec : ManifestCodec} {faults : PublishFaults}
    {requested : LsmManifest} {newArtifacts : List Artifact} :
    PublishAtomic codec faults dir requested newArtifacts ↔
      (reachesRename codec faults dir requested newArtifacts = true →
        faults.syncPublishedDirectory = true ∧
          (codec.dump { requested with sstFiles := sortNames requested.sstFiles }).length ≤
            kMaxManifestBytes) := by
  cases reached : reachesRename codec faults dir requested newArtifacts with
  | false =>
    obtain ⟨⟨reason, failed⟩, -, unchanged⟩ := publish_of_not_reachesRename reached
    refine iff_of_true ⟨fun _ => unchanged, fun done => ?_⟩ (by simp)
    rw [failed] at done
    cases done
  | true =>
    obtain ⟨manifest, prepared, left, returned⟩ := publish_of_reachesRename reached
    obtain ⟨⟨verifyContents, valid⟩, -⟩ := preparePublish_ok prepared
    have sorted : manifest = { requested with sstFiles := sortNames requested.sstFiles } :=
      (validateManifest_ok_iff.mp valid).2.2.2.2
    unfold PublishAtomic
    rw [left, load_replacedManifest valid, ← sorted, ne_eq, returned]
    have changed := load_replacedManifest_ne prepared
    rw [load_replacedManifest valid] at changed
    cases faults.syncPublishedDirectory with
    | false => simp [changed]
    | true =>
      by_cases large : kMaxManifestBytes < (codec.dump manifest).length
      · simp [large, not_le.mpr large]
      · simp [large, not_lt.mp large]

/-- `nextSstFileName`: a clock reading and a sequence number. -/
def nextSstFileName (micros sequence : Nat) : String :=
  String.ofList (Nat.toDigits 10 micros ++ '_' :: Nat.toDigits 10 sequence) ++ ".sst"

theorem safeSstName_nextSstFileName (micros sequence : Nat) :
    safeSstName (nextSstFileName micros sequence) = true := by
  have noSlash : ∀ n, '/' ∉ Nat.toDigits 10 n := fun n member =>
    absurd (Nat.isDigit_of_mem_toDigits (by decide) (by decide) member) (by decide)
  have ext : extension (nextSstFileName micros sequence) = sstExtension := by
    rw [nextSstFileName, extension_append _ ['s', 's', 't'] (by decide) (by decide)]
    simp [sstExtension]
  have slash : (nextSstFileName micros sequence).toList.contains '/' = false := by
    simp [nextSstFileName, noSlash]
  have nonempty : (nextSstFileName micros sequence).toList.isEmpty = false := by
    simp [nextSstFileName]
  rw [safeSstName, ext, slash, nonempty]
  decide

/-- Behind the request the two sections differ in the files that they remove at the end. -/
theorem published_manifestSstsExist_iff {codec : ManifestCodec} {faults : CallerFaults}
    {next : LsmManifest} {message : String → String} (exist : ManifestSstsExist codec dir)
    (fresh : dir.lookup sstName = none) (safe : safeSstName sstName = true)
    (same : SameOn (Outside sstName) dir other) (listed : sstName ∈ next.sstFiles)
    (removed : List String) (unnamed : ∀ name ∈ removed,
      name ≠ kManifestName ∧ (name ∈ next.sstFiles → safeSstName name = false)) :
    ManifestSstsExist codec
        (publishSection codec faults sstName (removeAll · (sstName :: sidecarsOf sstName))
          (removeAll · removed) message (.ok (other, next))).1 ↔
      (reachesRename codec faults.toPublishFaults other next [{ name := sstName }] = true →
        faults.syncPublishedDirectory = true) := by
  have early := manifestSstsExist_cleanUp_iff faults [{ name := sstName }] exist fresh safe same listed
  have late := manifestSstsExist_of_publish_ok codec other next faults [{ name := sstName }] removed
  have decides := publish_ok_iff codec faults.toPublishFaults other next [{ name := sstName }]
  unfold publishSection
  dsimp only
  cases result : publish codec faults.toPublishFaults other next [{ name := sstName }] with
  | mk left returned =>
    rw [result] at early late decides
    cases returned with
    | error reason =>
      rw [early, ← Bool.not_eq_true]
      exact ⟨fun early reached => absurd reached early, fun sync reached =>
        nomatch decides.mpr ⟨reached, sync reached⟩⟩
    | ok done => exact iff_of_true (late rfl unnamed) fun _ => (decides.mp rfl).2

theorem flush_manifestSstsExist_iff {codec : ManifestCodec} {faults : CallerFaults}
    {flushCoveredWalLsn : Nat} (exist : ManifestSstsExist codec dir)
    (fresh : dir.lookup sstName = none) (safe : safeSstName sstName = true) :
    ManifestSstsExist codec (flushPublish codec faults dir sstName flushCoveredWalLsn).1 ↔
      ∀ moved next, flushRequest codec faults dir sstName flushCoveredWalLsn = .ok (moved, next) →
        reachesRename codec faults.toPublishFaults moved next [{ name := sstName }] = true →
          faults.syncPublishedDirectory = true := by
  unfold flushPublish
  cases request : flushRequest codec faults dir sstName flushCoveredWalLsn with
  | error stopped =>
    have same := flushRequest_error
      (fun _ => not_outside_of_mem_artifactNames safe (.of_writingOf sstName)) request
    simp [exist.of_sameOn fresh same]
  | ok asked =>
    obtain ⟨moved, next⟩ := asked
    obtain ⟨same, -, -, published, -, asks⟩ := flushRequest_ok
      (fun _ => not_outside_of_mem_artifactNames safe (.of_writingOf sstName)) request
    have listed : sstName ∈ next.sstFiles := asks ▸ mem_flushManifest.mpr (.inr rfl)
    rw [forall_ok_pair_iff]
    exact published_manifestSstsExist_iff exist fresh safe same listed [] (by simp)

theorem compact_manifestSstsExist_iff {codec : ManifestCodec} {faults : CallerFaults}
    {inputs : List String} (exist : ManifestSstsExist codec dir)
    (fresh : dir.lookup sstName = none) (safe : safeSstName sstName = true)
    (notInput : sstName ∉ inputs) (inputSsts : ∀ input ∈ inputs, safeSstName input = true) :
    ManifestSstsExist codec (compactPublish codec faults dir sstName inputs).1 ↔
      ∀ moved next, compactRequest codec faults dir sstName inputs = .ok (moved, next) →
        reachesRename codec faults.toPublishFaults moved next [{ name := sstName }] = true →
          faults.syncPublishedDirectory = true := by
  unfold compactPublish
  cases request : compactRequest codec faults dir sstName inputs with
  | error stopped =>
    have same := compactRequest_error
      (fun _ => not_outside_of_mem_artifactNames safe (.of_tmpOf sstName)) request
    simp [exist.of_sameOn fresh same]
  | ok asked =>
    obtain ⟨moved, next⟩ := asked
    obtain ⟨same, -, -, published, -, -, asks⟩ := compactRequest_ok
      (fun _ => not_outside_of_mem_artifactNames safe (.of_tmpOf sstName)) request
    have listed : sstName ∈ next.sstFiles := asks ▸ mem_compactManifest.mpr (.inr rfl)
    rw [forall_ok_pair_iff]
    refine published_manifestSstsExist_iff exist fresh safe same listed
      (inputs ++ inputs.flatMap sidecarsOf) fun name member => ?_
    rcases List.mem_append.mp member with input | sidecar
    · refine ⟨?_, fun named => ?_⟩
      · rintro rfl
        exact absurd (inputSsts _ input) (by decide)
      · rw [asks] at named
        rcases mem_compactManifest.mp named with ⟨-, other⟩ | rfl
        · exact absurd input other
        · exact absurd input notInput
    · obtain ⟨input, -, sidecar⟩ := List.mem_flatMap.mp sidecar
      have aux := Auxiliary.of_mem_sidecarsOf sidecar
      exact ⟨aux.notManifest, fun _ => aux.notSst⟩

/-- Publication is atomic, and neither caller loses an SST the manifest names,
exactly when the directory sync after the rename succeeds whenever it is
reached (and, for `publish`, the text fits the limit `load` checks). -/
theorem publication_atomic_iff (codec : ManifestCodec) :
    (∀ faults dir requested newArtifacts,
      PublishAtomic codec faults dir requested newArtifacts ↔
        (reachesRename codec faults dir requested newArtifacts = true →
          faults.syncPublishedDirectory = true ∧
            (codec.dump { requested with sstFiles := sortNames requested.sstFiles }).length ≤
              kMaxManifestBytes)) ∧
    (∀ faults dir micros sequence flushCoveredWalLsn, ManifestSstsExist codec dir →
      dir.lookup (nextSstFileName micros sequence) = none →
        (ManifestSstsExist codec
            (flushPublish codec faults dir (nextSstFileName micros sequence)
              flushCoveredWalLsn).1 ↔
          ∀ moved next, flushRequest codec faults dir (nextSstFileName micros sequence)
              flushCoveredWalLsn = .ok (moved, next) →
            reachesRename codec faults.toPublishFaults moved next
              [{ name := nextSstFileName micros sequence }] = true →
            faults.syncPublishedDirectory = true)) ∧
    (∀ faults dir micros sequence inputs, ManifestSstsExist codec dir →
      dir.lookup (nextSstFileName micros sequence) = none →
      nextSstFileName micros sequence ∉ inputs → (∀ input ∈ inputs, safeSstName input = true) →
        (ManifestSstsExist codec
            (compactPublish codec faults dir (nextSstFileName micros sequence) inputs).1 ↔
          ∀ moved next, compactRequest codec faults dir (nextSstFileName micros sequence)
              inputs = .ok (moved, next) →
            reachesRename codec faults.toPublishFaults moved next
              [{ name := nextSstFileName micros sequence }] = true →
            faults.syncPublishedDirectory = true)) :=
  ⟨fun _ _ _ _ => publishAtomic_iff,
    fun _ _ micros sequence _ exist fresh =>
      flush_manifestSstsExist_iff exist fresh (safeSstName_nextSstFileName micros sequence),
    fun _ _ micros sequence _ exist fresh notInput inputSsts =>
      compact_manifestSstsExist_iff exist fresh (safeSstName_nextSstFileName micros sequence)
        notInput inputSsts⟩

/-- The directory of a collection's first flush, its SST written. -/
def firstFlush : LsmDir := AList.insert "1_0.sst.writing" (.sst []) ∅

/-- The final directory sync fails, everything else works. -/
def unsyncedDirectory : CallerFaults := { syncPublishedDirectory := false }

theorem publication_not_atomic :
    ¬PublishAtomic jsonCodec unsyncedDirectory.toPublishFaults
        (AList.insert "1_0.sst" (.sst []) ∅) { generation := 1, sstFiles := ["1_0.sst"] }
        [{ name := "1_0.sst" }] ∧
      ManifestSstsExist jsonCodec firstFlush ∧
      ¬ManifestSstsExist jsonCodec
        (flushPublish jsonCodec unsyncedDirectory firstFlush (nextSstFileName 1 0) 7).1 := by
  have exist : ManifestSstsExist jsonCodec firstFlush := by
    intro manifest onDisk
    cases onDisk
  refine ⟨fun atomic => ?_, exist, fun kept => ?_⟩
  · have synced := (publishAtomic_iff.mp atomic (by decide)).1
    cases synced
  · have synced := (flush_manifestSstsExist_iff exist (by decide)
      (safeSstName_nextSstFileName 1 0)).mp kept _ _ (by rfl) (by decide)
    cases synced

/-- A collection without a manifest, and the merged SST of its compaction. -/
def firstCompaction : LsmDir :=
  AList.insert "0_0.sst" (.sst []) (AList.insert "1_0.sst.tmp" (.sst []) ∅)

/-- The results at a first flush and a first compaction, with nothing failing. -/
theorem publication_atomic_firstFlush :
    ManifestSstsExist jsonCodec
        (flushPublish jsonCodec {} firstFlush (nextSstFileName 1 0) 7).1 ∧
      ManifestSstsExist jsonCodec
        (compactPublish jsonCodec {} firstCompaction (nextSstFileName 1 0) ["0_0.sst"]).1 := by
  have flushExist : ManifestSstsExist jsonCodec firstFlush := by
    intro manifest onDisk
    cases onDisk
  have compactExist : ManifestSstsExist jsonCodec firstCompaction := by
    intro manifest onDisk
    cases onDisk
  obtain ⟨-, flush, compact⟩ := publication_atomic_iff jsonCodec
  exact ⟨(flush {} firstFlush 1 0 7 flushExist (by decide)).mpr fun _ _ _ _ => rfl,
    (compact {} firstCompaction 1 0 ["0_0.sst"] compactExist (by decide) (by decide)
      (by decide)).mpr fun _ _ _ _ => rfl⟩

end PacificDb.Lsm
