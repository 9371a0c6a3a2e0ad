import PacificDb.Lsm.Collection

/-!
# What the manifest lists

The rows a manifest accounts for, and what the two publish sections do to them.
As long as the directory sync after the rename succeeds, a failed section
leaves them alone; a successful flush adds the rows of its unfinished file, and
a successful compaction replaces the rows of its inputs by those of its own.
-/

namespace PacificDb.Lsm

open Lib

variable {codec : ManifestCodec} {faults : CallerFaults} {dir left : LsmDir} {sstName : String}

def listed (codec : ManifestCodec) (dir : LsmDir) : List String :=
  ((manifestOnDisk codec dir).map LsmManifest.sstFiles).getD []

def coveredWalLsn (codec : ManifestCodec) (dir : LsmDir) : Nat :=
  ((manifestOnDisk codec dir).map LsmManifest.coveredWalLsn).getD 0

/-- The rows of the SSTs the manifest on disk lists. -/
def listedRows (codec : ManifestCodec) (dir : LsmDir) : List Json :=
  (listed codec dir).flatMap (sstRows dir)

theorem mem_listedRows {row : Json} :
    row ∈ listedRows codec dir ↔ ∃ name ∈ listed codec dir, row ∈ sstRows dir name :=
  List.mem_flatMap

/-! ## Names apart -/

theorem lastChar_of_safe {name : String} (safe : safeSstName name = true) :
    name.toList.getLast? = some 't' := by
  have ext := extension_of_safe safe
  unfold extension at ext
  dsimp only at ext
  split at ext
  · have tail : name.toList.reverse.takeWhile (· ≠ '.') = ['t', 's', 's'] := by
      simpa [sstExtension, List.reverse_eq_iff] using ext
    rw [← List.head?_reverse]
    cases shape : name.toList.reverse with
    | nil => simp [shape] at tail
    | cons c rest =>
      rw [shape, List.takeWhile_cons] at tail
      split at tail
      · simpa using (List.cons.inj tail).1
      · cases tail
  · cases ext

theorem lastChar_append {name suffix : String} {c : Char} (ends : suffix.toList.getLast? = some c) :
    (name ++ suffix).toList.getLast? = some c := by
  rw [String.toList_append, List.getLast?_append, ends, Option.some_or]

/-- A suffixed name determines the name. -/
theorem append_suffix_inj {name other suffix : String} (same : name ++ suffix = other ++ suffix) :
    name = other := by
  have lists := congrArg String.toList same
  rw [String.toList_append, String.toList_append] at lists
  exact String.toList_inj.mp (List.append_cancel_right lists)

theorem ne_of_lastChar {name other : String} {c d : Char} (first : name.toList.getLast? = some c)
    (second : other.toList.getLast? = some d) (differ : c ≠ d) : name ≠ other := by
  rintro rfl
  exact differ (Option.some.inj (first.symm.trans second))

theorem lastChar_writingOf (name : String) : (writingOf name).toList.getLast? = some 'g' :=
  lastChar_append (by decide)

theorem lastChar_tmpOf (name : String) : (tmpOf name).toList.getLast? = some 'p' :=
  lastChar_append (by decide)

theorem lastChar_of_mem_sidecarsOf {name sidecar : String} (member : sidecar ∈ sidecarsOf name) :
    sidecar.toList.getLast? = some 'm' ∨ sidecar.toList.getLast? = some 'x' := by
  rcases List.mem_pair.mp member with rfl | rfl
  · exact .inl (lastChar_append (by decide))
  · exact .inr (lastChar_append (by decide))

theorem tmpOf_ne_kTemporaryName (safe : safeSstName sstName = true) :
    tmpOf sstName ≠ kTemporaryName := by
  intro same
  have manifest : sstName = kManifestName :=
    append_suffix_inj (show sstName ++ ".tmp" = kManifestName ++ ".tmp" from same)
  rw [manifest, safeSstName_kManifestName] at safe
  cases safe

/-! ## Loading and publishing -/

theorem manifestOnDisk_of_load_ok {manifest : LsmManifest} (loads : load codec dir = .ok manifest) :
    ∃ onDisk, manifestOnDisk codec dir = some onDisk ∧
      manifest = { onDisk with sstFiles := sortNames onDisk.sstFiles } := by
  unfold load at loads
  unfold manifestOnDisk
  split at loads
  · cases loads
  next bytes text =>
    split at loads
    · cases loads
    · split at loads
      · cases loads
      next onDisk parsed =>
        split at loads
        · cases loads
        next validated valid =>
          cases loads
          refine ⟨onDisk, ?_, (validateManifest_ok_iff.mp valid).2.2.2.2⟩
          rw [text]
          simp [parsed, Except.toOption]
  · cases loads

theorem manifestOnDisk_of_load_absent (absent : load codec dir = .absent) :
    manifestOnDisk codec dir = none := by
  unfold load at absent
  unfold manifestOnDisk
  split at absent
  next missing => rw [missing]
  · split at absent
    · cases absent
    · split at absent
      · cases absent
      · split at absent <;> cases absent
  · cases absent

/-- A directory whose manifest loads publishes what it lists. -/
theorem mem_published_of_mem_listed {published : List String} {name : String}
    (names : publishedSsts codec dir = .ok published) (member : name ∈ listed codec dir) :
    name ∈ published := by
  unfold publishedSsts at names
  split at names
  · cases names
  next manifest loads =>
    cases names
    obtain ⟨onDisk, text, rfl⟩ := manifestOnDisk_of_load_ok loads
    rw [listed, text] at member
    exact mem_sortNames.mpr member
  next absent =>
    rw [listed, manifestOnDisk_of_load_absent absent] at member
    cases member

theorem pairwise_sortNames {names : List String} (nodup : names.Nodup) :
    (sortNames names).Pairwise (· < ·) := by
  have sorted : (sortNames names).Pairwise (· ≤ ·) := List.pairwise_insertionSort (· ≤ ·) names
  have distinct : (sortNames names).Pairwise (· ≠ ·) :=
    (List.perm_insertionSort (· ≤ ·) names).nodup_iff.mpr nodup
  exact (sorted.and distinct).imp fun both => lt_of_le_of_ne both.1 both.2

theorem nodup_of_noAdjacentDuplicate {names : List String} (sorted : names.Pairwise (· ≤ ·))
    (unique : noAdjacentDuplicate names = true) : names.Pairwise (· < ·) := by
  induction names with
  | nil => exact .nil
  | cons first rest ih =>
    obtain ⟨least, sorted⟩ := List.pairwise_cons.mp sorted
    cases rest with
    | nil => exact List.pairwise_singleton _ _
    | cons second rest =>
      rw [noAdjacentDuplicate, Bool.and_eq_true, bne_iff_ne] at unique
      have ordered := ih sorted unique.2
      refine List.pairwise_cons.mpr ⟨fun name member => ?_, ordered⟩
      have next : first < second := lt_of_le_of_ne (least second (.head _)) unique.1
      rcases List.mem_cons.mp member with rfl | member
      · exact next
      · exact next.trans ((List.pairwise_cons.mp ordered).1 name member)

theorem load_ok_sorted {manifest : LsmManifest} (loads : load codec dir = .ok manifest) :
    manifest.sstFiles.Pairwise (· < ·) := by
  unfold load at loads
  split at loads
  · cases loads
  · split at loads
    · cases loads
    · split at loads
      · cases loads
      · split at loads
        · cases loads
        next validated valid =>
          cases loads
          obtain ⟨-, -, unique, -, rfl⟩ := validateManifest_ok_iff.mp valid
          exact nodup_of_noAdjacentDuplicate (List.pairwise_insertionSort (· ≤ ·) _) unique
  · cases loads

theorem legacySsts_ok {names : List String} (legacy : legacySsts dir = .ok names) :
    names.Pairwise (· < ·) ∧ ∀ name, name ∈ names ↔
      (extension name = sstExtension ∧ ∃ rows, dir.lookup name = some (.sst rows)) := by
  unfold legacySsts at legacy
  dsimp only at legacy
  split at legacy
  · cases legacy
  next valid =>
    cases legacy
    refine ⟨pairwise_sortNames (dir.nodupKeys.filter _), fun name => ?_⟩
    rw [List.find?_eq_none] at valid
    rw [mem_sortNames, List.mem_filter, Bool.and_eq_true, beq_iff_eq]
    refine ⟨fun ⟨isKey, regular, ext⟩ => ⟨ext, ?_⟩, fun ⟨ext, rows, found⟩ => ⟨?_, ?_, ext⟩⟩
    · have verified := valid name
        (List.mem_filter.mpr ⟨isKey, Bool.and_eq_true _ _ |>.mpr ⟨regular, beq_iff_eq.mpr ext⟩⟩)
      cases found : dir.lookup name with
      | none => simp [found] at verified
      | some body =>
        cases body with
        | sst rows => exact ⟨rows, rfl⟩
        | text bytes => simp [found, FileBody.verifySst] at verified
        | directory => simp [found, FileBody.verifySst] at verified
    · rw [← AList.mem_keys, ← AList.lookup_isSome, found]
      rfl
    · rw [LsmDir.isRegularFile, found]
      rfl

/-- The published names are in strict order. -/
theorem publishedSsts_sorted {published : List String}
    (names : publishedSsts codec dir = .ok published) : published.Pairwise (· < ·) := by
  unfold publishedSsts at names
  split at names
  · cases names
  next manifest loads =>
    cases names
    exact load_ok_sorted loads
  next => exact (legacySsts_ok names).1

/-- The covered LSN a caller carries over is the one on disk. -/
theorem coveredWalLsn_of_load (loads : ∀ reason, load codec dir ≠ .error reason) :
    ((load codec dir).manifest?.map LsmManifest.coveredWalLsn).getD 0 =
      coveredWalLsn codec dir := by
  cases result : load codec dir with
  | error reason => exact absurd result (loads reason)
  | absent => rw [coveredWalLsn, manifestOnDisk_of_load_absent result]; rfl
  | ok manifest =>
    obtain ⟨onDisk, text, rfl⟩ := manifestOnDisk_of_load_ok result
    rw [coveredWalLsn, text]
    rfl

section Publish

variable {keep : String → Prop} {requested : LsmManifest} {newArtifacts : List Artifact}

theorem sameOn_publish {faults : PublishFaults} {outcome : Except String Unit}
    (ran : publish codec faults dir requested newArtifacts = (left, outcome))
    (notTemporary : ¬keep kTemporaryName) (notManifest : ¬keep kManifestName) : SameOn keep dir left := by
  intro name kept
  have isLeft : (publish codec faults dir requested newArtifacts).1 = left := congrArg Prod.fst ran
  rw [← isLeft]
  have temporary : name ≠ kTemporaryName := fun same => notTemporary (same ▸ kept)
  have manifest : name ≠ kManifestName := fun same => notManifest (same ▸ kept)
  cases reached : reachesRename codec faults dir requested newArtifacts with
  | false => exact (publish_of_not_reachesRename reached).2.1 name temporary
  | true =>
    obtain ⟨published, -, result, -⟩ := publish_of_reachesRename reached
    rw [result]
    exact lookup_replacedManifest_ne manifest temporary

theorem lookup_publish {faults : PublishFaults} {outcome : Except String Unit} {name : String}
    (ran : publish codec faults dir requested newArtifacts = (left, outcome))
    (safe : safeSstName name = true) : left.lookup name = dir.lookup name := by
  have same : SameOn (· = name) dir left := by
    refine sameOn_publish ran ?_ ?_
    · exact fun temporary => by rw [← temporary] at safe; revert safe; decide
    · exact fun manifest => by rw [← manifest] at safe; revert safe; decide
  exact same name rfl

/-- With the last sync working, a failed `publish` has not touched the manifest. -/
theorem sameOn_publish_error {faults : PublishFaults} {reason : String}
    (synced : faults.syncPublishedDirectory = true) (notTemporary : ¬keep kTemporaryName)
    (failed : publish codec faults dir requested newArtifacts = (left, .error reason)) :
    SameOn keep dir left := by
  intro name kept
  cases reached : reachesRename codec faults dir requested newArtifacts with
  | false =>
    have same := (publish_of_not_reachesRename reached).2.1 name
      fun temporary => notTemporary (temporary ▸ kept)
    rwa [failed] at same
  | true =>
    have done := (publish_ok_iff codec faults dir requested newArtifacts).mpr ⟨reached, synced⟩
    rw [failed] at done
    cases done

/-- A successful `publish` puts the request on disk, with its names in order. -/
theorem manifestOnDisk_of_publish_ok {faults : PublishFaults}
    (done : publish codec faults dir requested newArtifacts = (left, .ok ())) :
    manifestOnDisk codec left =
        some { requested with sstFiles := sortNames requested.sstFiles } ∧
      ∀ name ∈ requested.sstFiles, safeSstName name = true := by
  have reached := ((publish_ok_iff codec faults dir requested newArtifacts).mp
    (congrArg Prod.snd done)).1
  obtain ⟨manifest, prepared, result, -⟩ := publish_of_reachesRename reached
  obtain ⟨⟨verifyContents, valid⟩, -⟩ := preparePublish_ok prepared
  obtain ⟨names, files⟩ := preparePublish_names prepared
  rw [done] at result
  dsimp only at result
  rw [result, manifestOnDisk_replacedManifest, (validateManifest_ok_iff.mp valid).2.2.2.2]
  exact ⟨rfl, fun name member => (files name ((names name).mpr member)).1⟩

end Publish

/-! ## The artifacts in place -/

theorem lookup_of_renameArtifact {state : LsmDir × Bool} {source target : String} {succeeds : Bool}
    (moved : renameArtifact state source target succeeds = (left, true)) :
    left.lookup target = state.1.lookup source := by
  unfold renameArtifact at moved
  split at moved
  · split at moved
    next renamed succeeded =>
      cases moved
      unfold LsmDir.rename at succeeded
      split at succeeded
      next body found =>
        split at succeeded
        · cases succeeded
          rw [AList.lookup_insert, found]
        · cases succeeded
      · cases succeeded
    next => cases moved
  next stopped =>
    rw [moved] at stopped
    exact absurd rfl stopped

/-- The unfinished file is under its final name once the renames are through. -/
theorem lookup_of_renames {source target : String} {bloom sparse sst : Bool}
    (apart : ∀ sidecar ∈ sidecarsOf source ++ sidecarsOf target, source ≠ sidecar)
    (moved : renameArtifact (renameSidecar
      (renameSidecar (dir, true) (bloomOf source) (bloomOf target) bloom)
      (sparseOf source) (sparseOf target) sparse) source target sst = (left, true)) :
    left.lookup target = dir.lookup source := by
  rw [lookup_of_renameArtifact moved]
  simp only [sidecarsOf, List.cons_append, List.nil_append, List.forall_mem_cons] at apart
  obtain ⟨sourceBloom, sourceSparse, targetBloom, targetSparse, -⟩ := apart
  have one : SameOn (· = source) dir
      (renameSidecar (dir, true) (bloomOf source) (bloomOf target) bloom).1 :=
    sameOn_renameSidecar (dir, true) sourceBloom.symm targetBloom.symm
  exact (one.trans (sameOn_renameSidecar _ sourceSparse.symm targetSparse.symm)) source rfl

theorem ne_of_mem_sidecars {source : String} (target : String)
    (unfinished : source.toList.getLast? = some 'g' ∨ source.toList.getLast? = some 'p') :
    ∀ sidecar ∈ sidecarsOf source ++ sidecarsOf target, source ≠ sidecar := by
  intro sidecar member
  have ends : sidecar.toList.getLast? = some 'm' ∨ sidecar.toList.getLast? = some 'x' := by
    rcases List.mem_append.mp member with member | member
    · exact lastChar_of_mem_sidecarsOf member
    · exact lastChar_of_mem_sidecarsOf member
  rcases unfinished with g | p <;> rcases ends with m | x
  · exact ne_of_lastChar g m (by decide)
  · exact ne_of_lastChar g x (by decide)
  · exact ne_of_lastChar p m (by decide)
  · exact ne_of_lastChar p x (by decide)

/-! ## Flush -/

/-- What a successful publish section of a flush leaves. -/
structure FlushPublished (codec : ManifestCodec) (dir left : LsmDir) (sstName : String)
    (flushCoveredWalLsn : Nat) : Prop where
  frame : ∀ keep : String → Prop, (∀ name ∈ artifactNames (writingOf sstName) sstName, ¬keep name) →
    ¬keep kTemporaryName → ¬keep kManifestName → SameOn keep dir left
  inPlace : left.lookup sstName = dir.lookup (writingOf sstName)
  covered : coveredWalLsn codec left = max flushCoveredWalLsn (coveredWalLsn codec dir)
  names : ∃ published, publishedSsts codec dir = .ok published ∧
    ∀ name, name ∈ listed codec left ↔ name ∈ published ∨ name = sstName
  safe : ∀ name ∈ listed codec left, safeSstName name = true

/-- The frame of a flush's publish section, whatever its outcome. -/
theorem sameOn_flushPublish_error {keep : String → Prop} {flushCoveredWalLsn : Nat} {reason : String}
    (synced : faults.syncPublishedDirectory = true) (notTemporary : ¬keep kTemporaryName)
    (changed : ∀ name ∈ artifactNames (writingOf sstName) sstName, ¬keep name)
    (failed : flushPublish codec faults dir sstName flushCoveredWalLsn = (left, .error reason)) :
    SameOn keep dir left := by
  rcases publishSection_error failed with request | ⟨moved, next, after, why, request, rfl, failure⟩
  · exact flushRequest_error changed request
  · exact ((flushRequest_ok changed request).1.trans
      (sameOn_publish_error synced notTemporary failure)).trans
      (sameOn_removeAll _ fun name member => changed name (List.mem_append_right _ member))

/-- A published manifest loads, unless its text is too long. -/
theorem load_of_publish_ok {codec : ManifestCodec} {faults : CallerFaults} {moved after : LsmDir}
    {next : LsmManifest} {artifacts : List Artifact}
    (success : publish codec faults.toPublishFaults moved next artifacts = (after, .ok ()))
    (fits : (codec.dump { next with sstFiles := sortNames next.sstFiles }).length ≤ kMaxManifestBytes) :
    ∃ manifest, load codec after = .ok manifest := by
  have reached := ((publish_ok_iff codec faults.toPublishFaults moved next
    artifacts).mp (congrArg Prod.snd success)).1
  obtain ⟨manifest, prepared, result, -⟩ := publish_of_reachesRename reached
  obtain ⟨⟨verifyContents, valid⟩, -⟩ := preparePublish_ok prepared
  have sorted := (validateManifest_ok_iff.mp valid).2.2.2.2
  rw [success] at result
  dsimp only at result
  exact ⟨manifest, by
    rw [result, load_replacedManifest valid, if_neg (by rw [sorted]; exact not_lt.mpr fits)]⟩

theorem mem_listed_of_publish_ok {requested : LsmManifest} {newArtifacts : List Artifact}
    {faults : PublishFaults} {name : String}
    (done : publish codec faults dir requested newArtifacts = (left, .ok ())) :
    name ∈ listed codec left ↔ name ∈ requested.sstFiles := by
  rw [listed, (manifestOnDisk_of_publish_ok done).1]
  exact mem_sortNames

theorem coveredWalLsn_of_publish_ok {requested : LsmManifest} {newArtifacts : List Artifact}
    {faults : PublishFaults}
    (done : publish codec faults dir requested newArtifacts = (left, .ok ())) :
    coveredWalLsn codec left = requested.coveredWalLsn := by
  rw [coveredWalLsn, (manifestOnDisk_of_publish_ok done).1]
  rfl

theorem flushPublish_ok {flushCoveredWalLsn : Nat} {next : LsmManifest}
    (safe : safeSstName sstName = true)
    (done : flushPublish codec faults dir sstName flushCoveredWalLsn = (left, .ok next)) :
    FlushPublished codec dir left sstName flushCoveredWalLsn ∧
      next.coveredWalLsn = coveredWalLsn codec left := by
  obtain ⟨moved, after, request, rfl, success⟩ := publishSection_ok done
  obtain ⟨-, renames, loads, published, names, asks⟩ :=
    flushRequest_ok (fun _ _ => not_false) request
  have covers := coveredWalLsn_of_publish_ok success
  refine ⟨{ frame := ?_, inPlace := ?_, covered := ?_, names := ?_, safe := ?_ },
    covers.symm⟩
  · exact fun keep changed notTemporary notManifest =>
      (flushRequest_ok changed request).1.trans (sameOn_publish success notTemporary notManifest)
  · exact (lookup_publish success safe).trans
      (lookup_of_renames (ne_of_mem_sidecars sstName (.inl (lastChar_writingOf sstName))) renames)
  · rw [covers, asks]
    exact congrArg (max flushCoveredWalLsn) (coveredWalLsn_of_load loads)
  · refine ⟨published, names, fun name => ?_⟩
    rw [mem_listed_of_publish_ok success, asks, mem_flushManifest]
  · intro name member
    exact (manifestOnDisk_of_publish_ok success).2 name
      ((mem_listed_of_publish_ok success).mp member)

/-! ## Compaction -/

/-- What a successful publish section of a compaction leaves. -/
structure CompactPublished (codec : ManifestCodec) (dir left : LsmDir) (outName : String)
    (inputs : List String) : Prop where
  frame : ∀ keep : String → Prop, (∀ name ∈ artifactNames (tmpOf outName) outName, ¬keep name) →
    (∀ input ∈ inputs, ¬keep input ∧ ∀ sidecar ∈ sidecarsOf input, ¬keep sidecar) →
    ¬keep kTemporaryName → ¬keep kManifestName → SameOn keep dir left
  inPlace : left.lookup outName = dir.lookup (tmpOf outName)
  removed : ∀ input ∈ inputs, left.lookup input = none
  covered : coveredWalLsn codec left = coveredWalLsn codec dir
  names : ∃ moved published,
    SameOn (fun name => name ∉ artifactNames (tmpOf outName) outName) dir moved ∧
      publishedSsts codec moved = .ok published ∧ (∀ input ∈ inputs, input ∈ published) ∧
      ∀ name, name ∈ listed codec left ↔ (name ∈ published ∧ name ∉ inputs) ∨ name = outName
  safe : ∀ name ∈ listed codec left, safeSstName name = true

theorem sameOn_compactPublish_error {keep : String → Prop} {outName reason : String}
    {inputs : List String} (synced : faults.syncPublishedDirectory = true)
    (notTemporary : ¬keep kTemporaryName)
    (changed : ∀ name ∈ artifactNames (tmpOf outName) outName, ¬keep name)
    (failed : compactPublish codec faults dir outName inputs = (left, .error reason)) :
    SameOn keep dir left := by
  rcases publishSection_error failed with request | ⟨moved, next, after, why, request, rfl, failure⟩
  · exact compactRequest_error changed request
  · exact ((compactRequest_ok changed request).1.trans
      (sameOn_publish_error synced notTemporary failure)).trans
      (sameOn_removeAll _ fun name member => changed name (List.mem_append_right _ member))

theorem compactPublish_ok {outName : String} {inputs : List String} {next : LsmManifest}
    (safe : safeSstName outName = true) (inputSsts : ∀ input ∈ inputs, safeSstName input = true)
    (notInput : outName ∉ inputs)
    (done : compactPublish codec faults dir outName inputs = (left, .ok next)) :
    CompactPublished codec dir left outName inputs := by
  obtain ⟨moved, after, request, rfl, success⟩ := publishSection_ok done
  obtain ⟨-, renames, loads, published, names, still, asks⟩ :=
    compactRequest_ok (fun _ _ => not_false) request
  -- The inputs and their sidecars go last; none of them is the manifest or the output.
  have removed : ∀ keep : String → Prop,
      (∀ input ∈ inputs, ¬keep input ∧ ∀ sidecar ∈ sidecarsOf input, ¬keep sidecar) →
      SameOn keep after (removeAll after (inputs ++ inputs.flatMap sidecarsOf)) := by
    intro keep changed
    refine sameOn_removeAll _ fun name member => ?_
    rcases List.mem_append.mp member with input | sidecar
    · exact (changed name input).1
    · obtain ⟨input, isInput, sidecar⟩ := List.mem_flatMap.mp sidecar
      exact (changed input isInput).2 name sidecar
  have text : (removeAll after (inputs ++ inputs.flatMap sidecarsOf)).lookup kManifestName =
      after.lookup kManifestName := by
    refine removed (· = kManifestName) (fun input isInput => ⟨?_, ?_⟩) kManifestName rfl
    · rintro rfl
      exact absurd (inputSsts _ isInput) (by decide)
    · intro sidecar member
      exact (Auxiliary.of_mem_sidecarsOf member).notManifest
  have onDisk := @manifestOnDisk_congr after _ codec text
  refine { frame := ?_, inPlace := ?_, removed := ?_, covered := ?_, names := ?_, safe := ?_ }
  · intro keep changed inputsChanged notTemporary notManifest
    exact ((compactRequest_ok changed request).1.trans
      (sameOn_publish success notTemporary notManifest)).trans (removed keep inputsChanged)
  · have kept := removed (· = outName) (fun input isInput =>
      ⟨fun same => notInput (same ▸ isInput), fun sidecar member same => by
        have aux := (Auxiliary.of_mem_sidecarsOf member).notSst
        rw [same, safe] at aux
        cases aux⟩) outName rfl
    exact (kept.trans (lookup_publish success safe)).trans
      (lookup_of_renames (ne_of_mem_sidecars outName (.inr (lastChar_tmpOf outName))) renames)
  · exact fun input member => lookup_removeAll_of_mem (List.mem_append_left _ member)
  · have before : coveredWalLsn codec moved = coveredWalLsn codec dir := by
      have same := (compactRequest_ok
        (fun _ => not_outside_of_mem_artifactNames safe (.of_tmpOf outName)) request).1
      rw [coveredWalLsn, coveredWalLsn, manifestOnDisk_congr (same _ (.inl rfl))]
    rw [coveredWalLsn, onDisk, ← coveredWalLsn, coveredWalLsn_of_publish_ok success, asks,
      ← before]
    exact coveredWalLsn_of_load loads
  · refine ⟨moved, published, ?_, names, ?_, fun name => ?_⟩
    · exact (compactRequest_ok (fun _ member kept => kept member) request).1
    · simpa using still
    · rw [listed, onDisk, ← listed, mem_listed_of_publish_ok success, asks,
        mem_compactManifest]
  · intro name member
    rw [listed, onDisk, ← listed] at member
    exact (manifestOnDisk_of_publish_ok success).2 name
      ((mem_listed_of_publish_ok success).mp member)

end PacificDb.Lsm
