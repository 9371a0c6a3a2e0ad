import PacificDb.Index.Log

/-!
# The log and the index in memory agree

In every history in which each published segment keeps the limits of the reader and
the stamps do not run out, the segments of the directory stand for the map that the
operations have made, and so does the index in memory when it is loaded. The buckets
are the inverse of the map in every history.

Without the first condition a process goes on with an index that no other can load.
-/

namespace PacificDb.Index

open Lib Sst

variable {config : IndexConfig} {s t : ColumnIndex} {mutations : List IndexMutation}
  {ensureClock wallClock : UInt64}

/-- The directory and the index in memory are the map made so far. -/
structure Sound (s : ColumnIndex) : Prop where
  holds : Holds s.dir s.logical
  cached : s.state.loaded = true → s.state.valueById = s.logical
  inverse : Inverse s.state

theorem Inverse.initial : Inverse {} := @Inverse.empty {}

theorem Sound.restarted (sound : Sound s) : Sound s.restarted where
  holds := sound.holds.restart
  cached impossible := by cases impossible
  inverse := .initial

theorem Sound.evicted (sound : Sound s) : Sound s.evicted where
  holds := sound.holds
  cached impossible := by cases impossible
  inverse := .initial

/-- The stamp of a segment is the last one that the process remembers. -/
theorem previousStamp_written {dir after : Directory} (room : previousStamp dir + 1 ≠ 0)
    (last : after.lastStamp = nextStamp dir wallClock) :
    previousStamp after = max wallClock (previousStamp dir + 1) := by
  have some : nextStamp dir wallClock ≠ 0 := by
    intro zero
    have above : previousStamp dir < nextStamp dir wallClock := previousStamp_lt_nextStamp room
    rw [zero, UInt64.lt_iff_toNat_lt] at above
    exact absurd above (Nat.not_lt_zero _)
  rw [previousStamp, last, if_neg some, nextStamp]

theorem Sound.replace (sound : Sound s) {index : Json}
    (fits : Publishable (binaryIndexSnapshotMutations config.dump index))
    (room : previousStamp s.dir + 1 ≠ 0)
    (replaced : replaceBinaryColumnIndex config s index wallClock = some t) :
    Sound t ∧ previousStamp t.dir = max wallClock (previousStamp s.dir + 1) := by
  unfold replaceBinaryColumnIndex at replaced
  dsimp only at replaced
  split at replaced
  next => cases replaced
  next dir published =>
    obtain rfl := Option.some.inj replaced
    obtain ⟨holds, last⟩ := sound.holds.snapshot room fits published
    refine ⟨⟨holds, fun impossible => ?_, .initial⟩, previousStamp_written room last⟩
    cases impossible

theorem Sound.ensure (sound : Sound s)
    (fits : if (listIndexSegments s.dir).isEmpty then
        Publishable (binaryIndexSnapshotMutations config.dump s.legacy) ∧
          StampsLeft (previousStamp s.dir) [ensureClock, wallClock]
      else StampsLeft (previousStamp s.dir) [wallClock])
    (ensured : ensureBinaryColumnIndex config s ensureClock = some t) :
    Sound t ∧ previousStamp t.dir + 1 ≠ 0 := by
  unfold ensureBinaryColumnIndex at ensured
  split at ensured
  next isEmpty =>
    rw [if_pos isEmpty] at fits
    obtain ⟨publishable, room, left, -⟩ := fits
    obtain ⟨result, last⟩ := sound.replace publishable room ensured
    rw [last]
    exact ⟨result, left⟩
  next some =>
    rw [if_neg some] at fits
    obtain rfl := Option.some.inj ensured
    exact ⟨sound, fits.1⟩

theorem Sound.batch (sound : Sound s) {docs : List Json} {latest : List (Bytes × Json)}
    (ordered : latest.Perm (latestDocs config.dump docs).entries)
    (publishable : Publishable (latest.flatMap (docMutations config)))
    (fits : if (listIndexSegments s.dir).isEmpty then
        Publishable (binaryIndexSnapshotMutations config.dump s.legacy) ∧
          StampsLeft (previousStamp s.dir) [ensureClock, wallClock]
      else StampsLeft (previousStamp s.dir) [wallClock]) :
    Sound (applyBinaryColumnIndexBatch config s latest ensureClock wallClock) := by
  unfold applyBinaryColumnIndexBatch
  split
  next => exact sound
  next ensured isEnsured =>
    obtain ⟨ready, room⟩ := sound.ensure fits isEnsured
    dsimp only
    split
    next => exact ready
    next =>
      split
      next => exact ready
      next dir path wrote =>
        have sorted := sortedById_docMutations ordered
        refine ⟨ready.holds.append room publishable sorted wrote, ?_, ?_⟩
        · dsimp only
          split
          next loaded =>
            intro _
            rw [valueById_foldl, ready.cached loaded]
          next unloaded => exact fun loaded => absurd loaded unloaded
        · dsimp only
          split
          · exact ready.inverse.foldl _
          · exact ready.inverse

/-- What loading leaves in memory. -/
theorem Sound.load (sound : Sound s) :
    ∃ loaded, loadBinaryColumnIndexLocked s.dir s.state = (loaded, true) ∧
      loaded.valueById = s.logical ∧ Sound { s with state := loaded } := by
  obtain ⟨loaded, done, -, value⟩ := sound.holds.load sound.cached
  have inverse : Inverse (loadBinaryColumnIndexLocked s.dir s.state).1 := sound.inverse.load
  rw [done] at inverse
  exact ⟨loaded, done, value, sound.holds, fun _ => value, inverse⟩

theorem Sound.compact (sound : Sound s) (fits : Publishable (valueMutations s.logical))
    (room : previousStamp s.dir + 1 ≠ 0) :
    Sound (compactBinaryColumnIndexes config s wallClock) := by
  obtain ⟨loaded, done, value, ready⟩ := sound.load
  unfold compactBinaryColumnIndexes
  dsimp only
  split
  next => exact sound
  next =>
    rw [done]
    dsimp only
    split
    next => exact ready
    next dir published =>
      rw [value] at published
      obtain ⟨holds, -⟩ := sound.holds.snapshot room fits published
      rw [applyValues_valueMutations] at holds
      exact ⟨holds, ready.cached, ready.inverse⟩

/-- One step of a history. -/
theorem Sound.step {event : Event} (sound : Sound s) (ordered : event.Ordered config)
    (fits : event.Fits config s) (taken : step config s event = some t) : Sound t := by
  cases event with
  | batch docs latest ensureClock wallClock =>
    rw [Index.step] at taken
    split at taken
    next => exact Option.some.inj taken ▸ sound
    next => exact Option.some.inj taken ▸ sound.batch ordered fits.1 fits.2
  | replace index wallClock =>
    obtain rfl := Option.some.inj taken
    cases replaced : replaceBinaryColumnIndex config s index wallClock with
    | none => exact sound
    | some next => exact (sound.replace fits.1 fits.2.1 replaced).1
  | compact wallClock => exact Option.some.inj taken ▸ sound.compact fits.1 fits.2.1
  | lookup =>
    rw [Index.step] at taken
    split at taken
    next => exact Option.some.inj taken ▸ sound
    next =>
      obtain ⟨loaded, done, -, ready⟩ := sound.load
      rw [done] at taken
      exact Option.some.inj taken ▸ ready
  | evict => exact Option.some.inj taken ▸ sound.evicted
  | restart => exact Option.some.inj taken ▸ sound.restarted
  | crashedReplace index wallClock removed =>
    rw [Index.step] at taken
    dsimp only at taken
    split at taken
    next => cases taken
    next dir published =>
      obtain ⟨holds, -⟩ := sound.holds.snapshot fits.2.1 fits.1 published
      obtain rfl := Option.some.inj taken
      exact ⟨holds.restart, fun impossible => (by cases impossible), .initial⟩
  | crashedCompact wallClock removed =>
    obtain ⟨loaded, done, value, -⟩ := sound.load
    rw [Index.step, done] at taken
    dsimp only at taken
    split at taken
    next => cases taken
    next dir published =>
      rw [value] at published
      obtain ⟨holds, -⟩ := sound.holds.snapshot fits.2.1 fits.1 published
      rw [applyValues_valueMutations] at holds
      obtain rfl := Option.some.inj taken
      exact ⟨holds.restart, fun impossible => (by cases impossible), .initial⟩

/-- The segments load as the map made so far, the index in memory is that map when it
is loaded, and its buckets are the inverse of its values. -/
theorem ColumnIndex.history_sound {legacy : Json}
    (reached : Reach (step config) (fun s event => event.Ordered config ∧ event.Fits config s)
      { legacy } s) :
    (∃ loaded, loadBinaryColumnIndexLocked s.dir {} = (loaded, true) ∧
        loaded.valueById = s.logical ∧ Inverse loaded) ∧
      (s.state.loaded = true → s.state.valueById = s.logical) ∧ Inverse s.state := by
  have sound : Sound s := by
    apply reached.invariant
    · exact ⟨.empty, fun impossible => (by cases impossible), .initial⟩
    · exact fun sound allowed taken => sound.step allowed.1 allowed.2 taken
  obtain ⟨loaded, done, value, ready⟩ := sound.evicted.load
  exact ⟨⟨loaded, done, value, ready.inverse⟩, sound.cached, sound.inverse⟩

/-! ## Replacing an index -/

/-- The writer takes the snapshot, and it is listed. -/
theorem replaceBinaryColumnIndex_ok {index : Json}
    (fits : ∀ mutation ∈ binaryIndexSnapshotMutations config.dump index, mutation.Fits) :
    ∃ replaced, replaceBinaryColumnIndex config s index wallClock = some replaced ∧
      replaced.logical =
        applyValues .empty (sortMutations (binaryIndexSnapshotMutations config.dump index)) ∧
      (listIndexSegments replaced.dir).isEmpty = false := by
  obtain ⟨file, wrote⟩ := segmentFile_ok fits true
  have done := writeIndexSegment_eq_ok.mpr ⟨_, wrote, @rfl _ (segmentName (nextStamp s.dir wallClock)), rfl⟩
  unfold replaceBinaryColumnIndex publishSnapshot
  dsimp only
  rw [done]
  refine ⟨_, rfl, rfl, ?_⟩
  have listed : ∀ names : List String, segmentName (nextStamp s.dir wallClock) ∈ names →
      names.isEmpty = false := by
    intro names member
    cases names with
    | nil => exact absurd member List.not_mem_nil
    | cons first rest => rfl
  apply listed
  rw [listIndexSegments, List.mem_filter]
  refine ⟨List.mem_map.mpr ⟨(segmentName (nextStamp s.dir wallClock), file), ?_, rfl⟩,
    hasSegExtension_segmentName _⟩
  dsimp only
  rw [entries_removeFiles, List.mem_filter]
  refine ⟨SortedMap.mem_assign.mpr (.inl rfl), decide_eq_true fun gone => ?_⟩
  exact of_decide_eq_true (List.mem_filter.mp gone).2 rfl

def colourIndex : IndexConfig := { dump := fun _ => "", field := "colour" }

def redIndex : Json := .object [("red", .array [.string "a"])]

/-- One value of one id, loaded from its snapshot. -/
theorem replaced_history_sound :
    ∃ s loaded, Reach (step colourIndex)
        (fun s event => event.Ordered colourIndex ∧ event.Fits colourIndex s) {} s ∧
      loadBinaryColumnIndexLocked s.dir {} = (loaded, true) ∧
      loaded.valueById.find? (utf8 "a") = some (utf8 "red") := by
  have mutations : binaryIndexSnapshotMutations colourIndex.dump redIndex =
    [⟨.put, utf8 "red", utf8 "a"⟩] := rfl
  have fits : ∀ mutation ∈ binaryIndexSnapshotMutations colourIndex.dump redIndex, mutation.Fits := by
    decide
  obtain ⟨replaced, done, logical, -⟩ := @replaceBinaryColumnIndex_ok colourIndex {} 5 redIndex fits
  have taken : step colourIndex {} (.replace redIndex 5) = some replaced := by
    rw [step, done, Option.getD_some]
  have ordered : Event.Ordered colourIndex (.replace redIndex 5) := trivial
  have allowed : Event.Fits colourIndex {} (.replace redIndex 5) :=
    ⟨.inr (by decide), by decide, trivial⟩
  have reached : Reach (step colourIndex)
      (fun s event => event.Ordered colourIndex ∧ event.Fits colourIndex s) {} replaced :=
    .tail .refl ⟨ordered, allowed⟩ taken
  obtain ⟨⟨loaded, isLoaded, value, -⟩, -⟩ := ColumnIndex.history_sound reached
  refine ⟨replaced, loaded, reached, isLoaded, ?_⟩
  have single := List.perm_singleton.mp (sortMutations_perm [⟨.put, utf8 "red", utf8 "a"⟩])
  rw [value, logical, mutations, single]
  decide

/-! ## A batch that no other process can load -/

/-- A segment that the reader refuses ends the loading. -/
theorem loadSegments_unreadable {dir : Directory} {paths : List String} {path reason : String}
    {file : Bytes} {state : BinaryColumnIndexState} (member : path ∈ paths)
    (found : dir.files.find? path = some file) (refused : readIndexSegment file = .error reason) :
    (loadSegments dir paths state).2 = false := by
  induction paths generalizing state with
  | nil => exact absurd member List.not_mem_nil
  | cons first rest ih =>
    unfold loadSegments
    rcases List.mem_cons.mp member with rfl | later
    · rw [found, Option.map_some, refused]
    · split
      next => exact ih later
      next => rfl

/-- The batch is published and applied in memory, and no longer loads. -/
theorem unreadable_batch {latest : List (Bytes × Json)}
    (some : (listIndexSegments s.dir).isEmpty = false)
    (fits : ∀ mutation ∈ latest.flatMap (docMutations config), mutation.Fits)
    (unreadable : ¬Readable (latest.flatMap (docMutations config))) :
    (applyBinaryColumnIndexBatch config s latest ensureClock wallClock).state.loaded =
        s.state.loaded ∧
      (applyBinaryColumnIndexBatch config s latest ensureClock wallClock).logical =
        applyValues s.logical (latest.flatMap (docMutations config)) ∧
      (loadBinaryColumnIndexLocked
        (applyBinaryColumnIndexBatch config s latest ensureClock wallClock).dir {}).2 = false := by
  obtain ⟨file, wrote⟩ := segmentFile_ok fits false
  obtain ⟨reason, refused⟩ := readIndexSegment_of_not_readable wrote unreadable
  have done := writeIndexSegment_eq_ok.mpr ⟨_, wrote, @rfl _ (segmentName (nextStamp s.dir wallClock)), rfl⟩
  have ensured : ensureBinaryColumnIndex config s ensureClock = .some s := by
    rw [ensureBinaryColumnIndex, if_neg (by rw [some]; exact Bool.false_ne_true)]
  have nonempty : ¬(latest.flatMap (docMutations config)).isEmpty = true := by
    intro empty
    rw [List.isEmpty_iff.mp empty] at unreadable
    exact unreadable (by decide)
  rw [applyBinaryColumnIndexBatch, ensured]
  dsimp only
  rw [if_neg nonempty, done]
  refine ⟨?_, rfl, ?_⟩
  · dsimp only
    split
    · exact loaded_foldl _ _
    · rfl
  · rw [loadBinaryColumnIndexLocked, if_neg Bool.false_ne_true]
    refine loadSegments_unreadable ?_ ((SortedMap.find?_assign _ _ _ _).trans (if_pos rfl)) refused
    rw [listIndexSegments, List.mem_filter]
    refine ⟨List.mem_map.mpr ⟨_, SortedMap.mem_assign.mpr (.inl rfl), rfl⟩, ?_⟩
    exact hasSegExtension_segmentName _

/-- An index on the field `age`. -/
def ageIndex : IndexConfig := { dump := fun _ => "", field := "age" }

/-- Eight megabytes. -/
@[irreducible]
def largeSize : Nat := 8 * 1024 * 1024

def largeText : String := String.ofList (List.replicate largeSize 'x')

def largeId (n : Nat) : String := String.ofList (List.replicate (n + 1) 'a')

/-- A document with a text of eight megabytes. -/
def largeDoc (n : Nat) : Json :=
  .object [("id", .string (largeId n)), ("age", .string largeText)]

def largeDocs : List Json := (List.range 129).map largeDoc

def largeLatest : List (Bytes × Json) :=
  (List.range 129).map fun n => (utf8 (largeId n), largeDoc n)

theorem docMutations_text (key : Bytes) (id text : String) :
    docMutations ageIndex (key, .object [("id", .string id), ("age", .string text)]) =
      [⟨.clear, [], key⟩, ⟨.put, utf8 text, key⟩] := rfl

theorem length_utf8_replicate (count : Nat) (c : Char) :
    count ≤ (utf8 (String.ofList (List.replicate count c))).length ∧
      (utf8 (String.ofList (List.replicate count c))).length ≤ 4 * count := by
  have above := length_le_utf8ByteSize (List.replicate count c)
  have below := utf8ByteSize_le (List.replicate count c)
  rw [List.length_replicate] at above below
  exact ⟨above, below⟩

theorem largeSize_eq : largeSize = 8388608 := by
  unfold largeSize
  rfl

theorem length_largeText :
    largeSize ≤ (utf8 largeText).length ∧ (utf8 largeText).length ≤ kMaxFieldBytes := by
  have limit : kMaxFieldBytes = 67108864 := by decide
  have size := largeSize_eq
  obtain ⟨above, below⟩ := length_utf8_replicate largeSize 'x'
  exact ⟨above, below.trans (by omega)⟩

theorem fits_docMutations_text {key : Bytes} {id text : String} (named : key ≠ [])
    (keyFits : key.length ≤ kMaxFieldBytes) (textFits : (utf8 text).length ≤ kMaxFieldBytes) :
    ∀ mutation ∈ docMutations ageIndex (key, .object [("id", .string id), ("age", .string text)]),
      mutation.Fits := by
  intro mutation member
  rw [docMutations_text] at member
  rcases List.mem_cons.mp member with rfl | member
  · exact ⟨named, keyFits, Nat.zero_le _⟩
  · obtain rfl := List.mem_singleton.mp member
    exact ⟨named, keyFits, textFits⟩

theorem largeId_injective {first second : Nat} (same : utf8 (largeId first) = utf8 (largeId second)) :
    first = second := by
  have texts := String.ofList_injective (utf8_inj.mp same)
  have sizes := congrArg List.length texts
  rw [List.length_replicate, List.length_replicate] at sizes
  omega

theorem latestDocs_largeDocs :
    latestDocs ageIndex.dump largeDocs = (List.range 129).foldl
      (fun latest n => latest.assign (utf8 (largeId n)) (largeDoc n)) .empty := by
  have named : ∀ n, largeId n ≠ "" := fun n empty => by
    have sizes := congrArg (fun text : String => text.toList.length) empty
    simp [largeId] at sizes
  rw [latestDocs, largeDocs, List.foldl_map]
  apply List.foldl_ext
  intro latest n _
  have id : docId? ageIndex.dump (largeDoc n) = some (largeId n) := rfl
  rw [id]
  exact if_neg (named n)

theorem largeLatest_perm : largeLatest.Perm (latestDocs ageIndex.dump largeDocs).entries := by
  have nodup : largeLatest.Nodup := by
    apply List.Nodup.map
    · intro first second same
      exact largeId_injective (congrArg Prod.fst same)
    · exact List.nodup_range
  have nodup' : (latestDocs ageIndex.dump largeDocs).entries.Nodup :=
    (latestDocs ageIndex.dump largeDocs).sorted.imp fun below same =>
      below.ne (congrArg Prod.fst same)
  rw [List.perm_ext_iff_of_nodup nodup nodup']
  intro entry
  rw [latestDocs_largeDocs, SortedMap.mem_foldl_assign, largeLatest, List.mem_map]
  constructor
  · rintro ⟨n, member, rfl⟩
    refine ⟨n, List.mem_range.mp member, rfl, fun later _ above same => ?_⟩
    have equal := largeId_injective same
    omega
  · rintro ⟨n, bound, rfl, -⟩
    exact ⟨n, List.mem_range.mpr bound, rfl⟩

theorem fits_largeLatest : ∀ mutation ∈ largeLatest.flatMap (docMutations ageIndex), mutation.Fits := by
  intro mutation member
  obtain ⟨entry, isEntry, member⟩ := List.mem_flatMap.mp member
  obtain ⟨n, bound, rfl⟩ := List.mem_map.mp isEntry
  have bound : n < 129 := List.mem_range.mp bound
  have idSize := length_utf8_replicate (n + 1) 'a'
  have limit : 4 * 129 ≤ kMaxFieldBytes := by decide
  have named : utf8 (largeId n) ≠ [] := by
    intro empty
    have zero := congrArg List.length empty
    have small : n + 1 ≤ (utf8 (largeId n)).length := idSize.1
    rw [List.length_nil] at zero
    omega
  have idFits : (utf8 (largeId n)).length ≤ kMaxFieldBytes := idSize.2.trans (by omega)
  exact fits_docMutations_text named idFits length_largeText.2 mutation member

theorem payloadSize_append (first second : List IndexMutation) :
    payloadSize (first ++ second) = payloadSize first + payloadSize second := by
  rw [payloadSize, List.map_append, List.sum_append]
  rfl

theorem length_mul_le_payloadSize {latest : List (Bytes × Json)} {least : Nat}
    (each : ∀ entry ∈ latest, least ≤ payloadSize (docMutations config entry)) :
    latest.length * least ≤ payloadSize (latest.flatMap (docMutations config)) := by
  induction latest with
  | nil => simp
  | cons entry rest ih =>
    obtain ⟨first, later⟩ := List.forall_mem_cons.mp each
    have below := ih later
    rw [List.flatMap_cons, payloadSize_append, List.length_cons, Nat.succ_mul]
    omega

theorem le_payloadSize_text (key : Bytes) (id text : String) :
    (utf8 text).length ≤ payloadSize (docMutations ageIndex
      (key, .object [("id", .string id), ("age", .string text)])) := by
  rw [docMutations_text]
  simp only [payloadSize, List.map_cons, List.map_nil, List.sum_cons, List.sum_nil]
  omega

theorem not_readable_largeLatest : ¬Readable (largeLatest.flatMap (docMutations ageIndex)) := by
  rintro ⟨-, small⟩
  have large : largeLatest.length * largeSize ≤
      payloadSize (largeLatest.flatMap (docMutations ageIndex)) := by
    apply length_mul_le_payloadSize
    intro entry member
    obtain ⟨n, -, rfl⟩ := List.mem_map.mp member
    have text := length_largeText.1
    exact text.trans (le_payloadSize_text _ _ _)
  have count : largeLatest.length = 129 := by
    rw [largeLatest, List.length_map, List.length_range]
  have limit : kMaxFieldBytes * 16 = 1073741824 := by decide
  rw [count, largeSize_eq] at large
  omega

/-- The index in memory goes on, and no other process can load the segments. -/
theorem largeDocs_not_loaded :
    ∃ s, Reach (step ageIndex) (fun _ event => event.Ordered ageIndex) {} s ∧
      s.state.loaded = true ∧ s.logical = applyValues .empty (largeLatest.flatMap (docMutations ageIndex)) ∧
      (loadBinaryColumnIndexLocked s.dir {}).2 = false := by
  obtain ⟨empty, replaced, logical, some⟩ :=
    @replaceBinaryColumnIndex_ok ageIndex {} 0 (.object []) (fun _ member => by cases member)
  have sound : Sound {} := ⟨.empty, fun impossible => (by cases impossible), .initial⟩
  obtain ⟨ready, -⟩ := sound.replace (.inr (by decide)) (by decide) replaced
  obtain ⟨loaded, done, isLoaded, -⟩ := ready.holds.load ready.cached
  have noMutation : binaryIndexSnapshotMutations ageIndex.dump (.object []) = [] := rfl
  have nothing := List.perm_nil.mp (sortMutations_perm [])
  rw [noMutation, nothing] at logical
  obtain ⟨stays, made, refused⟩ := @unreadable_batch ageIndex { empty with state := loaded } 0 0
    largeLatest some fits_largeLatest not_readable_largeLatest
  have first : step ageIndex {} (.replace (.object []) 0) = .some empty := by
    rw [step, replaced, Option.getD_some]
  have second : step ageIndex empty .lookup = .some { empty with state := loaded } := by
    rw [step, if_neg (by rw [some]; exact Bool.false_ne_true), done]
  have third : step ageIndex { empty with state := loaded } (.batch largeDocs largeLatest 0 0) =
      .some (applyBinaryColumnIndexBatch ageIndex { empty with state := loaded } largeLatest 0 0) := by
    rw [step, if_neg (by decide)]
  have ordered : Event.Ordered ageIndex (.replace (.object []) 0) := trivial
  have ordered' : Event.Ordered ageIndex .lookup := trivial
  have last : Event.Ordered ageIndex (.batch largeDocs largeLatest 0 0) := largeLatest_perm
  refine ⟨_, .tail (.tail (.tail .refl ordered first) ordered' second) last third,
    stays.trans isLoaded, ?_, refused⟩
  rw [made]
  exact congrArg (fun values => applyValues values _) logical

end PacificDb.Index
