import PacificDb.Index.State
import PacificDb.Lib.Machine

/-!
# The log of a column index

A batch of documents is appended to the directory as one segment and applied to the
index in memory if that is loaded. A snapshot takes the place of the segments before
it, which are removed once it is published. A process that is killed in between
leaves some of them behind.

The index of one field, with the lock on the index of its collection held by each
operation. Counters and failing I/O are left out. `logical` is not in the source: it
is the map that the operations so far have made.
-/

namespace PacificDb.Index

open Lib Sst

structure IndexConfig where
  dump : Json → String
  field : String
  threshold : Nat := 32

/-! ## What is indexed -/

def isScalar : Json → Bool
  | .array _ => false
  | .object _ => false
  | _ => true

def shouldIndexColumnField (field : String) (value : Json) : Bool :=
  if field = "" ∨ field = "id" ∨ field = "_deleted" then false
  else if field.toList.head? = some '_' then false
  else isScalar value

def columnIndexValue (dump : Json → String) : Json → String
  | .string text => text
  | .null => "null"
  | value => dump value

/-- The last document of each id. -/
def latestDocs (dump : Json → String) (docs : List Json) : SortedMap Bytes Json :=
  let take (latest : SortedMap Bytes Json) (doc : Json) :=
    match docId? dump doc with
    | some id => if id = "" then latest else latest.assign (utf8 id) doc
    | none => latest
  docs.foldl take .empty

/-- The mutations of one document. -/
def docMutations (config : IndexConfig) (entry : Bytes × Json) : List IndexMutation :=
  let put :=
    match entry.2.field? config.field with
    | some value =>
        if !isDeletedDoc entry.2 && shouldIndexColumnField config.field value then
          [⟨.put, utf8 (columnIndexValue config.dump value), entry.1⟩]
        else []
    | none => []
  ⟨.clear, [], entry.1⟩ :: put

/-- `binaryIndexSnapshotMutations`, of an index in its JSON form. -/
def binaryIndexSnapshotMutations (dump : Json → String) : Json → List IndexMutation
  | .object members =>
      members.flatMap fun member =>
        match member.2 with
        | .array items =>
            items.filterMap fun rawId =>
              let id := match rawId with
                | .string id => id
                | other => dump other
              if id = "" then none else some ⟨.put, utf8 member.1, utf8 id⟩
        | _ => []
  | _ => []

/-- The snapshot that `compactBinaryColumnIndexes` writes. -/
def valueMutations (values : SortedMap Bytes Bytes) : List IndexMutation :=
  values.entries.map fun entry => ⟨.put, entry.2, entry.1⟩

/-! ## The operations -/

structure ColumnIndex where
  dir : Directory := {}
  legacy : Json := .object []
  state : BinaryColumnIndexState := {}
  logical : SortedMap Bytes Bytes := .empty

/-- `fs::remove` of each path. -/
def removeFiles (files : SortedMap String Bytes) (paths : List String) : SortedMap String Bytes :=
  paths.foldl SortedMap.erase files

/-- Write a snapshot and remove the first `removed` of the segments before it. -/
def publishSnapshot (dir : Directory) (wallClock : UInt64) (mutations : List IndexMutation)
    (removed : Nat) : Except String Directory := do
  let previous := listIndexSegments dir
  let (after, published) ← writeIndexSegment dir wallClock mutations true
  return { after with
    files := removeFiles after.files ((previous.take removed).filter fun path => path ≠ published) }

/-- A new process: it has no index in memory and remembers no stamp. -/
def ColumnIndex.restarted (s : ColumnIndex) : ColumnIndex :=
  { s with dir := { s.dir with lastStamp := 0 }, state := {} }

/-- The state without an index in memory. -/
def ColumnIndex.evicted (s : ColumnIndex) : ColumnIndex := { s with state := {} }

/-- `replaceBinaryColumnIndex`; none is an exception. -/
def replaceBinaryColumnIndex (config : IndexConfig) (s : ColumnIndex) (index : Json)
    (wallClock : UInt64) : Option ColumnIndex :=
  let mutations := binaryIndexSnapshotMutations config.dump index
  match publishSnapshot s.dir wallClock mutations (listIndexSegments s.dir).length with
  | .error _ => none
  | .ok dir =>
      some { dir, legacy := .object [], state := {},
             logical := applyValues .empty (sortMutations mutations) }

def ensureBinaryColumnIndex (config : IndexConfig) (s : ColumnIndex) (wallClock : UInt64) :
    Option ColumnIndex :=
  if (listIndexSegments s.dir).isEmpty then replaceBinaryColumnIndex config s s.legacy wallClock
  else some s

/-- `applyBinaryColumnIndexBatch`, with the last document of each id in the order of the
hash map. It reads the clock twice when the index has no segment yet. -/
def applyBinaryColumnIndexBatch (config : IndexConfig) (s : ColumnIndex)
    (latest : List (Bytes × Json)) (ensureClock wallClock : UInt64) : ColumnIndex :=
  match ensureBinaryColumnIndex config s ensureClock with
  | none => s
  | some s =>
      let mutations := latest.flatMap (docMutations config)
      if mutations.isEmpty then s
      else
        match writeIndexSegment s.dir wallClock mutations false with
        | .error _ => s
        | .ok (dir, _) =>
            { s with
              dir
              state :=
                if s.state.loaded then mutations.foldl applyBinaryIndexMutation s.state else s.state
              logical := applyValues s.logical mutations }

/-- `compactBinaryColumnIndexes`. -/
def compactBinaryColumnIndexes (config : IndexConfig) (s : ColumnIndex) (wallClock : UInt64) :
    ColumnIndex :=
  let segments := listIndexSegments s.dir
  if segments.length < config.threshold then s
  else
    match loadBinaryColumnIndexLocked s.dir s.state with
    | (state, false) => { s with state }
    | (state, true) =>
        match publishSnapshot s.dir wallClock (valueMutations state.valueById) segments.length with
        | .error _ => { s with state }
        | .ok dir => { s with dir, state }

/-! ## Histories -/

/-- What can happen to an index. The two crashes come after the snapshot is published
and the first `removed` of the older segments are gone. -/
inductive Event where
  | batch (docs : List Json) (latest : List (Bytes × Json)) (ensureClock wallClock : UInt64)
  | replace (index : Json) (wallClock : UInt64)
  | compact (wallClock : UInt64)
  | lookup
  | evict
  | restart
  | crashedReplace (index : Json) (wallClock : UInt64) (removed : Nat)
  | crashedCompact (wallClock : UInt64) (removed : Nat)

def step (config : IndexConfig) (s : ColumnIndex) : Event → Option ColumnIndex
  | .batch docs latest ensureClock wallClock =>
      if docs.isEmpty then some s
      else some (applyBinaryColumnIndexBatch config s latest ensureClock wallClock)
  | .replace index wallClock => some ((replaceBinaryColumnIndex config s index wallClock).getD s)
  | .compact wallClock => some (compactBinaryColumnIndexes config s wallClock)
  | .lookup =>
      if (listIndexSegments s.dir).isEmpty then some s
      else some { s with state := (loadBinaryColumnIndexLocked s.dir s.state).1 }
  | .evict => some s.evicted
  | .restart => some s.restarted
  | .crashedReplace index wallClock removed =>
      let mutations := binaryIndexSnapshotMutations config.dump index
      match publishSnapshot s.dir wallClock mutations removed with
      | .error _ => none
      | .ok dir =>
          let logical := applyValues .empty (sortMutations mutations)
          some { s with dir, logical }.restarted
  | .crashedCompact wallClock removed =>
      match loadBinaryColumnIndexLocked s.dir s.state with
      | (_, false) => none
      | (state, true) =>
          match publishSnapshot s.dir wallClock (valueMutations state.valueById) removed with
          | .error _ => none
          | .ok dir => some { s with dir }.restarted

/-- The reader takes what the writer publishes. -/
def Publishable (mutations : List IndexMutation) : Prop :=
  (∃ mutation ∈ mutations, ¬mutation.Fits) ∨ Readable mutations

/-- The stamps do not run out at the readings of the clock. -/
def StampsLeft : UInt64 → List UInt64 → Prop
  | _, [] => True
  | previous, wallClock :: rest => previous + 1 ≠ 0 ∧ StampsLeft (max wallClock (previous + 1)) rest

/-- The order of a hash map: some order of the last documents. -/
def Event.Ordered (config : IndexConfig) : Event → Prop
  | .batch docs latest _ _ => latest.Perm (latestDocs config.dump docs).entries
  | _ => True

/-- Each segment that the event may publish keeps the limits of the reader, and sorts
after the others. -/
def Event.Fits (config : IndexConfig) (s : ColumnIndex) : Event → Prop
  | .batch _ latest ensureClock wallClock =>
      Publishable (latest.flatMap (docMutations config)) ∧
        if (listIndexSegments s.dir).isEmpty then
          Publishable (binaryIndexSnapshotMutations config.dump s.legacy) ∧
            StampsLeft (previousStamp s.dir) [ensureClock, wallClock]
        else StampsLeft (previousStamp s.dir) [wallClock]
  | .replace index wallClock | .crashedReplace index wallClock _ =>
      Publishable (binaryIndexSnapshotMutations config.dump index) ∧
        StampsLeft (previousStamp s.dir) [wallClock]
  | .compact wallClock | .crashedCompact wallClock _ =>
      Publishable (valueMutations s.logical) ∧ StampsLeft (previousStamp s.dir) [wallClock]
  | _ => True

/-! ## Lists of mutations in the order of a segment -/

variable {config : IndexConfig} {s t : ColumnIndex} {dir after : Directory}
  {values : SortedMap Bytes Bytes} {mutations : List IndexMutation} {path : String}
  {wallClock : UInt64} {removed : Nat}

/-- An id has one entry, and the mutations of an entry are in order. -/
theorem sortedById_flatMap {ν : Type} {entries : List (Bytes × ν)}
    {mutationsOf : Bytes × ν → List IndexMutation}
    (distinct : entries.Pairwise fun first second => first.1 ≠ second.1)
    (own : ∀ entry, ∀ mutation ∈ mutationsOf entry, mutation.id = entry.1)
    (ordered : ∀ entry, (mutationsOf entry).Pairwise fun left right => left.sortKey ≤ right.sortKey) :
    SortedById (entries.flatMap mutationsOf) := by
  intro id
  rw [List.pairwise_filter, List.pairwise_flatMap]
  refine ⟨fun entry _ => (ordered entry).imp fun below _ _ => below, distinct.imp ?_⟩
  intro first second differ left leftOwn right rightOwn leftId rightId
  rw [decide_eq_true_eq] at leftId rightId
  rw [own first left leftOwn] at leftId
  rw [own second right rightOwn] at rightId
  exact absurd (leftId.trans rightId.symm) differ

theorem nil_le_bytes (value : Bytes) : [] ≤ value := by
  cases value with
  | nil => exact le_rfl
  | cons byte rest =>
    have below : ([] : Bytes) < byte :: rest := List.Lex.nil
    exact below.le

theorem id_of_mem_docMutations {entry : Bytes × Json} {mutation : IndexMutation}
    (member : mutation ∈ docMutations config entry) : mutation.id = entry.1 := by
  rcases List.mem_cons.mp member with rfl | member
  · rfl
  · split at member
    next =>
      split at member
      next => rw [List.mem_singleton.mp member]
      next => exact absurd member List.not_mem_nil
    next => exact absurd member List.not_mem_nil

theorem sorted_docMutations (entry : Bytes × Json) :
    (docMutations config entry).Pairwise fun left right => left.sortKey ≤ right.sortKey := by
  refine List.pairwise_cons.mpr ⟨fun mutation member => ?_, ?_⟩
  · have same := id_of_mem_docMutations (List.mem_cons_of_mem _ member)
    have code : (1 : UInt8) ≤ mutation.op.code := by
      cases mutation.op with
      | clear => decide
      | put => decide
    unfold IndexMutation.sortKey
    rw [Prod.Lex.toLex_le_toLex, Prod.Lex.toLex_le_toLex]
    rcases (nil_le_bytes mutation.value).lt_or_eq with below | empty
    · exact .inl below
    · exact .inr ⟨empty, .inr ⟨same.symm, code⟩⟩
  · split
    next =>
      split
      next => exact List.pairwise_singleton _ _
      next => exact .nil
    next => exact .nil

theorem sortedById_docMutations {docs : List Json} {latest : List (Bytes × Json)}
    (perm : latest.Perm (latestDocs config.dump docs).entries) :
    SortedById (latest.flatMap (docMutations config)) := by
  have distinct : (latestDocs config.dump docs).entries.Pairwise fun first second =>
      first.1 ≠ second.1 := (latestDocs config.dump docs).sorted.imp fun below => below.ne
  exact sortedById_flatMap ((perm.pairwise_iff fun differ => Ne.symm differ).mpr distinct)
    (fun _ _ => id_of_mem_docMutations) sorted_docMutations

theorem sortedById_valueMutations (values : SortedMap Bytes Bytes) :
    SortedById (valueMutations values) := by
  have single : valueMutations values =
      values.entries.flatMap fun entry => [⟨.put, entry.2, entry.1⟩] := List.map_eq_flatMap
  rw [single]
  apply sortedById_flatMap (values.sorted.imp fun below => below.ne)
  · intro entry mutation member
    rw [List.mem_singleton.mp member]
  · exact fun entry => List.pairwise_singleton _ _

/-- A snapshot of a map is that map. -/
theorem applyValues_valueMutations (values : SortedMap Bytes Bytes) :
    applyValues .empty (sortMutations (valueMutations values)) = values := by
  have append : ∀ (later : List (Bytes × Bytes)) (map : SortedMap Bytes Bytes),
      (map.entries ++ later).Pairwise (fun first second => first.1 < second.1) →
      (applyValues map (later.map fun entry => ⟨.put, entry.2, entry.1⟩)).entries =
        map.entries ++ later := by
    intro later
    induction later with
    | nil => exact fun map _ => (List.append_nil _).symm
    | cons entry rest ih =>
      intro map sorted
      have above : ∀ old ∈ map.entries, old.1 < entry.1 := fun old member =>
        (List.pairwise_append.mp sorted).2.2 old member entry (.head _)
      have grown : (map.assign entry.1 entry.2).entries = map.entries ++ [entry] :=
        SortedMap.entries_assign_of_above above
      have split : map.entries ++ entry :: rest = map.entries ++ [entry] ++ rest := by
        rw [List.append_assoc, List.singleton_append]
      rw [split, ← grown] at sorted ⊢
      exact ih (map.assign entry.1 entry.2) sorted
  rw [applyValues_sortMutations (sortedById_valueMutations values)]
  exact SortedMap.ext_entries (append values.entries .empty values.sorted)

/-! ## What a directory holds -/

/-- The segments from `values` on. -/
def replayFrom (values : SortedMap Bytes Bytes) (segments : List IndexSegment) :
    SortedMap Bytes Bytes :=
  segments.foldl (fun values segment =>
    applyValues (if segment.snapshot then .empty else values) segment.mutations) values

/-- Every segment of the directory is readable, and together they stand for `values`. -/
structure Holds (dir : Directory) (values : SortedMap Bytes Bytes) : Prop where
  stamped : Stamped dir
  replayed : ∃ segments, dir.files.entries.map (fun entry => readIndexSegment entry.2) =
    segments.map .ok ∧ replaySegments segments = values

theorem Holds.empty : Holds {} .empty where
  stamped := ⟨[], rfl, fun impossible => absurd rfl impossible⟩
  replayed := ⟨[], rfl, rfl⟩

theorem Holds.restart (holds : Holds dir values) : Holds { dir with lastStamp := 0 } values :=
  ⟨holds.stamped.restart, holds.replayed⟩

theorem loadSegments_ok {entries : List (String × Bytes)} {segments : List IndexSegment}
    {state : BinaryColumnIndexState}
    (found : ∀ entry ∈ entries, dir.files.find? entry.1 = some entry.2)
    (read : entries.map (fun entry => readIndexSegment entry.2) = segments.map .ok) :
    ∃ loaded, loadSegments dir (entries.map Prod.fst) state = (loaded, true) ∧
      loaded.loaded = true ∧ loaded.valueById = replayFrom state.valueById segments := by
  induction entries generalizing segments state with
  | nil =>
    obtain rfl : segments = [] := by
      simpa using read.symm
    exact ⟨_, rfl, rfl, rfl⟩
  | cons entry rest ih =>
    cases segments with
    | nil => cases read
    | cons segment others =>
      obtain ⟨first, later⟩ := List.cons.inj read
      dsimp only at first
      obtain ⟨here, elsewhere⟩ := List.forall_mem_cons.mp found
      rw [List.map_cons, loadSegments, here, Option.map_some, first]
      obtain ⟨loaded, done, isLoaded, value⟩ := @ih others
        (segment.mutations.foldl applyBinaryIndexMutation
          (if segment.snapshot then { state with valueById := .empty, idsByValue := .empty } else state))
        elsewhere later
      refine ⟨loaded, done, isLoaded, value.trans ?_⟩
      rw [valueById_foldl, replayFrom, replayFrom, List.foldl_cons]
      congr 2
      split
      · rfl
      · rfl

/-- Loading yields what the directory holds. -/
theorem Holds.load (holds : Holds dir values) {state : BinaryColumnIndexState}
    (cached : state.loaded = true → state.valueById = values) :
    ∃ loaded, loadBinaryColumnIndexLocked dir state = (loaded, true) ∧ loaded.loaded = true ∧
      loaded.valueById = values := by
  obtain ⟨segments, read, whole⟩ := holds.replayed
  rw [loadBinaryColumnIndexLocked, holds.stamped.listIndexSegments_eq]
  split
  next isLoaded => exact ⟨state, rfl, isLoaded, cached isLoaded⟩
  next =>
    rw [← whole]
    exact loadSegments_ok (fun entry member => SortedMap.find?_eq_some.mpr member) read

theorem Holds.append (holds : Holds dir values) (room : previousStamp dir + 1 ≠ 0)
    (readable : Publishable mutations) (sorted : SortedById mutations)
    (wrote : writeIndexSegment dir wallClock mutations false = .ok (after, path)) :
    Holds after (applyValues values mutations) := by
  obtain ⟨file, fileOf, rfl, rfl⟩ := writeIndexSegment_eq_ok.mp wrote
  obtain ⟨segments, read, whole⟩ := holds.replayed
  have back := readIndexSegment_of_readable fileOf (readable.resolve_left fun ⟨mutation, member, refused⟩ =>
    refused ((segmentFile_eq_ok.mp fileOf).1 mutation member))
  refine ⟨holds.stamped.write room file, segments ++ [⟨false, sortMutations mutations⟩], ?_, ?_⟩
  · rw [holds.stamped.entries_assign room, List.map_append, read, List.map_append]
    exact congrArg (fun last => segments.map Except.ok ++ [last]) back
  · rw [replaySegments, List.foldl_append, List.foldl_cons, List.foldl_nil]
    have start : segments.foldl (fun values segment =>
        applyValues (if segment.snapshot then .empty else values) segment.mutations) .empty = values := whole
    rw [start]
    exact applyValues_sortMutations sorted values

theorem entries_removeFiles (files : SortedMap String Bytes) (paths : List String) :
    (removeFiles files paths).entries = files.entries.filter fun entry => entry.1 ∉ paths := by
  induction paths generalizing files with
  | nil => exact (List.filter_eq_self.mpr fun entry _ => by simp).symm
  | cons path rest ih =>
    rw [removeFiles, List.foldl_cons]
    have step := ih (files.erase path)
    rw [removeFiles] at step
    rw [step, SortedMap.erase, List.filter_filter]
    apply List.filter_congr
    intro entry _
    simp only [List.mem_cons, not_or, Bool.decide_and, decide_not]
    exact Bool.and_comm _ _

/-- After a snapshot the directory holds it, whichever older segments are left. -/
theorem Holds.snapshot (holds : Holds dir values) (room : previousStamp dir + 1 ≠ 0)
    (readable : Publishable mutations)
    (published : publishSnapshot dir wallClock mutations removed = .ok after) :
    Holds after (applyValues .empty (sortMutations mutations)) ∧
      after.lastStamp = nextStamp dir wallClock := by
  cases wrote : writeIndexSegment dir wallClock mutations true with
  | error reason =>
    rw [publishSnapshot, wrote] at published
    cases published
  | ok written =>
    obtain ⟨full, path⟩ := written
    rw [publishSnapshot, wrote] at published
    obtain rfl := Except.ok.inj published
    obtain ⟨file, fileOf, rfl, rfl⟩ := writeIndexSegment_eq_ok.mp wrote
    obtain ⟨segments, read, -⟩ := holds.replayed
    have back := readIndexSegment_of_readable fileOf
      (readable.resolve_left fun ⟨mutation, member, refused⟩ =>
        refused ((segmentFile_eq_ok.mp fileOf).1 mutation member))
    have entries : (dir.files.assign (segmentName (nextStamp dir wallClock)) file).entries =
        dir.files.entries ++ [(segmentName (nextStamp dir wallClock), file)] :=
      holds.stamped.entries_assign room file
    generalize names : ((listIndexSegments dir).take removed).filter
      (fun path => path ≠ segmentName (nextStamp dir wallClock)) = gone
    have stays : segmentName (nextStamp dir wallClock) ∉ gone := by
      rw [← names, List.mem_filter]
      exact fun member => of_decide_eq_true member.2 rfl
    have left : (removeFiles (dir.files.assign (segmentName (nextStamp dir wallClock)) file)
        gone).entries = (dir.files.entries.filter fun entry => entry.1 ∉ gone) ++
          [(segmentName (nextStamp dir wallClock), file)] := by
      rw [entries_removeFiles, entries, List.filter_append]
      congr 1
      exact List.filter_cons_of_pos (by simpa using stays)
    have sublist : (dir.files.entries.filter fun entry => entry.1 ∉ gone).Sublist
        dir.files.entries := List.filter_sublist
    have someRead := sublist.map fun entry => readIndexSegment entry.2
    rw [read] at someRead
    obtain ⟨kept, -, keptRead⟩ := List.sublist_map_iff.mp someRead
    refine ⟨⟨?_, kept ++ [⟨true, sortMutations mutations⟩], ?_, ?_⟩, rfl⟩
    · apply (holds.stamped.write room file).sublist
      dsimp only
      rw [left, entries, List.map_append, List.map_append]
      exact (sublist.map Prod.fst).append (.refl _)
    · dsimp only
      rw [left, List.map_append, keptRead, List.map_append]
      exact congrArg (fun last => kept.map Except.ok ++ [last]) back
    · rw [replaySegments, List.foldl_append]
      rfl

end PacificDb.Index
