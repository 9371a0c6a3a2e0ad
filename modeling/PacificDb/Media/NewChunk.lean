import PacificDb.Media.UploadKeeps

/-!
# A new chunk

A chunk is stored before the progress is moved on, and only the progress says whether the
chunk fits and whether there is a lease (`advanceMediaProgress_eq_ok`). When it does, the
numbers that are moved on are the ones of the rows with the new one (`Maintained.insert`).
-/

namespace PacificDb.Media

open Lib Engine

/-! ## Moving the numbers on -/

variable {store : Store} {mediaId : String} {manifest changed : Manifest} {call : PutCall}
  {durable found : SortedMap Int ChunkIdentity} {truncate truncateInt : Nat → Int}
  {decodeBlock : Bytes → Option Bytes} {sha256Hex : Bytes → String}

theorem keys_put {entries : List (Int × ChunkIdentity)} {index : Int} {identity : ChunkIdentity}
    (sorted : entries.Pairwise fun first second => first.1 < second.1)
    (absent : index ∉ entries.map Prod.fst) :
    (SortedMap.put entries index identity).map Prod.fst = insertIndex (entries.map Prod.fst) index := by
  induction entries with
  | nil => rfl
  | cons entry rest ih =>
    obtain ⟨first, later⟩ := List.pairwise_cons.mp sorted
    rw [List.map_cons, List.mem_cons, not_or] at absent
    rw [SortedMap.put, if_neg absent.1]
    split
    next before =>
      rw [insertIndex, List.map_cons, List.map_cons, List.takeWhile_cons_of_neg,
        List.dropWhile_cons_of_neg]
      · rfl
      · simpa using before.le
      · simpa using before.le
    next behind =>
      have before : entry.1 < index := lt_of_le_of_ne (not_lt.mp behind) (Ne.symm absent.1)
      rw [insertIndex, List.map_cons, List.map_cons, ih later absent.2, insertIndex,
        List.takeWhile_cons_of_pos, List.dropWhile_cons_of_pos]
      · rfl
      · simpa using before
      · simpa using before

theorem bytesOf_assign {index : Int} {identity : ChunkIdentity} (absent : durable.find? index = none) :
    bytesOf (durable.assign index identity) = bytesOf durable + identity.size := by
  have perm := @SortedMap.perm_assign _ _ _ index identity durable
  rw [SortedMap.entries_erase_of_absent durable absent] at perm
  have sums := (perm.map fun entry => entry.2.size).sum_eq
  rw [List.map_cons, List.sum_cons] at sums
  rw [bytesOf, sums, add_comm]
  rfl

/-- The loop of `advanceMediaProgress` ends at the first index that is not there. -/
theorem advanceNext_spec {indices : List Int} {remaining : Nat} {start : Int} :
    start ≤ advanceNext indices remaining start ∧
      advanceNext indices remaining start ≤ start + remaining ∧
      (advanceNext indices remaining start = start + remaining ∨
        advanceNext indices remaining start ∉ indices) ∧
      ∀ place, start ≤ place → place < advanceNext indices remaining start → place ∈ indices := by
  induction remaining generalizing start with
  | zero =>
    rw [advanceNext]
    exact ⟨le_rfl, by simp, .inl (by simp), fun place behind before => absurd before (not_lt.mpr behind)⟩
  | succ remaining ih =>
    rw [advanceNext]
    split
    next present =>
      obtain ⟨least, most, last, all⟩ := @ih (start + 1)
      refine ⟨by omega, by push_cast; omega, ?_, fun place behind before => ?_⟩
      · rcases last with isEnd | missing
        · exact .inl (by push_cast; omega)
        · exact .inr missing
      · rcases eq_or_lt_of_le behind with rfl | later
        · exact present
        · exact all place (by omega) before
    next missing =>
      exact ⟨le_rfl, by push_cast; omega, .inr missing,
        fun place behind before => absurd before (not_lt.mpr behind)⟩

/-- The maintained index is the one that the whole loop would find. -/
theorem advanceNext_eq {count index : Int} {identity : ChunkIdentity} (positive : 0 < count)
    (below : ∀ place identity, durable.find? place = some identity → place < count)
    (inside : index < count) :
    let started := nextMissing durable count count.toNat 0
    advanceNext ((durable.assign index identity).entries.map Prod.fst)
        (count - max 0 started).toNat (max 0 started) =
      nextMissing (durable.assign index identity) count count.toNat 0 := by
  intro started
  have later : ∀ place own, (durable.assign index identity).find? place = some own → place < count := by
    intro place own isOwn
    rw [SortedMap.find?_assign] at isOwn
    split at isOwn
    next same => exact same ▸ inside
    next => exact below place own isOwn
  have present : ∀ place, place ∈ (durable.assign index identity).entries.map Prod.fst ↔
      (durable.assign index identity).find? place ≠ none := by
    intro place
    rw [Option.ne_none_iff_exists']
    simp [SortedMap.find?_eq_some]
  obtain ⟨least, most, -, filled⟩ := @nextMissing_spec count durable count.toNat 0 (by omega) below
  obtain ⟨start, bound, missing, all⟩ :=
    @nextMissing_spec count (durable.assign index identity) count.toNat 0 (by omega) later
  have isStart : max 0 started = started := max_eq_right least
  rw [isStart]
  obtain ⟨from', to', last, passed⟩ := @advanceNext_spec
    ((durable.assign index identity).entries.map Prod.fst) (count - started).toNat started
  have isEnd : started + ((count - started).toNat : Int) = count := by omega
  rw [isEnd] at to' last
  apply le_antisymm
  · by_contra beyond
    have reached := (present _).mp (passed _ ?_ (not_le.mp beyond))
    · exact reached missing
    · -- Everything before the old index is there, and stays.
      by_contra before
      have old := filled _ start (not_le.mp before)
      have kept : (durable.assign index identity).find?
          (nextMissing (durable.assign index identity) count count.toNat 0) ≠ none := by
        rw [SortedMap.find?_assign]
        split
        · simp
        · exact old
      exact kept missing
  · by_contra beyond
    have isThere := all _ (le_trans least from') (not_le.mp beyond)
    rcases last with isCount | missing
    · omega
    · exact missing ((present _).mpr isThere)

theorem leaseFrom_spec {moment : Moment} {lease : Int} (isLease : leaseFrom moment = .ok lease) :
    0 < lease ∧ lease ≤ int64Max := by
  simp only [leaseFrom, bind_eq_ok, pure_eq_ok, ensure_eq_ok, decide_eq_true_eq] at isLease
  obtain ⟨duration, isDuration, -, fits, rfl⟩ := isLease
  have positive : 0 < duration := by
    unfold mediaLeaseDurationMs at isDuration
    split at isDuration
    next =>
      cases isDuration
      decide
    next => cases isDuration
    next =>
      split at isDuration
      next isPositive =>
        cases isDuration
        exact isPositive
      next => cases isDuration
  omega

/-- The members that a new chunk sets. -/
def advanced (manifest : Manifest) (index sizeBytes lease : Int) : ProgressFields where
  stateVersion := 2
  receivedChunks := (insertIndex manifest.receivedIndices index).length
  receivedBytes := manifest.receivedBytes + sizeBytes
  nextChunk := advanceNext (insertIndex manifest.receivedIndices index)
    (manifest.chunkCount.toInt - max 0 manifest.nextChunk).toNat (max 0 manifest.nextChunk)
  receivedIndices := insertIndex manifest.receivedIndices index
  leaseExpiresAtMs := some lease
  resumable := true

theorem advanceMediaProgress_eq_ok {index sizeBytes : Int} {moment : Moment} {fields : ProgressFields}
    (absent : index ∉ manifest.receivedIndices) (notNegative : 0 ≤ manifest.receivedBytes) :
    advanceMediaProgress manifest index sizeBytes moment = .ok fields ↔
      manifest.receivedBytes + sizeBytes ≤ manifest.sizeBytes.toInt ∧
        ∃ lease, leaseFrom moment = .ok lease ∧ advanced manifest index sizeBytes lease = fields := by
  have notThere : (manifest.receivedIndices.dropWhile (· < index)).head? ≠ some index := by
    intro isHead
    exact absent ((List.dropWhile_sublist _).subset (List.mem_of_mem_head? isHead))
  have most := Int64.toInt_lt manifest.sizeBytes
  simp only [advanceMediaProgress, bind_eq_ok, pure_eq_ok, ensure_eq_ok, Bool.and_eq_true,
    decide_eq_true_eq]
  constructor
  · intro isOk
    obtain ⟨-, -, -, within, lease, isLease, same⟩ := isOk
    exact ⟨within.2, lease, isLease, same⟩
  · intro both
    obtain ⟨within, lease, isLease, same⟩ := both
    refine ⟨(), notThere, (), ⟨⟨notNegative, ?_⟩, within⟩, lease, isLease, same⟩
    rw [int64Max]
    omega

theorem findManifest_eq_ok (isFound : findManifest store mediaId = .ok manifest) :
    store.manifests.find? mediaId = some manifest := by
  rw [findManifest] at isFound
  cases found : store.manifests.find? mediaId with
  | none =>
    rw [found] at isFound
    cases isFound
  | some own =>
    rw [found] at isFound
    cases isFound
    rfl

/-- The checks that a chunk passes before the rows are looked at. -/
theorem acceptChunk_spec (accepted : acceptChunk decodeBlock sha256Hex store call = .ok manifest) :
    store.manifests.find? call.mediaId = some manifest ∧ 0 ≤ call.sizeBytes.toInt ∧
      0 ≤ call.index.toInt ∧ call.index.toInt < manifest.chunkCount.toInt := by
  simp only [acceptChunk, bind_eq_ok, pure_eq_ok, ensure_eq_ok, Bool.and_eq_true,
    decide_eq_true_eq] at accepted
  obtain ⟨-, -, decoded, -, -, size, -, -, present, isFound, -, -, -, inside, rfl⟩ := accepted
  exact ⟨findManifest_eq_ok isFound, size.1, inside.1, inside.2⟩

/-! ## The row -/

/-- The collections with the row of the call. -/
def PutCall.insert (call : PutCall) (store : Store) : Store :=
  { store with chunks := store.chunks.assign call.chunkId call.row }

section

variable (kept : Kept store) (present : store.manifests.find? call.mediaId = some manifest)
  (size : 0 ≤ call.sizeBytes.toInt) (least : 0 ≤ call.index.toInt)
  (most : call.index.toInt < manifest.chunkCount.toInt)
  (absent : store.chunks.find? call.chunkId = none)

theorem find?_insert (absent : store.chunks.find? call.chunkId = none) {key : String} {row : ChunkRow} :
    (call.insert store).chunks.find? key = some row ↔
      store.chunks.find? key = some row ∨ key = call.chunkId ∧ row = call.row := by
  change (store.chunks.assign call.chunkId call.row).find? key = some row ↔ _
  rw [SortedMap.find?_assign]
  split
  next same =>
    subst same
    simp [absent, eq_comm]
  next differs => simp [differs]

theorem mem_ownedChunks_insert (absent : store.chunks.find? call.chunkId = none) {row : ChunkRow} :
    row ∈ ownedChunks (call.insert store) mediaId ↔
      row ∈ ownedChunks store mediaId ∨ mediaId = call.mediaId ∧ row = call.row := by
  rw [mem_ownedChunks, mem_ownedChunks]
  simp only [find?_insert absent]
  constructor
  · intro left
    obtain ⟨⟨key, isRow | ⟨-, rfl⟩⟩, rfl⟩ := left
    · exact .inl ⟨⟨key, isRow⟩, rfl⟩
    · exact .inr ⟨rfl, rfl⟩
  · intro either
    rcases either with ⟨⟨key, isRow⟩, own⟩ | ⟨rfl, rfl⟩
    · exact ⟨⟨key, .inl isRow⟩, own⟩
    · exact ⟨⟨call.chunkId, .inr ⟨rfl, rfl⟩⟩, rfl⟩

include kept present size least most absent

theorem placed_insert : Placed (call.insert store) := by
  refine ⟨fun key row isRow => ?_, fun key row isRow => ?_, fun key row isRow => ?_⟩
  · rcases (find?_insert absent).mp isRow with old | ⟨rfl, rfl⟩
    · exact kept.placed.named key row old
    · exact ⟨rfl, rfl⟩
  · rcases (find?_insert absent).mp isRow with old | ⟨rfl, rfl⟩
    · exact kept.placed.inside key row old
    · exact ⟨least, size⟩
  · rcases (find?_insert absent).mp isRow with old | ⟨rfl, rfl⟩
    · exact kept.placed.owned key row old
    · exact ⟨manifest, present, most⟩

omit present size least most in
/-- The index of a new chunk is not in the map of the upload. -/
theorem inventory_new (inventory : Inventory store call.mediaId durable) :
    durable.find? call.index.toInt = none := by
  by_contra isThere
  obtain ⟨identity, found⟩ := Option.ne_none_iff_exists'.mp isThere
  obtain ⟨row, isOwned, same, -⟩ := (inventory _ identity).mp found
  have isRow := ((mem_ownedChunks_iff kept.placed).mp isOwned).1
  rw [same] at isRow
  rw [PutCall.chunkId, isRow] at absent
  cases absent

omit present size least most in
theorem inventory_insert (inventory : Inventory store call.mediaId durable) :
    Inventory (call.insert store) call.mediaId
      (durable.assign call.index.toInt call.row.identity) := by
  have none := inventory_new kept absent inventory
  intro index identity
  rw [SortedMap.find?_assign]
  simp only [mem_ownedChunks_insert absent]
  by_cases same : index = call.index.toInt
  · rw [if_pos same]
    constructor
    · intro isIdentity
      exact ⟨call.row, .inr ⟨trivial, rfl⟩, same.symm, Option.some.inj isIdentity⟩
    · intro found
      obtain ⟨row, isOwned | ⟨-, rfl⟩, isIndex, isIdentity⟩ := found
      · have old := (inventory index identity).mpr ⟨row, isOwned, isIndex, isIdentity⟩
        rw [same, none] at old
        cases old
      · exact congrArg some isIdentity
  · rw [if_neg same, inventory index identity]
    constructor
    · intro found
      obtain ⟨row, isOwned, both⟩ := found
      exact ⟨row, .inl isOwned, both⟩
    · intro found
      obtain ⟨row, isOwned | ⟨-, rfl⟩, isIndex, isIdentity⟩ := found
      · exact ⟨row, isOwned, isIndex, isIdentity⟩
      · exact absurd isIndex.symm same

omit kept present size least most in
theorem inventory_insert_other (differs : mediaId ≠ call.mediaId) :
    Inventory (call.insert store) mediaId durable ↔ Inventory store mediaId durable := by
  simp only [Inventory, mem_ownedChunks_insert absent, differs, false_and, or_false]

/-- A new chunk that fits leaves uploads that can be read. -/
theorem Kept.insert (within : ∀ durable, Inventory store call.mediaId durable →
      bytesOf durable + call.sizeBytes.toInt ≤ manifest.sizeBytes.toInt) : Kept (call.insert store) := by
  refine ⟨placed_insert kept present size least most absent, kept.legible, fun id own isOwn => ?_⟩
  obtain ⟨durable, inventory, fits⟩ := kept.fits id own isOwn
  by_cases same : id = call.mediaId
  · subst same
    change store.manifests.find? call.mediaId = some own at isOwn
    rw [present] at isOwn
    cases isOwn
    refine ⟨_, inventory_insert kept absent inventory, ?_⟩
    rw [bytesOf_assign (inventory_new kept absent inventory)]
    exact within durable inventory
  · exact ⟨durable, (inventory_insert_other absent same).mpr inventory, fits⟩

omit size least in
theorem Maintained.insert (maintained : Maintained store) {lease : Int} :
    Maintained ((call.insert store).setManifest call.mediaId
      (manifest.update (advanced manifest call.index.toInt call.sizeBytes.toInt lease))) := by
  intro id own durable isOwn inventory
  rw [find?_setManifest] at isOwn
  split at isOwn
  next same =>
    cases isOwn
    subst same
    obtain ⟨before, isBefore, -⟩ := kept.fits _ manifest present
    have counts := maintained _ manifest before present isBefore
    have isAbsent := inventory_new kept absent isBefore
    cases inventory.unique (inventory_insert kept absent isBefore)
    have keys : (before.assign call.index.toInt call.row.identity).entries.map Prod.fst =
        insertIndex manifest.receivedIndices call.index.toInt := by
      rw [counts.indices]
      apply keys_put before.sorted
      intro member
      obtain ⟨entry, isEntry, isIndex⟩ := List.mem_map.mp member
      have found := SortedMap.find?_eq_some.mpr (show (call.index.toInt, entry.2) ∈ before.entries from
        isIndex ▸ isEntry)
      rw [isAbsent] at found
      cases found
    refine ⟨?_, ?_, ?_, keys.symm⟩
    · rw [← @List.length_map _ _ _ Prod.fst, keys]
      rfl
    · rw [bytesOf_assign isAbsent, ← counts.bytes]
      rfl
    · have below : ∀ place identity, before.find? place = some identity →
          place < manifest.chunkCount.toInt := by
        intro place identity found
        obtain ⟨row, isOwned, rfl, -⟩ := (isBefore place identity).mp found
        exact kept.inside present row isOwned
      have next := @advanceNext_eq before manifest.chunkCount.toInt call.index.toInt call.row.identity
        (kept.legible _ manifest present).count below most
      rw [keys, ← counts.next] at next
      exact next
  next differs =>
    exact maintained id own durable isOwn ((inventory_insert_other absent differs).mp inventory)

end

end PacificDb.Media
