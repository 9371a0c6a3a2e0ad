import PacificDb.Media.Upload
import Mathlib.Data.List.Sort

/-!
# The chunks of an upload

The rows of an upload have ids made of the upload and the index, so an upload has at most
one row for an index. Both ways of reading them, by the indices of the manifest and by the
filter of the owner, come to the same rows, in the order of the indices
(`rawMediaChunks_spec`). The progress that is worked out from them is the one of a map from
indices to chunks, and exists when the sizes fit (`reconstruct_eq`).
-/

namespace PacificDb.Media

open Lib Engine

/-! ## Ids -/

theorem toList_toString (number : Nat) : (toString number).toList = Nat.toDigits 10 number :=
  String.toList_ofList

theorem toList_negSucc (number : Nat) :
    (toString (Int.negSucc number)).toList = '-' :: Nat.toDigits 10 (number + 1) := by
  change ("-" ++ toString (number + 1)).toList = _
  rw [String.toList_append, toList_toString]
  rfl

theorem isDigit_of_toDigits {c : Char} {number : Nat} (member : c ∈ Nat.toDigits 10 number) :
    c.isDigit = true :=
  Nat.isDigit_of_mem_toDigits (by decide) (by decide) member

theorem noColon_toString (index : Int) : ':' ∉ (toString index).toList := by
  cases index with
  | ofNat number =>
    change ':' ∉ (toString number).toList
    rw [toList_toString]
    intro member
    exact absurd (isDigit_of_toDigits member) (by decide)
  | negSucc number =>
    rw [toList_negSucc]
    intro member
    rcases List.mem_cons.mp member with dash | digit
    · exact absurd dash (by decide)
    · exact absurd (isDigit_of_toDigits digit) (by decide)

theorem toString_injective {index place : Int} (same : toString index = toString place) :
    index = place := by
  have dash : ∀ first second : Nat, toString (Int.ofNat first) ≠ toString (Int.negSucc second) := by
    intro first second equal
    have lists := congrArg String.toList equal
    change (toString first).toList = _ at lists
    rw [toList_toString, toList_negSucc] at lists
    have isDigit := @isDigit_of_toDigits '-' first (lists ▸ .head _)
    exact absurd isDigit (by decide)
  have digits : ∀ first second : Nat, Nat.toDigits 10 first = Nat.toDigits 10 second → first = second := by
    intro first second equal
    rw [← @Nat.ofDigitChars_ten_toDigits first, equal, Nat.ofDigitChars_ten_toDigits]
  cases index with
  | ofNat first =>
    cases place with
    | ofNat second =>
      have lists := congrArg String.toList same
      change (toString first).toList = (toString second).toList at lists
      rw [toList_toString, toList_toString] at lists
      rw [digits first second lists]
    | negSucc second => exact absurd same (dash first second)
  | negSucc first =>
    cases place with
    | ofNat second => exact absurd same.symm (dash second first)
    | negSucc second =>
      have lists := congrArg String.toList same
      rw [toList_negSucc, toList_negSucc] at lists
      have next := digits _ _ (List.cons.inj lists).2
      rw [Nat.succ.inj next]

/-- The id of a row says whose chunk it is and which one. -/
theorem chunkId_injective {mediaId other : String} {index place : Int}
    (same : chunkId mediaId index = chunkId other place) : mediaId = other ∧ index = place := by
  have chars : ∀ (id : String) (number : Int), (chunkId id number).toList.reverse =
      (toString number).toList.reverse ++ ':' :: id.toList.reverse := by
    intro id number
    rw [chunkId, String.toList_append, String.toList_append, List.reverse_append, List.reverse_append]
    rfl
  have lists := congrArg (fun id : String => id.toList.reverse) same
  rw [chars, chars] at lists
  -- The colon of the id is the last one.
  have parts := List.append_eq_append_iff.mp lists
  have noColon : ∀ number : Int, ':' ∉ (toString number).toList.reverse :=
    fun number member => noColon_toString number (List.mem_reverse.mp member)
  have equal : (toString index).toList.reverse = (toString place).toList.reverse ∧
      mediaId.toList.reverse = other.toList.reverse := by
    rcases parts with ⟨rest, longer, tail⟩ | ⟨rest, longer, tail⟩
    · cases rest with
      | nil =>
        rw [List.append_nil] at longer
        exact ⟨longer.symm, (List.cons.inj tail).2⟩
      | cons c rest =>
        have isColon := (List.cons.inj tail).1
        exact absurd (longer ▸ List.mem_append_right _ (isColon ▸ .head _)) (noColon place)
    · cases rest with
      | nil =>
        rw [List.append_nil] at longer
        exact ⟨longer, (List.cons.inj tail).2.symm⟩
      | cons c rest =>
        have isColon := (List.cons.inj tail).1
        exact absurd (longer ▸ List.mem_append_right _ (isColon ▸ .head _)) (noColon index)
  refine ⟨String.toList_inj.mp (List.reverse_inj.mp equal.2), ?_⟩
  exact toString_injective (String.toList_inj.mp (List.reverse_inj.mp equal.1))

/-! ## Rows -/

/-- What holds of the rows whatever becomes of the uploads. -/
structure Placed (store : Store) : Prop where
  named : ∀ key row, store.chunks.find? key = some row →
    row.id = key ∧ key = chunkId row.mediaId row.index.toInt
  inside : ∀ key row, store.chunks.find? key = some row → 0 ≤ row.index.toInt ∧ 0 ≤ row.sizeBytes.toInt
  owned : ∀ key row, store.chunks.find? key = some row →
    ∃ manifest, store.manifests.find? row.mediaId = some manifest ∧
      row.index.toInt < manifest.chunkCount.toInt

variable {store : Store} {mediaId : String} {row other : ChunkRow}

theorem mem_ownedChunks : row ∈ ownedChunks store mediaId ↔
    (∃ key, store.chunks.find? key = some row) ∧ row.mediaId = mediaId := by
  simp only [ownedChunks, List.mem_filter, List.mem_map, decide_eq_true_eq, Prod.exists,
    exists_eq_right, SortedMap.find?_eq_some]

theorem mem_ownedChunks_iff (placed : Placed store) : row ∈ ownedChunks store mediaId ↔
    store.chunks.find? (chunkId mediaId row.index.toInt) = some row ∧ row.mediaId = mediaId := by
  rw [mem_ownedChunks]
  refine and_congr_left fun own => ⟨fun found => ?_, fun found => ⟨_, found⟩⟩
  obtain ⟨key, found⟩ := found
  rw [← own, ← (placed.named key row found).2]
  exact found

theorem ownedChunks_index (placed : Placed store) (first : row ∈ ownedChunks store mediaId)
    (second : other ∈ ownedChunks store mediaId) (same : row.index.toInt = other.index.toInt) :
    row = other := by
  have one := ((mem_ownedChunks_iff placed).mp first).1
  have two := ((mem_ownedChunks_iff placed).mp second).1
  rw [same, two] at one
  exact (Option.some.inj one).symm

theorem nodup_ownedChunks (placed : Placed store) : (ownedChunks store mediaId).Nodup := by
  apply List.Nodup.filter
  apply List.Nodup.map_on _ (SortedMap.nodup_entries store.chunks)
  intro entry member place second same
  have one := placed.named entry.1 entry.2 (SortedMap.find?_eq_some.mpr member)
  have two := placed.named place.1 place.2 (SortedMap.find?_eq_some.mpr second)
  rw [same] at one
  exact Prod.ext (one.2.trans two.2.symm) same

/-- The rows that the indices of a manifest lead to. -/
theorem hintedChunks_spec (placed : Placed store) {chunkCount : Int} {previous : Int}
    {indices : List Int} :
    (∀ row ∈ hintedChunks store mediaId chunkCount previous indices,
      row ∈ ownedChunks store mediaId ∧ previous < row.index.toInt) ∧
    (hintedChunks store mediaId chunkCount previous indices).Pairwise
      fun row other => row.index.toInt < other.index.toInt := by
  induction indices generalizing previous with
  | nil => simp [hintedChunks]
  | cons index rest ih =>
    rw [hintedChunks]
    split
    next => simp
    next ahead =>
      push Not at ahead
      cases found : store.chunks.find? (chunkId mediaId index) with
      | none => simp
      | some row =>
        dsimp only
        split
        next => simp
        next own =>
          push Not at own
          obtain ⟨members, sorted⟩ := @ih index
          have isOwned : row ∈ ownedChunks store mediaId :=
            (mem_ownedChunks_iff placed).mpr ⟨own.2 ▸ found, own.1⟩
          refine ⟨List.forall_mem_cons.mpr ⟨⟨isOwned, own.2 ▸ ahead.1⟩, fun later member => ?_⟩,
            List.pairwise_cons.mpr ⟨fun later member => ?_, sorted⟩⟩
          · exact ⟨(members later member).1, ahead.1.trans (members later member).2⟩
          · rw [own.2]
            exact (members later member).2

/-- The rows of an upload are read once each and in order. -/
theorem rawMediaChunks_spec (placed : Placed store) {manifest : Manifest}
    (found : store.manifests.find? mediaId = some manifest) :
    (rawMediaChunks store mediaId).Perm (ownedChunks store mediaId) ∧
      (rawMediaChunks store mediaId).Pairwise fun row other => row.index.toInt < other.index.toInt := by
  rw [rawMediaChunks, found]
  dsimp only
  split
  next full =>
    obtain ⟨members, sorted⟩ := @hintedChunks_spec store mediaId placed manifest.chunkCount.toInt (-1)
      manifest.receivedIndices
    refine ⟨?_, sorted⟩
    have nodup : (hintedChunks store mediaId manifest.chunkCount.toInt (-1)
        manifest.receivedIndices).Nodup :=
      sorted.imp fun before same => before.ne (congrArg (fun row => row.index.toInt) same)
    exact (List.subperm_of_subset nodup fun row member => (members row member).1).perm_of_length_le full.2.ge
  next =>
    have perm := List.mergeSort_perm (ownedChunks store mediaId)
      fun left right => left.index.toInt ≤ right.index.toInt
    refine ⟨perm, ?_⟩
    have ordered := @List.pairwise_mergeSort _
      (fun left right : ChunkRow => decide (left.index.toInt ≤ right.index.toInt))
      (fun a b c first second => by
        rw [decide_eq_true_eq] at first second ⊢
        exact first.trans second)
      (fun a b => by simp [le_total]) (ownedChunks store mediaId)
    have nodup := perm.nodup_iff.mpr (nodup_ownedChunks placed)
    refine List.Pairwise.imp_of_mem ?_ (ordered.and nodup)
    intro row other first second both
    refine lt_of_le_of_ne (of_decide_eq_true both.1) fun same => both.2 ?_
    exact ownedChunks_index placed (perm.mem_iff.mp first) (perm.mem_iff.mp second) same

/-! ## The progress of the rows -/

def ChunkRow.identity (row : ChunkRow) : ChunkIdentity := ⟨row.sizeBytes.toInt, row.sha256⟩

/-- The map from indices to chunks that the rows of an upload are. -/
def Inventory (store : Store) (mediaId : String) (durable : SortedMap Int ChunkIdentity) : Prop :=
  ∀ index identity, durable.find? index = some identity ↔
    ∃ row ∈ ownedChunks store mediaId, row.index.toInt = index ∧ row.identity = identity

/-- The sizes of the chunks in a map. -/
def bytesOf (durable : SortedMap Int ChunkIdentity) : Int :=
  (durable.entries.map fun entry => entry.2.size).sum

/-- What is read from a manifest that makes sense. -/
structure Manifest.Legible (manifest : Manifest) : Prop where
  count : 0 < manifest.chunkCount.toInt
  size : 0 ≤ manifest.sizeBytes.toInt
  version : manifest.stateVersion = 2
  leased : 0 < manifest.leaseExpiresAtMs
  leaseFits : manifest.leaseExpiresAtMs ≤ int64Max

def Manifest.limits (manifest : Manifest) : MediaLimits :=
  ⟨manifest.chunkCount.toInt, manifest.sizeBytes.toInt, manifest.stateVersion, manifest.leaseExpiresAtMs⟩

/-- The progress that a map of chunks comes to. -/
def summary (limits : MediaLimits) (durable : SortedMap Int ChunkIdentity) : MediaProgress where
  stateVersion := limits.stateVersion
  receivedChunks := durable.entries.length
  receivedBytes := bytesOf durable
  nextMissingIndex := nextMissing durable limits.chunkCount limits.chunkCount.toNat 0
  leaseExpiresAtMs := limits.leaseExpiresAtMs
  receivedIndices := durable.entries.map Prod.fst

theorem wrapInt64_of_fits {value : Int} (least : -2 ^ 63 ≤ value) (most : value ≤ int64Max) :
    Json.wrapInt64 value = value := by
  rw [int64Max] at most
  apply Int.bmod_eq_of_le
  · exact le_trans (by decide) least
  · exact lt_of_le_of_lt most (by decide)

theorem wrapInt64_toInt (value : Int64) : Json.wrapInt64 value.toInt = value.toInt :=
  wrapInt64_of_fits (Int64.minValue_le_toInt value) (Int.le_sub_one_of_lt (Int64.toInt_lt value))

theorem parseMediaState_name (status : MediaState) :
    parseMediaState (mediaStateName status) = .ok status := by
  cases status <;> rfl

variable {truncate truncateInt : Nat → Int} {manifest : Manifest}
  {durable : SortedMap Int ChunkIdentity}

theorem readManifest_toJson (legible : manifest.Legible) :
    readManifest truncate truncateInt manifest.toJson = .ok manifest.limits := by
  have status : valueOf manifest.toJson "status" getString "" =
      .ok (mediaStateName manifest.status) := rfl
  have count : valueOf manifest.toJson "chunk_count" (getInt64 truncate) (-1) =
      .ok manifest.chunkCount.toInt := congrArg Except.ok (wrapInt64_toInt _)
  have size : valueOf manifest.toJson "size_bytes" (getInt64 truncate) (-1) =
      .ok manifest.sizeBytes.toInt := congrArg Except.ok (wrapInt64_toInt _)
  have version : valueOf manifest.toJson "state_version" (getInt32 truncateInt) 1 =
      .ok manifest.stateVersion := by
    change Except.ok (Int.bmod manifest.stateVersion (2 ^ 32)) = _
    rw [legible.version]
    rfl
  have lease : readLease truncate manifest.toJson = .ok manifest.leaseExpiresAtMs := by
    have value : valueOf manifest.toJson "lease_expires_at_ms" (getInt64 truncate) 0 =
        .ok manifest.leaseExpiresAtMs :=
      congrArg Except.ok (wrapInt64_of_fits (le_trans (by decide) legible.leased.le) legible.leaseFits)
    change (do
      let leaseExpiresAtMs ← valueOf manifest.toJson "lease_expires_at_ms" (getInt64 truncate) 0
      ensure (0 < leaseExpiresAtMs) (Refusal.invalidArgument "media lease expiry must be positive")
      return leaseExpiresAtMs) = _
    rw [value]
    simp only [bind_eq_ok, pure_eq_ok, ensure_eq_ok, decide_eq_true_eq]
    exact ⟨_, rfl, (), legible.leased, rfl⟩
  simp only [readManifest, bind_eq_ok, pure_eq_ok, ensure_eq_ok, Bool.and_eq_true, decide_eq_true_eq]
  refine ⟨(), rfl, _, status, manifest.status, parseMediaState_name _, _, count, _, size, (),
    ⟨legible.count, legible.size⟩, _, version, (), ?_, _, lease, rfl⟩
  rw [legible.version]
  decide

theorem readChunkRow_toJson {chunkCount : Int} (least : 0 ≤ row.index.toInt)
    (most : row.index.toInt < chunkCount) (size : 0 ≤ row.sizeBytes.toInt) :
    readChunkRow truncate chunkCount row.toJson = .ok (row.index.toInt, row.identity) := by
  have index : valueOf row.toJson "index" (getInt64 truncate) (-1) = .ok row.index.toInt :=
    congrArg Except.ok (wrapInt64_toInt _)
  have bytes : valueOf row.toJson "size_bytes" (getInt64 truncate) (-1) = .ok row.sizeBytes.toInt :=
    congrArg Except.ok (wrapInt64_toInt _)
  have sha256 : valueOf row.toJson "sha256" getString "" = .ok row.sha256 := rfl
  simp only [readChunkRow, bind_eq_ok, pure_eq_ok, ensure_eq_ok, Bool.and_eq_true, decide_eq_true_eq]
  exact ⟨(), rfl, _, index, _, bytes, _, sha256, (), ⟨⟨least, most⟩, size⟩, rfl⟩

theorem progressOf_eq {limits : MediaLimits} (fits : limits.sizeBytes ≤ int64Max)
    (sizes : ∀ entry ∈ durable.entries, 0 ≤ entry.2.size) (within : bytesOf durable ≤ limits.sizeBytes) :
    progressOf limits durable = .ok (summary limits durable) := by
  have loop := @foldlM_addIdentity_ok _ fits durable.entries (0, []) sizes (by
    rw [zero_add]
    exact within)
  rw [zero_add, List.nil_append] at loop
  rw [progressOf, loop]
  rfl

theorem Inventory.sizes (inventory : Inventory store mediaId durable) (placed : Placed store) :
    ∀ entry ∈ durable.entries, 0 ≤ entry.2.size := by
  intro entry member
  obtain ⟨row, isOwned, -, isIdentity⟩ :=
    (inventory entry.1 entry.2).mp (SortedMap.find?_eq_some.mpr member)
  rw [← isIdentity]
  exact (placed.inside _ row ((mem_ownedChunks_iff placed).mp isOwned).1).2

/-- The progress of the rows is the one of their map, read in any order. -/
theorem reconstruct_eq (placed : Placed store) (legible : manifest.Legible)
    (inventory : Inventory store mediaId durable)
    (inside : ∀ row ∈ ownedChunks store mediaId, row.index.toInt < manifest.chunkCount.toInt)
    (within : bytesOf durable ≤ manifest.sizeBytes.toInt) {rows : List ChunkRow} {nowMs : Int}
    (same : ∀ row, row ∈ rows ↔ row ∈ ownedChunks store mediaId) :
    reconstructMediaProgress truncate truncateInt manifest.toJson (rows.map ChunkRow.toJson) nowMs =
      .ok (summary manifest.limits durable) := by
  have readable : ∀ row ∈ rows, readChunkRow truncate manifest.limits.chunkCount row.toJson =
      .ok (row.index.toInt, row.identity) := by
    intro row member
    have isOwned := (same row).mp member
    have sound := placed.inside _ row ((mem_ownedChunks_iff placed).mp isOwned).1
    exact readChunkRow_toJson sound.1 (inside row isOwned) sound.2
  have isMap : (rows.map ChunkRow.toJson).foldlM (addChunk truncate manifest.limits.chunkCount)
      SortedMap.empty = .ok durable := by
    apply foldlM_addChunk_eq_ok.mpr
    refine ⟨fun chunk member => ?_, fun index identity => ?_⟩
    · obtain ⟨row, isRow, rfl⟩ := List.mem_map.mp member
      exact ⟨_, readable row isRow⟩
    · rw [inventory, SortedMap.find?_empty]
      simp only [reduceCtorEq, false_or, List.mem_map]
      constructor
      · intro found
        obtain ⟨row, isOwned, rfl, rfl⟩ := found
        have isRow := (same row).mpr isOwned
        exact ⟨_, ⟨row, isRow, rfl⟩, readable row isRow⟩
      · intro found
        obtain ⟨chunk, ⟨row, isRow, rfl⟩, isRead⟩ := found
        rw [readable row isRow] at isRead
        cases isRead
        exact ⟨row, (same row).mp isRow, rfl, rfl⟩
  rw [reconstructMediaProgress, readManifest_toJson legible]
  change ((rows.map ChunkRow.toJson).foldlM (addChunk truncate manifest.limits.chunkCount)
    SortedMap.empty >>= progressOf manifest.limits) = _
  rw [isMap]
  exact progressOf_eq (Int.le_sub_one_of_lt (Int64.toInt_lt _)) (inventory.sizes placed) within

end PacificDb.Media
