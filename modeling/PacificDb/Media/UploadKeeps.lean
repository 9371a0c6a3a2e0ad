import PacificDb.Media.Inventory

/-!
# What the calls keep

A store is in order when the chunks of every upload have their places and fit in it
(`Kept`), and its numbers are maintained when they are those of the chunks (`Maintained`).
The calls that work the progress out from the rows need the first only, and a new chunk
that fits keeps both.
-/

namespace PacificDb.Media

open Lib Engine

/-- Every upload can be read, and its chunks fit. -/
structure Kept (store : Store) : Prop where
  placed : Placed store
  legible : ∀ mediaId manifest, store.manifests.find? mediaId = some manifest → manifest.Legible
  fits : ∀ mediaId manifest, store.manifests.find? mediaId = some manifest →
    ∃ durable, Inventory store mediaId durable ∧ bytesOf durable ≤ manifest.sizeBytes.toInt

/-- The numbers of a manifest are those of a map of chunks. -/
structure Manifest.Counts (manifest : Manifest) (durable : SortedMap Int ChunkIdentity) : Prop where
  chunks : manifest.receivedChunks = durable.entries.length
  bytes : manifest.receivedBytes = bytesOf durable
  next : manifest.nextChunk =
    nextMissing durable manifest.chunkCount.toInt manifest.chunkCount.toInt.toNat 0
  indices : manifest.receivedIndices = durable.entries.map Prod.fst

def Maintained (store : Store) : Prop :=
  ∀ mediaId manifest durable, store.manifests.find? mediaId = some manifest →
    Inventory store mediaId durable → manifest.Counts durable

variable {store other : Store} {mediaId : String} {manifest changed : Manifest}
  {durable found : SortedMap Int ChunkIdentity} {truncate truncateInt : Nat → Int}

theorem Inventory.unique (first : Inventory store mediaId durable)
    (second : Inventory store mediaId found) : durable = found := by
  apply SortedMap.ext_find?
  intro index
  apply Option.ext
  intro identity
  rw [first, second]

/-! ## Writing a manifest -/

/-- A manifest that may take the place of another one. -/
structure Manifest.Follows (changed manifest : Manifest) : Prop where
  legible : changed.Legible
  count : changed.chunkCount = manifest.chunkCount
  size : changed.sizeBytes = manifest.sizeBytes

theorem find?_setManifest (store : Store) (mediaId other : String) (manifest : Manifest) :
    (store.setManifest other manifest).manifests.find? mediaId =
      if mediaId = other then some manifest else store.manifests.find? mediaId :=
  SortedMap.find?_assign _ _ _ _

theorem Kept.setManifest (kept : Kept store) (present : store.manifests.find? mediaId = some manifest)
    (follows : changed.Follows manifest) : Kept (store.setManifest mediaId changed) := by
  have either : ∀ id own, (store.setManifest mediaId changed).manifests.find? id = some own →
      ∃ before, store.manifests.find? id = some before ∧
        (own = before ∨ own = changed ∧ before = manifest) := by
    intro id own isOwn
    rw [find?_setManifest] at isOwn
    split at isOwn
    next same =>
      cases isOwn
      subst same
      exact ⟨manifest, present, .inr ⟨rfl, rfl⟩⟩
    next => exact ⟨own, isOwn, .inl rfl⟩
  refine ⟨⟨kept.placed.named, kept.placed.inside, fun key row isRow => ?_⟩, fun id own isOwn => ?_,
    fun id own isOwn => ?_⟩
  · obtain ⟨owner, isOwner, below⟩ := kept.placed.owned key row isRow
    rw [find?_setManifest]
    by_cases same : row.mediaId = mediaId
    · rw [if_pos same]
      rw [same, present] at isOwner
      cases isOwner
      exact ⟨changed, rfl, follows.count ▸ below⟩
    · rw [if_neg same]
      exact ⟨owner, isOwner, below⟩
  · obtain ⟨before, isBefore, rfl | ⟨rfl, rfl⟩⟩ := either id own isOwn
    · exact kept.legible id own isBefore
    · exact follows.legible
  · obtain ⟨before, isBefore, rfl | ⟨rfl, rfl⟩⟩ := either id own isOwn
    · exact kept.fits id own isBefore
    · rw [follows.size]
      exact kept.fits id before isBefore

/-- A manifest with the numbers of its chunks leaves the numbers maintained. -/
theorem Maintained.setManifest (maintained : Maintained store)
    (counts : ∀ durable, Inventory store mediaId durable → changed.Counts durable) :
    Maintained (store.setManifest mediaId changed) := by
  intro id own durable isOwn inventory
  rw [find?_setManifest] at isOwn
  split at isOwn
  next same =>
    cases isOwn
    subst same
    exact counts durable inventory
  next => exact maintained id own durable isOwn inventory

/-! ## Deleting chunks -/

theorem find?_foldl_erase {rows : List ChunkRow} {chunks : SortedMap String ChunkRow} {key : String} :
    (rows.foldl (fun chunks row => chunks.erase row.id) chunks).find? key =
      if ∃ row ∈ rows, row.id = key then none else chunks.find? key := by
  induction rows generalizing chunks with
  | nil => simp
  | cons row rest ih =>
    rw [List.foldl_cons, ih, SortedMap.find?_erase]
    by_cases own : row.id = key
    · simp [own]
    · simp [own, Ne.symm own]

theorem find?_deleteOwnedChunks (placed : Placed store) {key : String} {row : ChunkRow} :
    (deleteOwnedChunks store mediaId).chunks.find? key = some row ↔
      store.chunks.find? key = some row ∧ row.mediaId ≠ mediaId := by
  change ((ownedChunks store mediaId).foldl (fun chunks row => chunks.erase row.id)
    store.chunks).find? key = some row ↔ _
  rw [find?_foldl_erase]
  constructor
  · intro kept
    split at kept
    next => cases kept
    next others =>
      refine ⟨kept, fun own => others ⟨row, mem_ownedChunks.mpr ⟨⟨key, kept⟩, own⟩, ?_⟩⟩
      exact (placed.named key row kept).1
  · intro both
    rw [if_neg]
    · exact both.1
    · intro erased
      obtain ⟨gone, isOwned, same⟩ := erased
      obtain ⟨⟨place, isGone⟩, own⟩ := mem_ownedChunks.mp isOwned
      have isKey : place = key := (placed.named place gone isGone).1.symm.trans same
      rw [isKey, both.1] at isGone
      cases isGone
      exact both.2 own

theorem mem_ownedChunks_delete (placed : Placed store) {id : String} {row : ChunkRow} :
    row ∈ ownedChunks (deleteOwnedChunks store mediaId) id ↔
      row ∈ ownedChunks store id ∧ id ≠ mediaId := by
  rw [mem_ownedChunks, mem_ownedChunks]
  simp only [find?_deleteOwnedChunks placed]
  constructor
  · intro left
    obtain ⟨⟨key, isRow, differs⟩, rfl⟩ := left
    exact ⟨⟨⟨key, isRow⟩, rfl⟩, differs⟩
  · intro left
    obtain ⟨⟨⟨key, isRow⟩, rfl⟩, differs⟩ := left
    exact ⟨⟨key, isRow, differs⟩, rfl⟩

theorem Kept.delete (kept : Kept store) : Kept (deleteOwnedChunks store mediaId) := by
  have placed := kept.placed
  refine ⟨⟨fun key row isRow => ?_, fun key row isRow => ?_, fun key row isRow => ?_⟩, kept.legible,
    fun id own isOwn => ?_⟩
  · exact placed.named key row ((find?_deleteOwnedChunks placed).mp isRow).1
  · exact placed.inside key row ((find?_deleteOwnedChunks placed).mp isRow).1
  · exact placed.owned key row ((find?_deleteOwnedChunks placed).mp isRow).1
  · by_cases same : id = mediaId
    · refine ⟨SortedMap.empty, fun index identity => ?_, (kept.legible id own isOwn).size⟩
      simp [mem_ownedChunks_delete placed, same, SortedMap.find?_empty]
    · obtain ⟨durable, inventory, fits⟩ := kept.fits id own isOwn
      refine ⟨durable, fun index identity => ?_, fits⟩
      simp [mem_ownedChunks_delete placed, same, inventory index identity]

/-! ## Working the progress out -/

/-- The members that a map of chunks sets. -/
def fieldsOf (manifest : Manifest) (durable : SortedMap Int ChunkIdentity) : ProgressFields where
  stateVersion := manifest.stateVersion
  receivedChunks := durable.entries.length
  receivedBytes := bytesOf durable
  nextChunk := nextMissing durable manifest.chunkCount.toInt manifest.chunkCount.toInt.toNat 0
  receivedIndices := durable.entries.map Prod.fst
  leaseExpiresAtMs := some manifest.leaseExpiresAtMs
  resumable := manifest.status = .uploading ∨ manifest.status = .verifying

theorem Kept.inside (kept : Kept store) (present : store.manifests.find? mediaId = some manifest) :
    ∀ row ∈ ownedChunks store mediaId, row.index.toInt < manifest.chunkCount.toInt := by
  intro row member
  obtain ⟨isRow, own⟩ := (mem_ownedChunks_iff kept.placed).mp member
  obtain ⟨owner, isOwner, below⟩ := kept.placed.owned _ row isRow
  rw [own, present] at isOwner
  cases isOwner
  exact below

theorem Kept.reconstruct (kept : Kept store) (present : store.manifests.find? mediaId = some manifest)
    (follows : changed.Follows manifest) (inventory : Inventory store mediaId durable)
    {rows : List ChunkRow} {nowMs : Int} (same : ∀ row, row ∈ rows ↔ row ∈ ownedChunks store mediaId) :
    reconstructMediaProgress truncate truncateInt changed.toJson (rows.map ChunkRow.toJson) nowMs =
      .ok (summary changed.limits durable) := by
  obtain ⟨own, isOwn, fits⟩ := kept.fits mediaId manifest present
  cases isOwn.unique inventory
  apply reconstruct_eq kept.placed follows.legible inventory _ _ same
  · rw [follows.count]
    exact kept.inside present
  · rw [follows.size]
    exact fits

/-- The progress can be worked out in every store that is kept. -/
theorem Kept.progressFields_eq (kept : Kept store)
    (present : store.manifests.find? mediaId = some manifest) (follows : changed.Follows manifest)
    (inventory : Inventory store mediaId durable) (nowMs : Nat) :
    progressFields truncate truncateInt changed (rawMediaChunks store mediaId) nowMs =
      .ok (fieldsOf changed durable) := by
  have rows := (rawMediaChunks_spec kept.placed present).1
  rw [progressFields, kept.reconstruct present follows inventory fun row => rows.mem_iff]
  have leased : (if 0 < (summary changed.limits durable).leaseExpiresAtMs
      then some (summary changed.limits durable).leaseExpiresAtMs else none) =
      some changed.leaseExpiresAtMs := if_pos follows.legible.leased
  change Except.ok _ = _
  rw [leased]
  rfl

theorem Kept.decorateMedia_eq (kept : Kept store)
    (present : store.manifests.find? mediaId = some manifest) (follows : changed.Follows manifest)
    (inventory : Inventory store mediaId durable) (nowMs : Nat) :
    decorateMedia truncate truncateInt changed (rawMediaChunks store mediaId) nowMs =
      .ok (changed.update (fieldsOf changed durable)) := by
  rw [decorateMedia, kept.progressFields_eq present follows inventory]
  rfl

theorem Manifest.Follows.update (follows : changed.Follows manifest) :
    (changed.update (fieldsOf changed durable)).Follows manifest :=
  ⟨⟨follows.legible.count, follows.legible.size, follows.legible.version, follows.legible.leased,
    follows.legible.leaseFits⟩, follows.count, follows.size⟩

theorem counts_update : (manifest.update (fieldsOf manifest durable)).Counts durable :=
  ⟨rfl, rfl, rfl, rfl⟩

theorem Manifest.Legible.follows (legible : manifest.Legible) : manifest.Follows manifest :=
  ⟨legible, rfl, rfl⟩

end PacificDb.Media
