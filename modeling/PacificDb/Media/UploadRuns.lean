import PacificDb.Lib.Sha256
import PacificDb.Media.NewChunk

/-!
# Runs of uploads

A rejected chunk leaves no trace and the progress of every upload is the one of its rows,
as long as no chunk conflicts and every new chunk fits and has a lease (`spotless_iff`).
-/

namespace PacificDb.Media

open Lib Engine

variable {store : Store} {mediaId : String} {manifest changed : Manifest} {call : PutCall}
  {durable : SortedMap Int ChunkIdentity} {truncate truncateInt : Nat → Int}
  {decodeBlock : Bytes → Option Bytes} {sha256Hex : Bytes → String}

/-! ## Calls that do not fail for the progress -/

section

variable {ε α β : Type} {first : Except ε α} {rest : α → Except ε β} {reason reason' : ε}

theorem bind_ne_error (here : first ≠ .error reason)
    (later : ∀ value, first = .ok value → rest value ≠ .error reason) :
    first >>= rest ≠ .error reason := by
  cases first with
  | error thrown => exact fun same => here (congrArg Except.error (Except.error.inj same))
  | ok value => exact later value rfl

theorem ensure_ne_error {holds : Bool} (differs : reason' ≠ reason) :
    ensure holds reason' ≠ .error reason := by
  cases holds with
  | true => exact fun impossible => by cases impossible
  | false => exact fun same => differs (Except.error.inj same)

end

theorem refused_ne_progress {α : Type} {result : Except Refusal α} {refusal : Refusal} :
    result.mapError Stopped.refused ≠ .error (.progress refusal) := by
  cases result with
  | error thrown => exact fun same => by cases same
  | ok value => exact fun impossible => by cases impossible

theorem mapError_eq_ok {α : Type} {result : Except Refusal α} {value : α} {wrap : Refusal → Stopped}
    (isOk : result.mapError wrap = .ok value) : result = .ok value := by
  cases result with
  | error thrown => cases isOk
  | ok own => exact congrArg Except.ok (Except.ok.inj isOk)

theorem Kept.decorateMedia_ne (kept : Kept store)
    (present : store.manifests.find? mediaId = some manifest) (follows : changed.Follows manifest)
    (nowMs : Nat) (stopped : Stopped) :
    decorateMedia truncate truncateInt changed (rawMediaChunks store mediaId) nowMs ≠ .error stopped := by
  obtain ⟨durable, inventory, -⟩ := kept.fits mediaId manifest present
  rw [kept.decorateMedia_eq present follows inventory]
  exact fun impossible => by cases impossible

theorem Kept.getMedia_ne (kept : Kept store) (nowMs : Nat) (stopped : Stopped) :
    getMedia truncate truncateInt store mediaId nowMs ≠ .error stopped := by
  rw [getMedia]
  cases present : store.manifests.find? mediaId with
  | none => exact fun impossible => by cases impossible
  | some manifest =>
    apply bind_ne_error
    · exact kept.decorateMedia_ne present (kept.legible mediaId manifest present).follows nowMs stopped
    · exact fun _ _ impossible => by cases impossible

/-- A manifest with a lease of its own follows the one before. -/
theorem follows_leased (legible : manifest.Legible) {lease : Int} (positive : 0 < lease)
    (fits : lease ≤ int64Max) : { manifest with leaseExpiresAtMs := lease }.Follows manifest :=
  ⟨⟨legible.count, legible.size, legible.version, positive, fits⟩, rfl, rfl⟩

theorem Kept.resumeMedia_ne (kept : Kept store) (call : BeginCall) (refusal : Refusal) :
    resumeMedia truncate truncateInt store call ≠ .error (.progress refusal) := by
  apply bind_ne_error refused_ne_progress
  intro existing isFound
  have present := findManifest_eq_ok (mapError_eq_ok isFound)
  have legible := kept.legible _ existing present
  split
  next =>
    apply bind_ne_error (kept.decorateMedia_ne present legible.follows _ _)
    exact fun _ _ impossible => by cases impossible
  next =>
    apply bind_ne_error (ensure_ne_error fun same => by cases same)
    intro _ _
    apply bind_ne_error (ensure_ne_error fun same => by cases same)
    intro _ _
    apply bind_ne_error refused_ne_progress
    intro lease isLease
    have spec := leaseFrom_spec (mapError_eq_ok isLease)
    apply bind_ne_error (kept.decorateMedia_ne present (follows_leased legible spec.1 spec.2) _ _)
    exact fun _ _ impossible => by cases impossible

theorem Kept.beginMedia_ne (kept : Kept store) (call : BeginCall) (refusal : Refusal) :
    beginMedia truncate truncateInt store call mediaId ≠ .error (.progress refusal) := by
  apply bind_ne_error refused_ne_progress
  intro _ _
  split
  next => exact kept.resumeMedia_ne call refusal
  next =>
    apply bind_ne_error refused_ne_progress
    exact fun _ _ impossible => by cases impossible

/-! ## Finalizing -/

theorem foldlM_ne_error {ε α β : Type} {step : α → β → Except ε α} {items : List β} {start : α}
    {reason : ε} (each : ∀ value, ∀ item ∈ items, step value item ≠ .error reason) :
    items.foldlM step start ≠ .error reason := by
  induction items generalizing start with
  | nil => exact fun impossible => by cases impossible
  | cons item items ih =>
    rw [List.foldlM_cons]
    apply bind_ne_error (each start item (.head _))
    exact fun _ _ => ih fun value other member => each value other (.tail _ member)

/-- The indices of the rows are those of their map. -/
theorem Kept.indices_rawMediaChunks (kept : Kept store)
    (present : store.manifests.find? mediaId = some manifest)
    (inventory : Inventory store mediaId durable) :
    (rawMediaChunks store mediaId).map (fun row => row.index.toInt) =
      durable.entries.map Prod.fst := by
  obtain ⟨perm, sorted⟩ := rawMediaChunks_spec kept.placed present
  have first : ((rawMediaChunks store mediaId).map fun row => row.index.toInt).Pairwise (· < ·) :=
    List.pairwise_map.mpr sorted
  have second : (durable.entries.map Prod.fst).Pairwise (· < ·) := List.pairwise_map.mpr durable.sorted
  apply first.eq_of_mem_iff second
  intro index
  simp only [List.mem_map, perm.mem_iff]
  constructor
  · intro found
    obtain ⟨row, isOwned, same⟩ := found
    have entry := SortedMap.find?_eq_some.mp ((inventory index row.identity).mpr ⟨row, isOwned, same, rfl⟩)
    exact ⟨_, entry, rfl⟩
  · intro found
    obtain ⟨entry, member, rfl⟩ := found
    obtain ⟨row, isOwned, same, -⟩ :=
      (inventory entry.1 entry.2).mp (SortedMap.find?_eq_some.mpr member)
    exact ⟨row, isOwned, same⟩

/-- As many different numbers below a bound as there can be are all of them. -/
theorem eq_range_of_full {numbers : List Int} {count : Int} (sorted : numbers.Pairwise (· < ·))
    (inside : ∀ number ∈ numbers, 0 ≤ number ∧ number < count) (full : (numbers.length : Int) = count) :
    numbers = (List.range count.toNat).map (fun place : Nat => (place : Int)) := by
  have range : ((List.range count.toNat).map fun place : Nat => (place : Int)).Pairwise (· < ·) := by
    apply List.pairwise_map.mpr
    exact List.pairwise_lt_range.imp fun less => Int.ofNat_lt.mpr less
  have subset : numbers ⊆ (List.range count.toNat).map fun place : Nat => (place : Int) := by
    intro number member
    obtain ⟨least, most⟩ := inside number member
    apply List.mem_map.mpr
    exact ⟨number.toNat, List.mem_range.mpr (by omega), by omega⟩
  have perm := (List.subperm_of_subset sorted.nodup subset).perm_of_length_le
    (by
      rw [List.length_map, List.length_range]
      omega)
  exact perm.eq_of_pairwise' sorted range

/-- The final check finds every chunk of an upload with all of them. -/
theorem Kept.verifyMedia_ne (kept : Kept store)
    (present : store.manifests.find? mediaId = some manifest)
    (inventory : Inventory store mediaId durable)
    (full : (durable.entries.length : Int) = manifest.chunkCount.toInt) (refusal : Refusal) :
    verifyMedia decodeBlock sha256Hex (store.setManifest mediaId changed) mediaId manifest
      (rawMediaChunks store mediaId) ≠ .error (.progress refusal) := by
  have indices := kept.indices_rawMediaChunks present inventory
  obtain ⟨perm, sorted⟩ := rawMediaChunks_spec kept.placed present
  have range : (rawMediaChunks store mediaId).map (fun row => row.index.toInt) =
      (List.range manifest.chunkCount.toInt.toNat).map (fun place : Nat => (place : Int)) := by
    apply eq_range_of_full (List.pairwise_map.mpr sorted)
    · intro index member
      obtain ⟨row, isRow, rfl⟩ := List.mem_map.mp member
      have isOwned := perm.mem_iff.mp isRow
      have least := (kept.placed.inside _ row ((mem_ownedChunks_iff kept.placed).mp isOwned).1).1
      exact ⟨least, kept.inside present row isOwned⟩
    · rw [indices, List.length_map]
      exact full
  apply bind_ne_error
  · apply foldlM_ne_error
    intro behind index member
    have here : ((rawMediaChunks store mediaId)[index]?).map (fun row => row.index.toInt) =
        some (index : Int) := by
      rw [← List.getElem?_map, range, List.getElem?_map, List.getElem?_range (List.mem_range.mp member)]
      rfl
    obtain ⟨row, isRow, isIndex⟩ := Option.map_eq_some_iff.mp here
    have isOwned := perm.mem_iff.mp (List.mem_of_getElem? isRow)
    have found := ((mem_ownedChunks_iff kept.placed).mp isOwned).1
    rw [isIndex] at found
    apply bind_ne_error
    · rw [here]
      exact fun impossible => by simp [ensure] at impossible
    · intro _ _
      dsimp only [Store.setManifest]
      rw [found]
      apply bind_ne_error refused_ne_progress
      intro bytes _
      apply bind_ne_error (ensure_ne_error fun same => by cases same)
      intro _ _
      apply bind_ne_error (ensure_ne_error fun same => by cases same)
      exact fun _ _ impossible => by cases impossible
  · intro whole _
    exact ensure_ne_error fun same => by cases same

theorem Kept.finalizeMedia_ne (kept : Kept store) (nowMs : Nat) (refusal : Refusal) :
    (finalizeMedia truncate truncateInt decodeBlock sha256Hex store mediaId nowMs).1 ≠
      .error (.progress refusal) := by
  rw [finalizeMedia]
  cases isFound : findManifest store mediaId with
  | error thrown => exact fun same => by cases same
  | ok manifest =>
    have present := findManifest_eq_ok isFound
    have legible := kept.legible mediaId manifest present
    obtain ⟨durable, inventory, -⟩ := kept.fits mediaId manifest present
    dsimp only
    rw [kept.decorateMedia_eq present legible.follows inventory]
    dsimp only
    split
    next => exact fun impossible => by cases impossible
    next =>
      split
      next => exact fun same => by cases same
      next =>
        split
        next => exact fun impossible => by cases impossible
        next full =>
          have all : (durable.entries.length : Int) = manifest.chunkCount.toInt := not_not.mp full
          cases verified : verifyMedia decodeBlock sha256Hex (store.setManifest mediaId
              { manifest.update (fieldsOf manifest durable) with status := .verifying, resumable := true })
              mediaId manifest (rawMediaChunks store mediaId) with
          | ok done => exact fun impossible => by cases impossible
          | error stopped =>
            intro same
            have isStopped : stopped = .progress refusal := Except.error.inj same
            exact kept.verifyMedia_ne present inventory all refusal (isStopped ▸ verified)

/-! ## Reconciling -/

theorem follows_reset (legible : manifest.Legible) : manifest.reset.Follows manifest := by
  rw [Manifest.reset]
  split
  · exact ⟨⟨legible.count, legible.size, legible.version, legible.leased, legible.leaseFits⟩, rfl, rfl⟩
  · exact legible.follows

theorem uploadExpired_eq (legible : manifest.Legible) (nowMs : Nat) :
    ∃ expired, uploadExpired manifest nowMs = .ok expired := by
  rw [uploadExpired]
  split
  · exact ⟨false, rfl⟩
  · rw [leaseExpired, decide_eq_true legible.leased]
    exact ⟨_, rfl⟩

theorem Kept.reconcileUpload_spec (kept : Kept store) (nowMs : Nat) :
    ∃ next, reconcileUpload truncate truncateInt store mediaId nowMs = .ok next ∧ Kept next := by
  rw [reconcileUpload]
  cases present : store.manifests.find? mediaId with
  | none => exact ⟨store, rfl, kept⟩
  | some manifest =>
    have legible := kept.legible mediaId manifest present
    have follows := follows_reset legible
    obtain ⟨expired, isExpired⟩ := uploadExpired_eq follows.legible nowMs
    have deleted := @Kept.delete store mediaId kept
    dsimp only
    rw [isExpired]
    cases expired with
    | true =>
      refine ⟨_, rfl, deleted.setManifest present ?_⟩
      exact ⟨⟨follows.legible.count, follows.legible.size, follows.legible.version,
        follows.legible.leased, follows.legible.leaseFits⟩, follows.count, follows.size⟩
    | false =>
      have both : Kept (clearFailed store mediaId manifest.reset) ∧
          (clearFailed store mediaId manifest.reset).manifests.find? mediaId = some manifest := by
        rw [clearFailed]
        split
        · exact ⟨deleted, present⟩
        · exact ⟨kept, present⟩
      obtain ⟨durable, inventory, -⟩ := both.1.fits mediaId manifest both.2
      refine ⟨_, ?_, both.1.setManifest both.2 (@Manifest.Follows.update _ _ durable follows)⟩
      change (decorateMedia truncate truncateInt manifest.reset
          (rawMediaChunks (clearFailed store mediaId manifest.reset) mediaId) nowMs >>=
        fun repaired => Except.ok
          ((clearFailed store mediaId manifest.reset).setManifest mediaId repaired)) = _
      rw [both.1.decorateMedia_eq both.2 follows inventory]
      rfl

theorem Kept.reconcileMedia_ne (kept : Kept store) {mediaIds : List String} (nowMs : Nat)
    (stopped : Stopped) :
    reconcileMedia truncate truncateInt store mediaIds nowMs ≠ .error stopped := by
  induction mediaIds generalizing store with
  | nil => exact fun impossible => by cases impossible
  | cons first rest ih =>
    obtain ⟨next, isNext, later⟩ := @Kept.reconcileUpload_spec store first truncate truncateInt kept nowMs
    rw [reconcileMedia, List.foldlM_cons, isNext]
    exact ih later

/-! ## Beginning an upload -/

theorem inventory_fresh (kept : Kept store) (fresh : store.manifests.find? mediaId = none) :
    Inventory store mediaId SortedMap.empty := by
  intro index identity
  refine iff_of_false (fun found => by cases found) fun found => ?_
  obtain ⟨row, isOwned, -, -⟩ := found
  obtain ⟨isRow, own⟩ := (mem_ownedChunks_iff kept.placed).mp isOwned
  obtain ⟨owner, isOwner, -⟩ := kept.placed.owned _ row isRow
  rw [own, fresh] at isOwner
  cases isOwner

/-- A new upload has no chunks. -/
theorem Kept.begun (kept : Kept store) (fresh : store.manifests.find? mediaId = none)
    (legible : manifest.Legible) : Kept (store.setManifest mediaId manifest) := by
  refine ⟨⟨kept.placed.named, kept.placed.inside, fun key row isRow => ?_⟩, fun id own isOwn => ?_,
    fun id own isOwn => ?_⟩
  · obtain ⟨owner, isOwner, below⟩ := kept.placed.owned key row isRow
    refine ⟨owner, ?_, below⟩
    rw [find?_setManifest, if_neg]
    · exact isOwner
    · intro same
      rw [same, fresh] at isOwner
      cases isOwner
  · rw [find?_setManifest] at isOwn
    split at isOwn
    next =>
      cases isOwn
      exact legible
    next => exact kept.legible id own isOwn
  · rw [find?_setManifest] at isOwn
    split at isOwn
    next same =>
      cases isOwn
      subst same
      have empty := inventory_fresh kept fresh
      exact ⟨SortedMap.empty, empty, legible.size⟩
    next => exact kept.fits id own isOwn

theorem checkBegin_spec {call : BeginCall} {done : Unit} (checked : checkBegin call = .ok done) :
    0 ≤ call.sizeBytes.toInt ∧ 0 < call.chunkCount.toInt := by
  simp only [checkBegin, bind_eq_ok, ensure_eq_ok, Bool.and_eq_true, decide_eq_true_eq] at checked
  obtain ⟨-, -, -, -, -, -, -, -, -, -, inside⟩ := checked
  exact inside

/-- What a call to begin leaves: the numbers of every upload as they are in the rows. -/
theorem beginMedia_keeps (kept : Kept store) (maintained : Maintained store) {call : BeginCall}
    (fresh : call.resumeId = "" → store.manifests.find? mediaId = none) {begun : Manifest × Store}
    (done : beginMedia truncate truncateInt store call mediaId = .ok begun) :
    Kept begun.2 ∧ Maintained begun.2 := by
  rw [beginMedia] at done
  obtain ⟨_, checked, done⟩ := bind_eq_ok.mp done
  split at done
  next =>
    rw [resumeMedia] at done
    obtain ⟨existing, isFound, done⟩ := bind_eq_ok.mp done
    have present := findManifest_eq_ok (mapError_eq_ok isFound)
    have legible := kept.legible _ existing present
    obtain ⟨durable, inventory, -⟩ := kept.fits _ existing present
    split at done
    next =>
      obtain ⟨decorated, -, done⟩ := bind_eq_ok.mp done
      cases done
      exact ⟨kept, maintained⟩
    next =>
      obtain ⟨_, -, done⟩ := bind_eq_ok.mp done
      obtain ⟨_, -, done⟩ := bind_eq_ok.mp done
      obtain ⟨lease, isLease, done⟩ := bind_eq_ok.mp done
      have spec := leaseFrom_spec (mapError_eq_ok isLease)
      have follows := follows_leased legible spec.1 spec.2
      obtain ⟨resumed, isResumed, done⟩ := bind_eq_ok.mp done
      rw [kept.decorateMedia_eq present follows inventory] at isResumed
      cases isResumed
      cases done
      refine ⟨kept.setManifest present follows.update, maintained.setManifest fun other isOther => ?_⟩
      cases inventory.unique isOther
      exact counts_update
  next isNew =>
    obtain ⟨lease, isLease, done⟩ := bind_eq_ok.mp done
    have spec := leaseFrom_spec (mapError_eq_ok isLease)
    have sizes := checkBegin_spec (mapError_eq_ok checked)
    have absent := fresh (not_not.mp isNew)
    cases done
    refine ⟨kept.begun absent ⟨sizes.2, sizes.1, rfl, spec.1, spec.2⟩,
      maintained.setManifest fun other isOther => ?_⟩
    cases (inventory_fresh kept absent).unique isOther
    refine ⟨rfl, rfl, ?_, rfl⟩
    change (0 : Int) = nextMissing SortedMap.empty call.chunkCount.toInt call.chunkCount.toInt.toNat 0
    obtain ⟨count, isCount⟩ : ∃ count, call.chunkCount.toInt.toNat = count + 1 :=
      ⟨call.chunkCount.toInt.toNat - 1, by omega⟩
    rw [isCount]
    rfl

/-! ## Chunks that do no harm -/

/-- A chunk that is accepted is there as it is, or fits in the upload and has a lease. -/
def PutCall.Harmless (decodeBlock : Bytes → Option Bytes) (sha256Hex : Bytes → String)
    (store : Store) (call : PutCall) : Prop :=
  ∀ manifest, acceptChunk decodeBlock sha256Hex store call = .ok manifest →
    match store.chunks.find? call.chunkId with
    | some existing => existing.sha256 = call.sha256 ∧ existing.sizeBytes = call.sizeBytes
    | none => manifest.receivedBytes + call.sizeBytes.toInt ≤ manifest.sizeBytes.toInt ∧
        ∃ lease, leaseFrom call.moment = .ok lease

/-- A rejected chunk leaves the collections as they are. -/
def PutCall.Traceless (truncate truncateInt : Nat → Int) (decodeBlock : Bytes → Option Bytes)
    (sha256Hex : Bytes → String) (store : Store) (call : PutCall) : Prop :=
  ∀ stopped, (putMediaChunk truncate truncateInt decodeBlock sha256Hex store call).1 = .error stopped →
    stopped ≠ chunkConflict →
    (putMediaChunk truncate truncateInt decodeBlock sha256Hex store call).2 = store

/-- A lease that is read from a manifest is positive. -/
theorem lease_of_progressFields {rows : List ChunkRow} {nowMs : Nat} {fields : ProgressFields}
    (done : progressFields truncate truncateInt manifest rows nowMs = .ok fields) :
    0 < Json.wrapInt64 manifest.leaseExpiresAtMs := by
  rw [progressFields] at done
  obtain ⟨progress, isProgress, -⟩ := bind_eq_ok.mp done
  rw [reconstructMediaProgress] at isProgress
  obtain ⟨limits, isRead, -⟩ := bind_eq_ok.mp isProgress
  simp only [readManifest, bind_eq_ok, pure_eq_ok, ensure_eq_ok] at isRead
  obtain ⟨-, -, -, -, -, -, -, -, -, -, -, -, -, -, -, -, lease, isLease, -⟩ := isRead
  change (valueOf manifest.toJson "lease_expires_at_ms" (getInt64 truncate) 0 >>=
    fun leaseExpiresAtMs => _) = _ at isLease
  obtain ⟨value, isValue, isLease⟩ := bind_eq_ok.mp isLease
  obtain ⟨_, positive, -⟩ := bind_eq_ok.mp isLease
  cases isValue
  exact of_decide_eq_true (ensure_eq_ok.mp positive)

theorem repeatChunk_keeps (kept : Kept store) (maintained : Maintained store)
    (present : store.manifests.find? call.mediaId = some manifest) {answer : PutResult × Store}
    (done : repeatChunk truncate truncateInt store call manifest = .ok answer) :
    Kept answer.2 ∧ Maintained answer.2 := by
  rw [repeatChunk] at done
  have legible := kept.legible _ manifest present
  obtain ⟨durable, inventory, -⟩ := kept.fits _ manifest present
  obtain ⟨lease, -, done⟩ := bind_eq_ok.mp done
  obtain ⟨fields, isFields, done⟩ := bind_eq_ok.mp done
  have isProgress := mapError_eq_ok isFields
  have positive := lease_of_progressFields isProgress
  have wrapped : Json.wrapInt64 (Json.wrapInt64 (call.moment.nowMs + lease)) =
      Json.wrapInt64 (call.moment.nowMs + lease) := Int.bmod_bmod
  dsimp only at positive
  rw [wrapped] at positive
  have below : Json.wrapInt64 (call.moment.nowMs + lease) ≤ int64Max :=
    Int.le_sub_one_of_lt (Int.bmod_lt (by decide))
  have follows := follows_leased legible positive below
  rw [kept.progressFields_eq present follows inventory] at isProgress
  cases isProgress
  cases done
  refine ⟨kept.setManifest present ?_, maintained.setManifest fun other isOther => ?_⟩
  · exact @Manifest.Follows.update _ _ durable follows
  · cases inventory.unique isOther
    exact ⟨rfl, rfl, rfl, rfl⟩

theorem Manifest.Counts.fresh (counts : manifest.Counts durable) (kept : Kept store)
    (absent : store.chunks.find? call.chunkId = none) (inventory : Inventory store call.mediaId durable) :
    call.index.toInt ∉ manifest.receivedIndices := by
  rw [counts.indices]
  intro member
  obtain ⟨entry, isEntry, isIndex⟩ := List.mem_map.mp member
  have found := SortedMap.find?_eq_some.mpr
    (show (call.index.toInt, entry.2) ∈ durable.entries from isIndex ▸ isEntry)
  rw [inventory_new kept absent inventory] at found
  cases found

theorem Manifest.Counts.notNegative (counts : manifest.Counts durable) (kept : Kept store)
    (inventory : Inventory store mediaId durable) : 0 ≤ manifest.receivedBytes := by
  rw [counts.bytes]
  apply List.sum_nonneg
  intro own member
  obtain ⟨entry, isEntry, rfl⟩ := List.mem_map.mp member
  exact inventory.sizes kept.placed entry isEntry

/-- A chunk that does no harm leaves no trace when it is rejected, and the numbers as they are
in the rows. -/
theorem PutCall.Harmless.keeps (harmless : call.Harmless decodeBlock sha256Hex store)
    (kept : Kept store) (maintained : Maintained store) :
    call.Traceless truncate truncateInt decodeBlock sha256Hex store ∧
      Kept (putMediaChunk truncate truncateInt decodeBlock sha256Hex store call).2 ∧
      Maintained (putMediaChunk truncate truncateInt decodeBlock sha256Hex store call).2 := by
  rw [PutCall.Traceless, putMediaChunk]
  cases accepted : acceptChunk decodeBlock sha256Hex store call with
  | error refusal => exact ⟨fun _ _ _ => rfl, kept, maintained⟩
  | ok manifest =>
    obtain ⟨present, size, least, most⟩ := acceptChunk_spec accepted
    have mild := harmless manifest accepted
    dsimp only
    cases stored : store.chunks.find? call.chunkId with
    | some existing =>
      rw [stored] at mild
      dsimp only
      rw [if_pos mild]
      cases repeated : repeatChunk truncate truncateInt store call manifest with
      | error stopped => exact ⟨fun _ _ _ => rfl, kept, maintained⟩
      | ok answer =>
        have isKept := repeatChunk_keeps kept maintained present repeated
        exact ⟨fun _ impossible => (by cases impossible), isKept⟩
    | none =>
      rw [stored] at mild
      obtain ⟨durable, inventory, fits⟩ := kept.fits _ manifest present
      have counts := maintained _ manifest durable present inventory
      have absent := counts.fresh kept stored inventory
      have notNegative := counts.notNegative kept inventory
      obtain ⟨within, lease, isLease⟩ := mild
      have spec := leaseFrom_spec isLease
      have moved := (@advanceMediaProgress_eq_ok manifest call.index.toInt call.sizeBytes.toInt
        call.moment _ absent notNegative).mpr ⟨within, lease, isLease, rfl⟩
      have inserted := kept.insert present size least most stored fun other isOther => by
        cases inventory.unique isOther
        rw [← counts.bytes]
        exact within
      have legible := kept.legible _ manifest present
      have follows : (manifest.update (advanced manifest call.index.toInt call.sizeBytes.toInt
          lease)).Follows manifest :=
        ⟨⟨legible.count, legible.size, rfl, spec.1, spec.2⟩, rfl, rfl⟩
      dsimp only
      rw [moved]
      exact ⟨fun _ impossible => (by cases impossible), inserted.setManifest present follows,
        maintained.insert kept present most stored⟩

/-! ## Runs -/

inductive MediaEvent where
  | begin (call : BeginCall) (mediaId : String)
  | put (call : PutCall)

/-- What holds when no upload is in the way of anything: the calls that work a progress out do
not fail for it, and the numbers of every manifest are those of its chunks. -/
structure Sound (truncate truncateInt : Nat → Int) (decodeBlock : Bytes → Option Bytes)
    (sha256Hex : Bytes → String) (store : Store) : Prop where
  getMedia : ∀ mediaId nowMs refusal,
    Media.getMedia truncate truncateInt store mediaId nowMs ≠ .error (.progress refusal)
  beginMedia : ∀ call mediaId refusal,
    Media.beginMedia truncate truncateInt store call mediaId ≠ .error (.progress refusal)
  finalizeMedia : ∀ mediaId nowMs refusal,
    (Media.finalizeMedia truncate truncateInt decodeBlock sha256Hex store mediaId nowMs).1 ≠
      .error (.progress refusal)
  reconcileMedia : ∀ mediaIds nowMs refusal,
    Media.reconcileMedia truncate truncateInt store mediaIds nowMs ≠ .error (.progress refusal)
  maintained : ∀ mediaId manifest nowMs, store.manifests.find? mediaId = some manifest →
    ∃ progress, reconstructMediaProgress truncate truncateInt manifest.toJson
        ((ownedChunks store mediaId).map ChunkRow.toJson) nowMs = .ok progress ∧
      manifest.receivedChunks = progress.receivedChunks ∧
      manifest.receivedBytes = progress.receivedBytes ∧
      manifest.nextChunk = progress.nextMissingIndex ∧
      manifest.receivedIndices = progress.receivedIndices

theorem Kept.sound (kept : Kept store) (maintained : Maintained store) :
    Sound truncate truncateInt decodeBlock sha256Hex store where
  getMedia _ nowMs refusal := kept.getMedia_ne nowMs (.progress refusal)
  beginMedia call _ refusal := kept.beginMedia_ne call refusal
  finalizeMedia _ nowMs refusal := kept.finalizeMedia_ne nowMs refusal
  reconcileMedia _ nowMs refusal := kept.reconcileMedia_ne nowMs (.progress refusal)
  maintained mediaId manifest nowMs present := by
    obtain ⟨durable, inventory, -⟩ := kept.fits mediaId manifest present
    have counts := maintained mediaId manifest durable present inventory
    have follows := (kept.legible mediaId manifest present).follows
    refine ⟨_, kept.reconstruct present follows inventory fun row => .rfl, ?_⟩
    exact ⟨counts.chunks, counts.bytes, counts.next, counts.indices⟩

section

variable (truncate truncateInt : Nat → Int) (decodeBlock : Bytes → Option Bytes)
  (sha256Hex : Bytes → String)

/-- The collections after a call. An id that is drawn for a new upload is not in use. -/
def stepMedia (store : Store) : MediaEvent → Option Store
  | .begin call mediaId =>
      if call.resumeId = "" ∧ (store.manifests.find? mediaId).isSome then none
      else
        match beginMedia truncate truncateInt store call mediaId with
        | .error _ => some store
        | .ok begun => some begun.2
  | .put call => some (putMediaChunk truncate truncateInt decodeBlock sha256Hex store call).2

/-- A rejected chunk leaves no trace, and afterwards nothing is in the way. -/
def Spotless (store : Store) (event : MediaEvent) : Prop :=
  (∀ call, event = .put call → call.Traceless truncate truncateInt decodeBlock sha256Hex store) ∧
    ∀ next, stepMedia truncate truncateInt decodeBlock sha256Hex store event = some next →
      Sound truncate truncateInt decodeBlock sha256Hex next

/-- A chunk that is accepted does not conflict, fits, and has a lease. -/
def Harmless (store : Store) (event : MediaEvent) : Prop :=
  ∀ call, event = .put call → call.Harmless decodeBlock sha256Hex store

end

theorem Harmless.keeps {event : MediaEvent} {next : Store}
    (harmless : Harmless decodeBlock sha256Hex store event) (kept : Kept store)
    (maintained : Maintained store)
    (taken : stepMedia truncate truncateInt decodeBlock sha256Hex store event = some next) :
    Kept next ∧ Maintained next := by
  cases event with
  | begin call mediaId =>
    rw [stepMedia] at taken
    split at taken
    next => cases taken
    next drawn =>
      cases begun : beginMedia truncate truncateInt store call mediaId with
      | error stopped =>
        rw [begun] at taken
        cases taken
        exact ⟨kept, maintained⟩
      | ok result =>
        rw [begun] at taken
        cases taken
        refine beginMedia_keeps kept maintained (fun isNew => ?_) begun
        exact Option.not_isSome_iff_eq_none.mp fun inUse => drawn ⟨isNew, inUse⟩
  | put call =>
    cases taken
    exact ((harmless call rfl).keeps kept maintained).2

/-- A conflict leaves numbers of chunks that are gone. -/
theorem not_sound_failUpload (kept : Kept store) (maintained : Maintained store)
    (present : store.manifests.find? call.mediaId = some manifest) {existing : ChunkRow}
    (stored : store.chunks.find? call.chunkId = some existing) :
    ¬ Sound truncate truncateInt decodeBlock sha256Hex (failUpload store call manifest) := by
  intro sound
  obtain ⟨durable, inventory, -⟩ := kept.fits _ manifest present
  have legible := kept.legible _ manifest present
  have named := kept.placed.named _ existing stored
  obtain ⟨own, place⟩ := chunkId_injective named.2
  have isOwned : existing ∈ ownedChunks store call.mediaId := mem_ownedChunks.mpr ⟨⟨_, stored⟩, own.symm⟩
  have isThere := (inventory _ existing.identity).mpr ⟨existing, isOwned, rfl, rfl⟩
  have member : existing.index.toInt ∈ manifest.receivedIndices := by
    rw [(maintained _ manifest durable present inventory).indices]
    exact List.mem_map.mpr ⟨_, SortedMap.find?_eq_some.mp isThere, rfl⟩
  have follows : ({ manifest with
      status := .failed, resumable := false, errorCode := some "media_chunk_conflict" } :
        Manifest).Follows manifest :=
    ⟨⟨legible.count, legible.size, legible.version, legible.leased, legible.leaseFits⟩, rfl, rfl⟩
  have marked := kept.setManifest present follows
  have failed : (failUpload store call manifest).manifests.find? call.mediaId = some { manifest with
      status := .failed, resumable := false, errorCode := some "media_chunk_conflict" } := by
    change (store.setManifest call.mediaId _).manifests.find? call.mediaId = _
    rw [find?_setManifest, if_pos rfl]
  have gone : Inventory (failUpload store call manifest) call.mediaId SortedMap.empty := by
    intro index identity
    simp [failUpload, mem_ownedChunks_delete marked.placed, SortedMap.find?_empty]
  have isKept : Kept (failUpload store call manifest) := marked.delete
  obtain ⟨progress, isProgress, -, -, -, indices⟩ := sound.maintained _ _ 0 failed
  rw [isKept.reconstruct failed (isKept.legible _ _ failed).follows gone fun row => .rfl] at isProgress
  cases isProgress
  dsimp only at indices
  rw [indices] at member
  cases member

theorem harmless_of_spotless (kept : Kept store) (maintained : Maintained store) {event : MediaEvent}
    (spotless : Spotless truncate truncateInt decodeBlock sha256Hex store event) :
    Harmless decodeBlock sha256Hex store event := by
  intro call isPut manifest accepted
  subst isPut
  obtain ⟨present, -, -, -⟩ := acceptChunk_spec accepted
  have traceless := spotless.1 call rfl
  have sound := spotless.2 _ rfl
  rw [PutCall.Traceless] at traceless
  rw [putMediaChunk, accepted] at traceless sound
  cases stored : store.chunks.find? call.chunkId with
  | some existing =>
    rw [stored] at sound
    by_contra differs
    dsimp only at sound
    rw [if_neg differs] at sound
    exact not_sound_failUpload kept maintained present stored sound
  | none =>
    rw [stored] at traceless
    obtain ⟨durable, inventory, -⟩ := kept.fits _ manifest present
    have counts := maintained _ manifest durable present inventory
    dsimp only at traceless
    cases moved : advanceMediaProgress manifest call.index.toInt call.sizeBytes.toInt call.moment with
    | ok fields =>
      obtain ⟨within, lease, isLease, -⟩ :=
        (advanceMediaProgress_eq_ok (counts.fresh kept stored inventory)
          (counts.notNegative kept inventory)).mp moved
      exact ⟨within, lease, isLease⟩
    | error refusal =>
      rw [moved] at traceless
      have same := traceless (.progress refusal) rfl (fun impossible => by cases impossible)
      have inserted := congrArg (fun own : Store => own.chunks.find? call.chunkId) same
      dsimp only at inserted
      rw [SortedMap.find?_assign, if_pos rfl, stored] at inserted
      cases inserted

/-- In every run the chunks leave no trace when they are rejected, and nothing is in the way
of the uploads, exactly if the chunks that are accepted do not conflict, fit and have a lease. -/
theorem spotless_iff (truncate truncateInt : Nat → Int) (decodeBlock : Bytes → Option Bytes)
    (sha256Hex : Bytes → String) (events : List MediaEvent) :
    RunAllowed (stepMedia truncate truncateInt decodeBlock sha256Hex)
        (Spotless truncate truncateInt decodeBlock sha256Hex) Store.empty events ↔
      RunAllowed (stepMedia truncate truncateInt decodeBlock sha256Hex)
        (Harmless decodeBlock sha256Hex) Store.empty events := by
  refine @runAllowed_congr_of _ _ _ _ _ (fun store => Kept store ∧ Maintained store) _ ?_ ?_ _ ?_
  · intro before next event sound harmless taken
    exact harmless.keeps sound.1 sound.2 taken
  · intro before event sound
    constructor
    · exact harmless_of_spotless sound.1 sound.2
    · intro harmless
      refine ⟨fun call isPut => ((harmless call isPut).keeps sound.1 sound.2).1, fun next taken => ?_⟩
      have both := harmless.keeps sound.1 sound.2 taken
      exact both.1.sound both.2
  · exact ⟨⟨⟨fun _ _ impossible => (by cases impossible), fun _ _ impossible => (by cases impossible),
      fun _ _ impossible => (by cases impossible)⟩, fun _ _ impossible => (by cases impossible),
      fun _ _ impossible => (by cases impossible)⟩, fun _ _ _ impossible => (by cases impossible)⟩

/-! ## A chunk that is too long -/

/-- Sixty-four digits. -/
def zeros : String := "0000000000000000000000000000000000000000000000000000000000000000"

/-- An upload of two bytes in one chunk. -/
def shortUpload : BeginCall where
  databaseName := "db"
  collection := "files"
  filename := "a.bin"
  contentType := "text/plain"
  sizeBytes := 2
  chunkCount := 1
  sha256 := zeros
  resumeId := ""
  moment := ⟨1000, .unset⟩

/-- Its chunk with three bytes. -/
def longChunk : PutCall where
  mediaId := "m"
  index := 0
  dataBase64 := [65, 65, 65, 65]
  sizeBytes := 3
  sha256 := "709e80c88487a2411e1ee4dfb9f22a861492d20c4765150c0c794abd70f8147c"
  moment := ⟨2000, .unset⟩

/-- The checksum of bytes as a text. -/
def hexSha256 (bytes : Bytes) : String :=
  String.ofList ((Sha256.hash (bytes.map UInt8.toNat)).flatMap fun byte =>
    [Nat.digitChar (byte / 16), Nat.digitChar (byte % 16)])

set_option maxRecDepth 4000 in
/-- The chunk is rejected and stays. -/
theorem not_spotless_longChunk : ¬ RunAllowed
    (stepMedia (fun _ => 0) (fun _ => 0) (fun _ => some [0, 0, 0]) hexSha256)
    (Spotless (fun _ => 0) (fun _ => 0) (fun _ => some [0, 0, 0]) hexSha256) Store.empty
    [.begin shortUpload "m", .put longChunk] := by
  intro all
  have second := (all.2 _ rfl).1.1 longChunk rfl
  have same := second (.progress (.invalidArgument "media progress exceeds manifest size")) rfl
    (fun impossible => by cases impossible)
  have rows := congrArg (fun store : Store => store.chunks.entries.length) same
  exact absurd rows (by decide)

end PacificDb.Media
