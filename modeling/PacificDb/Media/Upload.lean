import PacificDb.Lib.Machine
import PacificDb.Media.Chunks
import PacificDb.Media.Progress
import Mathlib.Data.String.Basic

/-!
# Uploading media

An upload is a manifest and the rows of its chunks, in two collections. The manifest keeps
what `reconstructMediaProgress` would work out from the rows, and a new chunk moves these
numbers on by itself. Everything else works the progress out from the rows again.

A call is alone with its upload. The collections do what they are asked, the checksum and
the base64 decoder of the library are parameters, and the time and the setting of the lease
come with each call.
-/

namespace PacificDb.Media

open Lib Engine

/-! ## Manifests and rows -/

/-- What stops a call: an error of its own, or the progress that cannot be worked out. -/
inductive Stopped where
  | refused (refusal : Refusal)
  | progress (refusal : Refusal)
  deriving DecidableEq

def mediaStateName : MediaState → String
  | .uploading => "uploading"
  | .verifying => "verifying"
  | .ready => "ready"
  | .failed => "failed"
  | .aborted => "aborted"

structure Manifest where
  id : String
  database : String
  collection : String
  filename : String
  contentType : String
  sizeBytes : Int64
  chunkCount : Int64
  sha256 : String
  status : MediaState
  stateVersion : Int
  receivedChunks : Int
  receivedBytes : Int
  nextChunk : Int
  receivedIndices : List Int
  leaseExpiresAtMs : Int
  resumable : Bool
  created : Nat
  errorCode : Option String
  deriving DecidableEq

/-- The document of a manifest, as far as the progress reads it. -/
def Manifest.toJson (manifest : Manifest) : Json :=
  .object [("id", .string manifest.id), ("size_bytes", .integer manifest.sizeBytes.toInt),
    ("chunk_count", .integer manifest.chunkCount.toInt), ("sha256", .string manifest.sha256),
    ("status", .string (mediaStateName manifest.status)),
    ("state_version", .integer manifest.stateVersion),
    ("lease_expires_at_ms", .integer manifest.leaseExpiresAtMs)]

structure ChunkRow where
  id : String
  mediaId : String
  index : Int64
  sizeBytes : Int64
  sha256 : String
  data : Bytes
  deriving DecidableEq

/-- The document of a row without its data. -/
def ChunkRow.toJson (row : ChunkRow) : Json :=
  .object [("id", .string row.id), ("media_id", .string row.mediaId),
    ("index", .integer row.index.toInt), ("size_bytes", .integer row.sizeBytes.toInt),
    ("sha256", .string row.sha256)]

/-- The two collections, by id. -/
structure Store where
  manifests : SortedMap String Manifest
  chunks : SortedMap String ChunkRow

def Store.empty : Store := ⟨SortedMap.empty, SortedMap.empty⟩

def chunkId (mediaId : String) (index : Int) : String := mediaId ++ ":" ++ toString index

/-- The rows that the filter of an owner finds. -/
def ownedChunks (store : Store) (mediaId : String) : List ChunkRow :=
  (store.chunks.entries.map Prod.snd).filter fun row => row.mediaId = mediaId

/-- The rows at the indices of a manifest, up to one that is not as it says. -/
def hintedChunks (store : Store) (mediaId : String) (chunkCount : Int) : Int → List Int → List ChunkRow
  | _, [] => []
  | previous, index :: rest =>
      if index ≤ previous ∨ chunkCount ≤ index then []
      else
        match store.chunks.find? (chunkId mediaId index) with
        | none => []
        | some row =>
            if row.mediaId ≠ mediaId ∨ row.index.toInt ≠ index then []
            else row :: hintedChunks store mediaId chunkCount index rest

def rawMediaChunks (store : Store) (mediaId : String) : List ChunkRow :=
  match store.manifests.find? mediaId with
  | none => []
  | some manifest =>
      let stored := ownedChunks store mediaId
      let hinted := hintedChunks store mediaId manifest.chunkCount.toInt (-1) manifest.receivedIndices
      if manifest.receivedIndices.length = stored.length ∧ hinted.length = stored.length then hinted
      else stored.mergeSort fun left right => left.index.toInt ≤ right.index.toInt

def deleteOwnedChunks (store : Store) (mediaId : String) : Store :=
  { store with chunks := (ownedChunks store mediaId).foldl (fun chunks row => chunks.erase row.id) store.chunks }

def Store.setManifest (store : Store) (mediaId : String) (manifest : Manifest) : Store :=
  { store with manifests := store.manifests.assign mediaId manifest }

/-! ## The lease -/

/-- The setting of the lease, with what its number reads as. -/
inductive LeaseSetting where
  | unset
  | unreadable
  | number (duration : Int64)

/-- The clock and the setting in one call. -/
structure Moment where
  nowMs : Nat
  leaseSetting : LeaseSetting

def mediaLeaseDurationMs (setting : LeaseSetting) : Except Refusal Int :=
  match setting with
  | .unset => .ok (24 * 60 * 60 * 1000)
  | .unreadable =>
      .error (.invalidArgument "PACIFICDB_MEDIA_UPLOAD_LEASE_MS must be a positive integer")
  | .number duration =>
      if 0 < duration.toInt then .ok duration.toInt
      else .error (.invalidArgument "PACIFICDB_MEDIA_UPLOAD_LEASE_MS must be a positive integer")

/-- The end of a lease that starts now. -/
def leaseFrom (moment : Moment) : Except Refusal Int := do
  let lease ← mediaLeaseDurationMs moment.leaseSetting
  ensure (lease ≤ int64Max - moment.nowMs) (.invalidArgument "media upload lease is too large")
  return moment.nowMs + lease

/-! ## Progress -/

/-- The members that an update of the progress sets. -/
structure ProgressFields where
  stateVersion : Int
  receivedChunks : Int
  receivedBytes : Int
  nextChunk : Int
  receivedIndices : List Int
  leaseExpiresAtMs : Option Int
  resumable : Bool
  deriving DecidableEq

def Manifest.update (manifest : Manifest) (fields : ProgressFields) : Manifest :=
  { manifest with
    stateVersion := fields.stateVersion
    receivedChunks := fields.receivedChunks
    receivedBytes := fields.receivedBytes
    nextChunk := fields.nextChunk
    receivedIndices := fields.receivedIndices
    leaseExpiresAtMs := fields.leaseExpiresAtMs.getD manifest.leaseExpiresAtMs
    resumable := fields.resumable }

/-- `std::lower_bound` and `insert`. -/
def insertIndex (indices : List Int) (index : Int) : List Int :=
  indices.takeWhile (· < index) ++ index :: indices.dropWhile (· < index)

/-- The loop over the indices that have arrived, with the passes that are left. -/
def advanceNext (indices : List Int) : Nat → Int → Int
  | 0, next => next
  | remaining + 1, next => if next ∈ indices then advanceNext indices remaining (next + 1) else next

/-- The progress after a new chunk. The manifests of uploads have all members. -/
def advanceMediaProgress (manifest : Manifest) (index sizeBytes : Int) (moment : Moment) :
    Except Refusal ProgressFields := do
  ensure ((manifest.receivedIndices.dropWhile (· < index)).head? ≠ some index)
    (.invalidArgument "media progress requires reconciliation")
  let indices := insertIndex manifest.receivedIndices index
  let previousBytes := manifest.receivedBytes
  ensure (0 ≤ previousBytes && sizeBytes ≤ int64Max - previousBytes &&
      previousBytes + sizeBytes ≤ manifest.sizeBytes.toInt)
    (.invalidArgument "media progress exceeds manifest size")
  let next := max 0 manifest.nextChunk
  let leaseExpiresAtMs ← leaseFrom moment
  return {
    stateVersion := 2
    receivedChunks := indices.length
    receivedBytes := previousBytes + sizeBytes
    nextChunk := advanceNext indices (manifest.chunkCount.toInt - next).toNat next
    receivedIndices := indices
    leaseExpiresAtMs := some leaseExpiresAtMs
    resumable := true }

section

variable (truncate truncateInt : Nat → Int)

def progressFields (manifest : Manifest) (chunks : List ChunkRow) (timestamp : Nat) :
    Except Refusal ProgressFields := do
  let progress ← reconstructMediaProgress truncate truncateInt manifest.toJson
    (chunks.map ChunkRow.toJson) timestamp
  return {
    stateVersion := progress.stateVersion
    receivedChunks := progress.receivedChunks
    receivedBytes := progress.receivedBytes
    nextChunk := progress.nextMissingIndex
    receivedIndices := progress.receivedIndices
    leaseExpiresAtMs := if 0 < progress.leaseExpiresAtMs then some progress.leaseExpiresAtMs else none
    resumable := manifest.status = .uploading ∨ manifest.status = .verifying }

def decorateMedia (manifest : Manifest) (chunks : List ChunkRow) (timestamp : Nat) :
    Except Stopped Manifest := do
  let fields ← (progressFields truncate truncateInt manifest chunks timestamp).mapError .progress
  return manifest.update fields

end

/-! ## Beginning -/

def requireText (value name : String) : Except Refusal Unit :=
  ensure (value ≠ "" && value.utf8ByteSize ≤ 128)
    (.invalidArgument (name ++ " must be 1-128 characters"))

/-- `std::isxdigit` in the locale of C. -/
def isXDigit (c : Char) : Bool :=
  c.isDigit || ('a' ≤ c && c ≤ 'f') || ('A' ≤ c && c ≤ 'F')

def requireSha256 (value : String) : Except Refusal Unit :=
  ensure (value.utf8ByteSize = 64 && value.toList.all isXDigit)
    (.invalidArgument "sha256 must contain 64 hexadecimal characters")

structure BeginCall where
  databaseName : String
  collection : String
  filename : String
  contentType : String
  sizeBytes : Int64
  chunkCount : Int64
  sha256 : String
  resumeId : String
  moment : Moment

def checkBegin (call : BeginCall) : Except Refusal Unit := do
  requireText call.databaseName "database name"
  requireText call.collection "collection"
  requireText call.filename "filename"
  requireText call.contentType "content type"
  requireSha256 call.sha256
  ensure (0 ≤ call.sizeBytes.toInt && 0 < call.chunkCount.toInt)
    (.invalidArgument "invalid media size or chunk count")

def findManifest (store : Store) (mediaId : String) : Except Refusal Manifest :=
  match store.manifests.find? mediaId with
  | none => .error (.invalidArgument "media upload not found")
  | some manifest => .ok manifest

/-- The manifest of a new upload. -/
def BeginCall.manifest (call : BeginCall) (mediaId : String) (leaseExpiresAtMs : Int) : Manifest where
  id := mediaId
  database := call.databaseName
  collection := call.collection
  filename := call.filename
  contentType := call.contentType
  sizeBytes := call.sizeBytes
  chunkCount := call.chunkCount
  sha256 := call.sha256
  status := .uploading
  stateVersion := 2
  receivedChunks := 0
  receivedBytes := 0
  nextChunk := 0
  receivedIndices := []
  leaseExpiresAtMs := leaseExpiresAtMs
  resumable := true
  created := call.moment.nowMs
  errorCode := none

/-- The metadata that a call to resume repeats. -/
def BeginCall.matchesManifest (call : BeginCall) (existing : Manifest) : Bool :=
  existing.database = call.databaseName && existing.collection = call.collection &&
    existing.filename = call.filename && existing.contentType = call.contentType &&
    existing.sizeBytes = call.sizeBytes && existing.chunkCount = call.chunkCount &&
    existing.sha256 = call.sha256

section

variable (truncate truncateInt : Nat → Int)

def resumeMedia (store : Store) (call : BeginCall) : Except Stopped (Manifest × Store) := do
  let existing ← (findManifest store call.resumeId).mapError .refused
  if existing.status = .ready then
    let decorated ← decorateMedia truncate truncateInt existing (rawMediaChunks store call.resumeId)
      call.moment.nowMs
    return (decorated, store)
  else
    ensure (existing.status ≠ .failed && existing.status ≠ .aborted)
      (.refused (.invalidArgument "media upload is not resumable"))
    ensure (call.matchesManifest existing)
      (.refused (.invalidArgument "resume metadata does not match existing upload"))
    let leaseExpiresAtMs ← (leaseFrom call.moment).mapError .refused
    let leased := { existing with leaseExpiresAtMs := leaseExpiresAtMs }
    let resumed ← decorateMedia truncate truncateInt leased (rawMediaChunks store call.resumeId)
      call.moment.nowMs
    return (resumed, store.setManifest call.resumeId resumed)

/-- `beginMedia`, with the id that is drawn for a new upload. -/
def beginMedia (store : Store) (call : BeginCall) (mediaId : String) :
    Except Stopped (Manifest × Store) := do
  (checkBegin call).mapError .refused
  if call.resumeId ≠ "" then resumeMedia truncate truncateInt store call
  else
    let leaseExpiresAtMs ← (leaseFrom call.moment).mapError .refused
    let manifest := call.manifest mediaId leaseExpiresAtMs
    return (manifest, store.setManifest mediaId manifest)

end

/-! ## Chunks -/

/-- `decodeBase64`, where `decodeBlock` is the decoder of the library. -/
def decodeBase64 (decodeBlock : Bytes → Option Bytes) (encoded : Bytes) : Except Refusal Bytes :=
  if encoded = [] ∨ encoded.length % 4 ≠ 0 then .error (.invalidArgument "invalid base64 media chunk")
  else
    match decodeBlock encoded with
    | none => .error (.invalidArgument "invalid base64 media chunk")
    | some decoded =>
        let last := if encoded.getLast? = some 61 then 1 else 0
        let beforeLast := if encoded.dropLast.getLast? = some 61 then 1 else 0
        .ok (decoded.take (decoded.length - (last + beforeLast)))

structure PutCall where
  mediaId : String
  index : Int64
  dataBase64 : Bytes
  sizeBytes : Int64
  sha256 : String
  moment : Moment

def PutCall.chunkId (call : PutCall) : String := Media.chunkId call.mediaId call.index.toInt

def PutCall.row (call : PutCall) : ChunkRow :=
  ⟨call.chunkId, call.mediaId, call.index, call.sizeBytes, call.sha256, call.dataBase64⟩

/-- What the answer adds to the progress. -/
structure PutResult where
  fields : ProgressFields
  duplicate : Bool

def chunkConflict : Stopped := .refused (.invalidArgument "media chunk conflicts with committed chunk")

section

variable (truncate truncateInt : Nat → Int) (decodeBlock : Bytes → Option Bytes)
  (sha256Hex : Bytes → String)

/-- The checks before the collection of the chunks is read. -/
def acceptChunk (store : Store) (call : PutCall) : Except Refusal Manifest := do
  requireSha256 call.sha256
  let decoded ← decodeBase64 decodeBlock call.dataBase64
  ensure (0 ≤ call.sizeBytes.toInt && (decoded.length : Int) = call.sizeBytes.toInt)
    (.invalidArgument "media chunk size does not match payload")
  ensure (sha256Hex decoded = call.sha256)
    (.invalidArgument "media chunk checksum does not match payload")
  let manifest ← findManifest store call.mediaId
  ensure (manifest.status = .uploading) (.invalidArgument "media upload is not accepting chunks")
  ensure (0 ≤ call.index.toInt && call.index.toInt < manifest.chunkCount.toInt)
    (.invalidArgument "media chunk index is out of range")
  return manifest

/-- A chunk that is there already moves the lease on, with a sum that may wrap. -/
def repeatChunk (store : Store) (call : PutCall) (manifest : Manifest) :
    Except Stopped (PutResult × Store) := do
  let lease ← (mediaLeaseDurationMs call.moment.leaseSetting).mapError .refused
  let leaseExpiresAtMs := Json.wrapInt64 (call.moment.nowMs + lease)
  let leased := { manifest with leaseExpiresAtMs := leaseExpiresAtMs }
  let fields ← (progressFields truncate truncateInt leased (rawMediaChunks store call.mediaId)
    call.moment.nowMs).mapError .progress
  let extended := { fields with leaseExpiresAtMs := some leaseExpiresAtMs }
  return (⟨extended, true⟩, store.setManifest call.mediaId (manifest.update extended))

/-- A conflicting chunk fails the upload, whose chunks are deleted. -/
def failUpload (store : Store) (call : PutCall) (manifest : Manifest) : Store :=
  deleteOwnedChunks (store.setManifest call.mediaId { manifest with
    status := .failed
    resumable := false
    errorCode := some "media_chunk_conflict" }) call.mediaId

/-- The result, and the collections after the call. -/
def putMediaChunk (store : Store) (call : PutCall) : Except Stopped PutResult × Store :=
  match acceptChunk decodeBlock sha256Hex store call with
  | .error refusal => (.error (.refused refusal), store)
  | .ok manifest =>
      match store.chunks.find? call.chunkId with
      | some existing =>
          if existing.sha256 = call.sha256 ∧ existing.sizeBytes = call.sizeBytes then
            match repeatChunk truncate truncateInt store call manifest with
            | .error stopped => (.error stopped, store)
            | .ok answer => (.ok answer.1, answer.2)
          else (.error chunkConflict, failUpload store call manifest)
      | none =>
          let inserted := { store with chunks := store.chunks.assign call.chunkId call.row }
          match advanceMediaProgress manifest call.index.toInt call.sizeBytes.toInt call.moment with
          | .error refusal => (.error (.progress refusal), inserted)
          | .ok fields =>
              (.ok ⟨fields, false⟩, inserted.setManifest call.mediaId (manifest.update fields))

/-! ## The other calls -/

def getMedia (store : Store) (mediaId : String) (nowMs : Nat) : Except Stopped (Option Manifest) :=
  match store.manifests.find? mediaId with
  | none => .ok none
  | some manifest => do
      let decorated ← decorateMedia truncate truncateInt manifest (rawMediaChunks store mediaId) nowMs
      return some decorated

/-- One chunk of the final check, behind the bytes so far. -/
def verifyChunk (store : Store) (mediaId : String) (chunks : List ChunkRow) (behind : Bytes)
    (index : Nat) : Except Stopped Bytes := do
  ensure ((chunks[index]?).map (fun row => row.index.toInt) = some (index : Int))
    (.progress (.runtimeError "media upload has missing chunks"))
  match store.chunks.find? (Media.chunkId mediaId index) with
  | none => .error (.progress (.runtimeError "media upload has missing chunks"))
  | some row => do
      let bytes ← (decodeBase64 decodeBlock row.data).mapError .refused
      ensure (sha256Hex bytes = row.sha256 && (bytes.length : Int) = row.sizeBytes.toInt)
        (.refused (.runtimeError "media chunk checksum mismatch"))
      ensure ((bytes.length : Int) ≤ int64Max - behind.length)
        (.refused (.runtimeError "media size overflow"))
      return behind ++ bytes

/-- The final check of all chunks. -/
def verifyMedia (store : Store) (mediaId : String) (manifest : Manifest) (chunks : List ChunkRow) :
    Except Stopped Unit := do
  let whole ← (List.range manifest.chunkCount.toInt.toNat).foldlM
    (verifyChunk decodeBlock sha256Hex store mediaId chunks) []
  ensure ((whole.length : Int) = manifest.sizeBytes.toInt && sha256Hex whole = manifest.sha256)
    (.refused (.runtimeError "media checksum or size does not match manifest"))

/-- `finalizeMedia`: the manifest with the error of the answer, and the collections after the
call. -/
def finalizeMedia (store : Store) (mediaId : String) (nowMs : Nat) :
    Except Stopped (Manifest × Option String) × Store :=
  match findManifest store mediaId with
  | .error refusal => (.error (.refused refusal), store)
  | .ok manifest =>
      let chunks := rawMediaChunks store mediaId
      if manifest.status = .ready then
        match decorateMedia truncate truncateInt manifest chunks nowMs with
        | .error stopped => (.error stopped, store)
        | .ok decorated => (.ok (decorated, none), store)
      else if manifest.status = .failed ∨ manifest.status = .aborted then
        (.error (.refused (.invalidArgument "media upload is not finalizable")), store)
      else
        match decorateMedia truncate truncateInt manifest chunks nowMs with
        | .error stopped => (.error stopped, store)
        | .ok updated =>
            if updated.receivedChunks ≠ manifest.chunkCount.toInt then
              (.ok ({ updated with resumable := true }, some "media_chunks_missing"),
                store.setManifest mediaId updated)
            else
              let verifying := store.setManifest mediaId
                { updated with status := .verifying, resumable := true }
              match verifyMedia decodeBlock sha256Hex verifying mediaId manifest chunks with
              | .error stopped =>
                  (.error stopped, deleteOwnedChunks (verifying.setManifest mediaId { updated with
                    status := .failed
                    resumable := false
                    errorCode := some "media_verification_failed" }) mediaId)
              | .ok () =>
                  let done := { updated with status := .ready, resumable := false }
                  (.ok (done, none), verifying.setManifest mediaId done)

/-- The manifest of an upload whose chunks are gone. -/
def Manifest.expire (manifest : Manifest) : Manifest :=
  { manifest with
    status := .aborted
    resumable := false
    receivedChunks := 0
    receivedBytes := 0
    nextChunk := manifest.chunkCount.toInt
    receivedIndices := []
    errorCode := some "media_upload_expired" }

def leaseExpired (manifest : Manifest) (nowMs : Nat) : Except Refusal Bool := do
  ensure (0 < manifest.leaseExpiresAtMs) (.invalidArgument "media lease expiry must be positive")
  return manifest.leaseExpiresAtMs ≤ nowMs

/-- An upload that was being verified is one that goes on. -/
def Manifest.reset (manifest : Manifest) : Manifest :=
  if manifest.status = .verifying then { manifest with status := .uploading, resumable := true }
  else manifest

def uploadExpired (manifest : Manifest) (nowMs : Nat) : Except Stopped Bool :=
  if manifest.status = .ready ∨ manifest.status = .aborted then .ok false
  else (leaseExpired manifest nowMs).mapError .progress

/-- The collections without the chunks of an upload that has failed. -/
def clearFailed (store : Store) (mediaId : String) (manifest : Manifest) : Store :=
  if manifest.status = .failed ∨ manifest.status = .aborted then deleteOwnedChunks store mediaId
  else store

/-- One upload of `reconcileMedia`. -/
def reconcileUpload (store : Store) (mediaId : String) (nowMs : Nat) : Except Stopped Store :=
  match store.manifests.find? mediaId with
  | none => .ok store
  | some manifest => do
      let expired ← uploadExpired manifest.reset nowMs
      if expired then
        return (deleteOwnedChunks store mediaId).setManifest mediaId manifest.reset.expire
      else
        let cleared := clearFailed store mediaId manifest.reset
        let repaired ← decorateMedia truncate truncateInt manifest.reset
          (rawMediaChunks cleared mediaId) nowMs
        return cleared.setManifest mediaId repaired

/-- The loop of `reconcileMedia`, which an error ends. -/
def reconcileMedia (store : Store) (mediaIds : List String) (nowMs : Nat) : Except Stopped Store :=
  mediaIds.foldlM (fun store mediaId => reconcileUpload truncate truncateInt store mediaId nowMs) store

end

end PacificDb.Media
