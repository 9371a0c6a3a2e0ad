import PacificDb.Json
import PacificDb.Lib.Sha256
import PacificDb.Raft.LogFile

/-!
# Publishing a snapshot

A snapshot is a file and beside it a file with its SHA-256. Each is replaced atomically, the
snapshot first; `readPersistedSnapshotMetadata` accepts the two only if they match. A crash
between the two replacements leaves the new snapshot with the checksum of the old one, and
`replayRaftLog` refuses the directory. `crash_atomic_iff` says which crashes are harmless.

The two ways of reading an envelope, from a bundle and from JSON text, are one parameter.
-/

namespace PacificDb.Raft.Publication

open Lib

/-- The files of a publication, in the data directory. -/
inductive Name where
  /-- `.snapshot` -/
  | snapshot
  /-- `.snapshot.tmp`, or the file that a transfer is received in. -/
  | temporary
  /-- `.snapshot.sha256` -/
  | checksum
  /-- `.snapshot.sha256.tmp` -/
  | checksumTemporary
  deriving Repr, DecidableEq

structure File where
  bytes : Bytes
  synced : Bool
  deriving Repr, DecidableEq

/-- The directory as the process sees it, and its entries on the disk. -/
structure Volume where
  current : Name → Option File
  durable : Name → Option File

inductive Operation where
  | write (name : Name) (bytes : Bytes)
  | sync (name : Name)
  | rename (source target : Name)
  | remove (name : Name)
  | syncDirectory
  deriving Repr, DecidableEq

def perform (volume : Volume) : Operation → Volume
  | .write name bytes =>
      { volume with current := Function.update volume.current name (some ⟨bytes, false⟩) }
  | .sync name =>
      { volume with
        current := Function.update volume.current name
          ((volume.current name).map fun file => { file with synced := true }) }
  | .rename source target =>
      { volume with
        current := Function.update
          (Function.update volume.current target (volume.current source)) source none }
  | .remove name => { volume with current := Function.update volume.current name none }
  | .syncDirectory => { volume with durable := volume.current }

/-! ## The publication -/

def durableAtomicReplaceFile (tempPath finalPath : Name) : List Operation :=
  [.sync tempPath, .rename tempPath finalPath, .syncDirectory]

def hexDigit (digit : Nat) : UInt8 := .ofNat (if digit < 10 then 48 + digit else 87 + digit)

/-- `ChecksumCalculator::sha256File`: the digest in hexadecimal. -/
def sha256File (bytes : Bytes) : Bytes :=
  (Sha256.hash (bytes.map UInt8.toNat)).flatMap fun byte => [hexDigit (byte / 16), hexDigit (byte % 16)]

/-- The checksum with the newline after it. -/
def persistRaftSnapshotChecksum (checksum : Bytes) : List Operation :=
  .write .checksumTemporary (checksum ++ [10]) :: durableAtomicReplaceFile .checksumTemporary .checksum

/-- What `createSnapshot` and the handler of a transfer do with the file of a new snapshot:
check it, and publish or remove it. -/
def publish (accepted : Bool) (bytes : Bytes) : List Operation :=
  .write .temporary bytes ::
    if accepted then
      durableAtomicReplaceFile .temporary .snapshot ++ persistRaftSnapshotChecksum (sha256File bytes)
    else [.remove .temporary]

/-- `createSnapshot`: the bundle is read back and validated before it replaces anything. -/
def createSnapshot (validateRaftSnapshot : Bytes → Bool) (bytes : Bytes) : List Operation :=
  publish (validateRaftSnapshot bytes) bytes

/-- The end of a transfer: its digest, its boundary and its content are checked, and it is
published unless the node has applied so much. -/
def installSnapshot (validateTransferred : Bytes → Bool) (included lastApplied : Nat)
    (payloadSha256 bytes : Bytes) : List Operation :=
  publish (sha256File bytes == payloadSha256 && validateTransferred bytes &&
    decide (lastApplied < included)) bytes

/-! ## Crashes and the reader -/

/-- A crash after some of the operations. An entry that is not on the disk may be lost, a
file that is not synced may hold anything. -/
structure Crash where
  after : Nat
  kept : Name → Bool
  torn : Name → Bytes

/-- The files that a restart finds. -/
def Crash.files (crash : Crash) (volume : Volume) (operations : List Operation) (name : Name) :
    Option Bytes :=
  let left := (operations.take crash.after).foldl perform volume
  (if crash.kept name then left.current name else left.durable name).map fun file =>
    if file.synced then file.bytes else crash.torn name

def isXDigit (byte : UInt8) : Bool :=
  (48 ≤ byte && byte ≤ 57) || (65 ≤ byte && byte ≤ 70) || (97 ≤ byte && byte ≤ 102)

def isSha256Hex (value : Bytes) : Bool := value.length == 64 && value.all isXDigit

def isSpace (byte : UInt8) : Bool := byte == 32 || (9 ≤ byte && byte ≤ 13)

def readTrustedSnapshotChecksum (files : Name → Option Bytes) : Bool :=
  match files .checksum with
  | none => false
  | some sidecar =>
      isSha256Hex (sidecar.take 64) && (sidecar.drop 64).all isSpace &&
        decide ((files .snapshot).map sha256File = some (sidecar.take 64))

/-- The checks of an envelope, and the index and the term it is for. -/
def metadata (envelope : Json) : Option (Nat × Nat) :=
  match envelope.field? "version", envelope.field? "commitIndex",
    envelope.field? "lastIncludedIndex", envelope.field? "lastIncludedTerm" with
  | some (.unsigned version), some (.unsigned commitIndex), some (.unsigned lastIncludedIndex),
    some (.unsigned lastIncludedTerm) =>
      match envelope.field? "complete", envelope.field? "lsm_payload" with
      | some (.bool true), some _ =>
          if version = 1 ∧ lastIncludedIndex ≠ 0 ∧ commitIndex = lastIncludedIndex then
            some (lastIncludedIndex, lastIncludedTerm)
          else none
      | _, _ => none
  | _, _, _, _ => none

section Reader

variable (readEnvelope : Bytes → Option Json)

/-- What the reader finds in a snapshot that it trusts. -/
def boundary (bytes : Bytes) : Option (Nat × Nat) := (readEnvelope bytes).bind metadata

def readPersistedSnapshotMetadata (files : Name → Option Bytes) : Except String (Nat × Nat) :=
  if readTrustedSnapshotChecksum files then
    match files .snapshot with
    | none => .error "snapshot_file_unreadable"
    | some bytes =>
        match boundary readEnvelope bytes with
        | none => .error "snapshot_metadata_invalid"
        | some found => .ok found
  else .error "snapshot_file_checksum_mismatch"

/-- A snapshot and its checksum, as the reader accepts them. -/
structure Pair where
  snapshot : Bytes
  checksum : Bytes
  trusted : isSha256Hex (checksum.take 64) = true ∧ (checksum.drop 64).all isSpace = true ∧
    sha256File snapshot = checksum.take 64
  readable : (boundary readEnvelope snapshot).isSome = true

variable {readEnvelope}

/-- A directory that holds a pair, with any files under the temporary names. -/
def Pair.volume (pair : Pair readEnvelope) (temporaries : Name → Option File) : Volume :=
  let entries : Name → Option File
    | .snapshot => some ⟨pair.snapshot, true⟩
    | .checksum => some ⟨pair.checksum, true⟩
    | name => temporaries name
  ⟨entries, entries⟩

/-- After the crash the reader finds the old snapshot, or the new one. -/
def Atomic (pair : Pair readEnvelope) (temporaries : Name → Option File) (bytes : Bytes)
    (operations : List Operation) (crash : Crash) : Prop :=
  ∃ found,
    readPersistedSnapshotMetadata readEnvelope (crash.files (pair.volume temporaries) operations) =
      .ok found ∧
    (boundary readEnvelope pair.snapshot = some found ∨ boundary readEnvelope bytes = some found)

end Reader

/-- The new snapshot is in its place after the crash. -/
def Crash.Replaced (crash : Crash) : Prop :=
  4 ≤ crash.after ∨ crash.after = 3 ∧ crash.kept .snapshot = true

/-- So is its checksum. -/
def Crash.Completed (crash : Crash) : Prop :=
  8 ≤ crash.after ∨ crash.after = 7 ∧ crash.kept .checksum = true

instance (crash : Crash) : Decidable crash.Replaced := inferInstanceAs (Decidable (_ ∨ _))

instance (crash : Crash) : Decidable crash.Completed := inferInstanceAs (Decidable (_ ∨ _))

theorem Crash.Completed.replaced {crash : Crash} (completed : crash.Completed) : crash.Replaced := by
  apply Or.inl
  rcases completed with all | ⟨renamed, _⟩ <;> omega

/-! ## The checksum file -/

theorem isXDigit_hexDigit : ∀ {digit : Nat}, digit < 16 → isXDigit (hexDigit digit) = true := by
  decide

theorem mem_beBytes_lt {width value byte : Nat} (inside : byte ∈ Sha256.beBytes width value) :
    byte < 256 := by
  induction width with
  | zero => cases inside
  | succ width ih =>
    rcases List.mem_cons.mp inside with first | rest
    · rw [first]
      exact Nat.mod_lt _ (by omega)
    · exact ih rest

theorem length_beBytes (width value : Nat) : (Sha256.beBytes width value).length = width := by
  induction width with
  | zero => rfl
  | succ width ih => rw [Sha256.beBytes, List.length_cons, ih]

theorem isSha256Hex_sha256File (bytes : Bytes) : isSha256Hex (sha256File bytes) = true := by
  rw [isSha256Hex, Bool.and_eq_true, beq_iff_eq, List.all_eq_true]
  constructor
  · simp [sha256File, Sha256.hash, length_beBytes]
  · intro digit inside
    obtain ⟨byte, ofHash, written⟩ := List.mem_flatMap.mp inside
    obtain ⟨word, _, ofWord⟩ := List.mem_flatMap.mp ofHash
    have small := mem_beBytes_lt ofWord
    simp only [List.mem_cons, List.not_mem_nil, or_false] at written
    rcases written with high | low
    · rw [high]
      exact isXDigit_hexDigit (by omega)
    · rw [low]
      exact isXDigit_hexDigit (by omega)

theorem readTrusted_eq {files : Name → Option Bytes} {sidecar content : Bytes}
    (checksum : files .checksum = some sidecar) (hex : isSha256Hex (sidecar.take 64) = true)
    (spaces : (sidecar.drop 64).all isSpace = true) (snapshot : files .snapshot = some content) :
    readTrustedSnapshotChecksum files = decide (sha256File content = sidecar.take 64) := by
  rw [readTrustedSnapshotChecksum, checksum, snapshot]
  dsimp only
  rw [hex, spaces, Bool.true_and, Bool.true_and, Option.map_some]
  simp only [Option.some.injEq]

/-- The reader compares the snapshot with the checksum that was written. -/
theorem readTrusted_written {files : Name → Option Bytes} {bytes content : Bytes}
    (checksum : files .checksum = some (sha256File bytes ++ [10]))
    (snapshot : files .snapshot = some content) :
    readTrustedSnapshotChecksum files = decide (sha256File content = sha256File bytes) := by
  have hex := isSha256Hex_sha256File bytes
  have length : (sha256File bytes).length = 64 := by
    rw [isSha256Hex, Bool.and_eq_true, beq_iff_eq] at hex
    exact hex.1
  have start : (sha256File bytes ++ [10]).take 64 = sha256File bytes := List.take_left' length
  rw [readTrusted_eq checksum (by rwa [start]) ?_ snapshot, start]
  rw [List.drop_left' length]
  rfl

theorem readTrusted_pair {readEnvelope : Bytes → Option Json} {pair : Pair readEnvelope}
    {files : Name → Option Bytes} {content : Bytes} (checksum : files .checksum = some pair.checksum)
    (snapshot : files .snapshot = some content) :
    readTrustedSnapshotChecksum files = decide (sha256File content = sha256File pair.snapshot) := by
  obtain ⟨hex, spaces, same⟩ := pair.trusted
  rw [readTrusted_eq checksum hex spaces snapshot, same]

theorem read_eq_ok_iff {readEnvelope : Bytes → Option Json} {files : Name → Option Bytes}
    {content : Bytes} {found : Nat × Nat} (snapshot : files .snapshot = some content) :
    readPersistedSnapshotMetadata readEnvelope files = .ok found ↔
      readTrustedSnapshotChecksum files = true ∧ boundary readEnvelope content = some found := by
  rw [readPersistedSnapshotMetadata, snapshot]
  dsimp only
  cases readTrustedSnapshotChecksum files with
  | false => simp
  | true => cases boundary readEnvelope content <;> simp

/-! ## What a crash leaves -/

section Crashes

variable {readEnvelope : Bytes → Option Json} (pair : Pair readEnvelope)
  (temporaries : Name → Option File) (bytes : Bytes) (crash : Crash)

variable {pair temporaries bytes crash} in
/-- A directory with the old files is read as before. -/
theorem atomic_of_old {operations : List Operation}
    (snapshot : crash.files (pair.volume temporaries) operations .snapshot = some pair.snapshot)
    (checksum : crash.files (pair.volume temporaries) operations .checksum = some pair.checksum) :
    Atomic pair temporaries bytes operations crash := by
  obtain ⟨found, reads⟩ := Option.isSome_iff_exists.mp pair.readable
  have trusted := readTrusted_pair checksum snapshot
  exact ⟨found, (read_eq_ok_iff snapshot).mpr ⟨trusted.trans (decide_eq_true rfl), reads⟩, .inl reads⟩

variable {pair temporaries bytes crash} in
/-- With the new snapshot in its place all depends on the checksum. -/
theorem atomic_of_new_iff {operations : List Operation} {same : Prop} [Decidable same]
    (snapshot : crash.files (pair.volume temporaries) operations .snapshot = some bytes)
    (trusted : readTrustedSnapshotChecksum (crash.files (pair.volume temporaries) operations) =
      decide same) :
    Atomic pair temporaries bytes operations crash ↔
      (boundary readEnvelope bytes).isSome = true ∧ same := by
  constructor
  · intro ⟨found, read, _⟩
    obtain ⟨accepted, reads⟩ := (read_eq_ok_iff snapshot).mp read
    exact ⟨Option.isSome_of_eq_some reads, of_decide_eq_true (trusted.symm.trans accepted)⟩
  · intro ⟨readable, holds⟩
    obtain ⟨found, reads⟩ := Option.isSome_iff_exists.mp readable
    have accepted := trusted.trans (decide_eq_true holds)
    exact ⟨found, (read_eq_ok_iff snapshot).mpr ⟨accepted, reads⟩, .inr reads⟩

theorem files_refused :
    crash.files (pair.volume temporaries) (publish false bytes) .snapshot = some pair.snapshot ∧
      crash.files (pair.volume temporaries) (publish false bytes) .checksum = some pair.checksum := by
  rcases crash with ⟨after, kept, torn⟩
  match after with
  | 0 | 1 | _ + 2 => simp [Crash.files, publish, perform, Pair.volume]

theorem files_published :
    crash.files (pair.volume temporaries) (publish true bytes) .snapshot =
        some (if crash.Replaced then bytes else pair.snapshot) ∧
      crash.files (pair.volume temporaries) (publish true bytes) .checksum =
        some (if crash.Completed then sha256File bytes ++ [10] else pair.checksum) := by
  rcases crash with ⟨after, kept, torn⟩
  match after with
  | 0 | 1 | 2 | 4 | 5 | 6 | _ + 8 =>
    simp [Crash.files, publish, durableAtomicReplaceFile, persistRaftSnapshotChecksum, perform,
      Pair.volume, Crash.Replaced, Crash.Completed]
  | 3 =>
    -- the rename of the snapshot is not on the disk yet
    by_cases renamed : kept .snapshot = true <;>
      simp [Crash.files, publish, durableAtomicReplaceFile, persistRaftSnapshotChecksum, perform,
        Pair.volume, Crash.Replaced, Crash.Completed, renamed]
  | 7 =>
    by_cases renamed : kept .checksum = true <;>
      simp [Crash.files, publish, durableAtomicReplaceFile, persistRaftSnapshotChecksum, perform,
        Pair.volume, Crash.Replaced, Crash.Completed, renamed]

/-- Over every pair that the reader accepts, every new snapshot and every crash: the reader
finds the old snapshot or the new one, unless the new snapshot is in its place and either it
is unreadable, or its checksum is not in its place and differs from the old one. -/
theorem crash_atomic_iff (accepted : Bool) :
    Atomic pair temporaries bytes (publish accepted bytes) crash ↔
      (accepted = true → crash.Replaced → (boundary readEnvelope bytes).isSome = true ∧
        (crash.Completed ∨ sha256File bytes = sha256File pair.snapshot)) := by
  cases accepted with
  | false =>
    obtain ⟨snapshot, checksum⟩ := files_refused pair temporaries bytes crash
    exact iff_of_true (atomic_of_old snapshot checksum) (fun published => by cases published)
  | true =>
    obtain ⟨snapshot, checksum⟩ := files_published pair temporaries bytes crash
    by_cases replaced : crash.Replaced
    · rw [if_pos replaced] at snapshot
      simp only [replaced, forall_const]
      by_cases completed : crash.Completed
      · rw [if_pos completed] at checksum
        have trusted := readTrusted_written checksum snapshot
        simp only [atomic_of_new_iff snapshot trusted, completed, true_or]
      · rw [if_neg completed] at checksum
        have trusted := readTrusted_pair checksum snapshot
        simp only [atomic_of_new_iff snapshot trusted, completed, false_or]
    · have early := mt Crash.Completed.replaced replaced
      rw [if_neg replaced] at snapshot
      rw [if_neg early] at checksum
      exact iff_of_true (atomic_of_old snapshot checksum) fun _ done => absurd done replaced

end Crashes

/-! ## A crash between the two replacements -/

/-- Envelopes of the index that their bytes give. -/
def envelopeOf (bytes : Bytes) : Option Json :=
  bytes.head?.map fun index => .object [("version", .unsigned 1), ("complete", .bool true),
    ("commitIndex", .unsigned index.toNat), ("lastIncludedIndex", .unsigned index.toNat),
    ("lastIncludedTerm", .unsigned 1), ("lsm_payload", .object [])]

/-- The snapshot of index 1. -/
def firstPair : Pair envelopeOf where
  snapshot := [1]
  checksum := sha256File [1] ++ [10]
  trusted := by decide +kernel
  readable := rfl

/-- The snapshot of index 2 is on the disk, its checksum is not: neither is found. -/
theorem crash_not_atomic :
    let crash : Crash := ⟨4, fun _ => true, fun _ => []⟩
    let operations := createSnapshot (fun _ => true) [2]
    boundary envelopeOf [2] = some (2, 1) ∧
      readPersistedSnapshotMetadata envelopeOf (crash.files (firstPair.volume fun _ => none) operations) =
        .error "snapshot_file_checksum_mismatch" ∧
      ¬Atomic firstPair (fun _ => none) [2] operations crash := by
  have refused : readPersistedSnapshotMetadata envelopeOf
      (Crash.files ⟨4, fun _ => true, fun _ => []⟩ (firstPair.volume fun _ => none)
        (createSnapshot (fun _ => true) [2])) = .error "snapshot_file_checksum_mismatch" := by
    decide +kernel
  refine ⟨rfl, refused, fun ⟨found, read, _⟩ => ?_⟩
  rw [refused] at read
  cases read

end PacificDb.Raft.Publication
