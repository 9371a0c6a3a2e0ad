import PacificDb.Json
import PacificDb.Lib.Bytes

/-!
# The bytes of the write-ahead log

A logical WAL is a directory of numbered segment files. A segment starts with a
header of 32 bytes; after it come frames: an operation byte, the length of the
payload, and the payload with its own header of 26 bytes (marker, checksum flag,
LSN, time, CRC) before the encoded entry.

MessagePack, JSON text and the CRC are the libraries' and parameters here. That
an entry decodes to itself is part of what a pending entry is.
-/

namespace PacificDb.Wal

open Lib

abbrev Bytes := List UInt8

/-- `WalOp`. -/
inductive WalOp where
  | insert
  | update
  | delete
  | batchCompressed
  | compressedZlib
  | segmentHeader
  deriving Repr, DecidableEq

def WalOp.toByte : WalOp → UInt8
  | insert => 1
  | update => 2
  | delete => 3
  | batchCompressed => 4
  | compressedZlib => 5
  | segmentHeader => 6

/-- `isValidWalOp`. -/
def WalOp.ofByte? (byte : UInt8) : Option WalOp :=
  [insert, update, delete, batchCompressed, compressedZlib, segmentHeader].find? fun op =>
    op.toByte == byte

theorem WalOp.ofByte?_toByte (op : WalOp) : WalOp.ofByte? op.toByte = some op := by
  cases op <;> rfl

/-- The library calls and settings the log depends on. -/
structure WalConfig where
  toMsgpack : Json → Bytes
  fromMsgpack : Bytes → Option Json
  dump : Json → Bytes
  parse : Bytes → Option Json
  crc32 : Bytes → UInt32
  binaryEncoding : Bool := true
  crcEnabled : Bool := true
  segmentMaxBytes : Nat := 64 * 1024 * 1024
  maxRecordBytes : Nat := 64 * 1024 * 1024
  -- Smaller settings are raised to these.
  segmentMaxBytes_ge : 32 + 1024 ≤ segmentMaxBytes := by decide
  maxRecordBytes_ge : 1024 ≤ maxRecordBytes := by decide

variable {config : WalConfig}

def encodeWalPayload (config : WalConfig) (entry : Json) : Bytes :=
  if config.binaryEncoding then config.toMsgpack entry else config.dump entry

/-- `std::isspace` on a byte. -/
def isSpace (byte : UInt8) : Bool := byte == 32 || (9 ≤ byte && byte ≤ 13)

/-- The first byte that is not white space opens an object, an array or a string. -/
def looksLikeJsonText (payload : Bytes) : Bool :=
  match payload.dropWhile isSpace with
  | [] => false
  | byte :: _ => byte == '{'.toUInt8 || byte == '['.toUInt8 || byte == '"'.toUInt8

def decodeWalPayload (config : WalConfig) (payload : Bytes) : Option Json :=
  if looksLikeJsonText payload then config.parse payload
  else config.fromMsgpack payload <|> config.parse payload

/-- An entry as `preparePendingEntry` makes it: the callers log objects, never
the segment marker, and the libraries read back what they wrote. -/
structure PendingWalEntry (config : WalConfig) where
  op : WalOp
  entry : Json
  notMarker : op ≠ .segmentHeader
  isObject : entry.isObject = true
  encodes : encodeWalPayload config entry ≠ []
  decodes : decodeWalPayload config (encodeWalPayload config entry) = some entry

def PendingWalEntry.preparedPayload (pending : PendingWalEntry config) : Bytes :=
  encodeWalPayload config pending.entry

def PendingWalEntry.preparedCrc (pending : PendingWalEntry config) : UInt32 :=
  if config.crcEnabled then config.crc32 pending.preparedPayload else 0

theorem insert_notMarker : WalOp.insert ≠ .segmentHeader := by decide

theorem noMembers_isObject : (Json.object []).isObject = true := rfl

/-! ## Identity -/

/-- `entry.value(name, "")`: none stands for the exception on a value that is no
string. -/
def stringMember? (entry : Json) (name : String) : Option String :=
  match entry.field? name with
  | none => some ""
  | some (.string text) => some text
  | some _ => none

/-- FNV-1a over the namespace of an entry; 0 for an entry without one. -/
def walIdentityHash (entry : Json) : Nat :=
  if !entry.isObject then 0
  else
    match stringMember? entry "userId", stringMember? entry "db",
        stringMember? entry "collection" with
    | some user, some db, some collection =>
        let identity := user ++ "\n" ++ db ++ "\n" ++ collection
        if identity = "\n\n" then 0
        else identity.toUTF8.toList.foldl
          (fun hash byte => (hash ^^^ byte.toNat) * 1099511628211 % 2 ^ 64) 1469598103934665603
    | _, _, _ => 0

/-- The members of the namespace are all the hash looks at. -/
theorem walIdentityHash_set {entry value : Json} {name : String} (user : "userId" ≠ name)
    (db : "db" ≠ name) (collection : "collection" ≠ name) :
    walIdentityHash (entry.set name value) = walIdentityHash entry := by
  rw [walIdentityHash, stringMember?, stringMember?, stringMember?, Json.field?_set_ne user,
    Json.field?_set_ne db, Json.field?_set_ne collection, Json.isObject_set]
  rfl

theorem walIdentityHash_lt (entry : Json) : walIdentityHash entry < 2 ^ 64 := by
  have folded : ∀ (bytes : Bytes) (start : Nat), start < 2 ^ 64 →
      bytes.foldl (fun hash byte => (hash ^^^ byte.toNat) * 1099511628211 % 2 ^ 64) start <
        2 ^ 64 := by
    intro bytes
    induction bytes with
    | nil => exact fun _ small => small
    | cons byte bytes ih =>
      intro start _
      exact ih _ (Nat.mod_lt _ (by decide))
  unfold walIdentityHash
  split
  · decide
  · split
    · dsimp only
      split
      · decide
      · exact folded _ _ (by decide)
    · decide

/-! ## Payloads -/

/-- The marker of a prepared payload. -/
def preparedMarker : Bytes := [80, 68, 66, 66, 49]

def kPreparedPayloadHeaderBytes : Nat := 26

/-- The payload of a frame, with its header. -/
def preparedBytes (pending : PendingWalEntry config) (lsn timestampMs : Nat) : Bytes :=
  preparedMarker ++ ((if config.crcEnabled then 1 else 0) :: (leBytes 8 lsn ++
    (leBytes 8 timestampMs ++ (leBytes 4 pending.preparedCrc.toNat ++ pending.preparedPayload))))

/-- What decoding adds to an entry. -/
def stampEntry (entry : Json) (lsn timestampMs : Nat) : Json :=
  ((entry.set "_wal_lsn" (.unsigned lsn)).set "_wal_seq" (.unsigned lsn)).set "_wal_ts_ms"
    (.unsigned timestampMs)

def decodePreparedPayload (config : WalConfig) (payload : Bytes) : Option Json :=
  if payload.length < kPreparedPayloadHeaderBytes ∨ payload.take 5 ≠ preparedMarker then none
  else
    let hasCrc := (payload.getD 5 0).toNat % 2 = 1
    let lsn := readLe ((payload.drop 6).take 8)
    let timestampMs := readLe ((payload.drop 14).take 8)
    let expectedCrc := readLe ((payload.drop 22).take 4)
    let encoded := payload.drop kPreparedPayloadHeaderBytes
    if encoded.isEmpty ∨ (¬hasCrc ∧ expectedCrc ≠ 0) ∨
        (hasCrc ∧ (config.crc32 encoded).toNat ≠ expectedCrc) then none
    else
      match decodeWalPayload config encoded with
      | some entry => if entry.isObject then some (stampEntry entry lsn timestampMs) else none
      | none => none

@[simp] theorem length_preparedBytes (pending : PendingWalEntry config) (lsn timestampMs : Nat) :
    (preparedBytes pending lsn timestampMs).length =
      kPreparedPayloadHeaderBytes + pending.preparedPayload.length := by
  simp [preparedBytes, preparedMarker, kPreparedPayloadHeaderBytes]
  omega

/-- A prepared payload decodes to its entry, stamped with its LSN and time. -/
theorem decodePreparedPayload_preparedBytes (pending : PendingWalEntry config)
    (lsn timestampMs : Nat) :
    decodePreparedPayload config (preparedBytes pending lsn timestampMs) =
      some (stampEntry pending.entry (lsn % 2 ^ 64) (timestampMs % 2 ^ 64)) := by
  have long : ¬(preparedBytes pending lsn timestampMs).length < kPreparedPayloadHeaderBytes := by
    rw [length_preparedBytes]
    omega
  have marker : (preparedBytes pending lsn timestampMs).take 5 = preparedMarker := rfl
  have flag : (preparedBytes pending lsn timestampMs).getD 5 0 =
      if config.crcEnabled then 1 else 0 := rfl
  have fromLsn : (preparedBytes pending lsn timestampMs).drop 6 = leBytes 8 lsn ++
      (leBytes 8 timestampMs ++ (leBytes 4 pending.preparedCrc.toNat ++ pending.preparedPayload)) :=
    rfl
  have fromTime : (preparedBytes pending lsn timestampMs).drop 14 = leBytes 8 timestampMs ++
      (leBytes 4 pending.preparedCrc.toNat ++ pending.preparedPayload) := by
    rw [show 14 = 6 + 8 from rfl, ← List.drop_drop, fromLsn, List.drop_left' (length_leBytes 8 lsn)]
  have fromCrc : (preparedBytes pending lsn timestampMs).drop 22 =
      leBytes 4 pending.preparedCrc.toNat ++ pending.preparedPayload := by
    rw [show 22 = 14 + 8 from rfl, ← List.drop_drop, fromTime,
      List.drop_left' (length_leBytes 8 timestampMs)]
  have encoded : (preparedBytes pending lsn timestampMs).drop kPreparedPayloadHeaderBytes =
      pending.preparedPayload := by
    rw [show kPreparedPayloadHeaderBytes = 22 + 4 from rfl, ← List.drop_drop, fromCrc,
      List.drop_left' (length_leBytes 4 _)]
  have crc : readLe (leBytes 4 pending.preparedCrc.toNat) = pending.preparedCrc.toNat :=
    readLe_leBytes_of_lt pending.preparedCrc.toNat_lt
  unfold decodePreparedPayload
  rw [if_neg (by rw [marker]; exact not_or.mpr ⟨long, not_not.mpr rfl⟩)]
  simp only [fromLsn, fromTime, fromCrc, encoded, List.take_left' (length_leBytes _ _), crc, flag,
    readLe_leBytes]
  rw [if_neg]
  · rw [PendingWalEntry.preparedPayload, pending.decodes]
    dsimp only
    rw [if_pos pending.isObject]
    rfl
  · have nonempty : pending.preparedPayload.isEmpty = false := by
      rw [List.isEmpty_eq_false_iff]
      exact pending.encodes
    rw [nonempty, PendingWalEntry.preparedCrc]
    cases config.crcEnabled <;> simp

/-! ## Frames -/

/-- The bytes of a frame. -/
def frameBytes (pending : PendingWalEntry config) (lsn timestampMs : Nat) : Bytes :=
  pending.op.toByte :: (leBytes 4 (preparedBytes pending lsn timestampMs).length ++
    preparedBytes pending lsn timestampMs)

/-- `framePreparedRecord`: refuses a record longer than the scanner accepts. -/
def framePreparedRecord (pending : PendingWalEntry config) (lsn timestampMs : Nat) :
    Except String Bytes :=
  let payloadSize := kPreparedPayloadHeaderBytes + pending.preparedPayload.length
  if config.maxRecordBytes < payloadSize ∨ 2 ^ 32 - 1 < payloadSize then
    .error "collection WAL record exceeds WAL_MAX_RECORD_BYTES"
  else .ok (frameBytes pending lsn timestampMs)

/-- The next thing the scanner finds in a segment. -/
inductive FrameRead where
  | atEnd
  | cut (error : String)
  | invalid
  | frame (op : WalOp) (payload rest : Bytes)

/-- One round of the scan loop up to the payload. -/
def readFrame (config : WalConfig) : Bytes → FrameRead
  | [] => .atEnd
  | opByte :: rest =>
      if rest.length < 4 then .cut "partial WAL frame header"
      else
        let payloadSize := readLe (rest.take 4)
        match WalOp.ofByte? opByte with
        | none => .invalid
        | some op =>
            if op = .segmentHeader ∨ payloadSize = 0 ∨ config.maxRecordBytes < payloadSize then
              .invalid
            else
              let body := rest.drop 4
              if body.length < payloadSize then .cut "partial WAL payload"
              else .frame op (body.take payloadSize) (body.drop payloadSize)

/-- The record fits the limits `framePreparedRecord` checks. -/
def FitsFrame (pending : PendingWalEntry config) : Prop :=
  kPreparedPayloadHeaderBytes + pending.preparedPayload.length ≤ config.maxRecordBytes ∧
    kPreparedPayloadHeaderBytes + pending.preparedPayload.length ≤ 2 ^ 32 - 1

theorem framePreparedRecord_ok_iff {pending : PendingWalEntry config} {lsn timestampMs : Nat}
    {frame : Bytes} : framePreparedRecord pending lsn timestampMs = .ok frame ↔
      FitsFrame pending ∧ frame = frameBytes pending lsn timestampMs := by
  unfold framePreparedRecord FitsFrame
  dsimp only
  split
  next large =>
    refine iff_of_false (by simp) fun fits => ?_
    rcases large with large | large
    · exact absurd fits.1.1 (by omega)
    · exact absurd fits.1.2 (by omega)
  next small =>
    rw [not_or] at small
    rw [Except.ok.injEq]
    exact ⟨fun same => ⟨⟨by omega, by omega⟩, same.symm⟩, fun both => both.2.symm⟩

section Frame

variable {pending : PendingWalEntry config} {lsn timestampMs : Nat}

@[simp] theorem length_frameBytes : (frameBytes pending lsn timestampMs).length =
    5 + (kPreparedPayloadHeaderBytes + pending.preparedPayload.length) := by
  rw [frameBytes, List.length_cons, List.length_append, length_leBytes, length_preparedBytes]
  omega

theorem readLe_frameSize (fits : FitsFrame pending) :
    readLe (leBytes 4 (preparedBytes pending lsn timestampMs).length) =
      (preparedBytes pending lsn timestampMs).length := by
  refine readLe_leBytes_of_lt ?_
  rw [length_preparedBytes]
  have := fits.2
  omega

/-- The scanner reads a whole frame and what follows it. -/
theorem readFrame_frameBytes (fits : FitsFrame pending) (rest : Bytes) :
    readFrame config (frameBytes pending lsn timestampMs ++ rest) =
      .frame pending.op (preparedBytes pending lsn timestampMs) rest := by
  have size : ((leBytes 4 (preparedBytes pending lsn timestampMs).length ++
      preparedBytes pending lsn timestampMs) ++ rest).take 4 =
      leBytes 4 (preparedBytes pending lsn timestampMs).length := by
    rw [List.append_assoc, List.take_left' (length_leBytes 4 _)]
  have body : ((leBytes 4 (preparedBytes pending lsn timestampMs).length ++
      preparedBytes pending lsn timestampMs) ++ rest).drop 4 =
      preparedBytes pending lsn timestampMs ++ rest := by
    rw [List.append_assoc, List.drop_left' (length_leBytes 4 _)]
  rw [frameBytes, List.cons_append, readFrame]
  rw [if_neg (by rw [List.length_append, List.length_append, length_leBytes]; omega)]
  dsimp only
  rw [size, body, readLe_frameSize fits, WalOp.ofByte?_toByte]
  dsimp only
  have positive : 0 < (preparedBytes pending lsn timestampMs).length := by
    rw [length_preparedBytes, kPreparedPayloadHeaderBytes]
    omega
  have limit : (preparedBytes pending lsn timestampMs).length ≤ config.maxRecordBytes := by
    rw [length_preparedBytes]
    exact fits.1
  rw [if_neg, if_neg, List.take_left' rfl, List.drop_left' rfl]
  · rw [List.length_append]
    omega
  · rintro (marker | empty | large)
    · exact pending.notMarker marker
    · omega
    · omega

/-- A frame that was not written to its end is cut, wherever the end is. -/
theorem readFrame_torn (fits : FitsFrame pending) {torn : Bytes} (some : torn ≠ [])
    (isTorn : Torn torn (frameBytes pending lsn timestampMs)) :
    ∃ error, readFrame config torn = .cut error := by
  obtain ⟨k, short, rfl⟩ := isTorn
  cases k with
  | zero => exact absurd List.take_zero some
  | succ k =>
    rw [length_frameBytes] at short
    rw [frameBytes, List.take_succ_cons, readFrame]
    split
    · exact ⟨_, rfl⟩
    next enough =>
      rw [List.length_take, List.length_append, length_leBytes, length_preparedBytes] at enough
      have size : ((leBytes 4 (preparedBytes pending lsn timestampMs).length ++
          preparedBytes pending lsn timestampMs).take k).take 4 =
          leBytes 4 (preparedBytes pending lsn timestampMs).length := by
        rw [List.take_take, min_eq_left (by omega), List.take_left' (length_leBytes 4 _)]
      dsimp only
      rw [size, readLe_frameSize fits, WalOp.ofByte?_toByte]
      dsimp only
      rw [if_neg, if_pos]
      · exact ⟨_, rfl⟩
      · rw [List.length_drop, List.length_take, List.length_append, length_leBytes,
          length_preparedBytes]
        omega
      · rintro (marker | empty | large)
        · exact pending.notMarker marker
        · rw [length_preparedBytes, kPreparedPayloadHeaderBytes] at empty
          omega
        · rw [length_preparedBytes] at large
          have := fits.1
          omega

end Frame

/-! ## Segment headers -/

def kSegmentHeaderBytes : Nat := 32

/-- Magic, format version and header length. -/
def segmentMagic : Bytes := [80, 68, 66, 87, 51, 3, 32, 0]

def segmentHeader (segmentId firstLsn identityHash : Nat) : Bytes :=
  segmentMagic ++ (leBytes 8 segmentId ++ (leBytes 8 firstLsn ++ leBytes 8 identityHash))

@[simp] theorem length_segmentHeader (segmentId firstLsn identityHash : Nat) :
    (segmentHeader segmentId firstLsn identityHash).length = kSegmentHeaderBytes := by
  simp [segmentHeader, segmentMagic, kSegmentHeaderBytes]

end PacificDb.Wal
