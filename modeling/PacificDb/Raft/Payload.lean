import PacificDb.Raft.LogFile
import PacificDb.Sst.ReadBack

/-!
# Payloads and frames

An entry is logged as MessagePack, compressed if that is shorter, behind its size and its
CRC. Entries are shipped as MessagePack inside a message, as many as fit a frame. Both limits
are the same number, but the frame holds the entry and the message around it: an entry just
below the limit is logged and never shipped (`shipped_iff`).

LZ4 and the readers of MessagePack and of JSON text are parameters.
-/

namespace PacificDb.Raft

open Lib
open Sst (JsonLibrary Lz4 writeMsgpack writeMember writeString utf8 arrayHeader objectHeader crc32c)

structure PayloadCodec where
  lib : JsonLibrary
  lz4 : Lz4
  /-- `json::parse`, for payloads of old logs. -/
  parse : Bytes → Option Json

def kRaftMsgpackMagic : Bytes := [80, 68, 66, 82, 50]

def kRaftRecordMagic : Bytes := [80, 68, 66, 82, 51]

def kRaftFrameReserveBytes : Nat := 64 * 1024

/-- The limit of a logged payload, and of a frame of entries. -/
def kShippedBytes : Nat := kMaxRaftPayloadBytes - kRaftFrameReserveBytes

def kMaxInt : Nat := 2 ^ 31 - 1

def encodeRaftPayload (lib : JsonLibrary) (value : Json) : Bytes :=
  kRaftMsgpackMagic ++ writeMsgpack lib value

/-! ## Frames -/

/-- `message["entries"] = entries` and `message["entryTerms"] = terms`, for a message that
is an object. -/
def withEntries (message : List (String × Json)) (entries : List Json) (terms : List Nat) : Json :=
  ((Json.object message).set "entries" (.array entries)).set "entryTerms"
    (.array (terms.map Json.unsigned))

def frameBytes (lib : JsonLibrary) (message : List (String × Json)) (entries : List Json)
    (terms : List Nat) : Bytes :=
  encodeRaftPayload lib (withEntries message entries terms)

/-- `std::vector::resize`. -/
def resize (size : Nat) (terms : List Nat) : List Nat :=
  terms.take size ++ List.replicate (size - terms.length) 0

/-- Halve the entries until the frame fits: whether it does, and what is left of both lists. -/
def fitRaftEntriesFrame (lib : JsonLibrary) (message : List (String × Json)) (entries : List Json)
    (terms : List Nat) : Bool × List Json × List Nat :=
  if entries.length = 0 then (false, entries, terms)
  else if (frameBytes lib message entries terms).length ≤ kShippedBytes then (true, entries, terms)
  else if entries.length = 1 then (false, entries, terms)
  else
    let size := (entries.length + 1) / 2
    fitRaftEntriesFrame lib message (entries.take size) (resize size terms)
termination_by entries.length
decreasing_by
  rw [List.length_take]
  omega

/-! ## Payloads -/

/-- `encodeRaftLogPayload`, none if it throws. `LZ4_compressBound` is positive at every size
that passes the check. -/
def encodeRaftLogPayload (codec : PayloadCodec) (value : Json) : Option Bytes :=
  let packed := writeMsgpack codec.lib value
  if packed.length = 0 ∨ kShippedBytes < packed.length ∨ kMaxInt < packed.length then none
  else
    let compressed := codec.lz4.compress packed
    let shorter := 0 < compressed.length ∧ compressed.length < packed.length
    some (kRaftRecordMagic ++ ((if shorter then 1 else 0) :: (leBytes 4 packed.length ++
      (leBytes 4 (crc32c packed).toNat ++ if shorter then compressed else packed))))

/-- The plain bytes of a record: stored as they are, or compressed. -/
def plainBytes (codec : PayloadCodec) (tag : UInt8) (plainSize : Nat) (encoded : Bytes) : Option Bytes :=
  if tag = 0 then
    if encoded.length = plainSize then some encoded else none
  else if tag = 1 then
    if encoded.length = 0 ∨ kMaxInt < encoded.length then none
    else (codec.lz4.decompress encoded plainSize).filter fun plain => plain.length == plainSize
  else none

/-- The branch of `decodeRaftPayload` behind `PDBR3`. -/
def decodeRecord (codec : PayloadCodec) (payload : Bytes) : Option Json :=
  match payload with
  | [] => none
  | tag :: header =>
      (readWord 4 header).bind fun (plainSize, rest) =>
        (readWord 4 rest).bind fun (expectedCrc, encoded) =>
          if plainSize = 0 ∨ kMaxRaftPayloadBytes < plainSize ∨ kMaxInt < plainSize then none
          else
            (plainBytes codec tag plainSize encoded).bind fun plain =>
              if (crc32c plain).toNat = expectedCrc then codec.lib.fromMsgpack plain else none

def decodeRaftPayload (codec : PayloadCodec) (payload : Bytes) : Option Json :=
  if kRaftRecordMagic.isPrefixOf payload then
    decodeRecord codec (payload.drop kRaftRecordMagic.length)
  else if kRaftMsgpackMagic.isPrefixOf payload then
    codec.lib.fromMsgpack (payload.drop kRaftMsgpackMagic.length)
  else codec.parse payload

variable {lib : JsonLibrary} {codec : PayloadCodec} {message : List (String × Json)}
  {entries : List Json} {terms : List Nat}

/-! ## The size of a frame -/

theorem arrayHeader_pos {size : Nat} : 0 < (arrayHeader size).length ∨ 2 ^ 32 ≤ size := by
  rcases Nat.lt_or_ge size (2 ^ 32) with small | huge
  · exact .inl (List.length_pos_iff.mpr (Sst.containerHeader_ne_nil small))
  · exact .inr huge

/-- An array is no shorter than the array of its first item. -/
theorem length_array_singleton_le (item : Json) (items : List Json) :
    (writeMsgpack lib (.array [item])).length ≤ (writeMsgpack lib (.array (item :: items))).length := by
  have rest : items.length ≤ (items.flatMap (writeMsgpack lib)).length :=
    Sst.length_le_flatMap fun item _ => Sst.writeMsgpack_ne_nil item
  have header := @arrayHeader_pos (item :: items).length
  rw [writeMsgpack, writeMsgpack, Sst.writeItems_eq, Sst.writeItems_eq, List.flatMap_singleton,
    List.flatMap_cons, List.length_append, List.length_append, List.length_append,
    show (arrayHeader [item].length).length = 1 from rfl]
  rcases header with longer | huge
  · omega
  · -- without a header there are many items
    rw [List.length_cons] at huge
    omega

theorem length_object {lib : JsonLibrary} (members : List (String × Json)) :
    (writeMsgpack lib (.object members)).length = (objectHeader members.length).length +
      (members.flatMap (writeMember lib)).length := by
  have same : (Lsm.sortMembers members).Perm members := List.perm_insertionSort _ _
  rw [Sst.writeMsgpack_object, List.length_append, same.length_eq, (same.flatMap_right _).length_eq]

/-- The members of a message that stay when the entries are put in. -/
def envelope (message : List (String × Json)) : List (String × Json) :=
  (message.filter fun member => member.1 != "entries").filter fun member => member.1 != "entryTerms"

theorem withEntries_eq (message : List (String × Json)) (entries : List Json) (terms : List Nat) :
    withEntries message entries terms = .object (("entryTerms", .array (terms.map Json.unsigned)) ::
      ("entries", .array entries) :: envelope message) := rfl

theorem length_frameBytes (message : List (String × Json)) (entries : List Json) (terms : List Nat) :
    (frameBytes lib message entries terms).length =
      5 + (objectHeader ((envelope message).length + 1 + 1)).length +
        (writeString "entryTerms").length + (writeString "entries").length +
        ((envelope message).flatMap (writeMember lib)).length +
        (writeMsgpack lib (.array (terms.map Json.unsigned))).length +
        (writeMsgpack lib (.array entries)).length := by
  rw [frameBytes, encodeRaftPayload, List.length_append, withEntries_eq, length_object,
    List.flatMap_cons, List.flatMap_cons, writeMember, writeMember,
    show kRaftMsgpackMagic.length = 5 from rfl, List.length_cons, List.length_cons]
  simp only [List.length_append]
  omega

/-- The first entry alone makes the shortest frame. -/
theorem length_frameBytes_singleton_le (entry : Json) (term : Nat) (entries : List Json)
    (terms : List Nat) : (frameBytes lib message [entry] [term]).length ≤
      (frameBytes lib message (entry :: entries) (term :: terms)).length := by
  have ofEntries := @length_array_singleton_le lib entry entries
  have ofTerms := @length_array_singleton_le lib (.unsigned term) (terms.map Json.unsigned)
  rw [length_frameBytes, length_frameBytes, List.map_cons, List.map_cons, List.map_nil]
  omega

theorem length_entry_lt_frameBytes {entry : Json} {entries : List Json} {terms : List Nat}
    (member : entry ∈ entries) :
    (writeMsgpack lib entry).length < (frameBytes lib message entries terms).length := by
  have inside : (writeMsgpack lib entry).length ≤ (writeMsgpack lib (.array entries)).length := by
    obtain ⟨front, rest, rfl⟩ := List.append_of_mem member
    rw [writeMsgpack, Sst.writeItems_eq, List.flatMap_append, List.flatMap_cons]
    simp only [List.length_append]
    omega
  rw [length_frameBytes]
  omega

/-! ## Fitting a frame -/

theorem resize_of_le {size : Nat} (short : size ≤ terms.length) :
    resize size terms = terms.take size := by
  rw [resize, Nat.sub_eq_zero_of_le short, List.replicate_zero, List.append_nil]

/-- The frame of the first entry fits. -/
def FirstFits (lib : JsonLibrary) (message : List (String × Json)) (entries : List Json)
    (terms : List Nat) : Prop :=
  (frameBytes lib message (entries.take 1) (terms.take 1)).length ≤ kShippedBytes

/-- Some entries and their terms are left, from the front of both lists, and fit a frame. -/
def Fitted (lib : JsonLibrary) (message : List (String × Json)) (entries : List Json)
    (terms : List Nat) : Prop :=
  ∃ size, 0 < size ∧ size ≤ entries.length ∧
    fitRaftEntriesFrame lib message entries terms = (true, entries.take size, terms.take size) ∧
    (frameBytes lib message (entries.take size) (terms.take size)).length ≤ kShippedBytes

theorem firstFits_of_fits (aligned : terms.length = entries.length) (nonempty : entries.length ≠ 0)
    (fits : (frameBytes lib message entries terms).length ≤ kShippedBytes) :
    FirstFits lib message entries terms := by
  cases entries with
  | nil => exact absurd rfl nonempty
  | cons entry entries =>
    cases terms with
    | nil => cases aligned
    | cons term terms => exact (length_frameBytes_singleton_le entry term entries terms).trans fits

theorem take_one_take {α : Type} (items : List α) {size : Nat} (positive : 0 < size) :
    (items.take size).take 1 = items.take 1 := by
  rw [List.take_take, min_eq_left positive]

theorem Fitted.firstFits (aligned : terms.length = entries.length)
    (fitted : Fitted lib message entries terms) : FirstFits lib message entries terms := by
  obtain ⟨size, positive, inside, _, fits⟩ := fitted
  have first := firstFits_of_fits
    (by rw [List.length_take, List.length_take, aligned]) (by rw [List.length_take]; omega) fits
  rwa [FirstFits, take_one_take _ positive, take_one_take _ positive] at first

/-- Halving finds entries that fit exactly when the first one does. -/
theorem fitted_iff (aligned : terms.length = entries.length) (nonempty : entries.length ≠ 0) :
    Fitted lib message entries terms ↔ FirstFits lib message entries terms := by
  refine ⟨Fitted.firstFits aligned, ?_⟩
  fun_induction fitRaftEntriesFrame lib message entries terms with
  | case1 entries terms empty => exact absurd empty nonempty
  | case2 entries terms _ fits =>
    intro _
    refine ⟨entries.length, by omega, le_rfl, ?_, ?_⟩
    · rw [fitRaftEntriesFrame, if_neg nonempty, if_pos fits, List.take_length, ← aligned,
        List.take_length]
    · rwa [List.take_length, ← aligned, List.take_length]
  | case3 entries terms _ long single =>
    intro fits
    rw [FirstFits, List.take_of_length_le single.le,
      List.take_of_length_le (aligned.trans single).le] at fits
    exact absurd fits long
  | case4 entries terms _ long several size ih =>
    intro fits
    have positive : 0 < size := by omega
    have cut : resize size terms = terms.take size := resize_of_le (by omega)
    rw [cut] at ih
    obtain ⟨kept, some, inside, result, small⟩ := ih
      (by rw [List.length_take, List.length_take, aligned]) (by rw [List.length_take]; omega)
      (by rwa [FirstFits, take_one_take _ positive, take_one_take _ positive])
    rw [List.length_take] at inside
    have within : min kept size = kept := by omega
    rw [List.take_take, List.take_take, within] at result small
    refine ⟨kept, some, by omega, ?_, small⟩
    rw [fitRaftEntriesFrame, if_neg nonempty, if_neg long, if_neg several]
    dsimp only
    rw [show (entries.length + 1) / 2 = size from rfl, cut]
    exact result

/-! ## Records -/

/-- The payload has the size and the CRC of some plain bytes in its header, and these bytes
are the value. -/
def Checked (codec : PayloadCodec) (payload : Bytes) (value : Json) : Prop :=
  ∃ tag encoded plain, payload = kRaftRecordMagic ++ (tag :: (leBytes 4 plain.length ++
    (leBytes 4 (crc32c plain).toNat ++ encoded))) ∧ codec.lib.fromMsgpack plain = some value

theorem decode_recordMagic (codec : PayloadCodec) (rest : Bytes) :
    decodeRaftPayload codec (kRaftRecordMagic ++ rest) = decodeRecord codec rest := by
  rw [decodeRaftPayload, if_pos (List.isPrefixOf_iff_prefix.mpr (List.prefix_append _ _)),
    List.drop_left]

theorem length_plainBytes {tag : UInt8} {plainSize : Nat} {encoded plain : Bytes}
    (found : plainBytes codec tag plainSize encoded = some plain) : plain.length = plainSize := by
  unfold plainBytes at found
  split_ifs at found
  next size =>
    cases found
    exact size
  next => exact eq_of_beq (Option.filter_eq_some_iff.mp found).2

/-- Behind the magic of a record nothing is decoded without a look at its CRC. -/
theorem checked_of_decode {payload : Bytes} {value : Json} (magic : kRaftRecordMagic <+: payload)
    (decoded : decodeRaftPayload codec payload = some value) : Checked codec payload value := by
  obtain ⟨rest, rfl⟩ := magic
  rw [decode_recordMagic] at decoded
  cases rest with
  | nil => cases decoded
  | cons tag header =>
    obtain ⟨⟨plainSize, rest⟩, sized, decoded⟩ := Option.bind_eq_some_iff.mp decoded
    obtain ⟨⟨expectedCrc, encoded⟩, summed, decoded⟩ := Option.bind_eq_some_iff.mp decoded
    dsimp only at decoded
    split at decoded
    next => cases decoded
    obtain ⟨plain, found, decoded⟩ := Option.bind_eq_some_iff.mp decoded
    split at decoded
    next same =>
      refine ⟨tag, encoded, plain, ?_, decoded⟩
      rw [(readWord_some sized).1, (readWord_some summed).1, length_plainBytes found, same]
    next => cases decoded

/-- The bytes are stored compressed if that is shorter, and found again. -/
theorem plainBytes_stored {packed : Bytes} (lz4 : codec.lz4.RoundTrips) (small : packed.length ≤ kMaxInt)
    (shorter : Prop) [Decidable shorter] (means : shorter ↔ 0 < (codec.lz4.compress packed).length ∧
      (codec.lz4.compress packed).length < packed.length) :
    plainBytes codec (if shorter then 1 else 0) packed.length
      (if shorter then codec.lz4.compress packed else packed) = some packed := by
  by_cases taken : shorter
  · obtain ⟨some, less⟩ := means.mp taken
    rw [if_pos taken, if_pos taken, plainBytes, if_neg (by decide), if_pos rfl, if_neg (by omega),
      lz4 packed (List.length_pos_iff.mp some), Option.filter_some, if_pos (beq_self_eq_true _)]
  · rw [if_neg taken, if_neg taken, plainBytes, if_pos rfl, if_pos rfl]

/-- What `encodeRaftLogPayload` accepted is decoded again. -/
theorem decode_encode {value : Json} {payload : Bytes} (lz4 : codec.lz4.RoundTrips)
    (roundTrip : codec.lib.fromMsgpack (writeMsgpack codec.lib value) = some value)
    (accepted : encodeRaftLogPayload codec value = some payload) :
    decodeRaftPayload codec payload = some value := by
  unfold encodeRaftLogPayload at accepted
  dsimp only at accepted
  generalize writeMsgpack codec.lib value = packed at roundTrip accepted
  split at accepted
  next => cases accepted
  next inside =>
    cases accepted
    have limits : packed.length ≠ 0 ∧ packed.length ≤ kMaxRaftPayloadBytes ∧ packed.length ≤ kMaxInt := by
      unfold kShippedBytes at inside
      omega
    have short : packed.length < 256 ^ 4 := lt_of_le_of_lt limits.2.1 (by decide)
    have crc : (crc32c packed).toNat < 256 ^ 4 := UInt32.toNat_lt _
    rw [decode_recordMagic, decodeRecord, readWord_leBytes_of_lt _ short, Option.bind_some]
    dsimp only
    rw [readWord_leBytes_of_lt _ crc, Option.bind_some]
    dsimp only
    rw [if_neg (by omega), plainBytes_stored lz4 limits.2.2 _ Iff.rfl, Option.bind_some, if_pos rfl]
    exact roundTrip

/-- A logged payload is one that `appendRaftRecordBytes` takes. -/
theorem validSize_of_accepted {value : Json} {payload : Bytes}
    (accepted : encodeRaftLogPayload codec value = some payload) :
    validSize payload.length = true := by
  unfold encodeRaftLogPayload at accepted
  dsimp only at accepted
  generalize writeMsgpack codec.lib value = packed at accepted
  split at accepted
  next => cases accepted
  next inside =>
    cases accepted
    have stored : (if 0 < (codec.lz4.compress packed).length ∧
        (codec.lz4.compress packed).length < packed.length then codec.lz4.compress packed
        else packed).length ≤ packed.length := by
      split
      next shorter => exact shorter.2.le
      next => exact le_rfl
    have limit : kShippedBytes + 14 ≤ kMaxRaftPayloadBytes := by decide
    rw [validSize, Bool.and_eq_true, bne_iff_ne, decide_eq_true_iff]
    simp only [List.length_append, List.length_cons, length_leBytes,
      show kRaftRecordMagic.length = 5 from rfl]
    omega

/-! ## Shipping what was logged -/

/-- For every list of entries with their terms, under the round trips: a part of them fits a
frame, what was logged of them is decoded again, and every record is checked, if and only if
the first entry fits a frame alone. -/
theorem shipped_iff (codec : PayloadCodec) (message : List (String × Json)) (entries : List Json)
    (terms : List Nat) (nonempty : entries ≠ []) (aligned : terms.length = entries.length)
    (lz4 : codec.lz4.RoundTrips) (roundTrip : ∀ entry ∈ entries,
      codec.lib.fromMsgpack (writeMsgpack codec.lib entry) = some entry) :
    (Fitted codec.lib message entries terms ∧
      (∀ entry ∈ entries, ∀ payload, encodeRaftLogPayload codec entry = some payload →
        validSize payload.length = true ∧ decodeRaftPayload codec payload = some entry) ∧
      ∀ payload value, kRaftRecordMagic <+: payload →
        decodeRaftPayload codec payload = some value → Checked codec payload value) ↔
      FirstFits codec.lib message entries terms := by
  rw [fitted_iff aligned (mt List.length_eq_zero_iff.mp nonempty)]
  refine and_iff_left ⟨fun entry member payload accepted => ?_, fun _ _ => checked_of_decode⟩
  exact ⟨validSize_of_accepted accepted, decode_encode lz4 (roundTrip entry member) accepted⟩

/-- LZ4 on a few bytes: a token and the bytes. -/
def literals : Lz4 where
  compress bytes := if bytes.length < 13 then UInt8.ofNat (16 * bytes.length) :: bytes else []
  decompress encoded size := if encoded.length = size + 1 then some encoded.tail else none

theorem literals_roundTrips : literals.RoundTrips := by
  intro bytes some
  by_cases few : bytes.length < 13
  · simp [literals, few]
  · exact absurd (if_neg few) some

/-- The readers, for the number one and one other value. -/
def readsOneOr (other : Json) : PayloadCodec where
  lib := ⟨fun bytes => if bytes = [1] then some (.unsigned 1) else some other, fun _ => "",
    fun _ => none, id⟩
  lz4 := literals
  parse _ := none

theorem fromMsgpack_readsOneOr {other : Json} {bytes : Bytes} (different : bytes ≠ [1]) :
    (readsOneOr other).lib.fromMsgpack bytes = some other := if_neg different

def readsOne : PayloadCodec := readsOneOr .null

/-- The message of the peer replicator. -/
def appendMessage : List (String × Json) :=
  [("leaderCommit", .unsigned 1), ("prevLogTerm", .unsigned 1), ("prevLogIndex", .unsigned 1),
    ("leader", .string "n1"), ("term", .unsigned 1), ("type", .string "append_entries")]

theorem length_utf8_replicate (count : Nat) :
    (utf8 (String.ofList (List.replicate count 'a'))).length = count := by
  have size : (String.ofList (List.replicate count 'a')).utf8ByteSize = count := by
    induction count with
    | zero => rfl
    | succ count ih =>
      rw [List.replicate_succ, String.ofList_cons, String.utf8ByteSize_append,
        String.utf8ByteSize_singleton, ih]
      exact Nat.add_comm 1 count
  rw [utf8, Array.length_toList]
  exact size

theorem length_large_text {count : Nat} (large : 2 ^ 16 ≤ count) (small : count < 2 ^ 32) :
    (writeMsgpack lib (.string (String.ofList (List.replicate count 'a')))).length = 5 + count := by
  rw [writeMsgpack, writeString, List.length_append, length_utf8_replicate, Sst.stringHeader,
    if_neg (by omega), if_neg (by omega), if_neg (by omega), if_pos small, List.length_cons,
    length_beBytes]

/-- A text of the largest size that is logged. -/
def largeEntry : Json := .string (String.ofList (List.replicate (kShippedBytes - 5) 'a'))

theorem length_largeEntry : (writeMsgpack lib largeEntry).length = kShippedBytes := by
  rw [largeEntry, length_large_text (by decide) (by decide)]
  decide

/-- Behind a small entry the largest one is left for the next frame. -/
theorem shipped_halved :
    fitRaftEntriesFrame (readsOneOr largeEntry).lib appendMessage [.unsigned 1, largeEntry] [1, 2] =
        (true, [.unsigned 1], [1]) ∧
      Fitted (readsOneOr largeEntry).lib appendMessage [.unsigned 1, largeEntry] [1, 2] ∧
      ∀ entry ∈ [.unsigned 1, largeEntry], ∀ payload,
        encodeRaftLogPayload (readsOneOr largeEntry) entry = some payload →
          decodeRaftPayload (readsOneOr largeEntry) payload = some entry := by
  have first : (frameBytes (readsOneOr largeEntry).lib appendMessage [.unsigned 1] [1]).length ≤
      kShippedBytes := by decide
  have long := @length_entry_lt_frameBytes (readsOneOr largeEntry).lib appendMessage largeEntry
    [.unsigned 1, largeEntry] [1, 2] (.tail _ (.head _))
  rw [length_largeEntry] at long
  have different : writeMsgpack (readsOneOr largeEntry).lib largeEntry ≠ [1] := by
    intro short
    have size := congrArg List.length short
    rw [length_largeEntry] at size
    exact absurd size (by decide)
  have shipped := (shipped_iff (readsOneOr largeEntry) appendMessage [.unsigned 1, largeEntry] [1, 2]
    (List.cons_ne_nil _ _) rfl literals_roundTrips (by
      intro entry member
      rcases List.mem_pair.mp member with rfl | rfl
      · rfl
      · exact fromMsgpack_readsOneOr different)).mpr first
  refine ⟨?_, shipped.1, fun entry member payload accepted => (shipped.2.1 entry member payload accepted).2⟩
  rw [fitRaftEntriesFrame, if_neg (by decide), if_neg (Nat.not_le_of_lt long), if_neg (by decide)]
  change fitRaftEntriesFrame (readsOneOr largeEntry).lib appendMessage [.unsigned 1] [1] = _
  rw [fitRaftEntriesFrame, if_neg (by decide), if_pos first]

/-- It is logged, the message around it is small, and it never fits a frame. -/
theorem large_entry_not_shipped :
    (encodeRaftLogPayload readsOne largeEntry).isSome = true ∧
      (encodeRaftPayload readsOne.lib (.object appendMessage)).length ≤ kRaftFrameReserveBytes ∧
      fitRaftEntriesFrame readsOne.lib appendMessage [largeEntry] [2] = (false, [largeEntry], [2]) ∧
      ¬Fitted readsOne.lib appendMessage [largeEntry] [2] := by
  have long := @length_entry_lt_frameBytes readsOne.lib appendMessage largeEntry [largeEntry] [2] (.head _)
  rw [length_largeEntry] at long
  refine ⟨?_, by decide, ?_, fun fitted => ?_⟩
  · rw [encodeRaftLogPayload]
    dsimp only
    rw [length_largeEntry, if_neg (by decide)]
    rfl
  · rw [fitRaftEntriesFrame, if_neg (by decide), if_neg (Nat.not_le_of_lt long),
      if_pos List.length_singleton]
  · exact absurd (fitted.firstFits rfl) (Nat.not_le_of_lt long)

end PacificDb.Raft
