import PacificDb.Sst.Layout

/-!
# The parts of an SST, read back

What the readers make of a header, an index entry, a block and a row as `writeSst`
lays them out.
-/

namespace PacificDb.Sst

open Lib
open Lsm hiding MsgpackRowView scanSst verifySst verifyRows idText

variable {lib : JsonLibrary} {lz4 : Lz4}

/-! ## The header -/

/-- The header up to its checksum. -/
def headerFront (targetBlockBytes rows indexOffset blocks : Nat) : Bytes :=
  kSstMagic ++ (leBytes 4 kVersion ++ (leBytes 4 kSstHeaderBytes ++ (leBytes 4 targetBlockBytes ++
    (leBytes 4 0 ++ (leBytes 8 rows ++ (leBytes 8 indexOffset ++ (leBytes 4 blocks ++ leBytes 4 0)))))))

theorem headerWith_eq (crc targetBlockBytes rows indexOffset blocks : Nat) :
    headerWith crc targetBlockBytes rows indexOffset blocks =
      headerFront targetBlockBytes rows indexOffset blocks ++ (leBytes 4 crc ++ List.replicate 12 0) := by
  simp only [headerWith, headerFront, List.append_assoc]

theorem length_headerFront (targetBlockBytes rows indexOffset blocks : Nat) :
    (headerFront targetBlockBytes rows indexOffset blocks).length = 48 := by
  simp [headerFront, kSstMagic]

theorem length_writeHeader (targetBlockBytes rows indexOffset blocks : Nat) :
    (writeHeader targetBlockBytes rows indexOffset blocks).length = kSstHeaderBytes := by
  rw [writeHeader, headerWith_eq, List.length_append, length_headerFront, List.length_append,
    length_leBytes, List.length_replicate]
  rfl

/-- The checksum of a header is taken with zeros in its own place. -/
theorem headerFront_zeroed (crc targetBlockBytes rows indexOffset blocks : Nat) :
    (headerWith crc targetBlockBytes rows indexOffset blocks).take 48 ++ (List.replicate 4 0 ++
      (headerWith crc targetBlockBytes rows indexOffset blocks).drop 52) =
        headerWith 0 targetBlockBytes rows indexOffset blocks := by
  have zeros : leBytes 4 0 = List.replicate 4 0 := rfl
  have behind : (headerWith crc targetBlockBytes rows indexOffset blocks).drop 52 =
      List.replicate 12 0 := by
    rw [headerWith_eq, ← List.append_assoc]
    apply List.drop_left'
    rw [List.length_append, length_headerFront, length_leBytes]
  rw [behind, headerWith_eq, List.take_left' (length_headerFront ..), headerWith_eq, zeros]

/-- A header comes back with what its fields can hold, unless it counts too many blocks. -/
theorem parseSstHeader_writeHeader (targetBlockBytes rows indexOffset blocks : Nat) :
    parseSstHeader (writeHeader targetBlockBytes rows indexOffset blocks) =
      if kMaxBlocks < blocks % 256 ^ 4 then .error "unsupported SST header"
      else .ok ⟨rows % 256 ^ 8, indexOffset % 256 ^ 8, blocks % 256 ^ 4⟩ := by
  have magic : (writeHeader targetBlockBytes rows indexOffset blocks).take 8 = kSstMagic := by
    rw [writeHeader, headerWith]
    exact List.take_left' rfl
  have crc := headerFront_zeroed (crc32c (headerWith 0 targetBlockBytes rows indexOffset blocks)).toNat
    targetBlockBytes rows indexOffset blocks
  have version : kVersion % 256 ^ 4 = kVersion := rfl
  have size : kSstHeaderBytes % 256 ^ 4 = kSstHeaderBytes := rfl
  have stored : (crc32c (headerWith 0 targetBlockBytes rows indexOffset blocks)).toNat % 256 ^ 4 =
      (crc32c (headerWith 0 targetBlockBytes rows indexOffset blocks)).toNat :=
    Nat.mod_eq_of_lt (UInt32.toNat_lt _)
  rw [parseSstHeader, if_neg (not_not.mpr magic)]
  rw [← writeHeader] at crc
  rw [crc]
  have fields : (writeHeader targetBlockBytes rows indexOffset blocks).drop 8 =
      leBytes 4 kVersion ++ (leBytes 4 kSstHeaderBytes ++ (leBytes 4 targetBlockBytes ++
        (leBytes 4 0 ++ (leBytes 8 rows ++ (leBytes 8 indexOffset ++ (leBytes 4 blocks ++ (leBytes 4 0 ++
          (leBytes 4 (crc32c (headerWith 0 targetBlockBytes rows indexOffset blocks)).toNat ++
            List.replicate 12 0)))))))) := by
    rw [writeHeader, headerWith]
    exact List.drop_left' rfl
  rw [fields]
  simp only [readWord_leBytes, bind, Option.bind, pure, version, size, stored, ne_eq, not_true_eq_false,
    false_or, if_false]

/-! ## Index entries -/

/-- The numbers of an entry fit their fields, and its block lies before the index. -/
structure EntryFits (indexOffset : Nat) (entry : BlockIndexEntry) : Prop where
  offset : kSstHeaderBytes ≤ entry.offset
  behind : entry.offset + kBlockHeaderBytes + entry.storedBytes ≤ indexOffset
  index : indexOffset < 2 ^ 63
  storedBytes : entry.storedBytes < 2 ^ 32
  originalBytes : entry.originalBytes < 2 ^ 32
  rows : entry.rows < 2 ^ 32
  firstKey : entry.firstKey.length < 2 ^ 32
  lastKey : entry.lastKey.length < 2 ^ 32

/-- The keys of an entry are not too long for the reader. -/
def KeysFit (entry : BlockIndexEntry) : Prop :=
  entry.firstKey.length ≤ kMaxFieldBytes ∧ entry.lastKey.length ≤ kMaxFieldBytes

instance (entry : BlockIndexEntry) : Decidable (KeysFit entry) := by
  unfold KeysFit
  infer_instance

theorem readIndexEntry_write {indexOffset : Nat} {entry : BlockIndexEntry}
    (fits : EntryFits indexOffset entry) (rest : Bytes) :
    (KeysFit entry → readIndexEntry indexOffset (writeIndexEntry entry ++ rest) = .ok (entry, rest)) ∧
      (¬KeysFit entry → ∃ reason, readIndexEntry indexOffset (writeIndexEntry entry ++ rest) =
        .error reason) := by
  have offset : entry.offset % 256 ^ 8 = entry.offset := by
    have bound := fits.behind
    have top := fits.index
    apply Nat.mod_eq_of_lt
    omega
  have stored : entry.storedBytes % 256 ^ 4 = entry.storedBytes := Nat.mod_eq_of_lt fits.storedBytes
  have original : entry.originalBytes % 256 ^ 4 = entry.originalBytes :=
    Nat.mod_eq_of_lt fits.originalBytes
  have rows : entry.rows % 256 ^ 4 = entry.rows := Nat.mod_eq_of_lt fits.rows
  have first : entry.firstKey.length % 256 ^ 4 = entry.firstKey.length := Nat.mod_eq_of_lt fits.firstKey
  have last : entry.lastKey.length % 256 ^ 4 = entry.lastKey.length := Nat.mod_eq_of_lt fits.lastKey
  have inside : (entry.offset + kBlockHeaderBytes + entry.storedBytes) % 2 ^ 64 =
      entry.offset + kBlockHeaderBytes + entry.storedBytes := by
    have bound := fits.behind
    have top := fits.index
    apply Nat.mod_eq_of_lt
    omega
  unfold readIndexEntry writeIndexEntry KeysFit
  simp only [List.append_assoc, readWord_leBytes, bind, Option.bind, pure, offset, stored, original, rows,
    first, inside]
  have long : ¬(entry.firstKey ++ (leBytes 4 entry.lastKey.length ++ (entry.lastKey ++ rest))).length <
      entry.firstKey.length := by
    rw [List.length_append]
    omega
  have longLast : ¬(entry.lastKey ++ rest).length < entry.lastKey.length := by
    rw [List.length_append]
    omega
  have outside : ¬(entry.offset < kSstHeaderBytes ∨
      indexOffset < entry.offset + kBlockHeaderBytes + entry.storedBytes) := by
    rw [not_or, Nat.not_lt, Nat.not_lt]
    exact ⟨fits.offset, fits.behind⟩
  rw [List.take_left', List.drop_left', readWord_leBytes, last]
  · dsimp only
    rw [List.take_left' rfl, List.drop_left' rfl, if_neg outside]
    by_cases small : entry.firstKey.length ≤ kMaxFieldBytes
    · rw [if_neg (not_or.mpr ⟨Nat.not_lt.mpr small, long⟩)]
      by_cases smallLast : entry.lastKey.length ≤ kMaxFieldBytes
      · rw [if_neg (not_or.mpr ⟨Nat.not_lt.mpr smallLast, longLast⟩)]
        exact ⟨fun _ => rfl, fun large => absurd ⟨small, smallLast⟩ large⟩
      · rw [if_pos (.inl (Nat.lt_of_not_le smallLast))]
        exact ⟨fun both => absurd both.2 smallLast, fun _ => ⟨_, rfl⟩⟩
    · rw [if_pos (.inl (Nat.lt_of_not_le small))]
      exact ⟨fun both => absurd both.1 small, fun _ => ⟨_, rfl⟩⟩
  · rfl
  · rfl

/-- The entries come back in order, unless a key is too long. -/
theorem readIndexEntries_write {indexOffset : Nat} {entries : List BlockIndexEntry}
    (fits : ∀ entry ∈ entries, EntryFits indexOffset entry) (rest : Bytes) :
    ((∀ entry ∈ entries, KeysFit entry) →
      readIndexEntries indexOffset entries.length (entries.flatMap writeIndexEntry ++ rest) =
        .ok (entries, rest)) ∧
    ((¬∀ entry ∈ entries, KeysFit entry) → ∃ reason,
      readIndexEntries indexOffset entries.length (entries.flatMap writeIndexEntry ++ rest) =
        .error reason) := by
  induction entries with
  | nil => exact ⟨fun _ => rfl, fun long => absurd nofun long⟩
  | cons entry entries ih =>
    obtain ⟨first, later⟩ := List.forall_mem_cons.mp fits
    obtain ⟨reads, refuses⟩ := readIndexEntry_write first (entries.flatMap writeIndexEntry ++ rest)
    obtain ⟨readsLater, refusesLater⟩ := ih later
    rw [List.length_cons, readIndexEntries, List.flatMap_cons, List.append_assoc,
      List.forall_mem_cons]
    constructor
    · rintro ⟨own, others⟩
      rw [reads own]
      dsimp only [bind, Except.bind]
      rw [readsLater others]
      rfl
    · intro long
      by_cases own : KeysFit entry
      · obtain ⟨reason, refused⟩ := refusesLater fun others => long ⟨own, others⟩
        rw [reads own]
        dsimp only [bind, Except.bind]
        rw [refused]
        exact ⟨reason, rfl⟩
      · obtain ⟨reason, refused⟩ := refuses own
        rw [refused]
        exact ⟨reason, rfl⟩

/-! ## Blocks -/

/-- What is assumed of LZ4: it decompresses what it compressed. -/
def Lz4.RoundTrips (lz4 : Lz4) : Prop :=
  ∀ bytes, lz4.compress bytes ≠ [] → lz4.decompress (lz4.compress bytes) bytes.length = some bytes

/-- The sizes of a block fit their fields. -/
structure BlockFits (plain : Bytes) (rows : Nat) : Prop where
  plain : plain.length ≤ kMaxFieldBytes * 4
  rows : rows < 2 ^ 32

theorem length_storedData_le (plain : Bytes) : (storedData lz4 plain).length ≤ plain.length := by
  unfold storedData useCompression
  split
  next compressed =>
    rw [Bool.and_eq_true, decide_eq_true_eq, decide_eq_true_eq] at compressed
    omega
  next => exact le_rfl

theorem length_blockHeader (plain : Bytes) (rows : Nat) :
    (blockHeader lz4 plain rows).length = kBlockHeaderBytes := by
  simp [blockHeader, kBlockHeaderBytes]

theorem readBlockHeader_blockHeader {plain : Bytes} {rows : Nat} (fits : BlockFits plain rows)
    (rest : Bytes) : readBlockHeader (blockHeader lz4 plain rows ++ rest) =
      some (⟨kBlockMagic, if useCompression (lz4.compress plain) plain then 1 else 0,
        (storedData lz4 plain).length, plain.length, rows, (crc32c plain).toNat⟩, rest) := by
  have whole := fits.plain
  have less := @length_storedData_le lz4 plain
  have limit : kMaxFieldBytes * 4 < 256 ^ 4 := by decide
  have stored : (storedData lz4 plain).length % 256 ^ 4 = (storedData lz4 plain).length :=
    Nat.mod_eq_of_lt (by omega)
  have original : plain.length % 256 ^ 4 = plain.length := Nat.mod_eq_of_lt (by omega)
  have count : rows % 256 ^ 4 = rows := Nat.mod_eq_of_lt fits.rows
  have crc : (crc32c plain).toNat % 256 ^ 4 = (crc32c plain).toNat :=
    Nat.mod_eq_of_lt (UInt32.toNat_lt _)
  have magic : kBlockMagic % 256 ^ 4 = kBlockMagic := rfl
  have kind : ∀ (tag : UInt8) (behind : Bytes), readFixed 4 (tag :: 0 :: 0 :: 0 :: behind) =
      some ([tag, 0, 0, 0], behind) := fun tag behind => @readFixed_append' 4 [tag, 0, 0, 0] behind rfl
  unfold readBlockHeader blockHeader
  simp only [List.append_assoc, List.cons_append, readWord_leBytes, kind, bind, Option.bind, pure, magic,
    stored, original, count, crc, List.headD_cons]

/-- The payload of a block gives its rows back, compressed or not. -/
theorem decompressBlock_storedData (compresses : lz4.RoundTrips) {plain : Bytes}
    (compressed : useCompression (lz4.compress plain) plain = true) :
    decompressBlock lz4 (storedData lz4 plain) plain.length = some plain := by
  have nonempty : lz4.compress plain ≠ [] := by
    rw [useCompression, Bool.and_eq_true, decide_eq_true_eq] at compressed
    exact List.length_pos_iff.mp compressed.1
  rw [storedData, if_pos compressed, decompressBlock, compresses plain nonempty, Option.filter_some,
    if_pos (decide_eq_true rfl)]

theorem storedData_plain {plain : Bytes} (kept : useCompression (lz4.compress plain) plain = false) :
    storedData lz4 plain = plain := by
  rw [storedData, kept]
  rfl

theorem readBlockPayload_block (compresses : lz4.RoundTrips) {file : Bytes} {entry : BlockIndexEntry}
    {rows : List Json} {rest : Bytes} (fits : BlockFits (blockPlain lib rows) rows.length)
    (isEntry : entry = blockEntry lib lz4 entry.offset rows)
    (there : file.drop entry.offset = blockBytes lib lz4 rows ++ rest) :
    readBlockPayload lz4 file entry = .ok (blockPlain lib rows, rows.length) := by
  have stored : entry.storedBytes = (storedData lz4 (blockPlain lib rows)).length := by rw [isEntry]; rfl
  have original : entry.originalBytes = (blockPlain lib rows).length := by rw [isEntry]; rfl
  have count : entry.rows = rows.length := by rw [isEntry]; rfl
  rw [readBlockPayload, there, blockBytes, List.append_assoc, readBlockHeader_blockHeader fits]
  dsimp only
  rw [stored, original, count, if_neg (by simp), if_neg, readFixed_append]
  · dsimp only
    cases compressed : useCompression (lz4.compress (blockPlain lib rows)) (blockPlain lib rows) with
    | true =>
      rw [if_pos rfl, if_neg (by decide), if_pos rfl, decompressBlock_storedData compresses compressed]
      dsimp only
      rw [if_neg (by simp)]
    | false =>
      rw [if_neg Bool.false_ne_true, if_pos rfl, storedData_plain compressed, if_neg (by simp)]
      dsimp only
      rw [if_neg (by simp)]
  · simpa using fits.plain

theorem readSequentialBlock_block (compresses : lz4.RoundTrips) {file : Bytes} {indexOffset offset : Nat}
    {rows : List Json} {rest : Bytes} (fits : BlockFits (blockPlain lib rows) rows.length)
    (there : file.drop offset = blockBytes lib lz4 rows ++ rest)
    (before : offset + (blockBytes lib lz4 rows).length ≤ indexOffset) :
    readSequentialBlock lz4 file indexOffset offset =
      .ok (blockPlain lib rows, rows.length, offset + (blockBytes lib lz4 rows).length) := by
  have size : (blockBytes lib lz4 rows).length =
      kBlockHeaderBytes + (storedData lz4 (blockPlain lib rows)).length := by
    rw [blockBytes, List.length_append, length_blockHeader]
  rw [size] at before ⊢
  rw [readSequentialBlock, if_neg (by omega), there, blockBytes, List.append_assoc,
    readBlockHeader_blockHeader fits]
  dsimp only
  rw [if_neg (by simp), if_neg, readFixed_append]
  · dsimp only
    cases compressed : useCompression (lz4.compress (blockPlain lib rows)) (blockPlain lib rows) with
    | true =>
      rw [if_pos rfl, if_neg (by simp), if_pos rfl, decompressBlock_storedData compresses compressed]
      dsimp only
      rw [if_neg (by simp), Nat.add_assoc]
    | false =>
      rw [if_neg Bool.false_ne_true, storedData_plain compressed, if_pos ⟨rfl, rfl⟩]
      dsimp only
      rw [if_neg (by simp), Nat.add_assoc]
  · rw [not_or, Nat.not_lt, Nat.not_lt]
    exact ⟨fits.plain, by omega⟩

/-! ## Rows -/

theorem readRow_encodeRow {row : Json} (fits : (writeMsgpack lib row).length ≤ kMaxFieldBytes)
    (rest : Bytes) : readRow (encodeRow lib row ++ rest) = some (writeMsgpack lib row, rest) := by
  have limit : kMaxFieldBytes < 256 ^ 4 := by decide
  have some : (writeMsgpack lib row).length ≠ 0 := by
    rw [ne_eq, List.length_eq_zero_iff]
    exact writeMsgpack_ne_nil row
  rw [readRow, encodeRow, List.append_assoc, readWord_leBytes_of_lt _ (by omega)]
  dsimp only
  rw [if_neg, List.take_left' rfl, List.drop_left' rfl]
  rw [not_or, not_or, List.length_append]
  omega

/-- A block hands its rows to the visitor. -/
theorem visitBlockRows_block {α : Type} {visit : Bytes → Except String α} {rows : List Json}
    {results : List α} (fits : ∀ row ∈ rows, (writeMsgpack lib row).length ≤ kMaxFieldBytes)
    (visits : rows.mapM (fun row => visit (writeMsgpack lib row)) = .ok results) :
    visitBlockRows visit rows.length (blockPlain lib rows) = .ok results := by
  induction rows generalizing results with
  | nil =>
    cases visits
    rfl
  | cons row rows ih =>
    obtain ⟨first, later⟩ := List.forall_mem_cons.mp fits
    rw [List.mapM_cons] at visits
    rw [List.length_cons, visitBlockRows, blockPlain, List.flatMap_cons, readRow_encodeRow first]
    dsimp only
    cases own : visit (writeMsgpack lib row) with
    | error reason =>
      rw [own] at visits
      cases visits
    | ok result =>
      cases others : rows.mapM fun row => visit (writeMsgpack lib row) with
      | error reason =>
        rw [own, others] at visits
        cases visits
      | ok more =>
        rw [own, others] at visits
        cases visits
        rw [← blockPlain, ih later others]
        rfl

end PacificDb.Sst
