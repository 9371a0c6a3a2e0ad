import PacificDb.Sst.RowBytes

/-!
# SST files

An SST has a header of 64 bytes, blocks of rows, and an index of the blocks. `writeSst`
fills blocks up to a target size and patches the header in last. There are two
readers: `scanSst` goes by the index, `SstCursor` reads block after block up to it;
`verifySst` is a cursor that also checks the index.

A file is the list of its bytes. LZ4 is a parameter.
-/

namespace PacificDb.Sst

open Lib
open Lsm hiding MsgpackRowView scanSst verifySst verifyRows idText

def kSstMagic : Bytes := [80, 68, 66, 83, 83, 84, 50, 0]

def kSstIndexMagic : Bytes := [80, 68, 66, 83, 73, 88, 50, 0]

def kVersion : Nat := 2

def kBlockMagic : Nat := 0x324b4c42

def kSstHeaderBytes : Nat := 64

def kBlockHeaderBytes : Nat := 24

def kMaxFieldBytes : Nat := 64 * 1024 * 1024

def kMaxBlocks : Nat := 16 * 1024 * 1024

/-! ## Checksums and compression -/

/-- An entry of the table of `initCRC32Table`. -/
def crc32Table (index : UInt32) : UInt32 :=
  (List.range 8).foldl (fun crc _ => (crc >>> 1) ^^^ (if crc &&& 1 == 1 then 0xEDB88320 else 0)) index

/-- `ChecksumCalculator::crc32c`, which is `crc32`. -/
def crc32c (bytes : Bytes) : UInt32 :=
  let step (crc : UInt32) (byte : UInt8) : UInt32 :=
    (crc >>> 8) ^^^ crc32Table ((crc ^^^ byte.toUInt32) &&& 0xff)
  bytes.foldl step 0xFFFFFFFF ^^^ 0xFFFFFFFF

/-- `LZ4_compress_default`, empty when it fails, and `LZ4_decompress_safe` into so many
bytes. -/
structure Lz4 where
  compress : Bytes → Bytes
  decompress : Bytes → Nat → Option Bytes

/-! ## Writing -/

def rowId (lib : JsonLibrary) (row : Json) : String := (docId? lib.dump row).getD ""

structure BlockIndexEntry where
  offset : Nat
  storedBytes : Nat
  originalBytes : Nat
  rows : Nat
  firstKey : Bytes
  lastKey : Bytes

/-- What `writeSst` has written, and the block it is filling. -/
structure Writer where
  out : Bytes
  index : List BlockIndexEntry := []
  block : Bytes := []
  firstKey : Bytes := []
  lastKey : Bytes := []
  blockRows : Nat := 0
  rows : Nat := 0

def useCompression (compressed block : Bytes) : Bool :=
  decide (0 < compressed.length) && decide (compressed.length + 8 < block.length)

def storedData (lz4 : Lz4) (block : Bytes) : Bytes :=
  if useCompression (lz4.compress block) block then lz4.compress block else block

def blockHeader (lz4 : Lz4) (block : Bytes) (rows : Nat) : Bytes :=
  leBytes 4 kBlockMagic ++
    ((if useCompression (lz4.compress block) block then 1 else 0) :: 0 :: 0 :: 0 ::
      (leBytes 4 (storedData lz4 block).length ++ (leBytes 4 block.length ++ (leBytes 4 rows ++
        leBytes 4 (crc32c block).toNat))))

def flushBlock (lz4 : Lz4) (w : Writer) : Writer :=
  if w.blockRows = 0 then w
  else
    { w with
      out := w.out ++ (blockHeader lz4 w.block w.blockRows ++ storedData lz4 w.block)
      index := w.index ++ [⟨w.out.length, (storedData lz4 w.block).length, w.block.length, w.blockRows,
        w.firstKey, w.lastKey⟩]
      block := []
      firstKey := []
      lastKey := []
      blockRows := 0 }

/-- One row of the loop of `writeSst`. -/
def addRow (lib : JsonLibrary) (lz4 : Lz4) (targetBlockBytes : Nat) (w : Writer) (row : Json) :
    Except String Writer :=
  let packed := writeMsgpack lib row
  if packed.isEmpty ∨ kMaxFieldBytes < packed.length then .error "SST row exceeds format limit"
  else
    let w := if 0 < w.blockRows ∧ targetBlockBytes < w.block.length + (4 + packed.length) then
      flushBlock lz4 w else w
    let id := utf8 (rowId lib row)
    .ok { w with
      firstKey := if w.blockRows = 0 then id else w.firstKey
      lastKey := id
      block := w.block ++ (leBytes 4 packed.length ++ packed)
      blockRows := w.blockRows + 1
      rows := w.rows + 1 }

def writeIndexEntry (entry : BlockIndexEntry) : Bytes :=
  leBytes 8 entry.offset ++ (leBytes 4 entry.storedBytes ++ (leBytes 4 entry.originalBytes ++
    (leBytes 4 entry.rows ++ (leBytes 4 entry.firstKey.length ++ (entry.firstKey ++
      (leBytes 4 entry.lastKey.length ++ entry.lastKey))))))

def writeIndex (index : List BlockIndexEntry) : Bytes :=
  let indexBytes := kSstIndexMagic ++ (leBytes 4 index.length ++ index.flatMap writeIndexEntry)
  indexBytes ++ leBytes 4 (crc32c indexBytes).toNat

/-- The header, with four bytes for its checksum. -/
def headerWith (crc targetBlockBytes rows indexOffset blocks : Nat) : Bytes :=
  kSstMagic ++ (leBytes 4 kVersion ++ (leBytes 4 kSstHeaderBytes ++ (leBytes 4 targetBlockBytes ++
    (leBytes 4 0 ++ (leBytes 8 rows ++ (leBytes 8 indexOffset ++ (leBytes 4 blocks ++ (leBytes 4 0 ++
      (leBytes 4 crc ++ List.replicate 12 0)))))))))

def writeHeader (targetBlockBytes rows indexOffset blocks : Nat) : Bytes :=
  headerWith (crc32c (headerWith 0 targetBlockBytes rows indexOffset blocks)).toNat targetBlockBytes
    rows indexOffset blocks

def clampTarget (targetBlockBytes : Nat) : Nat := max 4096 (min targetBlockBytes 16384)

/-- `writeSst`: the file it publishes. A stream fails past the largest file that the file
system takes, `capacity`. -/
def writeSst (lib : JsonLibrary) (lz4 : Lz4) (capacity targetBlockBytes : Nat) (rows : List Json) :
    Except String Bytes := do
  let target := clampTarget targetBlockBytes
  let filled ← rows.foldlM (addRow lib lz4 target) { out := List.replicate kSstHeaderBytes 0 }
  let w := flushBlock lz4 filled
  let file := writeHeader target w.rows w.out.length w.index.length ++
    (w.out.drop kSstHeaderBytes ++ writeIndex w.index)
  if capacity < file.length then .error "cannot write SST block index" else return file

/-! ## Reading -/

structure SstHeader where
  rowCount : Nat
  indexOffset : Nat
  blockCount : Nat

def parseSstHeader (header : Bytes) : Except String SstHeader :=
  if header.take 8 ≠ kSstMagic then .error "not a PacificDB v2 SST"
  else
    let fields : Option (Nat × Nat × Nat × SstHeader) := do
      let (version, rest) ← readWord 4 (header.drop 8)
      let (headerBytes, rest) ← readWord 4 rest
      let (_, rest) ← readWord 4 rest
      let (_, rest) ← readWord 4 rest
      let (rowCount, rest) ← readWord 8 rest
      let (indexOffset, rest) ← readWord 8 rest
      let (blockCount, rest) ← readWord 4 rest
      let (_, rest) ← readWord 4 rest
      let (storedCrc, _) ← readWord 4 rest
      return (version, headerBytes, storedCrc, ⟨rowCount, indexOffset, blockCount⟩)
    match fields with
    | none => .error "truncated SST header"
    | some (version, headerBytes, storedCrc, parsed) =>
        if version ≠ kVersion ∨ headerBytes ≠ kSstHeaderBytes ∨ kMaxBlocks < parsed.blockCount then
          .error "unsupported SST header"
        else if (crc32c (header.take 48 ++ (List.replicate 4 0 ++ header.drop 52))).toNat ≠ storedCrc then
          .error "SST header checksum mismatch"
        else .ok parsed

/-- One entry of the block index. -/
def readIndexEntry (indexOffset : Nat) (bytes : Bytes) : Except String (BlockIndexEntry × Bytes) :=
  let fields : Option (Nat × Nat × Nat × Nat × Nat × Bytes) := do
    let (offset, rest) ← readWord 8 bytes
    let (storedBytes, rest) ← readWord 4 rest
    let (originalBytes, rest) ← readWord 4 rest
    let (rows, rest) ← readWord 4 rest
    let (firstSize, rest) ← readWord 4 rest
    return (offset, storedBytes, originalBytes, rows, firstSize, rest)
  match fields with
  | none => .error "truncated SST block index entry"
  | some (offset, storedBytes, originalBytes, rows, firstSize, rest) =>
      if kMaxFieldBytes < firstSize ∨ rest.length < firstSize then
        .error "truncated SST block index entry"
      else
        match readWord 4 (rest.drop firstSize) with
        | none => .error "truncated SST block key range"
        | some (lastSize, behind) =>
            if kMaxFieldBytes < lastSize ∨ behind.length < lastSize then
              .error "truncated SST block key range"
            else if offset < kSstHeaderBytes ∨
                indexOffset < (offset + kBlockHeaderBytes + storedBytes) % 2 ^ 64 then
              .error "SST block points outside data region"
            else .ok (⟨offset, storedBytes, originalBytes, rows, rest.take firstSize,
              behind.take lastSize⟩, behind.drop lastSize)

def readIndexEntries (indexOffset : Nat) : Nat → Bytes → Except String (List BlockIndexEntry × Bytes)
  | 0, bytes => .ok ([], bytes)
  | count + 1, bytes => do
      let (entry, rest) ← readIndexEntry indexOffset bytes
      let (entries, left) ← readIndexEntries indexOffset count rest
      return (entry :: entries, left)

/-- `loadMetadata`: the entries of the block index. -/
def loadMetadata (file : Bytes) : Except String (List BlockIndexEntry) :=
  if file.length < kSstHeaderBytes then .error "cannot stat SST"
  else
    match parseSstHeader (file.take kSstHeaderBytes) with
    | .error reason => .error reason
    | .ok header =>
        if header.indexOffset < kSstHeaderBytes ∨ file.length ≤ header.indexOffset then
          .error "invalid SST index offset"
        else
          let indexBytes := file.drop header.indexOffset
          let checked := indexBytes.take (indexBytes.length - 4)
          if indexBytes.length < kSstIndexMagic.length + 8 ∨ indexBytes.take 8 ≠ kSstIndexMagic then
            .error "invalid SST block index magic"
          else if (crc32c checked).toNat ≠ readLe (indexBytes.drop (indexBytes.length - 4)) then
            .error "SST block index checksum mismatch"
          else
            match readWord 4 (checked.drop 8) with
            | none => .error "invalid SST block count"
            | some (count, rest) =>
                if count ≠ header.blockCount ∨ kMaxBlocks < count then .error "invalid SST block count"
                else
                  match readIndexEntries header.indexOffset count rest with
                  | .error reason => .error reason
                  | .ok (blocks, left) =>
                      if left.isEmpty then .ok blocks
                      else .error "unexpected bytes in SST block index"

structure BlockHeader where
  magic : Nat
  compression : UInt8
  stored : Nat
  original : Nat
  rows : Nat
  checksum : Nat

/-- The fields of a block header. -/
def readBlockHeader (bytes : Bytes) : Option (BlockHeader × Bytes) := do
  let (magic, rest) ← readWord 4 bytes
  let (kind, rest) ← readFixed 4 rest
  let (stored, rest) ← readWord 4 rest
  let (original, rest) ← readWord 4 rest
  let (rows, rest) ← readWord 4 rest
  let (checksum, rest) ← readWord 4 rest
  return (⟨magic, kind.headD 0, stored, original, rows, checksum⟩, rest)

/-- The bytes LZ4 makes of a payload, if they fill the block. -/
def decompressBlock (lz4 : Lz4) (encoded : Bytes) (original : Nat) : Option Bytes :=
  (lz4.decompress encoded original).filter fun plain => plain.length = original

/-- `readBlockPayload`: a block at the place its index entry names. -/
def readBlockPayload (lz4 : Lz4) (file : Bytes) (expected : BlockIndexEntry) :
    Except String (Bytes × Nat) :=
  match readBlockHeader (file.drop expected.offset) with
  | none => .error "truncated SST block header"
  | some (header, rest) =>
      if header.magic ≠ kBlockMagic then .error "invalid SST block header"
      else if header.stored ≠ expected.storedBytes ∨ header.original ≠ expected.originalBytes ∨
          header.rows ≠ expected.rows ∨ kMaxFieldBytes * 4 < header.original then
        .error "SST block metadata mismatch"
      else
        match readFixed header.stored rest with
        | none => .error "truncated SST block payload"
        | some (encoded, _) =>
            let plain : Except String Bytes :=
              if header.compression = 0 then
                if header.stored ≠ header.original then .error "invalid uncompressed SST block length"
                else .ok encoded
              else if header.compression = 1 then
                match decompressBlock lz4 encoded header.original with
                | some plain => .ok plain
                | none => .error "LZ4 SST block decompression failed"
              else .error "unsupported SST compression"
            match plain with
            | .error reason => .error reason
            | .ok plain =>
                if (crc32c plain).toNat ≠ header.checksum then .error "SST block checksum mismatch"
                else .ok (plain, header.rows)

/-- `readSequentialBlock`: the block at the position of the stream, and the position behind
it. -/
def readSequentialBlock (lz4 : Lz4) (file : Bytes) (indexOffset offset : Nat) :
    Except String (Bytes × Nat × Nat) :=
  if indexOffset < offset + kBlockHeaderBytes then .error "SST block crosses block-index boundary"
  else
    match readBlockHeader (file.drop offset) with
    | none => .error "truncated SST block header"
    | some (header, rest) =>
        if header.magic ≠ kBlockMagic then .error "invalid SST block header"
        else if kMaxFieldBytes * 4 < header.original ∨
            indexOffset < offset + kBlockHeaderBytes + header.stored then
          .error "invalid sequential SST block metadata"
        else
          match readFixed header.stored rest with
          | none => .error "truncated SST block payload"
          | some (encoded, _) =>
              let plain : Except String Bytes :=
                if header.compression = 0 ∧ header.stored = header.original then .ok encoded
                else if header.compression = 1 then
                  match decompressBlock lz4 encoded header.original with
                  | some plain => .ok plain
                  | none => .error "LZ4 SST block decompression failed"
                else .error "invalid SST block compression or length"
              match plain with
              | .error reason => .error reason
              | .ok plain =>
                  if (crc32c plain).toNat ≠ header.checksum then .error "SST block checksum mismatch"
                  else .ok (plain, header.rows, offset + kBlockHeaderBytes + header.stored)

/-- The next row of a block. -/
def readRow (plain : Bytes) : Option (Bytes × Bytes) :=
  match readWord 4 plain with
  | none => none
  | some (size, rest) =>
      if size = 0 ∨ kMaxFieldBytes < size ∨ rest.length < size then none
      else some (rest.take size, rest.drop size)

/-- `visitBlockRows` with a visitor that goes on, or throws. -/
def visitBlockRows {α : Type} (visit : Bytes → Except String α) :
    Nat → Bytes → Except String (List α)
  | 0, plain => if plain.isEmpty then .ok [] else .error "trailing bytes in SST block"
  | count + 1, plain =>
      match readRow plain with
      | none => .error "invalid SST row length"
      | some (row, rest) => do
          let first ← visit row
          let others ← visitBlockRows visit count rest
          return first :: others

/-- `MsgpackRowView::materialize`. -/
def materialize (lib : JsonLibrary) (row : Bytes) : Except String Json :=
  match lib.fromMsgpack row with
  | some value => .ok value
  | none => .error "invalid SST MessagePack row"

/-- `scanSst`: the rows it hands to a visitor that returns true. -/
def scanSst (lib : JsonLibrary) (lz4 : Lz4) (file : Bytes) : Except String (List Json) := do
  let blocks ← loadMetadata file
  let rows ← blocks.mapM fun block => do
    let (plain, count) ← readBlockPayload lz4 file block
    visitBlockRows (materialize lib) count plain
  return rows.flatten

/-! ## Cursors -/

/-- The text of an id. -/
def idText (lib : JsonLibrary) : Json → String
  | .string id => id
  | other => lib.dump other

/-- `SstCursor` on a binary file. A cursor that stands on no row is at the end. -/
structure SstCursor where
  file : Bytes
  indexFields : Bool
  header : SstHeader
  position : Nat
  blocksRead : Nat := 0
  rowsLeft : Nat := 0
  rowsRead : Nat := 0
  block : Bytes := []
  previousId : String := ""
  current : Option (String × Bytes) := none

/-- The block with the next row; none is the end of the file. -/
def SstCursor.loadBlocks (lz4 : Lz4) : Nat → SstCursor → Except String (Option SstCursor)
  | 0, cursor =>
      if 0 < cursor.rowsLeft then .ok (some cursor)
      else if cursor.rowsRead % 2 ^ 64 ≠ cursor.header.rowCount ∨
          cursor.position ≠ cursor.header.indexOffset then
        .error "SST row count or block-index offset mismatch"
      else .ok none
  | blocks + 1, cursor =>
      if 0 < cursor.rowsLeft then .ok (some cursor)
      else
        match readSequentialBlock lz4 cursor.file cursor.header.indexOffset cursor.position with
        | .error reason => .error reason
        | .ok (plain, rows, position) =>
            loadBlocks lz4 blocks { cursor with
              position
              blocksRead := cursor.blocksRead + 1
              rowsLeft := rows
              block := plain }

def SstCursor.advance (lib : JsonLibrary) (lz4 : Lz4) (cursor : SstCursor) : Except String SstCursor :=
  match cursor.loadBlocks lz4 (cursor.header.blockCount - cursor.blocksRead) with
  | .error reason => .error reason
  | .ok none => .ok { cursor with current := none }
  | .ok (some cursor) =>
      match readRow cursor.block with
      | none => .error "invalid SST cursor row"
      | some (row, rest) =>
          match MsgpackRowView.field lib ⟨row, cursor.indexFields⟩ "id" with
          | none => .error "SST cursor row has no id"
          | some rawId =>
              let currentId := idText lib rawId
              if currentId = "" ∨ (cursor.previousId ≠ "" ∧ currentId < cursor.previousId) then
                .error "SST cursor ids are empty or unsorted"
              else
                .ok { cursor with
                  rowsLeft := cursor.rowsLeft - 1
                  rowsRead := cursor.rowsRead + 1
                  block := rest
                  previousId := currentId
                  current := some (currentId, row) }

/-- `SstCursor::open` on a binary file. -/
def SstCursor.open (lib : JsonLibrary) (lz4 : Lz4) (indexFields : Bool) (file : Bytes) :
    Except String SstCursor :=
  match parseSstHeader (file.take kSstHeaderBytes) with
  | .error reason => .error reason
  | .ok header => advance lib lz4 { file, indexFields, header, position := kSstHeaderBytes }

/-- The rows of a file are counted in 64 bits. -/
def kMaxRows : Nat := 2 ^ 64

/-- The ids and rows a cursor stands on, to the end of the file. -/
def SstCursor.rows (lib : JsonLibrary) (lz4 : Lz4) :
    Nat → SstCursor → Except String (List (String × Bytes))
  | 0, _ => .error "too many rows"
  | fuel + 1, cursor =>
      match cursor.current with
      | none => .ok []
      | some row => do
          let next ← cursor.advance lib lz4
          let later ← rows lib lz4 fuel next
          return row :: later

def cursorRows (lib : JsonLibrary) (lz4 : Lz4) (indexFields : Bool) (file : Bytes) :
    Except String (List (String × Bytes)) := do
  let cursor ← SstCursor.open lib lz4 indexFields file
  cursor.rows lib lz4 kMaxRows

/-- The loop of `verifySst`. -/
def verifyRows (lib : JsonLibrary) (lz4 : Lz4) : Nat → SstCursor → Except String Unit
  | 0, _ => .error "too many rows"
  | fuel + 1, cursor =>
      match cursor.current with
      | none => .ok ()
      | some (_, row) => do
          let _ ← materialize lib row
          let next ← cursor.advance lib lz4
          verifyRows lib lz4 fuel next

def verifySst (lib : JsonLibrary) (lz4 : Lz4) (file : Bytes) : Except String Unit := do
  let cursor ← SstCursor.open lib lz4 false file
  verifyRows lib lz4 kMaxRows cursor
  let header ← parseSstHeader (file.take kSstHeaderBytes)
  if file.length < header.indexOffset + kSstIndexMagic.length + 8 then
    .error "invalid SST block-index size"
  else
    let indexBytes := file.drop header.indexOffset
    let checked := indexBytes.take (indexBytes.length - 4)
    match readWord 4 (checked.drop 8) with
    | none => .error "SST block-index checksum or count mismatch"
    | some (footerBlocks, _) =>
        if checked.take 8 ≠ kSstIndexMagic ∨ footerBlocks ≠ header.blockCount ∨
            (crc32c checked).toNat ≠ readLe (indexBytes.drop (indexBytes.length - 4)) then
          .error "SST block-index checksum or count mismatch"
        else .ok ()

end PacificDb.Sst
