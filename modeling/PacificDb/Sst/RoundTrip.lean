import PacificDb.Sst.ReadBack

/-!
# What is written to an SST is read back

Under the assumption that the libraries give back what they were given, an SST that
`writeSst` wrote is accepted by `verifySst`, and both readers hand out its rows in
order (`readsBack_iff`): unless a row nests too deep for a cursor, there are more
blocks than the readers accept, or the text of an id at the edge of a block is longer
than the index may hold. The writer checks none of these.
-/

namespace PacificDb.Sst

open Lib
open Lsm hiding MsgpackRowView scanSst verifySst verifyRows idText

variable {lib : JsonLibrary} {lz4 : Lz4}

/-- What is assumed of the JSON library on these rows, for a notion of two values being the
same: rows and ids decode to the same value, the storage class of a number does not
matter, and the text of an id that fits a row fits 32 bits. -/
structure Faithful (lib : JsonLibrary) (same : Json → Json → Prop) (rows : List Json) : Prop where
  decodes : ∀ value, value ∈ rows ∨ (∃ row ∈ rows, row.field? "id" = some value) →
    ∃ back, lib.fromMsgpack (writeMsgpack lib value) = some back ∧ same value back
  storage : ∀ value, same value (stored lib value)
  text : ∀ value back, same value back → idText lib back = idText lib value
  textFits : ∀ row ∈ rows, (writeMsgpack lib row).length ≤ kMaxFieldBytes →
    (utf8 (rowId lib row)).length < 2 ^ 32

/-- The rows `writeSst` is handed: objects in the order of their ids, none of which is empty. -/
structure SortedRows (lib : JsonLibrary) (rows : List Json) : Prop where
  objects : ∀ row ∈ rows, row.isObject = true
  named : ∀ row ∈ rows, rowId lib row ≠ ""
  sorted : rows.Pairwise fun row next => rowId lib row ≤ rowId lib next

/-- `verifySst` accepts the file, and all readers hand out its rows. -/
structure ReadsBack (lib : JsonLibrary) (lz4 : Lz4) (same : Json → Json → Prop) (rows : List Json)
    (file : Bytes) : Prop where
  verified : verifySst lib lz4 file = .ok ()
  scanned : ∃ back, scanSst lib lz4 file = .ok back ∧ List.Forall₂ same rows back
  cursor : ∀ indexFields, cursorRows lib lz4 indexFields file =
    .ok (rows.map fun row => (rowId lib row, writeMsgpack lib row))

/-! ## The file -/

section File

variable {target : Nat} {blocks : List (List Json)} {same : Json → Json → Prop}

/-- The offset of the index. -/
def indexOffset (lib : JsonLibrary) (lz4 : Lz4) (blocks : List (List Json)) : Nat :=
  kSstHeaderBytes + (blocks.flatMap (blockBytes lib lz4)).length

/-- The blocks of a file that was written. -/
structure BlocksFit (lib : JsonLibrary) (lz4 : Lz4) (blocks : List (List Json)) : Prop where
  rows : ∀ rows ∈ blocks, ∀ row ∈ rows, (writeMsgpack lib row).length ≤ kMaxFieldBytes
  nonempty : ∀ rows ∈ blocks, rows ≠ []
  plain : ∀ rows ∈ blocks, (blockPlain lib rows).length ≤ kMaxFieldBytes * 4
  keys : ∀ rows ∈ blocks, ∀ row ∈ rows, (utf8 (rowId lib row)).length < 2 ^ 32
  size : indexOffset lib lz4 blocks < 2 ^ 63

theorem header_sstBytes : (sstBytes lib lz4 target blocks).take kSstHeaderBytes =
    writeHeader target blocks.flatten.length (indexOffset lib lz4 blocks) blocks.length :=
  List.take_left' (length_writeHeader ..)

theorem drop_indexOffset : (sstBytes lib lz4 target blocks).drop (indexOffset lib lz4 blocks) =
    writeIndex (blockEntries lib lz4 kSstHeaderBytes blocks) := by
  rw [sstBytes, ← List.append_assoc]
  apply List.drop_left'
  rw [List.length_append, length_writeHeader, indexOffset]

/-- A block stands at the offset of its entry. -/
theorem drop_block (before : List (List Json)) (rows : List Json) (after : List (List Json)) :
    (sstBytes lib lz4 target (before ++ rows :: after)).drop (indexOffset lib lz4 before) =
      blockBytes lib lz4 rows ++ (after.flatMap (blockBytes lib lz4) ++
        writeIndex (blockEntries lib lz4 kSstHeaderBytes (before ++ rows :: after))) := by
  rw [sstBytes, List.flatMap_append, List.flatMap_cons, List.append_assoc, List.append_assoc,
    ← List.append_assoc]
  apply List.drop_left'
  rw [List.length_append, length_writeHeader, indexOffset]

theorem blockFits {rows : List Json} (fits : BlocksFit lib lz4 blocks) (member : rows ∈ blocks) :
    BlockFits (blockPlain lib rows) rows.length := by
  have whole := fits.plain rows member
  have limit : kMaxFieldBytes * 4 < 2 ^ 32 := by decide
  have atLeast := length_le_flatMap fun row (_ : row ∈ rows) =>
    List.append_ne_nil_of_right_ne_nil (leBytes 4 (writeMsgpack lib row).length)
      (@writeMsgpack_ne_nil lib row)
  have few : rows.length ≤ (blockPlain lib rows).length := atLeast
  exact ⟨whole, by omega⟩

theorem mem_blockEntries {offset : Nat} {entry : BlockIndexEntry} :
    entry ∈ blockEntries lib lz4 offset blocks ↔ ∃ before rows after, blocks = before ++ rows :: after ∧
      entry = blockEntry lib lz4 (offset + (before.flatMap (blockBytes lib lz4)).length) rows := by
  induction blocks generalizing offset with
  | nil => simp [blockEntries]
  | cons block blocks ih =>
    rw [blockEntries, List.mem_cons, ih]
    constructor
    · rintro (rfl | ⟨before, rows, after, rfl, rfl⟩)
      · exact ⟨[], block, blocks, rfl, rfl⟩
      · refine ⟨block :: before, rows, after, rfl, ?_⟩
        rw [List.flatMap_cons, List.length_append, Nat.add_assoc]
    · rintro ⟨before, rows, after, split, rfl⟩
      cases before with
      | nil =>
        cases split
        exact .inl rfl
      | cons first before =>
        cases split
        refine .inr ⟨before, rows, after, rfl, ?_⟩
        rw [List.flatMap_cons, List.length_append, Nat.add_assoc]

theorem length_keyOf_lt {rows : List Json} {row : Option Json} (fits : BlocksFit lib lz4 blocks)
    (member : rows ∈ blocks) (own : ∀ found ∈ row, found ∈ rows) : (keyOf lib row).length < 2 ^ 32 := by
  cases row with
  | none => exact Nat.two_pow_pos 32
  | some row => exact fits.keys rows member row (own row rfl)

theorem entryFits (fits : BlocksFit lib lz4 blocks) :
    ∀ entry ∈ blockEntries lib lz4 kSstHeaderBytes blocks,
      EntryFits (indexOffset lib lz4 blocks) entry := by
  intro entry isEntry
  obtain ⟨before, rows, after, rfl, rfl⟩ := mem_blockEntries.mp isEntry
  have member : rows ∈ before ++ rows :: after := List.mem_append_right _ (.head _)
  have sizes := blockFits fits member
  have whole := sizes.plain
  have limit : kMaxFieldBytes * 4 < 2 ^ 32 := by decide
  have less := @length_storedData_le lz4 (blockPlain lib rows)
  refine ⟨?_, ?_, fits.size, ?_, ?_, sizes.rows, ?_, ?_⟩
  · exact Nat.le_add_right _ _
  · rw [indexOffset, List.flatMap_append, List.flatMap_cons, List.length_append, List.length_append]
    have own : (blockBytes lib lz4 rows).length =
        kBlockHeaderBytes + (storedData lz4 (blockPlain lib rows)).length := by
      rw [blockBytes, List.length_append, length_blockHeader]
    rw [own]
    dsimp only [blockEntry]
    omega
  · dsimp only [blockEntry]
    omega
  · dsimp only [blockEntry]
    omega
  · exact length_keyOf_lt fits member fun found isFirst => List.mem_of_mem_head? isFirst
  · exact length_keyOf_lt fits member fun found isLast => List.mem_of_getLast? isLast

/-- The most bytes that a file of these blocks may have. -/
theorem length_sstBytes_le : (sstBytes lib lz4 target blocks).length ≤ 80 +
    (blocks.map fun rows => (blockPlain lib rows).length +
      ((keyOf lib rows.head?).length + (keyOf lib rows.getLast?).length + 52)).sum := by
  have parts : ∀ blocks offset, (blocks.flatMap (blockBytes lib lz4)).length +
      ((blockEntries lib lz4 offset blocks).flatMap writeIndexEntry).length ≤
        (blocks.map fun rows => (blockPlain lib rows).length +
          ((keyOf lib rows.head?).length + (keyOf lib rows.getLast?).length + 52)).sum := by
    intro blocks
    induction blocks with
    | nil => exact fun _ => le_rfl
    | cons rows blocks ih =>
      intro offset
      have rest := ih (offset + (blockBytes lib lz4 rows).length)
      have stored := @length_storedData_le lz4 (blockPlain lib rows)
      have head : kBlockHeaderBytes = 24 := rfl
      rw [blockEntries, List.flatMap_cons, List.flatMap_cons, List.map_cons, List.sum_cons,
        List.length_append, List.length_append]
      simp only [blockBytes, writeIndexEntry, blockEntry, List.length_append, length_leBytes,
        length_blockHeader] at rest ⊢
      omega
  have whole := parts blocks kSstHeaderBytes
  have magic : kSstIndexMagic.length = 8 := rfl
  have header : kSstHeaderBytes = 64 := rfl
  rw [sstBytes, List.length_append, List.length_append, length_writeHeader, writeIndex,
    List.length_append, List.length_append, List.length_append, length_leBytes, length_leBytes,
    magic]
  omega

/-- The text of the ids at both ends of the blocks fits the index. -/
def EdgesFit (lib : JsonLibrary) (blocks : List (List Json)) : Prop :=
  ∀ rows ∈ blocks, (keyOf lib rows.head?).length ≤ kMaxFieldBytes ∧
    (keyOf lib rows.getLast?).length ≤ kMaxFieldBytes

theorem keysFit_iff : (∀ entry ∈ blockEntries lib lz4 kSstHeaderBytes blocks, KeysFit entry) ↔
    EdgesFit lib blocks := by
  constructor
  · intro all rows member
    obtain ⟨before, after, rfl⟩ := List.append_of_mem member
    exact all _ (mem_blockEntries.mpr ⟨before, rows, after, rfl, rfl⟩)
  · intro edges entry isEntry
    obtain ⟨before, rows, after, rfl, rfl⟩ := mem_blockEntries.mp isEntry
    exact edges rows (List.mem_append_right _ (.head _))

/-- What `writeIndex` writes before its checksum. -/
def indexBody (index : List BlockIndexEntry) : Bytes :=
  kSstIndexMagic ++ (leBytes 4 index.length ++ index.flatMap writeIndexEntry)

section Index

variable (index : List BlockIndexEntry)

theorem take_writeIndex : (writeIndex index).take ((writeIndex index).length - 4) = indexBody index := by
  have size : (writeIndex index).length - 4 = (indexBody index).length := by
    rw [writeIndex, List.length_append, length_leBytes]
    exact Nat.add_sub_cancel _ _
  rw [size]
  exact List.take_left' rfl

theorem drop_writeIndex : (writeIndex index).drop ((writeIndex index).length - 4) =
    leBytes 4 (crc32c (indexBody index)).toNat := by
  have size : (writeIndex index).length - 4 = (indexBody index).length := by
    rw [writeIndex, List.length_append, length_leBytes]
    exact Nat.add_sub_cancel _ _
  rw [size]
  exact List.drop_left' rfl

theorem length_writeIndex_ge : kSstIndexMagic.length + 8 ≤ (writeIndex index).length := by
  rw [writeIndex, List.length_append, List.length_append, List.length_append, length_leBytes,
    length_leBytes]
  omega

theorem magic_indexBody : (indexBody index).take 8 = kSstIndexMagic := List.take_left' rfl

theorem magic_writeIndex : (writeIndex index).take 8 = kSstIndexMagic := by
  rw [writeIndex, List.append_assoc]
  exact List.take_left' rfl

theorem count_indexBody : readWord 4 ((indexBody index).drop 8) =
    some (index.length % 256 ^ 4, index.flatMap writeIndexEntry) := by
  have behind : (indexBody index).drop 8 = leBytes 4 index.length ++ index.flatMap writeIndexEntry :=
    List.drop_left' rfl
  rw [behind, readWord_leBytes]

theorem crc_indexBody : (crc32c (indexBody index)).toNat =
    readLe (leBytes 4 (crc32c (indexBody index)).toNat) := by
  rw [readLe_leBytes_of_lt]
  exact UInt32.toNat_lt _

end Index

theorem parse_sstBytes (fits : BlocksFit lib lz4 blocks) (few : ¬kMaxBlocks < blocks.length % 256 ^ 4) :
    parseSstHeader ((sstBytes lib lz4 target blocks).take kSstHeaderBytes) =
      .ok ⟨blocks.flatten.length % 256 ^ 8, indexOffset lib lz4 blocks, blocks.length % 256 ^ 4⟩ := by
  have offset : indexOffset lib lz4 blocks % 256 ^ 8 = indexOffset lib lz4 blocks := by
    have top := fits.size
    apply Nat.mod_eq_of_lt
    omega
  rw [header_sstBytes, parseSstHeader_writeHeader, if_neg few, offset]

theorem loadMetadata_eq (fits : BlocksFit lib lz4 blocks) (few : ¬kMaxBlocks < blocks.length % 256 ^ 4) :
    loadMetadata (sstBytes lib lz4 target blocks) =
      match readIndexEntries (indexOffset lib lz4 blocks) (blocks.length % 256 ^ 4)
        ((blockEntries lib lz4 kSstHeaderBytes blocks).flatMap writeIndexEntry) with
      | .error reason => .error reason
      | .ok (found, left) =>
          if left.isEmpty then .ok found else .error "unexpected bytes in SST block index" := by
  have index := length_writeIndex_ge (blockEntries lib lz4 kSstHeaderBytes blocks)
  have size : (sstBytes lib lz4 target blocks).length = indexOffset lib lz4 blocks +
      (writeIndex (blockEntries lib lz4 kSstHeaderBytes blocks)).length := by
    rw [sstBytes, List.length_append, List.length_append, length_writeHeader, indexOffset, Nat.add_assoc]
  have start : kSstHeaderBytes ≤ indexOffset lib lz4 blocks := Nat.le_add_right _ _
  rw [loadMetadata, if_neg (by omega), parse_sstBytes fits few]
  dsimp only
  rw [if_neg (by omega), drop_indexOffset, take_writeIndex, drop_writeIndex, if_neg, if_neg,
    count_indexBody]
  · dsimp only
    rw [length_blockEntries]
    exact if_neg (not_or.mpr ⟨not_not.mpr rfl, few⟩)
  · rw [not_not]
    exact crc_indexBody _
  · rw [not_or, not_not]
    exact ⟨by omega, magic_writeIndex _⟩

theorem loadMetadata_ok (fits : BlocksFit lib lz4 blocks) (few : blocks.length ≤ kMaxBlocks)
    (edges : EdgesFit lib blocks) :
    loadMetadata (sstBytes lib lz4 target blocks) = .ok (blockEntries lib lz4 kSstHeaderBytes blocks) := by
  have limit : kMaxBlocks < 256 ^ 4 := by decide
  have count : blocks.length % 256 ^ 4 = (blockEntries lib lz4 kSstHeaderBytes blocks).length := by
    rw [length_blockEntries]
    exact Nat.mod_eq_of_lt (by omega)
  have read := (readIndexEntries_write (entryFits fits) []).1 (keysFit_iff.mpr edges)
  rw [List.append_nil] at read
  rw [loadMetadata_eq fits (by rw [count, length_blockEntries]; omega), count, read]
  rfl

/-- A file that can be scanned has not too many blocks, and no id at an edge is too long. -/
theorem loadMetadata_some {found : List BlockIndexEntry} (fits : BlocksFit lib lz4 blocks)
    (loaded : loadMetadata (sstBytes lib lz4 target blocks) = .ok found) :
    blocks.length ≤ kMaxBlocks ∧ EdgesFit lib blocks := by
  by_cases few : kMaxBlocks < blocks.length % 256 ^ 4
  · have refused : parseSstHeader ((sstBytes lib lz4 target blocks).take kSstHeaderBytes) =
        .error "unsupported SST header" := by
      rw [header_sstBytes, parseSstHeader_writeHeader, if_pos few]
    rw [loadMetadata, refused] at loaded
    split at loaded <;> cases loaded
  · rw [loadMetadata_eq fits few] at loaded
    -- the reader takes the entries that the count, cut to its field, tells it to
    have split : blockEntries lib lz4 kSstHeaderBytes blocks =
        (blockEntries lib lz4 kSstHeaderBytes blocks).take (blocks.length % 256 ^ 4) ++
          (blockEntries lib lz4 kSstHeaderBytes blocks).drop (blocks.length % 256 ^ 4) :=
      (List.take_append_drop _ _).symm
    have size : ((blockEntries lib lz4 kSstHeaderBytes blocks).take (blocks.length % 256 ^ 4)).length =
        blocks.length % 256 ^ 4 := by
      rw [List.length_take, length_blockEntries]
      exact Nat.min_eq_left (Nat.mod_le _ _)
    have each : ∀ entry ∈ (blockEntries lib lz4 kSstHeaderBytes blocks).take (blocks.length % 256 ^ 4),
        EntryFits (indexOffset lib lz4 blocks) entry :=
      fun entry member => entryFits fits entry (List.mem_of_mem_take member)
    obtain ⟨reads, refuses⟩ := readIndexEntries_write each
      (((blockEntries lib lz4 kSstHeaderBytes blocks).drop (blocks.length % 256 ^ 4)).flatMap
        writeIndexEntry)
    rw [size, ← List.flatMap_append, ← split] at reads refuses
    by_cases keys : ∀ entry ∈ (blockEntries lib lz4 kSstHeaderBytes blocks).take
        (blocks.length % 256 ^ 4), KeysFit entry
    · rw [reads keys] at loaded
      dsimp only at loaded
      split at loaded
      next empty =>
        have none : (blockEntries lib lz4 kSstHeaderBytes blocks).drop (blocks.length % 256 ^ 4) = [] := by
          rw [List.isEmpty_iff, List.flatMap_eq_nil_iff] at empty
          rw [List.eq_nil_iff_forall_not_mem]
          intro entry member
          have written := congrArg List.length (empty entry member)
          simp [writeIndexEntry] at written
        have all : blocks.length ≤ blocks.length % 256 ^ 4 := by
          rw [List.drop_eq_nil_iff, length_blockEntries] at none
          exact none
        have whole : (blockEntries lib lz4 kSstHeaderBytes blocks).take (blocks.length % 256 ^ 4) =
            blockEntries lib lz4 kSstHeaderBytes blocks :=
          List.take_of_length_le (by rw [length_blockEntries]; exact all)
        rw [whole] at keys
        exact ⟨by omega, keysFit_iff.mp keys⟩
      next => cases loaded
    · obtain ⟨reason, refused⟩ := refuses keys
      rw [refused] at loaded
      cases loaded

/-! ## The scan -/

theorem materialize_rows {rows : List Json} (decodes : ∀ row ∈ rows, ∃ back,
      lib.fromMsgpack (writeMsgpack lib row) = some back ∧ same row back) :
    ∃ back, rows.mapM (fun row => materialize lib (writeMsgpack lib row)) = .ok back ∧
      List.Forall₂ same rows back := by
  induction rows with
  | nil => exact ⟨[], rfl, .nil⟩
  | cons row rows ih =>
    obtain ⟨⟨value, decoded, isSame⟩, later⟩ := List.forall_mem_cons.mp decodes
    obtain ⟨back, visited, others⟩ := ih later
    refine ⟨value :: back, ?_, .cons isSame others⟩
    rw [List.mapM_cons, materialize, decoded, visited]
    rfl

theorem indexOffset_append (before : List (List Json)) (rows : List Json) :
    indexOffset lib lz4 (before ++ [rows]) =
      indexOffset lib lz4 before + (blockBytes lib lz4 rows).length := by
  rw [indexOffset, indexOffset, List.flatMap_append, List.flatMap_singleton, List.length_append,
    Nat.add_assoc]

/-- The blocks from one on, scanned by their index entries. -/
theorem scan_blocks (compresses : lz4.RoundTrips) (fits : BlocksFit lib lz4 blocks)
    (decodes : ∀ rows ∈ blocks, ∀ row ∈ rows, ∃ back,
      lib.fromMsgpack (writeMsgpack lib row) = some back ∧ same row back)
    {before after : List (List Json)} (split : blocks = before ++ after) : ∃ backs,
    (blockEntries lib lz4 (indexOffset lib lz4 before) after).mapM (fun block => do
        let (plain, count) ← readBlockPayload lz4 (sstBytes lib lz4 target blocks) block
        visitBlockRows (materialize lib) count plain) = .ok backs ∧
      List.Forall₂ same after.flatten backs.flatten := by
  induction after generalizing before with
  | nil => exact ⟨[], rfl, .nil⟩
  | cons rows after ih =>
    have member : rows ∈ blocks := by
      rw [split]
      exact List.mem_append_right _ (.head _)
    have there := @drop_block lib lz4 target before rows after
    rw [← split] at there
    have payload := readBlockPayload_block compresses (blockFits fits member)
      (show blockEntry lib lz4 (indexOffset lib lz4 before) rows = _ from rfl) there
    obtain ⟨back, visited, isSame⟩ := materialize_rows (decodes rows member)
    have next : blocks = (before ++ [rows]) ++ after := by rw [split, List.append_assoc]; rfl
    obtain ⟨backs, scanned, others⟩ := ih next
    rw [indexOffset_append] at scanned
    refine ⟨back :: backs, ?_, List.rel_append isSame others⟩
    rw [blockEntries, List.mapM_cons, payload]
    dsimp only [bind, Except.bind]
    rw [visitBlockRows_block (fits.rows rows member) visited]
    dsimp only [bind, Except.bind] at scanned ⊢
    rw [scanned]
    rfl

theorem scanSst_ok (compresses : lz4.RoundTrips) (fits : BlocksFit lib lz4 blocks)
    (few : blocks.length ≤ kMaxBlocks) (edges : EdgesFit lib blocks)
    (decodes : ∀ rows ∈ blocks, ∀ row ∈ rows, ∃ back,
      lib.fromMsgpack (writeMsgpack lib row) = some back ∧ same row back) :
    ∃ back, scanSst lib lz4 (sstBytes lib lz4 target blocks) = .ok back ∧
      List.Forall₂ same blocks.flatten back := by
  obtain ⟨backs, scanned, isSame⟩ := @scan_blocks lib lz4 target blocks same compresses fits decodes
    [] blocks rfl
  refine ⟨backs.flatten, ?_, isSame⟩
  rw [scanSst, loadMetadata_ok fits few edges]
  dsimp only [bind, Except.bind] at scanned ⊢
  rw [show kSstHeaderBytes = indexOffset lib lz4 [] from rfl, scanned]
  rfl

/-! ## Cursors -/

/-- What a cursor finds of the id of a row. -/
def idFound (indexed : Bool) (row : Json) : Option Json :=
  (Lsm.MsgpackRowView.mk row indexed).field "id"

/-- A cursor between two rows: `block` is left of the block it reads, and `after` of the
file. -/
structure SstCursor.At (lib : JsonLibrary) (lz4 : Lz4) (target : Nat) (blocks : List (List Json))
    (cursor : SstCursor) (block : List Json) (after : List (List Json)) : Prop where
  file : cursor.file = sstBytes lib lz4 target blocks
  header : cursor.header =
    ⟨blocks.flatten.length, indexOffset lib lz4 blocks, blocks.length⟩
  split : ∃ before, blocks = before ++ after ∧ cursor.position = indexOffset lib lz4 before ∧
    cursor.blocksRead = before.length
  rowsLeft : cursor.rowsLeft = block.length
  rowsRead : cursor.rowsRead + (block.length + after.flatten.length) = blocks.flatten.length
  block : cursor.block = blockPlain lib block

variable {cursor : SstCursor} {block : List Json} {after : List (List Json)}

/-- A cursor at the end of a block loads the next one. -/
theorem SstCursor.At.loadBlocks (compresses : lz4.RoundTrips) (fits : BlocksFit lib lz4 blocks)
    {rows : List Json} (isAt : cursor.At lib lz4 target blocks [] (rows :: after)) : ∃ next : SstCursor,
    cursor.loadBlocks lz4 (cursor.header.blockCount - cursor.blocksRead) = .ok (some next) ∧
      next.At lib lz4 target blocks rows after ∧ next.indexFields = cursor.indexFields ∧
      next.previousId = cursor.previousId := by
  obtain ⟨before, split, position, blocksRead⟩ := isAt.split
  have member : rows ∈ blocks := by
    rw [split]
    exact List.mem_append_right _ (.head _)
  have there := @drop_block lib lz4 target before rows after
  rw [← split] at there
  have ahead : indexOffset lib lz4 before + (blockBytes lib lz4 rows).length ≤
      indexOffset lib lz4 blocks := by
    rw [split, indexOffset, indexOffset, List.flatMap_append, List.flatMap_cons, List.length_append,
      List.length_append]
    omega
  have index : cursor.header.indexOffset = indexOffset lib lz4 blocks := by rw [isAt.header]
  have payload : readSequentialBlock lz4 cursor.file cursor.header.indexOffset cursor.position =
      .ok (blockPlain lib rows, rows.length,
        indexOffset lib lz4 before + (blockBytes lib lz4 rows).length) := by
    rw [isAt.file, index, position]
    exact readSequentialBlock_block compresses (blockFits fits member) there ahead
  have left : cursor.header.blockCount - cursor.blocksRead = after.length + 1 := by
    have count : cursor.header.blockCount = blocks.length := by rw [isAt.header]
    rw [count, blocksRead, split, List.length_append, List.length_cons]
    omega
  have some : 0 < rows.length := List.length_pos_iff.mpr (fits.nonempty rows member)
  have empty : ¬0 < cursor.rowsLeft := by
    rw [isAt.rowsLeft]
    exact Nat.lt_irrefl 0
  rw [left, SstCursor.loadBlocks, if_neg empty, payload]
  dsimp only
  refine ⟨{ cursor with
      position := indexOffset lib lz4 before + (blockBytes lib lz4 rows).length
      blocksRead := cursor.blocksRead + 1
      rowsLeft := rows.length
      block := blockPlain lib rows }, ?_,
    ⟨isAt.file, isAt.header, ⟨before ++ [rows], ?_, ?_, ?_⟩, rfl, ?_, rfl⟩, rfl, rfl⟩
  · cases after.length <;> exact if_pos some
  · rw [split, List.append_assoc]
    rfl
  · rw [indexOffset_append]
  · dsimp only
    rw [blocksRead, List.length_append]
    rfl
  · have read := isAt.rowsRead
    rw [List.flatten_cons, List.length_append, List.length_nil, Nat.zero_add] at read
    exact read

/-- At the last row a cursor finds the counts as the header has them. -/
theorem SstCursor.At.finished (isAt : cursor.At lib lz4 target blocks [] [])
    (counted : blocks.flatten.length < 2 ^ 64) :
    cursor.loadBlocks lz4 (cursor.header.blockCount - cursor.blocksRead) = .ok none := by
  obtain ⟨before, split, position, blocksRead⟩ := isAt.split
  rw [List.append_nil] at split
  have left : cursor.header.blockCount - cursor.blocksRead = 0 := by
    rw [isAt.header, blocksRead, split]
    exact Nat.sub_self _
  have read := isAt.rowsRead
  have empty : ¬0 < cursor.rowsLeft := by
    rw [isAt.rowsLeft]
    exact Nat.lt_irrefl 0
  have whole : cursor.rowsRead % 2 ^ 64 = cursor.rowsRead := by
    apply Nat.mod_eq_of_lt
    exact lt_of_le_of_lt (by omega) counted
  rw [left, SstCursor.loadBlocks, if_neg empty, if_neg]
  rw [not_or, not_not, not_not, whole, isAt.header, position, split]
  refine ⟨?_, rfl⟩
  rw [← split]
  exact read

/-! ## The row under a cursor -/

theorem rowId_eq {row id : Json} (found : row.field? "id" = some id) :
    rowId lib row = idText lib id := by
  rw [rowId, docId?, found]
  cases id <;> rfl

theorem length_member_le {members : List (String × Json)} {name : String} {value : Json}
    (found : (Json.object members).field? name = some value) :
    (writeMsgpack lib value).length ≤ (writeMsgpack lib (.object members)).length := by
  have member : (name, value) ∈ sortMembers members := by
    rw [Json.field?, List.lookup_eq_some_iff] at found
    obtain ⟨before, after, rfl, -⟩ := found
    exact mem_sortMembers.mpr (List.mem_append_right _ (.head _))
  have part := @length_flatMap_le _ (writeMember lib) (sortMembers members) _ member
  rw [writeMember, List.length_append] at part
  rw [writeMsgpack_object, List.length_append]
  dsimp only at part
  omega

/-- The id a cursor decodes has the text of the id of the row. -/
theorem field_id {rows : List Json} {row : Json} {indexed : Bool} (faithful : Faithful lib same rows)
    (member : row ∈ rows) (object : row.isObject = true)
    (fits : (writeMsgpack lib row).length ≤ kMaxFieldBytes) :
    (idFound indexed row = none →
      MsgpackRowView.field lib ⟨writeMsgpack lib row, indexed⟩ "id" = none) ∧
    ((idFound indexed row).isSome = true → ∃ back,
      MsgpackRowView.field lib ⟨writeMsgpack lib row, indexed⟩ "id" = some back ∧
        idText lib back = rowId lib row) := by
  obtain ⟨members, rfl⟩ : ∃ members, row = .object members := by
    cases row with
    | object members => exact ⟨members, rfl⟩
    | _ => cases object
  have limit : kMaxFieldBytes < 2 ^ 32 := by decide
  have bytes := @fieldBytes_writeMsgpack lib members "id" indexed (by omega)
  rw [← idFound] at bytes
  rw [MsgpackRowView.field, bytes]
  cases found : idFound indexed (.object members) with
  | none => exact ⟨fun _ => rfl, nofun⟩
  | some id =>
    refine ⟨nofun, fun _ => ?_⟩
    have inRow := Lsm.MsgpackRowView.field_some found
    have short := @length_member_le lib members "id" id inRow
    rw [Option.map_some, Option.bind_some, decodeMsgpackField_writeMsgpack (by omega), rowId_eq inRow]
    cases container : isContainer id with
    | true =>
      obtain ⟨back, decoded, isSame⟩ := faithful.decodes id (.inr ⟨_, member, inRow⟩)
      exact ⟨back, decoded, faithful.text id back isSame⟩
    | false => exact ⟨_, rfl, faithful.text id _ (faithful.storage id)⟩

/-- The rows that are left, from a cursor that stands before them. -/
structure SstCursor.Before (lib : JsonLibrary) (lz4 : Lz4) (target : Nat) (blocks : List (List Json))
    (cursor : SstCursor) (left : List Json) : Prop where
  isAt : ∃ block after, cursor.At lib lz4 target blocks block after ∧ block ++ after.flatten = left
  above : cursor.previousId ≠ "" → ∀ row ∈ left, cursor.previousId ≤ rowId lib row

theorem SstCursor.Before.advance_nil (counted : blocks.flatten.length < 2 ^ 64)
    (fits : BlocksFit lib lz4 blocks) (before : cursor.Before lib lz4 target blocks []) :
    cursor.advance lib lz4 = .ok { cursor with current := none } := by
  obtain ⟨block, after, isAt, none⟩ := before.isAt
  obtain ⟨rfl, noRows⟩ := List.append_eq_nil_iff.mp none
  have noBlocks : after = [] := by
    obtain ⟨front, split, -⟩ := isAt.split
    rw [List.eq_nil_iff_forall_not_mem]
    intro rows member
    have inBlocks : rows ∈ blocks := by
      rw [split]
      exact List.mem_append_right _ member
    exact fits.nonempty rows inBlocks (List.flatten_eq_nil_iff.mp noRows rows member)
  subst noBlocks
  rw [SstCursor.advance, isAt.finished counted]

/-- One row on: the cursor stands on it, unless it finds no id. -/
theorem SstCursor.Before.advance_cons (compresses : lz4.RoundTrips) (fits : BlocksFit lib lz4 blocks)
    (faithful : Faithful lib same blocks.flatten) (rows : SortedRows lib blocks.flatten) {row : Json}
    {left : List Json} (before : cursor.Before lib lz4 target blocks (row :: left))
    (member : row ∈ blocks.flatten) (sorted : ∀ other ∈ left, rowId lib row ≤ rowId lib other) :
    (idFound cursor.indexFields row = none → ∃ reason, cursor.advance lib lz4 = .error reason) ∧
    ((idFound cursor.indexFields row).isSome = true → ∃ next : SstCursor,
      cursor.advance lib lz4 = .ok next ∧ next.Before lib lz4 target blocks left ∧
      next.current = some (rowId lib row, writeMsgpack lib row) ∧
      next.indexFields = cursor.indexFields) := by
  -- the block with the row is there, or it is loaded
  obtain ⟨loaded, isLoaded, block, after, isAt, rest, fields, previous⟩ : ∃ loaded : SstCursor,
      cursor.loadBlocks lz4 (cursor.header.blockCount - cursor.blocksRead) = .ok (some loaded) ∧
      ∃ block after, loaded.At lib lz4 target blocks (row :: block) after ∧
        block ++ after.flatten = left ∧ loaded.indexFields = cursor.indexFields ∧
        loaded.previousId = cursor.previousId := by
    obtain ⟨block, after, isAt, split⟩ := before.isAt
    cases block with
    | nil =>
      cases after with
      | nil => cases split
      | cons rows after =>
        obtain ⟨next, isNext, nextAt, fields, previous⟩ := isAt.loadBlocks compresses fits
        cases rows with
        | nil =>
          obtain ⟨front, isFront, -⟩ := isAt.split
          exact absurd rfl (fits.nonempty [] (by
            rw [isFront]
            exact List.mem_append_right _ (.head _)))
        | cons first rows =>
          cases split
          exact ⟨next, isNext, rows, after, nextAt, rfl, fields, previous⟩
    | cons first block =>
      cases split
      have some : 0 < cursor.rowsLeft := by
        rw [isAt.rowsLeft]
        exact Nat.succ_pos _
      refine ⟨cursor, ?_, block, after, isAt, rfl, rfl, rfl⟩
      cases cursor.header.blockCount - cursor.blocksRead <;>
        rw [SstCursor.loadBlocks, if_pos some]
  have fitsRow : (writeMsgpack lib row).length ≤ kMaxFieldBytes := by
    obtain ⟨own, isOwn, inOwn⟩ := List.mem_flatten.mp member
    exact fits.rows own isOwn row inOwn
  have bytes : readRow loaded.block = some (writeMsgpack lib row, blockPlain lib block) := by
    rw [isAt.block, blockPlain, List.flatMap_cons]
    exact readRow_encodeRow fitsRow _
  obtain ⟨missing, found⟩ := @field_id lib same blocks.flatten row cursor.indexFields faithful member
    (rows.objects row member) fitsRow
  rw [SstCursor.advance, isLoaded]
  dsimp only
  rw [bytes]
  dsimp only
  rw [fields]
  constructor
  · intro none
    rw [missing none]
    exact ⟨_, rfl⟩
  · intro some
    obtain ⟨back, isField, isText⟩ := found some
    rw [isField]
    dsimp only
    rw [isText, if_neg]
    · refine ⟨_, rfl, ⟨⟨block, after, ⟨isAt.file, isAt.header, isAt.split, ?_, ?_, rfl⟩, rest⟩, ?_⟩,
        rfl, rfl⟩
      · dsimp only
        rw [isAt.rowsLeft]
        rfl
      · have read := isAt.rowsRead
        rw [List.length_cons] at read
        dsimp only
        omega
      · exact fun _ => sorted
    · rintro (empty | ⟨known, below⟩)
      · exact rows.named row member empty
      · rw [previous] at known below
        exact not_lt_of_ge (before.above known row (.head _)) below

/-- What a reader has of a row. -/
def rowPair (lib : JsonLibrary) (row : Json) : String × Bytes := (rowId lib row, writeMsgpack lib row)

/-- A cursor hands out the rows that are left, unless it finds no id in one of them. -/
theorem SstCursor.Before.rows (compresses : lz4.RoundTrips) (fits : BlocksFit lib lz4 blocks)
    (counted : blocks.flatten.length < 2 ^ 64) (faithful : Faithful lib same blocks.flatten)
    (sorted : SortedRows lib blocks.flatten) {left : List Json} {fuel : Nat} {first : String × Bytes}
    (before : cursor.Before lib lz4 target blocks left) (sub : left.Sublist blocks.flatten)
    (enough : left.length + 1 < fuel) (standing : cursor.current = some first) :
    ((∀ row ∈ left, (idFound cursor.indexFields row).isSome = true) →
      cursor.rows lib lz4 fuel = .ok (first :: left.map (rowPair lib))) ∧
    ((¬∀ row ∈ left, (idFound cursor.indexFields row).isSome = true) →
      ∃ reason, cursor.rows lib lz4 fuel = .error reason) := by
  induction left generalizing cursor fuel first with
  | nil =>
    obtain ⟨fuel, rfl⟩ : ∃ next, fuel = next + 2 := ⟨fuel - 2, by simp at enough; omega⟩
    refine ⟨fun _ => ?_, fun some => absurd nofun some⟩
    rw [SstCursor.rows, standing]
    dsimp only
    rw [before.advance_nil counted fits]
    rfl
  | cons row left ih =>
    obtain ⟨fuel, rfl⟩ : ∃ next, fuel = next + 1 := ⟨fuel - 1, by omega⟩
    rw [List.length_cons] at enough
    have order := (sorted.sorted.sublist sub)
    obtain ⟨missing, found⟩ := before.advance_cons compresses fits faithful sorted
      (sub.subset (.head _)) (List.pairwise_cons.mp order).1
    rw [SstCursor.rows, standing, List.forall_mem_cons]
    dsimp only
    by_cases own : (idFound cursor.indexFields row).isSome = true
    · obtain ⟨next, advanced, nextBefore, nextStands, fields⟩ := found own
      obtain ⟨all, stops⟩ := ih nextBefore ((List.sublist_cons_self _ _).trans sub)
        (show left.length + 1 < fuel by omega) nextStands
      rw [fields] at all stops
      rw [advanced]
      dsimp only [bind, Except.bind]
      constructor
      · intro both
        rw [all both.2]
        rfl
      · intro some
        obtain ⟨reason, stopped⟩ := stops fun others => some ⟨own, others⟩
        rw [stopped]
        exact ⟨reason, rfl⟩
    · obtain ⟨reason, stopped⟩ := missing (Option.not_isSome_iff_eq_none.mp own)
      rw [stopped]
      exact ⟨fun both => absurd both.1 own, fun _ => ⟨reason, rfl⟩⟩

theorem SstCursor.Before.verifyRows (compresses : lz4.RoundTrips) (fits : BlocksFit lib lz4 blocks)
    (counted : blocks.flatten.length < 2 ^ 64) (faithful : Faithful lib same blocks.flatten)
    (sorted : SortedRows lib blocks.flatten) {left : List Json} {fuel : Nat} {first : Json}
    (before : cursor.Before lib lz4 target blocks left) (sub : left.Sublist blocks.flatten)
    (enough : left.length + 1 < fuel) (isRow : first ∈ blocks.flatten)
    (standing : cursor.current = some (rowPair lib first))
    (found : ∀ row ∈ left, (idFound cursor.indexFields row).isSome = true) :
    verifyRows lib lz4 fuel cursor = .ok () := by
  induction left generalizing cursor fuel first with
  | nil =>
    obtain ⟨fuel, rfl⟩ : ∃ next, fuel = next + 2 := ⟨fuel - 2, by simp at enough; omega⟩
    obtain ⟨back, decoded, -⟩ := faithful.decodes first (.inl isRow)
    rw [Sst.verifyRows, standing]
    dsimp only [rowPair]
    rw [materialize, decoded]
    dsimp only [bind, Except.bind]
    rw [before.advance_nil counted fits]
    rfl
  | cons row left ih =>
    obtain ⟨fuel, rfl⟩ : ∃ next, fuel = next + 1 := ⟨fuel - 1, by omega⟩
    rw [List.length_cons] at enough
    have order := (sorted.sorted.sublist sub)
    obtain ⟨own, others⟩ := List.forall_mem_cons.mp found
    obtain ⟨back, decoded, -⟩ := faithful.decodes first (.inl isRow)
    obtain ⟨next, advanced, nextBefore, nextStands, fields⟩ := (before.advance_cons compresses fits
      faithful sorted (sub.subset (.head _)) (List.pairwise_cons.mp order).1).2 own
    rw [Sst.verifyRows, standing]
    dsimp only [rowPair]
    rw [materialize, decoded]
    dsimp only [bind, Except.bind]
    rw [advanced]
    refine ih nextBefore ((List.sublist_cons_self _ _).trans sub) (by omega) (sub.subset (.head _))
      nextStands ?_
    rw [fields]
    exact others

theorem before_open (indexFields : Bool) :
    SstCursor.Before lib lz4 target blocks
      { file := sstBytes lib lz4 target blocks, indexFields
        header := ⟨blocks.flatten.length, indexOffset lib lz4 blocks, blocks.length⟩
        position := kSstHeaderBytes } blocks.flatten := by
  refine ⟨⟨[], blocks, ⟨rfl, rfl, ⟨[], rfl, rfl, rfl⟩, rfl, ?_, rfl⟩, rfl⟩, fun known => absurd rfl known⟩
  dsimp only
  rw [List.length_nil, Nat.zero_add, Nat.zero_add]

/-- What opening a cursor does. -/
theorem open_eq (fits : BlocksFit lib lz4 blocks) (few : blocks.length ≤ kMaxBlocks)
    (counted : blocks.flatten.length < 2 ^ 64) (indexFields : Bool) :
    SstCursor.open lib lz4 indexFields (sstBytes lib lz4 target blocks) = SstCursor.advance lib lz4
      { file := sstBytes lib lz4 target blocks, indexFields
        header := ⟨blocks.flatten.length, indexOffset lib lz4 blocks, blocks.length⟩
        position := kSstHeaderBytes } := by
  have limit : kMaxBlocks < 256 ^ 4 := by decide
  have count : blocks.length % 256 ^ 4 = blocks.length := Nat.mod_eq_of_lt (by omega)
  have rows : blocks.flatten.length % 256 ^ 8 = blocks.flatten.length := Nat.mod_eq_of_lt counted
  rw [SstCursor.open, parse_sstBytes fits (by rw [count]; omega), count, rows]

theorem cursorRows_iff (compresses : lz4.RoundTrips) (fits : BlocksFit lib lz4 blocks)
    (few : blocks.length ≤ kMaxBlocks) (counted : blocks.flatten.length + 1 < kMaxRows)
    (faithful : Faithful lib same blocks.flatten) (sorted : SortedRows lib blocks.flatten)
    (indexFields : Bool) :
    cursorRows lib lz4 indexFields (sstBytes lib lz4 target blocks) =
        .ok (blocks.flatten.map (rowPair lib)) ↔
      ∀ row ∈ blocks.flatten, (idFound indexFields row).isSome = true := by
  have small : blocks.flatten.length < 2 ^ 64 := by
    have limit : kMaxRows = 2 ^ 64 := rfl
    omega
  have before := @before_open lib lz4 target blocks indexFields
  rw [cursorRows, open_eq fits few small]
  cases all : blocks.flatten with
  | nil =>
    rw [all] at before
    rw [before.advance_nil small fits]
    exact iff_of_true rfl nofun
  | cons row left =>
    have sub : left.Sublist blocks.flatten := by
      rw [all]
      exact List.sublist_cons_self _ _
    have isRow : row ∈ blocks.flatten := by
      rw [all]
      exact .head _
    have order := sorted.sorted
    rw [all] at before order
    obtain ⟨missing, found⟩ := before.advance_cons compresses fits faithful sorted isRow
      (List.pairwise_cons.mp order).1
    rw [List.forall_mem_cons]
    by_cases own : (idFound indexFields row).isSome = true
    · obtain ⟨next, advanced, nextBefore, nextStands, fields⟩ := found own
      have enough : left.length + 1 < kMaxRows := by
        rw [all, List.length_cons] at counted
        omega
      obtain ⟨reads, stops⟩ := nextBefore.rows compresses fits small faithful sorted sub enough nextStands
      rw [fields] at reads stops
      rw [advanced]
      dsimp only [bind, Except.bind]
      constructor
      · intro read
        refine ⟨own, ?_⟩
        by_contra some
        obtain ⟨reason, stopped⟩ := stops some
        rw [stopped] at read
        cases read
      · rintro ⟨-, others⟩
        rw [reads others]
        rfl
    · obtain ⟨reason, stopped⟩ := missing (Option.not_isSome_iff_eq_none.mp own)
      rw [stopped]
      exact iff_of_false nofun fun both => own both.1

theorem verifySst_ok (compresses : lz4.RoundTrips) (fits : BlocksFit lib lz4 blocks)
    (few : blocks.length ≤ kMaxBlocks) (counted : blocks.flatten.length + 1 < kMaxRows)
    (faithful : Faithful lib same blocks.flatten) (sorted : SortedRows lib blocks.flatten)
    (found : ∀ row ∈ blocks.flatten, (idFound false row).isSome = true) :
    verifySst lib lz4 (sstBytes lib lz4 target blocks) = .ok () := by
  have small : blocks.flatten.length < 2 ^ 64 := by
    have limit : kMaxRows = 2 ^ 64 := rfl
    omega
  have before := @before_open lib lz4 target blocks false
  obtain ⟨cursor, opened, verified⟩ : ∃ cursor,
      SstCursor.open lib lz4 false (sstBytes lib lz4 target blocks) = .ok cursor ∧
        verifyRows lib lz4 kMaxRows cursor = .ok () := by
    rw [open_eq fits few small]
    cases all : blocks.flatten with
    | nil =>
      rw [all] at before
      refine ⟨_, before.advance_nil small fits, ?_⟩
      rfl
    | cons row left =>
      have sub : left.Sublist blocks.flatten := by
        rw [all]
        exact List.sublist_cons_self _ _
      have isRow : row ∈ blocks.flatten := by
        rw [all]
        exact .head _
      have order := sorted.sorted
      rw [all] at before order found
      obtain ⟨own, others⟩ := List.forall_mem_cons.mp found
      obtain ⟨next, advanced, nextBefore, nextStands, fields⟩ := (before.advance_cons compresses fits
        faithful sorted isRow (List.pairwise_cons.mp order).1).2 own
      have enough : left.length + 1 < kMaxRows := by
        rw [all, List.length_cons] at counted
        omega
      refine ⟨next, advanced, nextBefore.verifyRows compresses fits small faithful sorted sub enough isRow
        nextStands ?_⟩
      rw [fields]
      exact others
  have limit : kMaxBlocks < 256 ^ 4 := by decide
  have count : blocks.length % 256 ^ 4 = blocks.length := Nat.mod_eq_of_lt (by omega)
  have index := length_writeIndex_ge (blockEntries lib lz4 kSstHeaderBytes blocks)
  have size : (sstBytes lib lz4 target blocks).length = indexOffset lib lz4 blocks +
      (writeIndex (blockEntries lib lz4 kSstHeaderBytes blocks)).length := by
    rw [sstBytes, List.length_append, List.length_append, length_writeHeader, indexOffset, Nat.add_assoc]
  rw [verifySst, opened]
  dsimp only [bind, Except.bind]
  rw [verified]
  dsimp only
  rw [parse_sstBytes fits (by rw [count]; omega)]
  dsimp only
  rw [if_neg (by omega), drop_indexOffset, take_writeIndex, drop_writeIndex, count_indexBody]
  dsimp only
  rw [if_neg]
  rw [not_or, not_or, not_not, not_not, not_not, length_blockEntries]
  exact ⟨magic_indexBody _, rfl, crc_indexBody _⟩

end File

/-! ## The round trip -/

variable {same : Json → Json → Prop} {rows : List Json} {file : Bytes}
  {capacity targetBlockBytes : Nat}

/-- The rows of what was written. -/
theorem blocksFit_sstBlocks (fits : ∀ row ∈ rows, (writeMsgpack lib row).length ≤ kMaxFieldBytes)
    (faithful : Faithful lib same rows)
    (room : (sstBytes lib lz4 (clampTarget targetBlockBytes)
      (sstBlocks lib targetBlockBytes rows)).length < 2 ^ 63) :
    BlocksFit lib lz4 (sstBlocks lib targetBlockBytes rows) := by
  have all : (sstBlocks lib targetBlockBytes rows).flatten = rows := flatten_cutBlocks _ [] rows
  have inRows : ∀ block ∈ sstBlocks lib targetBlockBytes rows, ∀ row ∈ block, row ∈ rows := by
    intro block member row inBlock
    rw [← all]
    exact List.mem_flatten.mpr ⟨block, member, inBlock⟩
  have bounded := @cutBlocks_bounded lib (clampTarget targetBlockBytes) [] rows fits (Nat.zero_le _)
  refine ⟨?_, ?_, ?_, ?_, ?_⟩
  · exact fun block member row inBlock => fits row (inRows block member row inBlock)
  · exact fun block member => (bounded block member).1
  · intro block member
    have size := (bounded block member).2
    have target : clampTarget targetBlockBytes ≤ 16384 := by
      rw [clampTarget]
      omega
    have limit : max 16384 (4 + kMaxFieldBytes) ≤ kMaxFieldBytes * 4 := by decide
    omega
  · exact fun block member row inBlock => faithful.textFits row (inRows block member row inBlock)
      (fits row (inRows block member row inBlock))
  · rw [sstBytes, List.length_append, List.length_append, length_writeHeader] at room
    rw [indexOffset]
    omega

theorem idFound_indexed {row : Json} (named : rowId lib row ≠ "") :
    (idFound true row).isSome = true ↔ (Lsm.MsgpackRowView.mk row true).indexValid = true := by
  rw [idFound]
  cases valid : (Lsm.MsgpackRowView.mk row true).indexValid with
  | true =>
    refine iff_of_true ?_ rfl
    rw [Lsm.MsgpackRowView.field_of_valid valid]
    cases found : row.field? "id" with
    | some id => rfl
    | none =>
      rw [rowId, docId?, found] at named
      exact absurd rfl named
  | false =>
    refine iff_of_false ?_ Bool.false_ne_true
    rw [Lsm.MsgpackRowView.field_of_invalid valid]
    exact Bool.false_ne_true

/-- What a written file has to keep to for every reader: no row nests too deep, there are
not too many blocks, and the text of the ids at their edges is not too long. -/
structure Readable (lib : JsonLibrary) (targetBlockBytes : Nat) (rows : List Json) : Prop where
  flat : ∀ row ∈ rows, (Lsm.MsgpackRowView.mk row true).indexValid = true
  blocks : (sstBlocks lib targetBlockBytes rows).length ≤ kMaxBlocks
  edges : EdgesFit lib (sstBlocks lib targetBlockBytes rows)

theorem length_flatten_le {blocks : List (List Json)} (fits : BlocksFit lib lz4 blocks) :
    blocks.flatten.length ≤ blocks.length * (kMaxFieldBytes * 4) := by
  have each : ∀ block ∈ blocks, block.length ≤ kMaxFieldBytes * 4 := by
    intro block member
    have atLeast := length_le_flatMap fun row (_ : row ∈ block) =>
      List.append_ne_nil_of_right_ne_nil (leBytes 4 (writeMsgpack lib row).length)
        (@writeMsgpack_ne_nil lib row)
    exact le_trans atLeast (fits.plain block member)
  clear fits
  induction blocks with
  | nil => exact Nat.zero_le _
  | cons block blocks ih =>
    obtain ⟨first, later⟩ := List.forall_mem_cons.mp each
    have rest := ih later
    rw [List.flatten_cons, List.length_append, List.length_cons, Nat.succ_mul]
    omega

theorem counted_of_few {blocks : List (List Json)} (fits : BlocksFit lib lz4 blocks)
    (few : blocks.length ≤ kMaxBlocks) : blocks.flatten.length + 1 < kMaxRows := by
  have rows := length_flatten_le fits
  have most := Nat.mul_le_mul_right (kMaxFieldBytes * 4) few
  have limit : kMaxBlocks * (kMaxFieldBytes * 4) + 1 < kMaxRows := by decide
  omega

/-- A file whose rows are all readable reads back. -/
theorem readsBack_of_readable (compresses : lz4.RoundTrips) (faithful : Faithful lib same rows)
    (sorted : SortedRows lib rows) (limited : capacity < 2 ^ 63)
    (written : writeSst lib lz4 capacity targetBlockBytes rows = .ok file)
    (readable : Readable lib targetBlockBytes rows) : ReadsBack lib lz4 same rows file := by
  obtain ⟨fitsRow, rfl, room⟩ := writeSst_ok written
  have fits := blocksFit_sstBlocks fitsRow faithful (room.trans_lt limited)
  have counted := counted_of_few fits readable.blocks
  have all : (sstBlocks lib targetBlockBytes rows).flatten = rows := flatten_cutBlocks _ [] rows
  have found : ∀ indexed, ∀ row ∈ rows, (idFound indexed row).isSome = true := by
    intro indexed row member
    have indexedRow := (idFound_indexed (sorted.named row member)).mpr (readable.flat row member)
    rw [idFound, Lsm.MsgpackRowView.field_of_valid (readable.flat row member)] at indexedRow ⊢
    exact indexedRow
  have faithfulBlocks : Faithful lib same (sstBlocks lib targetBlockBytes rows).flatten := by
    rw [all]
    exact faithful
  have sortedBlocks : SortedRows lib (sstBlocks lib targetBlockBytes rows).flatten := by
    rw [all]
    exact sorted
  refine ⟨?_, ?_, fun indexFields => ?_⟩
  · apply verifySst_ok compresses fits readable.blocks counted faithfulBlocks sortedBlocks
    rw [all]
    exact found false
  · have scanned := @scanSst_ok lib lz4 (clampTarget targetBlockBytes) _ same compresses fits
      readable.blocks readable.edges fun block member row inBlock => faithfulBlocks.decodes row
        (.inl (List.mem_flatten.mpr ⟨block, member, inBlock⟩))
    rw [all] at scanned
    exact scanned
  · have read := (@cursorRows_iff lib lz4 (clampTarget targetBlockBytes) _ same compresses fits
      readable.blocks counted faithfulBlocks sortedBlocks indexFields).mpr (by
        rw [all]
        exact found indexFields)
    rw [all] at read
    exact read

theorem readable_of_readsBack (compresses : lz4.RoundTrips) (faithful : Faithful lib same rows)
    (sorted : SortedRows lib rows) (limited : capacity < 2 ^ 63)
    (written : writeSst lib lz4 capacity targetBlockBytes rows = .ok file)
    (reads : ReadsBack lib lz4 same rows file) : Readable lib targetBlockBytes rows := by
  obtain ⟨fitsRow, rfl, room⟩ := writeSst_ok written
  have fits := blocksFit_sstBlocks fitsRow faithful (room.trans_lt limited)
  have all : (sstBlocks lib targetBlockBytes rows).flatten = rows := flatten_cutBlocks _ [] rows
  obtain ⟨few, edges⟩ : (sstBlocks lib targetBlockBytes rows).length ≤ kMaxBlocks ∧
      EdgesFit lib (sstBlocks lib targetBlockBytes rows) := by
    obtain ⟨back, scanned, -⟩ := reads.scanned
    rw [scanSst] at scanned
    cases loaded : loadMetadata (sstBytes lib lz4 (clampTarget targetBlockBytes)
        (sstBlocks lib targetBlockBytes rows)) with
    | error reason =>
      rw [loaded] at scanned
      cases scanned
    | ok found => exact loadMetadata_some fits loaded
  have counted := counted_of_few fits few
  have faithfulBlocks : Faithful lib same (sstBlocks lib targetBlockBytes rows).flatten := by
    rw [all]
    exact faithful
  have sortedBlocks : SortedRows lib (sstBlocks lib targetBlockBytes rows).flatten := by
    rw [all]
    exact sorted
  have found := (@cursorRows_iff lib lz4 (clampTarget targetBlockBytes) _ same compresses fits few counted
    faithfulBlocks sortedBlocks true).mp (by
      rw [all]
      exact reads.cursor true)
  rw [all] at found
  exact ⟨fun row member => (idFound_indexed (sorted.named row member)).mp (found row member), few, edges⟩

/-- What `writeSst` wrote is verified and read back by every reader, exactly when the rows
keep to limits of the readers that the writer does not check. -/
theorem readsBack_iff (compresses : lz4.RoundTrips) (faithful : Faithful lib same rows)
    (sorted : SortedRows lib rows) (limited : capacity < 2 ^ 63)
    (written : writeSst lib lz4 capacity targetBlockBytes rows = .ok file) :
    ReadsBack lib lz4 same rows file ↔ Readable lib targetBlockBytes rows :=
  ⟨readable_of_readsBack compresses faithful sorted limited written,
    readsBack_of_readable compresses faithful sorted limited written⟩

/-! ## A row that nests too deep -/

/-- LZ4 on bytes in which nothing repeats: one run of literals. -/
def literalsOnly : Lz4 where
  compress bytes :=
    if bytes.length < 15 then UInt8.ofNat (bytes.length * 16) :: bytes
    else if bytes.length < 15 + 255 then 0xf0 :: UInt8.ofNat (bytes.length - 15) :: bytes
    else []
  decompress bytes _ :=
    match bytes with
    | tag :: rest => some (if tag = 0xf0 then rest.drop 1 else rest)
    | [] => none

theorem literalsOnly_roundTrips : literalsOnly.RoundTrips := by
  intro bytes some
  have tags : ∀ size < 15, UInt8.ofNat (size * 16) ≠ 0xf0 := by decide
  dsimp only [literalsOnly] at some ⊢
  split at some
  next short => rw [if_pos short]; exact congrArg Option.some (if_neg (tags _ short))
  next long =>
    split at some
    next fits => rw [if_neg long, if_pos fits]; exact congrArg Option.some (if_pos rfl)
    next => exact absurd rfl some

/-- Numbers in arrays in arrays. -/
def countdown : Nat → Json
  | 0 => .array []
  | levels + 1 => .array [.unsigned levels, countdown levels]

def deepRow : Json := .object [("id", .string "a"), ("x", countdown 65)]

def flatRow : Json := .object [("id", .string "a"), ("x", countdown 2)]

/-- A library that decodes nothing. -/
def emptyLibrary : JsonLibrary where
  fromMsgpack _ := none
  dump _ := ""
  narrow _ := none
  widen bits := bits

def longMembers : List (String × Json) :=
  [("id", .string "a"), ("version", .unsigned 3), ("x", .array (List.replicate 4096 .null))]

/-- A row that fills a block. -/
def longRow : Json := .object longMembers

def oldRow : Json := .object [("id", .string "a"), ("version", .unsigned 2)]

def otherRow : Json := .object [("id", .string "b"), ("version", .unsigned 1)]

/-- A row whose version no indexed view shows. -/
def hiddenRow : Json := .object [("id", .string "a"), ("version", .unsigned 5), ("x", countdown 65)]

def shortRows : List Json := [deepRow, hiddenRow, flatRow, oldRow, otherRow]

/-- Values to decode: the rows and their ids. -/
def tableValues : List Json := longRow :: (shortRows ++ [.string "a", .string "b"])

def tableLibrary : JsonLibrary where
  fromMsgpack bytes := tableValues.find? fun value => writeMsgpack emptyLibrary value == bytes
  dump _ := ""
  narrow _ := none
  widen bits := bits

/-- Two values that differ at most in the storage class of a number. -/
def SameStored (value back : Json) : Prop := back = value ∨ back = stored tableLibrary value

theorem sameStored_object {row back : Json} (object : row.isObject = true)
    (isSame : SameStored row back) : back = row := by
  cases row with
  | object members => rcases isSame with rfl | rfl <;> rfl
  | _ => cases object

theorem find?_of_apart {κ : Type} [BEq κ] [LawfulBEq κ] {key : Json → κ} {values : List Json}
    (apart : values.Pairwise fun value other => key value ≠ key other) {value : Json}
    (member : value ∈ values) : values.find? (fun other => key other == key value) = some value := by
  induction values with
  | nil => cases member
  | cons first values ih =>
    obtain ⟨differs, apart⟩ := List.pairwise_cons.mp apart
    rcases List.mem_cons.mp member with rfl | later
    · exact List.find?_cons_of_pos (beq_self_eq_true _)
    · rw [List.find?_cons_of_neg (by simpa using differs value later), ih apart later]

/-- The bytes of the long row up to its nulls. -/
def longFront : Bytes := [0x83, 0xa2, 0x69, 0x64, 0xa1, 0x61, 0xa7, 0x76, 0x65, 0x72, 0x73, 0x69, 0x6f,
  0x6e, 3, 0xa1, 0x78, 0xdc, 0x10, 0x00]

theorem flatMap_nulls (count : Nat) :
    (List.replicate count Json.null).flatMap (writeMsgpack lib) = List.replicate count 0xc0 := by
  induction count with
  | zero => rfl
  | succ count ih =>
    rw [List.replicate_succ, List.flatMap_cons, ih]
    rfl

theorem sorted_longMembers : sortMembers longMembers = longMembers := rfl

theorem writeMsgpack_longRow : writeMsgpack lib longRow = longFront ++ List.replicate 4096 0xc0 := by
  rw [longRow, writeMsgpack_object, sorted_longMembers, longMembers, List.flatMap_cons, List.flatMap_cons, List.flatMap_singleton]
  simp only [writeMember, writeMsgpack, writeItems_eq, List.length_replicate, flatMap_nulls]
  generalize List.replicate 4096 (0xc0 : UInt8) = nulls
  rfl

theorem length_longRow : (writeMsgpack lib longRow).length = 4116 := by
  rw [writeMsgpack_longRow, List.length_append, List.length_replicate]
  rfl

theorem length_shortRows : ∀ row ∈ shortRows, (writeMsgpack tableLibrary row).length ≤ 256 := by
  decide +kernel

theorem decodes_table : ∀ value ∈ tableValues,
    tableLibrary.fromMsgpack (writeMsgpack tableLibrary value) = some value := by
  have bytes : ∀ value ∈ tableValues,
      writeMsgpack tableLibrary value = writeMsgpack emptyLibrary value := by
    refine List.forall_mem_cons.mpr ⟨?_, by decide +kernel⟩
    rw [writeMsgpack_longRow, writeMsgpack_longRow]
  have apart : tableValues.Pairwise fun value other =>
      writeMsgpack emptyLibrary value ≠ writeMsgpack emptyLibrary other := by
    refine List.pairwise_cons.mpr ⟨fun other member same => ?_, by decide⟩
    have short : ∀ value ∈ shortRows ++ [.string "a", .string "b"],
        (writeMsgpack emptyLibrary value).length ≤ 256 := by decide +kernel
    have long := @length_longRow emptyLibrary
    rw [same] at long
    have bound := short other member
    omega
  intro value member
  rw [bytes value member]
  exact find?_of_apart apart member

theorem objects_table : ∀ row ∈ longRow :: shortRows, row.isObject = true := by decide

theorem id_tableRows : ∀ row ∈ longRow :: shortRows,
    row.field? "id" = some (.string "a") ∨ row.field? "id" = some (.string "b") := by
  simp only [shortRows, List.forall_mem_cons]
  exact ⟨.inl rfl, .inl rfl, .inl rfl, .inl rfl, .inl rfl, .inr rfl, nofun⟩

theorem faithful_table {rows : List Json} (known : rows ⊆ longRow :: shortRows) :
    Faithful tableLibrary SameStored rows := by
  have short : ∀ row ∈ longRow :: shortRows, (utf8 (rowId tableLibrary row)).length < 2 ^ 32 := by
    decide
  refine ⟨?_, fun value => .inr rfl, ?_, fun row member _ => short row (known member)⟩
  · rintro value (member | ⟨row, member, found⟩)
    · have inTable : value ∈ longRow :: shortRows ++ [.string "a", .string "b"] :=
        List.mem_append_left _ (known member)
      exact ⟨value, decodes_table value inTable, .inl rfl⟩
    · rcases id_tableRows row (known member) with isId | isId
      all_goals
        rw [isId] at found
        cases found
        exact ⟨_, decodes_table _ (by simp [tableValues]), .inl rfl⟩
  · rintro value back (rfl | rfl)
    · rfl
    · cases value with
      | integer value =>
        rw [stored]
        split <;> rfl
      | _ => rfl

/-- The row is written, and the file does not read back. -/
theorem readsBack_not_deep : ∃ file,
    writeSst tableLibrary literalsOnly (2 ^ 40) 4096 [deepRow] = .ok file ∧
      ¬ReadsBack tableLibrary literalsOnly SameStored [deepRow] file := by
  have isOk : (writeSst tableLibrary literalsOnly (2 ^ 40) 4096 [deepRow]).isOk = true := by
    decide +kernel
  cases written : writeSst tableLibrary literalsOnly (2 ^ 40) 4096 [deepRow] with
  | error reason =>
    rw [written] at isOk
    cases isOk
  | ok file =>
    refine ⟨file, rfl, fun reads => ?_⟩
    have sorted : SortedRows tableLibrary [deepRow] :=
      ⟨by decide, by decide, List.pairwise_singleton _ _⟩
    have flat := (readable_of_readsBack literalsOnly_roundTrips (faithful_table (by simp [shortRows]))
      sorted (by decide) written reads).flat deepRow (.head _)
    have deep : (Lsm.MsgpackRowView.mk deepRow true).indexValid = false := by decide +kernel
    rw [deep] at flat
    cases flat

/-- Three blocks, the first two and part of the third with rows of one id. -/
def threeBlocks : List Json := [flatRow, longRow, oldRow, otherRow]

theorem mem_threeBlocks {row : Json} (member : row ∈ threeBlocks) : row = longRow ∨ row ∈ shortRows := by
  simp only [threeBlocks, shortRows, List.mem_cons] at member ⊢
  tauto

theorem sstBlocks_threeBlocks :
    sstBlocks tableLibrary 4096 threeBlocks = [[flatRow], [longRow], [oldRow, otherRow]] := by
  have target : clampTarget 4096 = 4096 := by decide
  have old : (blockPlain tableLibrary [oldRow]).length + (4 + (writeMsgpack tableLibrary otherRow).length) ≤
      4096 := by decide
  have plain : (blockPlain tableLibrary [longRow]).length = 4 + 4116 := by
    rw [blockPlain, List.flatMap_singleton, encodeRow, List.length_append, length_leBytes, length_longRow]
  simp only [sstBlocks, threeBlocks, cutBlocks, List.length_cons, List.length_nil, Nat.lt_irrefl,
    false_and, if_false, List.nil_append, List.cons_append, target, plain, length_longRow]
  rw [if_pos (by omega), if_pos (by omega), if_neg (by omega)]

theorem valid_threeBlocks : ∀ row ∈ threeBlocks, (Lsm.MsgpackRowView.mk row true).indexValid = true := by
  have nulls : ∀ count, nestingItems (List.replicate count .null) ≤ 1 := by
    intro count
    induction count with
    | zero => exact Nat.zero_le _
    | succ count ih => exact max_le le_rfl ih
  have flat : skippable (.array (List.replicate 4096 .null)) = true :=
    decide_eq_true ((nulls 4096).trans (by decide))
  have long : (Lsm.MsgpackRowView.mk longRow true).indexValid = true := by
    rw [longRow, Lsm.MsgpackRowView.indexValid]
    dsimp only
    rw [sorted_longMembers, longMembers]
    simp only [List.all_cons, flat]
    rfl
  simp only [threeBlocks, List.forall_mem_cons]
  exact ⟨by decide, long, by decide, by decide, nofun⟩

theorem writeSst_threeBlocks :
    ∃ file, writeSst tableLibrary literalsOnly (2 ^ 40) 4096 threeBlocks = .ok file := by
  have limit : kMaxFieldBytes = 67108864 := by decide
  have fits : ∀ row ∈ threeBlocks, (writeMsgpack tableLibrary row).length ≤ kMaxFieldBytes := by
    intro row member
    rcases mem_threeBlocks member with rfl | short
    · rw [length_longRow]
      decide
    · have bound := length_shortRows row short
      omega
  refine ⟨_, (writeSst_eq fits).trans (if_neg ?_)⟩
  have plain : (blockPlain tableLibrary [longRow]).length = 4 + 4116 := by
    rw [blockPlain, List.flatMap_singleton, encodeRow, List.length_append, length_leBytes, length_longRow]
  have first : (blockPlain tableLibrary [flatRow]).length ≤ 256 := by decide
  have last : (blockPlain tableLibrary [oldRow, otherRow]).length ≤ 256 := by decide
  have keys : ∀ row ∈ threeBlocks, (keyOf tableLibrary (some row)).length ≤ 1 := by decide
  simp only [threeBlocks, List.forall_mem_cons] at keys
  have size := @length_sstBytes_le tableLibrary literalsOnly (clampTarget 4096)
    (sstBlocks tableLibrary 4096 threeBlocks)
  rw [sstBlocks_threeBlocks] at size ⊢
  simp only [List.map_cons, List.map_nil, List.sum_cons, List.sum_nil, List.head?_cons,
    List.getLast?_singleton, List.getLast?_cons_cons, plain] at size
  omega

theorem readsBack_flat : ∃ file,
    writeSst tableLibrary literalsOnly (2 ^ 40) 4096 threeBlocks = .ok file ∧
      ReadsBack tableLibrary literalsOnly SameStored threeBlocks file := by
  obtain ⟨file, written⟩ := writeSst_threeBlocks
  have sorted : SortedRows tableLibrary threeBlocks :=
    ⟨by decide, by decide, by decide⟩
  refine ⟨file, written, (readsBack_iff literalsOnly_roundTrips
    (faithful_table (by simp [threeBlocks, shortRows])) sorted (by decide) written).mpr
      ⟨valid_threeBlocks, ?_, ?_⟩⟩
  · rw [sstBlocks_threeBlocks]
    decide
  · rw [sstBlocks_threeBlocks]
    unfold EdgesFit
    decide

end PacificDb.Sst
