import PacificDb.Sst.File

/-!
# The layout of an SST

What `writeSst` leaves in the file, without its loop: the rows cut into blocks, the
bytes of every block, and the index over them (`writeSst_ok`).
-/

namespace PacificDb.Sst

open Lib
open Lsm hiding MsgpackRowView scanSst verifySst verifyRows idText

variable {lib : JsonLibrary} {lz4 : Lz4}

/-! ## Blocks -/

def encodeRow (lib : JsonLibrary) (row : Json) : Bytes :=
  leBytes 4 (writeMsgpack lib row).length ++ writeMsgpack lib row

/-- The plain bytes of a block. -/
def blockPlain (lib : JsonLibrary) (rows : List Json) : Bytes := rows.flatMap (encodeRow lib)

/-- A block as it stands in the file. -/
def blockBytes (lib : JsonLibrary) (lz4 : Lz4) (rows : List Json) : Bytes :=
  blockHeader lz4 (blockPlain lib rows) rows.length ++ storedData lz4 (blockPlain lib rows)

/-- The key of an optional row. -/
def keyOf (lib : JsonLibrary) (row : Option Json) : Bytes :=
  (row.map fun row => utf8 (rowId lib row)).getD []

def blockEntry (lib : JsonLibrary) (lz4 : Lz4) (offset : Nat) (rows : List Json) : BlockIndexEntry :=
  ⟨offset, (storedData lz4 (blockPlain lib rows)).length, (blockPlain lib rows).length, rows.length,
    keyOf lib rows.head?, keyOf lib rows.getLast?⟩

/-- The index entries of blocks that start at an offset. -/
def blockEntries (lib : JsonLibrary) (lz4 : Lz4) : Nat → List (List Json) → List BlockIndexEntry
  | _, [] => []
  | offset, rows :: blocks => blockEntry lib lz4 offset rows ::
      blockEntries lib lz4 (offset + (blockBytes lib lz4 rows).length) blocks

/-- The rows cut into blocks, behind the rows of the block that is being filled. -/
def cutBlocks (lib : JsonLibrary) (target : Nat) : List Json → List Json → List (List Json)
  | [], [] => []
  | block, [] => [block]
  | block, row :: rows =>
      if 0 < block.length ∧
          target < (blockPlain lib block).length + (4 + (writeMsgpack lib row).length) then
        block :: cutBlocks lib target [row] rows
      else cutBlocks lib target (block ++ [row]) rows

/-- The blocks of an SST. -/
def sstBlocks (lib : JsonLibrary) (targetBlockBytes : Nat) (rows : List Json) : List (List Json) :=
  cutBlocks lib (clampTarget targetBlockBytes) [] rows

/-- The file of these blocks. -/
def sstBytes (lib : JsonLibrary) (lz4 : Lz4) (target : Nat) (blocks : List (List Json)) : Bytes :=
  writeHeader target blocks.flatten.length
      (kSstHeaderBytes + (blocks.flatMap (blockBytes lib lz4)).length) blocks.length ++
    (blocks.flatMap (blockBytes lib lz4) ++ writeIndex (blockEntries lib lz4 kSstHeaderBytes blocks))

/-! ## The writer -/

/-- The writer has written the blocks `done` and filled the rows `block`. -/
structure Writer.Holds (lib : JsonLibrary) (lz4 : Lz4) (w : Writer) (done : List (List Json))
    (block : List Json) : Prop where
  out : w.out = List.replicate kSstHeaderBytes 0 ++ done.flatMap (blockBytes lib lz4)
  index : w.index = blockEntries lib lz4 kSstHeaderBytes done
  plain : w.block = blockPlain lib block
  firstKey : w.firstKey = keyOf lib block.head?
  lastKey : w.lastKey = keyOf lib block.getLast?
  blockRows : w.blockRows = block.length
  rows : w.rows = done.flatten.length + block.length

theorem blockEntries_append (offset : Nat) (blocks : List (List Json)) (rows : List Json) :
    blockEntries lib lz4 offset (blocks ++ [rows]) = blockEntries lib lz4 offset blocks ++
      [blockEntry lib lz4 (offset + (blocks.flatMap (blockBytes lib lz4)).length) rows] := by
  induction blocks generalizing offset with
  | nil => rfl
  | cons block blocks ih =>
    rw [List.cons_append, blockEntries, ih, blockEntries, List.flatMap_cons, List.length_append,
      Nat.add_assoc]
    rfl

theorem length_blockEntries (offset : Nat) (blocks : List (List Json)) :
    (blockEntries lib lz4 offset blocks).length = blocks.length := by
  induction blocks generalizing offset with
  | nil => rfl
  | cons block blocks ih => rw [blockEntries, List.length_cons, ih, List.length_cons]

theorem holds_flushBlock {w : Writer} {done : List (List Json)} {block : List Json}
    (holds : w.Holds lib lz4 done block) (some : block ≠ []) :
    (flushBlock lz4 w).Holds lib lz4 (done ++ [block]) [] := by
  have rows : w.blockRows ≠ 0 := by
    rw [holds.blockRows]
    exact (List.length_pos_iff.mpr some).ne'
  rw [flushBlock, if_neg rows]
  refine ⟨?_, ?_, rfl, rfl, rfl, rfl, ?_⟩
  · dsimp only
    rw [List.flatMap_append, List.flatMap_singleton, holds.out, holds.plain, holds.blockRows,
      List.append_assoc]
    rfl
  · dsimp only
    rw [blockEntries_append, holds.index, holds.out, holds.plain, holds.blockRows, holds.firstKey,
      holds.lastKey, List.length_append, List.length_replicate]
    rfl
  · dsimp only
    rw [holds.rows, List.flatten_append, List.length_append, List.flatten_singleton]
    rfl

theorem holds_push {w : Writer} {done : List (List Json)} {block : List Json} {row : Json}
    (holds : w.Holds lib lz4 done block) :
    Writer.Holds lib lz4 { w with
      firstKey := if w.blockRows = 0 then utf8 (rowId lib row) else w.firstKey
      lastKey := utf8 (rowId lib row)
      block := w.block ++ (leBytes 4 (writeMsgpack lib row).length ++ writeMsgpack lib row)
      blockRows := w.blockRows + 1
      rows := w.rows + 1 } done (block ++ [row]) := by
  refine ⟨holds.out, holds.index, ?_, ?_, ?_, ?_, ?_⟩
  · dsimp only
    rw [holds.plain, blockPlain, blockPlain, List.flatMap_append, List.flatMap_singleton]
    rfl
  · dsimp only
    rw [holds.firstKey, holds.blockRows]
    cases block with
    | nil => rfl
    | cons first rest => rfl
  · dsimp only
    rw [List.getLast?_concat]
    rfl
  · dsimp only
    rw [holds.blockRows, List.length_append]
    rfl
  · dsimp only
    rw [holds.rows, List.length_append, List.length_singleton, Nat.add_assoc]

/-- The loop cuts the rows into blocks, if every row fits. -/
theorem holds_foldlM {target : Nat} {rows : List Json} {w filled : Writer} {done : List (List Json)}
    {block : List Json} (holds : w.Holds lib lz4 done block)
    (added : rows.foldlM (addRow lib lz4 target) w = .ok filled) :
    (∀ row ∈ rows, (writeMsgpack lib row).length ≤ kMaxFieldBytes) ∧
      ((flushBlock lz4 filled).Holds lib lz4 (done ++ cutBlocks lib target block rows) []) := by
  induction rows generalizing w done block with
  | nil =>
    obtain rfl : w = filled := Except.ok.inj added
    refine ⟨nofun, ?_⟩
    cases block with
    | nil =>
      have none : w.blockRows = 0 := holds.blockRows
      rw [flushBlock, if_pos none, cutBlocks, List.append_nil]
      exact holds
    | cons row rest =>
      rw [cutBlocks]
      · exact holds_flushBlock holds (List.cons_ne_nil _ _)
      · exact nofun
  | cons row rows ih =>
    rw [List.foldlM_cons] at added
    cases first : addRow lib lz4 target w row with
    | error reason =>
      rw [first] at added
      cases added
    | ok next =>
      rw [first] at added
      change rows.foldlM (addRow lib lz4 target) next = .ok filled at added
      rw [addRow] at first
      dsimp only at first
      split at first
      · cases first
      next fits =>
        rw [not_or, Nat.not_lt] at fits
        rw [cutBlocks, ← holds.plain, ← holds.blockRows]
        split at first
        next full =>
          have some : block ≠ [] := by
            rintro rfl
            exact absurd full.1 (by rw [holds.blockRows]; decide)
          rw [if_pos full]
          cases first
          obtain ⟨others, final⟩ := ih (holds_push (holds_flushBlock holds some)) added
          rw [List.append_assoc] at final
          exact ⟨List.forall_mem_cons.mpr ⟨fits.2, others⟩, final⟩
        next room =>
          rw [if_neg room]
          cases first
          obtain ⟨others, final⟩ := ih (holds_push holds) added
          exact ⟨List.forall_mem_cons.mpr ⟨fits.2, others⟩, final⟩

/-- A row that fits is added. -/
theorem foldlM_addRow {target : Nat} {rows : List Json}
    (fits : ∀ row ∈ rows, (writeMsgpack lib row).length ≤ kMaxFieldBytes) (w : Writer) :
    ∃ filled, rows.foldlM (addRow lib lz4 target) w = .ok filled := by
  induction rows generalizing w with
  | nil => exact ⟨w, rfl⟩
  | cons row rows ih =>
    obtain ⟨first, later⟩ := List.forall_mem_cons.mp fits
    have packed : ¬((writeMsgpack lib row).isEmpty = true ∨
        kMaxFieldBytes < (writeMsgpack lib row).length) := by
      rw [List.isEmpty_iff, not_or, Nat.not_lt]
      exact ⟨writeMsgpack_ne_nil row, first⟩
    rw [List.foldlM_cons, addRow]
    dsimp only
    rw [if_neg packed]
    exact ih later _

/-- What `writeSst` does with rows that fit. -/
theorem writeSst_eq {capacity targetBlockBytes : Nat} {rows : List Json}
    (fits : ∀ row ∈ rows, (writeMsgpack lib row).length ≤ kMaxFieldBytes) :
    writeSst lib lz4 capacity targetBlockBytes rows =
      if capacity < (sstBytes lib lz4 (clampTarget targetBlockBytes)
          (sstBlocks lib targetBlockBytes rows)).length then .error "cannot write SST block index"
      else .ok (sstBytes lib lz4 (clampTarget targetBlockBytes) (sstBlocks lib targetBlockBytes rows)) := by
  obtain ⟨filled, looped⟩ := @foldlM_addRow lib lz4 (clampTarget targetBlockBytes) rows fits
    { out := List.replicate kSstHeaderBytes 0 }
  have start : Writer.Holds lib lz4 { out := List.replicate kSstHeaderBytes 0 } [] [] :=
    ⟨(List.append_nil _).symm, rfl, rfl, rfl, rfl, rfl, rfl⟩
  have final := (holds_foldlM start looped).2
  rw [List.nil_append, ← sstBlocks] at final
  have file : writeHeader (clampTarget targetBlockBytes) (flushBlock lz4 filled).rows
        (flushBlock lz4 filled).out.length (flushBlock lz4 filled).index.length ++
      ((flushBlock lz4 filled).out.drop kSstHeaderBytes ++ writeIndex (flushBlock lz4 filled).index) =
      sstBytes lib lz4 (clampTarget targetBlockBytes) (sstBlocks lib targetBlockBytes rows) := by
    rw [final.index, final.out, final.rows, length_blockEntries, List.length_append,
      List.length_replicate, List.drop_left' (List.length_replicate ..)]
    rfl
  unfold writeSst
  dsimp only
  rw [looped]
  dsimp only [bind, Except.bind]
  rw [file]
  rfl

/-- What `writeSst` leaves: every row fits, and the file has the layout of its blocks. -/
theorem writeSst_ok {capacity targetBlockBytes : Nat} {rows : List Json} {file : Bytes}
    (written : writeSst lib lz4 capacity targetBlockBytes rows = .ok file) :
    (∀ row ∈ rows, (writeMsgpack lib row).length ≤ kMaxFieldBytes) ∧
      file = sstBytes lib lz4 (clampTarget targetBlockBytes) (sstBlocks lib targetBlockBytes rows) ∧
      file.length ≤ capacity := by
  have fits : ∀ row ∈ rows, (writeMsgpack lib row).length ≤ kMaxFieldBytes := by
    cases looped : rows.foldlM (addRow lib lz4 (clampTarget targetBlockBytes))
        { out := List.replicate kSstHeaderBytes 0 } with
    | error reason =>
      unfold writeSst at written
      dsimp only at written
      rw [looped] at written
      cases written
    | ok filled =>
      have start : Writer.Holds lib lz4 { out := List.replicate kSstHeaderBytes 0 } [] [] :=
        ⟨(List.append_nil _).symm, rfl, rfl, rfl, rfl, rfl, rfl⟩
      exact (holds_foldlM start looped).1
  rw [writeSst_eq fits] at written
  split at written
  · cases written
  next room =>
    cases written
    exact ⟨fits, rfl, Nat.le_of_not_lt room⟩

/-! ## The blocks -/

theorem flatten_cutBlocks (target : Nat) (block rows : List Json) :
    (cutBlocks lib target block rows).flatten = block ++ rows := by
  induction rows generalizing block with
  | nil => cases block <;> simp [cutBlocks]
  | cons row rows ih =>
    rw [cutBlocks]
    split
    · rw [List.flatten_cons, ih]
      rfl
    · rw [ih, List.append_assoc]
      rfl

/-- Every block has rows, and not more bytes than the target or one row. -/
theorem cutBlocks_bounded {target : Nat} {block rows : List Json}
    (fits : ∀ row ∈ rows, (writeMsgpack lib row).length ≤ kMaxFieldBytes)
    (bounded : (blockPlain lib block).length ≤ max target (4 + kMaxFieldBytes)) :
    ∀ cut ∈ cutBlocks lib target block rows,
      cut ≠ [] ∧ (blockPlain lib cut).length ≤ max target (4 + kMaxFieldBytes) := by
  induction rows generalizing block with
  | nil =>
    cases block with
    | nil => exact nofun
    | cons row rest =>
      intro cut member
      rw [cutBlocks] at member
      · rw [List.mem_singleton.mp member]
        exact ⟨List.cons_ne_nil _ _, bounded⟩
      · exact nofun
  | cons row rows ih =>
    obtain ⟨first, later⟩ := List.forall_mem_cons.mp fits
    have encoded : (encodeRow lib row).length = 4 + (writeMsgpack lib row).length := by
      rw [encodeRow, List.length_append, length_leBytes]
    intro cut member
    rw [cutBlocks] at member
    split at member
    next full =>
      rcases List.mem_cons.mp member with rfl | others
      · exact ⟨List.length_pos_iff.mp full.1, bounded⟩
      · refine ih later ?_ cut others
        rw [blockPlain, List.flatMap_singleton, encoded]
        omega
    next room =>
      refine ih later ?_ cut member
      rw [blockPlain, List.flatMap_append, List.flatMap_singleton, List.length_append, ← blockPlain,
        encoded]
      rw [not_and, Nat.not_lt] at room
      cases block with
      | nil =>
        have none : (blockPlain lib []).length = 0 := rfl
        omega
      | cons head tail =>
        have fill := room (Nat.succ_pos _)
        omega

end PacificDb.Sst
