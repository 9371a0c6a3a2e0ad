import PacificDb.Lib.Bitmap
import PacificDb.Lsm.PointReads
import PacificDb.Sst.Find

/-!
# Bloom sidecars

`buildBloom` writes the bits of the keys of an SST behind a header of 48 bytes, and
`mapBloom` reads them back unless the header or the checksum is off. A sidecar answers
as the filter of its keys (`bloomMayContain_buildBloom`), and so never excludes one.

The keys are the ids of the rows that a scan of the file decodes. A row without an id
has no key: with the sidecar it is not found under the empty id, under which `findInSst`
has it.

A sidecar is the list of its bytes. The cache of mapped sidecars is left out.
-/

namespace PacificDb.Sst

open Lib
open Lsm hiding MsgpackRowView scanSst verifySst verifyRows idText considerRow seekDocInSSTById
  mayExistInSST buildBloom bloomMayContain bloomBits

variable {lib : JsonLibrary} {lz4 : Lz4}

def kBloomMagic : Bytes := [80, 68, 66, 66, 76, 77, 50, 0]

def kBloomHeaderBytes : Nat := 48

/-! ## The sidecar -/

/-- The bits of a key. -/
def bloomBits (hashes bitCount : Nat) (key : Bytes) : List Nat :=
  let first := fnv1a key 0x9e3779b97f4a7c15
  let second := fnv1a key 0xc2b2ae3d27d4eb4f ||| 1
  (List.range hashes).map fun i => (first + i * second) % 2 ^ 64 % bitCount

def bloomBitCount (keys : Nat) : Nat := max 64 ((keys * 10 % 2 ^ 64 + 63) % 2 ^ 64 / 64 * 64)

def bloomHeader (hashes bitCount keys words checksum : Nat) : Bytes :=
  kBloomMagic ++ (leBytes 4 kVersion ++ (leBytes 4 hashes ++ (leBytes 8 bitCount ++ (leBytes 8 keys ++
    (leBytes 8 words ++ (leBytes 4 checksum ++ leBytes 4 0))))))

/-- `buildBloom`: the sidecar it publishes. As for an SST, a stream fails past the largest
file. -/
def buildBloom (capacity : Nat) (keys : List Bytes) : Except String Bytes :=
  let bitCount := bloomBitCount keys.length
  let words := keys.foldl (fun words key => (bloomBits kBloomHashes bitCount key).foldl Bitmap.setBit words)
    (List.replicate (bitCount / 64) 0)
  let file := bloomHeader kBloomHashes bitCount keys.length words.length
    (crc32c (Bitmap.wordBytes words)).toNat ++ Bitmap.wordBytes words
  if capacity < file.length then .error "cannot write bloom sidecar" else .ok file

structure BloomView where
  bitCount : Nat
  hashes : Nat
  words : List Nat

/-- The fields behind the magic number, the checksum, and the bytes of the words. -/
def readBloomHeader (bytes : Bytes) : Option (Nat × Nat × Nat × Nat × Nat × Bytes) := do
  let (version, rest) ← readWord 4 bytes
  let (hashes, rest) ← readWord 4 rest
  let (bitCount, rest) ← readWord 8 rest
  let (_, rest) ← readWord 8 rest
  let (wordCount, rest) ← readWord 8 rest
  let (checksum, rest) ← readWord 4 rest
  let (_, rest) ← readWord 4 rest
  return (version, hashes, bitCount, wordCount, checksum, rest)

/-- `mapBloom` on the bytes of a sidecar. -/
def mapBloom (file : Bytes) : Option BloomView :=
  if file.length < kBloomHeaderBytes + 8 then none
  else if file.take 8 ≠ kBloomMagic then none
  else
    match readBloomHeader (file.drop 8) with
    | none => none
    | some (version, hashes, bitCount, wordCount, checksum, wordBytes) =>
        if version ≠ kVersion ∨ hashes = 0 ∨ 16 < hashes ∨ bitCount < 64 ∨ bitCount % 64 ≠ 0 ∨
            wordCount ≠ bitCount / 64 ∨ (kBloomHeaderBytes + wordCount * 8 % 2 ^ 64) % 2 ^ 64 ≠ file.length then
          none
        else if (crc32c wordBytes).toNat ≠ checksum then none
        else some { bitCount, hashes, words := Bitmap.readWords wordCount wordBytes }

/-- `bloomMayContain`; no sidecar, or one that is refused, has no answer. -/
def bloomMayContain (sidecar : Option Bytes) (key : Bytes) : Option Bool :=
  (sidecar.bind mapBloom).map fun view =>
    (bloomBits view.hashes view.bitCount key).all (Bitmap.testBit view.words)

/-! ## The sidecar of an SST -/

/-- The ids of the rows that have one. -/
def bloomKeys (lib : JsonLibrary) (rows : List Json) : List Bytes :=
  rows.filterMap fun row => (docId? lib.dump row).map utf8

/-- `LSM::buildBloomForSST` on a binary SST. Its errors are swallowed, and leave the sidecar
that was there. -/
def buildBloomForSST (lib : JsonLibrary) (lz4 : Lz4) (capacity : Nat) (file : Bytes) : Except String Bytes := do
  let rows ← scanSst lib lz4 file
  buildBloom capacity (bloomKeys lib rows)

def mayExistInSST (sidecar : Option Bytes) (id : Bytes) : Bool := (bloomMayContain sidecar id).getD true

/-- `project` on a view with a field index, as far as it is looked into. -/
def MsgpackRowView.project (lib : JsonLibrary) (view : MsgpackRowView) (names : List String) :
    Except String Json :=
  match view.fieldIndex with
  | none => .error "invalid indexed MessagePack row"
  | some _ => .ok (.object (names.filterMap fun name => (view.field lib name).map fun value => (name, value)))

/-- The predicate of `seekDocInSSTById`. -/
def visibleRow (lib : JsonLibrary) (raft : RaftView) (committedIndex : Nat) (view : MsgpackRowView) :
    Except String Bool :=
  (view.project lib Lsm.MsgpackRowView.visibilityFields).map fun doc =>
    docVisibleByCommitIndex raft doc committedIndex

/-- `considerRow` with a predicate that may throw. -/
def considerRowWhen (lib : JsonLibrary) (eligible : MsgpackRowView → Except String Bool) (id : Bytes)
    (found : Found) (row : Bytes) : Except String (Found × Bool) := do
  let key ← rowKey lib row
  if key = id then
    let accepted ← eligible ⟨row, true⟩
    let version := rowVersion lib ⟨row, true⟩
    if accepted && better version found then
      let value ← materialize lib row
      return (some (value, version), decide (key ≤ id))
    else return (found, decide (key ≤ id))
  else return (found, decide (key ≤ id))

def visitBlockWhen (lib : JsonLibrary) (lz4 : Lz4) (eligible : MsgpackRowView → Except String Bool)
    (file id : Bytes) (found : Found) (block : BlockIndexEntry) : Except String Found := do
  let (plain, count) ← readBlockPayload lz4 file block
  foldBlockRows (considerRowWhen lib eligible id) count plain found

/-- `findInSst` with a predicate that may throw. -/
def findInSstWhen (lib : JsonLibrary) (lz4 : Lz4) (eligible : MsgpackRowView → Except String Bool)
    (file id : Bytes) : Except String (Option Json) := do
  let blocks ← loadMetadata file
  let found ← (seekBlocks BlockIndexEntry.firstKey BlockIndexEntry.lastKey id blocks).foldlM
    (visitBlockWhen lib lz4 eligible file id) none
  return found.map Prod.fst

/-- The lookup of `seekDocInSSTById` in a binary SST, without the bloom check. -/
def seekUnchecked (lib : JsonLibrary) (lz4 : Lz4) (raft : RaftView) (committedIndex : Nat)
    (file id : Bytes) : Except String (Option Json) :=
  (findInSstWhen lib lz4 (visibleRow lib raft committedIndex) file id).mapError
    fun error => "cannot read binary SST: " ++ error

/-- `seekDocInSSTById` on a binary SST. -/
def seekDocInSSTById (lib : JsonLibrary) (lz4 : Lz4) (raft : RaftView) (committedIndex : Nat) (file : Bytes)
    (sidecar : Option Bytes) (id : Bytes) : Except String (Option Json) :=
  if !mayExistInSST sidecar id then .ok none
  else seekUnchecked lib lz4 raft committedIndex file id

/-- A predicate that does not throw is one of `findInSst`. -/
theorem findInSstWhen_total (eligible : MsgpackRowView → Bool) (file id : Bytes) :
    findInSstWhen lib lz4 (fun view => .ok (eligible view)) file id = findInSst lib lz4 eligible file id := by
  have rows : considerRowWhen lib (fun view => .ok (eligible view)) id = considerRow lib eligible id := by
    funext found row
    unfold considerRowWhen considerRow
    cases rowKey lib row with
    | error reason => rfl
    | ok key =>
      dsimp only [bind, Except.bind]
      grind
  unfold findInSstWhen findInSst visitBlockWhen visitBlock
  rw [rows]

/-! ## What a sidecar answers -/

section Sidecar

variable {capacity : Nat} {keys : List Bytes} {sidecar : Bytes}

theorem bloomBitCount_bounds (count : Nat) :
    64 ≤ bloomBitCount count ∧ bloomBitCount count % 64 = 0 ∧ bloomBitCount count < 2 ^ 64 := by
  unfold bloomBitCount
  omega

theorem bloomBits_lt {hashes bitCount bit : Nat} {key : Bytes} (some : 0 < bitCount)
    (member : bit ∈ bloomBits hashes bitCount key) : bit < bitCount := by
  obtain ⟨i, -, rfl⟩ := List.mem_map.mp member
  exact Nat.mod_lt _ some

/-- The words of all keys are those of all their bits. -/
theorem foldl_keys {hashes bitCount : Nat} (keys : List Bytes) (words : List Nat) :
    keys.foldl (fun words key => (bloomBits hashes bitCount key).foldl Bitmap.setBit words) words =
      (keys.flatMap (bloomBits hashes bitCount)).foldl Bitmap.setBit words := by
  induction keys generalizing words with
  | nil => rfl
  | cons key keys ih => rw [List.foldl_cons, ih, List.flatMap_cons, List.foldl_append]

theorem readBloomHeader_append {hashes bitCount keys words checksum : Nat} (rest : Bytes)
    (few : hashes < 256 ^ 4) (bits : bitCount < 256 ^ 8) (fits : words < 256 ^ 8)
    (check : checksum < 256 ^ 4) :
    readBloomHeader ((bloomHeader hashes bitCount keys words checksum ++ rest).drop 8) =
      some (kVersion, hashes, bitCount, words, checksum, rest) := by
  have behind : (bloomHeader hashes bitCount keys words checksum ++ rest).drop 8 =
      leBytes 4 kVersion ++ (leBytes 4 hashes ++ (leBytes 8 bitCount ++ (leBytes 8 keys ++
        (leBytes 8 words ++ (leBytes 4 checksum ++ (leBytes 4 0 ++ rest)))))) := by
    rw [bloomHeader, List.append_assoc, List.drop_left' (show kBloomMagic.length = 8 from rfl)]
    simp only [List.append_assoc]
  have version : kVersion < 256 ^ 4 := by decide
  rw [behind, readBloomHeader]
  simp only [readWord_leBytes_of_lt _ version, readWord_leBytes_of_lt _ few, readWord_leBytes_of_lt _ bits,
    readWord_leBytes_of_lt _ fits, readWord_leBytes_of_lt _ check, readWord_leBytes,
    Option.bind_eq_bind, Option.bind_some, Option.pure_def]

/-- What was built is read back, with these bits set. -/
theorem mapBloom_buildBloom (built : buildBloom capacity keys = .ok sidecar) : ∃ view,
    mapBloom sidecar = some view ∧ view.bitCount = bloomBitCount keys.length ∧
      view.hashes = kBloomHashes ∧ ∀ bit, Bitmap.testBit view.words bit = true ↔
        bit ∈ keys.flatMap (bloomBits kBloomHashes (bloomBitCount keys.length)) := by
  obtain ⟨least, whole, most⟩ := bloomBitCount_bounds keys.length
  generalize same : bloomBitCount keys.length = bitCount at least whole most ⊢
  unfold buildBloom at built
  rw [same] at built
  dsimp only at built
  rw [foldl_keys] at built
  generalize allBits : keys.flatMap (bloomBits kBloomHashes bitCount) = bits at built ⊢
  have inside : ∀ bit ∈ bits, bit / 64 < (List.replicate (bitCount / 64) 0).length := by
    intro bit member
    rw [← allBits] at member
    obtain ⟨key, -, isBit⟩ := List.mem_flatMap.mp member
    have below := bloomBits_lt (by omega) isBit
    rw [List.length_replicate]
    omega
  generalize isWords : bits.foldl Bitmap.setBit (List.replicate (bitCount / 64) 0) = words at built
  have count : words.length = bitCount / 64 := by
    rw [← isWords, Bitmap.length_foldl_setBit, List.length_replicate]
  have narrow : Bitmap.Narrow words := isWords ▸ (Bitmap.narrow_zeros _).foldl
  split at built
  · cases built
  cases built
  have check : (crc32c (Bitmap.wordBytes words)).toNat < 256 ^ 4 := UInt32.toNat_lt _
  have header : ∀ checksum, (bloomHeader kBloomHashes bitCount keys.length words.length checksum).length =
      kBloomHeaderBytes := by
    intro checksum
    simp only [bloomHeader, List.length_append, length_leBytes]
    rfl
  have size : (bloomHeader kBloomHashes bitCount keys.length words.length
      (crc32c (Bitmap.wordBytes words)).toNat ++ Bitmap.wordBytes words).length =
        kBloomHeaderBytes + 8 * words.length := by
    rw [List.length_append, header, Bitmap.length_wordBytes]
  have headerBytes : kBloomHeaderBytes = 48 := rfl
  refine ⟨⟨bitCount, kBloomHashes, words⟩, ?_, rfl, rfl, fun bit => ?_⟩
  · rw [mapBloom, size, if_neg (by omega), if_neg, readBloomHeader_append]
    dsimp only
    rw [if_neg, if_neg, Bitmap.readWords_wordBytes narrow]
    · exact not_not.mpr rfl
    · have hashes : kBloomHashes = 7 := rfl
      omega
    · decide
    · omega
    · omega
    · exact check
    · rw [not_not, bloomHeader, List.append_assoc]
      exact List.take_left' rfl
  · rw [← isWords, Bitmap.testBit_foldl inside, Bitmap.testBit_zeros]
    simp

/-- A sidecar answers whether all bits of the key are bits of its keys. -/
theorem bloomMayContain_buildBloom (built : buildBloom capacity keys = .ok sidecar) (key : Bytes) :
    bloomMayContain (some sidecar) key =
      some ((bloomBits kBloomHashes (bloomBitCount keys.length) key).all fun bit =>
        decide (bit ∈ keys.flatMap (bloomBits kBloomHashes (bloomBitCount keys.length)))) := by
  obtain ⟨view, mapped, bits, hashes, set⟩ := mapBloom_buildBloom built
  rw [bloomMayContain, Option.bind_some, mapped, Option.map_some, bits, hashes]
  congr 2
  funext bit
  rw [Bool.eq_iff_iff, set, decide_eq_true_eq]

/-- No key of the sidecar is excluded. -/
theorem bloomMayContain_of_mem_keys (built : buildBloom capacity keys = .ok sidecar) {key : Bytes}
    (member : key ∈ keys) : bloomMayContain (some sidecar) key = some true := by
  rw [bloomMayContain_buildBloom built, Option.some.injEq, List.all_eq_true]
  intro bit isBit
  rw [decide_eq_true_eq]
  exact List.mem_flatMap.mpr ⟨key, member, isBit⟩

end Sidecar

/-! ## What a lookup reads -/

section Lookup

/-- A row that is no object has no field index. -/
theorem readMapHeader_other {row : Json} (other : row.isObject = false)
    (short : (writeMsgpack lib row).length < 2 ^ 32) : readMapHeader (writeMsgpack lib row) = none := by
  have fixed : ∀ {tag : UInt8} {rest : Bytes}, tag &&& 0xf0 ≠ 0x80 → tag ≠ 0xde → tag ≠ 0xdf →
      readMapHeader (tag :: rest) = none := by
    intro tag rest noFix noWord noDouble
    rw [readMapHeader, if_neg (by simpa using noFix), if_neg (by simpa using noWord),
      if_neg (by simpa using noDouble)]
  have small : ∀ value < 128, UInt8.ofNat value &&& 0xf0 ≠ 0x80 ∧ UInt8.ofNat value ≠ 0xde ∧
      UInt8.ofNat value ≠ 0xdf := by decide
  have large : ∀ value < 256, 224 ≤ value → UInt8.ofNat value &&& 0xf0 ≠ 0x80 ∧
      UInt8.ofNat value ≠ 0xde ∧ UInt8.ofNat value ≠ 0xdf := by decide +kernel
  have unsigned : ∀ value, readMapHeader (writeUnsigned value) = none := by
    intro value
    unfold writeUnsigned
    split
    next fix =>
      obtain ⟨noFix, noWord, noDouble⟩ := small value fix
      exact fixed noFix noWord noDouble
    next => split_ifs <;> exact fixed (by decide) (by decide) (by decide)
  cases row with
  | null => rfl
  | bool value => cases value <;> rfl
  | integer value =>
    rw [writeMsgpack, writeInteger]
    split
    · exact unsigned _
    next negative =>
      unfold writeNegative
      split
      next fix =>
        have single : ∀ value, beBytes 1 value = [UInt8.ofNat value] := fun _ => rfl
        obtain ⟨noFix, noWord, noDouble⟩ := large (Json.wrapInt64 value % 2 ^ 8).toNat (by omega) (by omega)
        rw [single]
        exact fixed noFix noWord noDouble
      next => split_ifs <;> exact fixed (by decide) (by decide) (by decide)
  | unsigned value => exact unsigned _
  | float bits =>
    rw [writeMsgpack, writeCompactFloat]
    cases lib.narrow bits <;> exact fixed (by decide) (by decide) (by decide)
  | string text =>
    rw [writeMsgpack, writeString, List.length_append] at short
    rw [writeMsgpack, writeString]
    rcases stringHeader_cases (show (utf8 text).length < 2 ^ 32 by omega) with
      ⟨fix, header⟩ | ⟨tag, width, -, header, tags⟩
    · have tags : ∀ size ≤ 31, UInt8.ofNat (0xa0 ||| size) &&& 0xf0 ≠ 0x80 ∧
          UInt8.ofNat (0xa0 ||| size) ≠ 0xde ∧ UInt8.ofNat (0xa0 ||| size) ≠ 0xdf := by decide
      obtain ⟨noFix, noWord, noDouble⟩ := tags _ fix
      rw [header]
      exact fixed noFix noWord noDouble
    · rw [header]
      rcases tags with ⟨rfl, -⟩ | ⟨rfl, -⟩ | ⟨rfl, -⟩ <;>
        exact fixed (by decide) (by decide) (by decide)
  | array items =>
    rw [writeMsgpack, writeItems_eq, List.length_append] at short
    have count := length_le_flatMap fun item (_ : item ∈ items) => @writeMsgpack_ne_nil lib item
    have tags : ∀ size ≤ 15, UInt8.ofNat (0x90 ||| size) &&& 0xf0 ≠ 0x80 ∧
        UInt8.ofNat (0x90 ||| size) ≠ 0xde ∧ UInt8.ofNat (0x90 ||| size) ≠ 0xdf := by decide
    rw [writeMsgpack, arrayHeader]
    unfold containerHeader
    split
    next few =>
      obtain ⟨noFix, noWord, noDouble⟩ := tags _ few
      exact fixed noFix noWord noDouble
    next =>
      split_ifs
      · exact fixed (by decide) (by decide) (by decide)
      · exact fixed (by decide) (by decide) (by decide)
      · omega
  | object members => cases other

variable {same : Json → Json → Prop} {rows : List Json} {blocks : List (List Json)} {target : Nat}
  {eligible : MsgpackRowView → Except String Bool} {id : Bytes}

/-- What is assumed of decoding: it keeps the id of a row that has one, and adds none. -/
def KeepsDocIds (lib : JsonLibrary) (same : Json → Json → Prop) (rows : List Json) : Prop :=
  ∀ row ∈ rows, ∀ back, same row back → docId? lib.dump back = docId? lib.dump row

theorem KeepsDocIds.keepsIds (keeps : KeepsDocIds lib same rows) : KeepsIds lib same rows := by
  intro row member back isSame
  rw [rowId, rowId, keeps row member back isSame]

theorem rowKey_writeMsgpack (faithful : Faithful lib same rows) (keeps : KeepsIds lib same rows)
    {row : Json} (member : row ∈ rows) (fits : (writeMsgpack lib row).length ≤ kMaxFieldBytes) :
    rowKey lib (writeMsgpack lib row) = .ok (utf8 (rowId lib row)) := by
  cases object : row.isObject with
  | true => exact (legible faithful keeps member object fits).key
  | false =>
    have limit : kMaxFieldBytes < 2 ^ 32 := by decide
    obtain ⟨back, decodes, isSame⟩ := faithful.decodes row (.inl member)
    have unseen : MsgpackRowView.field lib ⟨writeMsgpack lib row, true⟩ "id" = none := by
      rw [MsgpackRowView.field, MsgpackRowView.fieldBytes, MsgpackRowView.fieldIndex,
        readMapHeader_other object (by omega)]
      rfl
    rw [rowKey, unseen, materialize, decodes]
    dsimp only
    rw [Except.map, keeps row member back isSame]

/-- A block without the id finds nothing, whatever the predicate is. -/
theorem foldBlockRows_absent {rows : List Json}
    (keys : ∀ row ∈ rows, rowKey lib (writeMsgpack lib row) = .ok (utf8 (rowId lib row)))
    (fits : ∀ row ∈ rows, (writeMsgpack lib row).length ≤ kMaxFieldBytes)
    (absent : ∀ row ∈ rows, utf8 (rowId lib row) ≠ id) :
    foldBlockRows (considerRowWhen lib eligible id) rows.length (blockPlain lib rows) none = .ok none := by
  induction rows with
  | nil => rfl
  | cons row rows ih =>
    obtain ⟨key, keys⟩ := List.forall_mem_cons.mp keys
    obtain ⟨fit, fits⟩ := List.forall_mem_cons.mp fits
    obtain ⟨other, absent⟩ := List.forall_mem_cons.mp absent
    rw [List.length_cons, foldBlockRows, blockPlain, List.flatMap_cons, readRow_encodeRow fit]
    dsimp only
    rw [considerRowWhen, key]
    dsimp only [bind, Except.bind]
    rw [if_neg other]
    dsimp only [pure, Except.pure]
    split
    · exact ih keys fits absent
    · rfl

theorem findInSstWhen_absent (compresses : lz4.RoundTrips) (fits : BlocksFit lib lz4 blocks)
    (few : blocks.length ≤ kMaxBlocks) (edges : EdgesFit lib blocks)
    (keys : ∀ row ∈ blocks.flatten, rowKey lib (writeMsgpack lib row) = .ok (utf8 (rowId lib row)))
    (absent : ∀ row ∈ blocks.flatten, utf8 (rowId lib row) ≠ id) :
    findInSstWhen lib lz4 eligible (sstBytes lib lz4 target blocks) id = .ok none := by
  have visits : ∀ placed ∈ placedBlocks lib lz4 kSstHeaderBytes blocks,
      visitBlockWhen lib lz4 eligible (sstBytes lib lz4 target blocks) id none
        (blockEntry lib lz4 placed.1 placed.2) = .ok none := by
    intro placed member
    obtain ⟨before, after, split, -⟩ := mem_placedBlocks member
    have isBlock : placed.2 ∈ blocks := by
      rw [split]
      exact List.mem_append_right _ (.head _)
    rw [visitBlockWhen, readBlockPayload_placed compresses fits member]
    apply foldBlockRows_absent
    · exact fun row isRow => keys row (List.mem_flatten.mpr ⟨_, isBlock, isRow⟩)
    · exact fits.rows _ isBlock
    · exact fun row isRow => absent row (List.mem_flatten.mpr ⟨_, isBlock, isRow⟩)
  have loop : ∀ placed : List (Nat × List Json),
      (∀ one ∈ placed, one ∈ placedBlocks lib lz4 kSstHeaderBytes blocks) →
      (placed.map fun one => blockEntry lib lz4 one.1 one.2).foldlM
        (visitBlockWhen lib lz4 eligible (sstBytes lib lz4 target blocks) id) none = .ok none := by
    intro placed
    induction placed with
    | nil => exact fun _ => rfl
    | cons one placed ih =>
      intro inside
      rw [List.map_cons, List.foldlM_cons, visits one (inside one (.head _))]
      exact ih fun other member => inside other (.tail _ member)
  rw [findInSstWhen, loadMetadata_ok fits few edges, blockEntries_eq]
  dsimp only [bind, Except.bind]
  rw [seekBlocks_map, loop _ fun one member => mem_of_mem_seekBlocks member]
  rfl

end Lookup

/-! ## Every written file -/

section Written

variable {same : Json → Json → Prop} {rows : List Json} {file sidecar : Bytes}
  {capacity bloomCapacity targetBlockBytes : Nat}

/-- The keys of the sidecar of a file are the ids of its rows. -/
theorem keys_buildBloomForSST (compresses : lz4.RoundTrips) (faithful : Faithful lib same rows)
    (keeps : KeepsDocIds lib same rows)
    (fits : BlocksFit lib lz4 (sstBlocks lib targetBlockBytes rows))
    (built : buildBloomForSST lib lz4 bloomCapacity (sstBytes lib lz4 (clampTarget targetBlockBytes)
      (sstBlocks lib targetBlockBytes rows)) = .ok sidecar) :
    ((sstBlocks lib targetBlockBytes rows).length ≤ kMaxBlocks ∧
      EdgesFit lib (sstBlocks lib targetBlockBytes rows)) ∧
    buildBloom bloomCapacity (bloomKeys lib rows) = .ok sidecar := by
  have all : (sstBlocks lib targetBlockBytes rows).flatten = rows := flatten_cutBlocks _ [] rows
  rw [buildBloomForSST] at built
  cases loaded : loadMetadata (sstBytes lib lz4 (clampTarget targetBlockBytes)
      (sstBlocks lib targetBlockBytes rows)) with
  | error reason =>
    rw [scanSst, loaded] at built
    cases built
  | ok entries =>
    have indexed := loadMetadata_some fits loaded
    refine ⟨indexed, ?_⟩
    have decodes : ∀ block ∈ sstBlocks lib targetBlockBytes rows, ∀ row ∈ block, ∃ back,
        lib.fromMsgpack (writeMsgpack lib row) = some back ∧ same row back := by
      intro block member row isRow
      apply faithful.decodes
      left
      rw [← all]
      exact List.mem_flatten.mpr ⟨block, member, isRow⟩
    obtain ⟨back, scanned, isSame⟩ := @scanSst_ok lib lz4 (clampTarget targetBlockBytes) _ same compresses
      fits indexed.1 indexed.2 decodes
    rw [scanned] at built
    rw [all] at isSame
    have sameKeys : bloomKeys lib back = bloomKeys lib rows := by
      clear built scanned decodes indexed loaded fits all faithful
      induction isSame with
      | nil => rfl
      | @cons row other rows others isSame later ih =>
        obtain ⟨first, keeps⟩ := List.forall_mem_cons.mp keeps
        unfold bloomKeys at ih ⊢
        rw [List.filterMap_cons, List.filterMap_cons, first other isSame, ih keeps]
    rw [← sameKeys]
    exact built

/-- Sidecars exclude no key they were built for, and a lookup in an SST with its sidecar is
one without. Only a row that has no id is not found under the empty id. -/
theorem bloom_excludes_nothing (compresses : lz4.RoundTrips) (faithful : Faithful lib same rows)
    (keeps : KeepsDocIds lib same rows) (limited : capacity < 2 ^ 63)
    (written : writeSst lib lz4 capacity targetBlockBytes rows = .ok file)
    (built : buildBloomForSST lib lz4 bloomCapacity file = .ok sidecar) :
    (∀ capacity keys sidecar, buildBloom capacity keys = .ok sidecar →
      ∀ key ∈ keys, bloomMayContain (some sidecar) key = some true) ∧
    ∀ raft committedIndex id, (id ≠ [] ∨ ∀ row ∈ rows, (docId? lib.dump row).isSome = true) →
      seekDocInSSTById lib lz4 raft committedIndex file (some sidecar) id =
        seekUnchecked lib lz4 raft committedIndex file id := by
  refine ⟨fun capacity keys sidecar built key => bloomMayContain_of_mem_keys built, ?_⟩
  intro raft committedIndex id keyed
  obtain ⟨fitsRow, rfl, room⟩ := writeSst_ok written
  have fits := blocksFit_sstBlocks fitsRow faithful (room.trans_lt limited)
  have all : (sstBlocks lib targetBlockBytes rows).flatten = rows := flatten_cutBlocks _ [] rows
  obtain ⟨⟨few, edges⟩, built⟩ := keys_buildBloomForSST compresses faithful keeps fits built
  rw [seekDocInSSTById]
  cases kept : mayExistInSST (some sidecar) id with
  | true => rfl
  | false =>
    -- an id that is excluded is not one of the keys
    have noKey : id ∉ bloomKeys lib rows := by
      intro member
      rw [mayExistInSST, bloomMayContain_of_mem_keys built member] at kept
      cases kept
    have absent : ∀ row ∈ rows, utf8 (rowId lib row) ≠ id := by
      intro row member own
      apply noKey
      rw [rowId] at own
      rw [bloomKeys, List.mem_filterMap]
      refine ⟨row, member, ?_⟩
      cases found : docId? lib.dump row with
      | some text =>
        rw [found] at own
        rw [Option.map_some, ← own]
        rfl
      | none =>
        rw [found] at own
        rcases keyed with named | named
        · exact absurd own.symm named
        · have some := named row member
          rw [found] at some
          cases some
    have keys : ∀ row ∈ (sstBlocks lib targetBlockBytes rows).flatten,
        rowKey lib (writeMsgpack lib row) = .ok (utf8 (rowId lib row)) := by
      rw [all]
      exact fun row member => rowKey_writeMsgpack faithful keeps.keepsIds member (fitsRow row member)
    rw [← all] at absent
    rw [seekUnchecked, findInSstWhen_absent compresses fits few edges keys absent]
    rfl

/-- A library that decodes the row without members. -/
def bareLibrary : JsonLibrary where
  fromMsgpack bytes := if bytes = [0x80] then some (.object []) else none
  dump _ := ""
  narrow _ := none
  widen bits := bits

/-- A row without an id is found under the empty id, but not with the sidecar. -/
theorem bloom_excludes_no_id : ∃ file sidecar,
    writeSst bareLibrary literalsOnly (2 ^ 40) 4096 [.object []] = .ok file ∧
    buildBloomForSST bareLibrary literalsOnly (2 ^ 40) file = .ok sidecar ∧
    (seekDocInSSTById bareLibrary literalsOnly ⟨false, false⟩ 0 file (some sidecar) []).toOption =
      some none ∧
    ((seekUnchecked bareLibrary literalsOnly ⟨false, false⟩ 0 file []).toOption.bind id).isSome = true := by
  have runs : ((writeSst bareLibrary literalsOnly (2 ^ 40) 4096 [.object []]).toOption.bind fun file =>
      (buildBloomForSST bareLibrary literalsOnly (2 ^ 40) file).toOption.map fun sidecar =>
        (mayExistInSST (some sidecar) [],
          ((seekUnchecked bareLibrary literalsOnly ⟨false, false⟩ 0 file []).toOption.bind id).isSome)) =
      some (false, true) := by decide +kernel
  cases written : writeSst bareLibrary literalsOnly (2 ^ 40) 4096 [.object []] with
  | error reason =>
    rw [written] at runs
    cases runs
  | ok file =>
    cases built : buildBloomForSST bareLibrary literalsOnly (2 ^ 40) file with
    | error reason =>
      rw [written, Except.toOption, Option.bind_some, built] at runs
      cases runs
    | ok sidecar =>
      rw [written, Except.toOption, Option.bind_some, built, Except.toOption, Option.map_some,
        Option.some.injEq, Prod.mk.injEq] at runs
      refine ⟨file, sidecar, rfl, built, ?_, runs.2⟩
      rw [seekDocInSSTById, runs.1]
      rfl

/-- Lookups of every id in a file of three rows, with its sidecar. -/
theorem bloom_excludes_nothing_flat : ∃ file sidecar,
    writeSst tableLibrary literalsOnly (2 ^ 40) 4096 [flatRow, oldRow, otherRow] = .ok file ∧
    buildBloomForSST tableLibrary literalsOnly (2 ^ 40) file = .ok sidecar ∧
    ∀ raft committedIndex id,
      seekDocInSSTById tableLibrary literalsOnly raft committedIndex file (some sidecar) id =
        seekUnchecked tableLibrary literalsOnly raft committedIndex file id := by
  have runs : ((writeSst tableLibrary literalsOnly (2 ^ 40) 4096 [flatRow, oldRow, otherRow]).toOption.bind fun file =>
      (buildBloomForSST tableLibrary literalsOnly (2 ^ 40) file).toOption).isSome = true := by
    decide +kernel
  cases written : writeSst tableLibrary literalsOnly (2 ^ 40) 4096 [flatRow, oldRow, otherRow] with
  | error reason =>
    rw [written] at runs
    cases runs
  | ok file =>
    rw [written, Except.toOption, Option.bind_some] at runs
    cases built : buildBloomForSST tableLibrary literalsOnly (2 ^ 40) file with
    | error reason =>
      rw [built] at runs
      cases runs
    | ok sidecar =>
      have known : [flatRow, oldRow, otherRow] ⊆ longRow :: shortRows := by simp [shortRows]
      have keeps : KeepsDocIds tableLibrary SameStored [flatRow, oldRow, otherRow] := by
        intro row member back isSame
        rw [sameStored_object (objects_table row (known member)) isSame]
      refine ⟨file, sidecar, rfl, built, fun raft committedIndex id => ?_⟩
      apply (bloom_excludes_nothing literalsOnly_roundTrips (faithful_table known)
        keeps (by decide) written built).2 raft committedIndex id
      exact .inr (by decide)

end Written

end PacificDb.Sst
