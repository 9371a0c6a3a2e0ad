import PacificDb.Sst.RoundTrip

/-!
# Block extents

A block of an SST that `loadMetadata` accepts lies between the header and the index
(`extentsInside_iff`), unless an entry of the index names an offset so large that the end
of its block, added up in 64 bits, wraps to a small number.
-/

namespace PacificDb.Sst

open Lib
open Lsm hiding MsgpackRowView scanSst verifySst verifyRows idText

/-- The numbers of an entry fit the fields of the index. -/
structure FieldsFit (entry : BlockIndexEntry) : Prop where
  offset : entry.offset < 256 ^ 8
  storedBytes : entry.storedBytes < 256 ^ 4
  originalBytes : entry.originalBytes < 256 ^ 4
  rows : entry.rows < 256 ^ 4
  firstKey : entry.firstKey.length < 256 ^ 4
  lastKey : entry.lastKey.length < 256 ^ 4

/-- The bytes from the offset on are an index of these entries. -/
structure IndexHolds (file : Bytes) (indexOffset : Nat) (entries : List BlockIndexEntry) : Prop where
  bytes : file.drop indexOffset = writeIndex entries
  fields : ∀ entry ∈ entries, FieldsFit entry
  count : entries.length < 256 ^ 4

/-- The block lies between the header and the index. -/
def InsideData (indexOffset : Nat) (entry : BlockIndexEntry) : Prop :=
  kSstHeaderBytes ≤ entry.offset ∧ entry.offset + kBlockHeaderBytes + entry.storedBytes ≤ indexOffset

/-- What `loadMetadata` checks of an entry. -/
def PassesCheck (indexOffset : Nat) (entry : BlockIndexEntry) : Prop :=
  kSstHeaderBytes ≤ entry.offset ∧
    (entry.offset + kBlockHeaderBytes + entry.storedBytes) % 2 ^ 64 ≤ indexOffset

/-! ## What is accepted -/

theorem readIndexEntry_some {indexOffset : Nat} {bytes rest : Bytes} {entry : BlockIndexEntry}
    (read : readIndexEntry indexOffset bytes = .ok (entry, rest)) :
    bytes = writeIndexEntry entry ++ rest ∧ FieldsFit entry ∧ PassesCheck indexOffset entry := by
  unfold readIndexEntry at read
  dsimp only at read
  split at read
  · cases read
  next offset storedBytes originalBytes rows firstSize behind fields =>
    simp only [bind, Option.bind_eq_some_iff, pure, Option.some.injEq, Prod.mk.injEq, Prod.exists] at fields
    obtain ⟨_, _, first, _, _, second, _, _, third, _, _, fourth, _, _, fifth, rfl, rfl, rfl, rfl, rfl, rfl⟩ :=
      fields
    split at read
    · cases read
    next short =>
      rw [not_or, Nat.not_lt, Nat.not_lt] at short
      split at read
      · cases read
      next lastSize left sixth =>
        split at read
        · cases read
        next shortLast =>
          rw [not_or, Nat.not_lt, Nat.not_lt] at shortLast
          split at read
          · cases read
          next inside =>
            rw [not_or, Nat.not_lt, Nat.not_lt] at inside
            cases read
            obtain ⟨rfl, offsetFits⟩ := readWord_some first
            obtain ⟨rfl, storedFits⟩ := readWord_some second
            obtain ⟨rfl, originalFits⟩ := readWord_some third
            obtain ⟨rfl, rowsFit⟩ := readWord_some fourth
            obtain ⟨rfl, firstFits⟩ := readWord_some fifth
            obtain ⟨split, lastFits⟩ := readWord_some sixth
            have firstLength := List.length_take_of_le short.2
            have lastLength := List.length_take_of_le shortLast.2
            refine ⟨?_, ⟨offsetFits, storedFits, originalFits, rowsFit, ?_, ?_⟩, inside⟩
            · simp only [writeIndexEntry, firstLength, lastLength, List.append_assoc,
                List.take_append_drop, List.append_cancel_left_eq]
              rw [← split, List.take_append_drop]
            · dsimp only
              rw [firstLength]
              exact firstFits
            · dsimp only
              rw [lastLength]
              exact lastFits

theorem readIndexEntries_some {indexOffset count : Nat} {bytes rest : Bytes} {entries : List BlockIndexEntry}
    (read : readIndexEntries indexOffset count bytes = .ok (entries, rest)) :
    bytes = entries.flatMap writeIndexEntry ++ rest ∧ entries.length = count ∧
      ∀ entry ∈ entries, FieldsFit entry ∧ PassesCheck indexOffset entry := by
  induction count generalizing bytes entries with
  | zero =>
    cases read
    exact ⟨rfl, rfl, nofun⟩
  | succ count ih =>
    rw [readIndexEntries] at read
    cases first : readIndexEntry indexOffset bytes with
    | error reason =>
      rw [first] at read
      cases read
    | ok taken =>
      rw [first] at read
      dsimp only [bind, Except.bind] at read
      cases others : readIndexEntries indexOffset count taken.2 with
      | error reason =>
        rw [others] at read
        cases read
      | ok found =>
        rw [others] at read
        cases read
        obtain ⟨split, own⟩ := readIndexEntry_some first
        obtain ⟨splitRest, size, each⟩ := ih others
        refine ⟨?_, congrArg (· + 1) size, List.forall_mem_cons.mpr ⟨own, each⟩⟩
        rw [split, splitRest, List.flatMap_cons, List.append_assoc]

/-- An accepted file has an index of the entries, and they pass the check. -/
theorem indexHolds_of_accepted {file : Bytes} {blocks : List BlockIndexEntry} {header : SstHeader}
    (accepted : loadMetadata file = .ok blocks)
    (parsed : parseSstHeader (file.take kSstHeaderBytes) = .ok header) :
    IndexHolds file header.indexOffset blocks ∧ ∀ entry ∈ blocks, PassesCheck header.indexOffset entry := by
  unfold loadMetadata at accepted
  rw [parsed] at accepted
  dsimp only at accepted
  split at accepted
  · cases accepted
  split at accepted
  · cases accepted
  split at accepted
  · cases accepted
  next whole =>
    rw [not_or, Nat.not_lt, not_not] at whole
    obtain ⟨long, magic⟩ := whole
    generalize indexIs : file.drop header.indexOffset = indexBytes at *
    split at accepted
    · cases accepted
    next checksum =>
      rw [not_not] at checksum
      split at accepted
      · cases accepted
      next count rest counted =>
        split at accepted
        · cases accepted
        next few =>
          split at accepted
          · cases accepted
          next entries left read =>
            split at accepted
            next none =>
              cases accepted
              cases List.isEmpty_iff.mp none
              obtain ⟨split, size, each⟩ := readIndexEntries_some read
              obtain ⟨splitCount, fits⟩ := readWord_some counted
              have longer : 12 ≤ indexBytes.length - 4 := by
                have magicSize : kSstIndexMagic.length = 8 := rfl
                omega
              have body : indexBytes.take (indexBytes.length - 4) = indexBody blocks := by
                rw [← List.take_append_drop 8 (indexBytes.take (indexBytes.length - 4)), splitCount, split,
                  List.append_nil, List.take_take, Nat.min_eq_left (by omega), magic, ← size, indexBody]
              have crc : indexBytes.drop (indexBytes.length - 4) =
                  leBytes 4 (crc32c (indexBody blocks)).toNat := by
                have four : (indexBytes.drop (indexBytes.length - 4)).length = 4 := by
                  rw [List.length_drop]
                  omega
                have back := leBytes_readLe (indexBytes.drop (indexBytes.length - 4))
                rw [four, ← checksum, body] at back
                exact back.symm
              refine ⟨⟨?_, fun entry member => (each entry member).1, size ▸ fits⟩,
                fun entry member => (each entry member).2⟩
              rw [indexIs, ← List.take_append_drop (indexBytes.length - 4) indexBytes, body, crc]
              rfl
            next => cases accepted

/-! ## One index, one list of entries -/

theorem writeIndexEntry_append_inj {entry other : BlockIndexEntry} {rest others : Bytes}
    (fits : FieldsFit entry) (fitsToo : FieldsFit other)
    (same : writeIndexEntry entry ++ rest = writeIndexEntry other ++ others) :
    entry = other ∧ rest = others := by
  simp only [writeIndexEntry, List.append_assoc] at same
  obtain ⟨offset, same⟩ := leBytes_append_inj fits.offset fitsToo.offset same
  obtain ⟨storedBytes, same⟩ := leBytes_append_inj fits.storedBytes fitsToo.storedBytes same
  obtain ⟨originalBytes, same⟩ := leBytes_append_inj fits.originalBytes fitsToo.originalBytes same
  obtain ⟨rows, same⟩ := leBytes_append_inj fits.rows fitsToo.rows same
  obtain ⟨firstSize, same⟩ := leBytes_append_inj fits.firstKey fitsToo.firstKey same
  obtain ⟨firstKey, same⟩ := List.append_inj same firstSize
  obtain ⟨lastSize, same⟩ := leBytes_append_inj fits.lastKey fitsToo.lastKey same
  obtain ⟨lastKey, tails⟩ := List.append_inj same lastSize
  cases entry
  cases other
  cases offset
  cases storedBytes
  cases originalBytes
  cases rows
  cases firstKey
  cases lastKey
  exact ⟨rfl, tails⟩

theorem flatMap_writeIndexEntry_inj {entries others : List BlockIndexEntry}
    (fits : ∀ entry ∈ entries, FieldsFit entry) (fitsToo : ∀ entry ∈ others, FieldsFit entry)
    {rest : Bytes} (size : entries.length = others.length)
    (same : entries.flatMap writeIndexEntry ++ rest = others.flatMap writeIndexEntry ++ rest) :
    entries = others := by
  induction entries generalizing others with
  | nil => exact (List.length_eq_zero_iff.mp size.symm).symm
  | cons entry entries ih =>
    cases others with
    | nil => cases size
    | cons other others =>
      rw [List.flatMap_cons, List.flatMap_cons, List.append_assoc, List.append_assoc] at same
      obtain ⟨own, later⟩ := List.forall_mem_cons.mp fits
      obtain ⟨ownToo, laterToo⟩ := List.forall_mem_cons.mp fitsToo
      obtain ⟨rfl, tails⟩ := writeIndexEntry_append_inj own ownToo same
      rw [ih later laterToo (Nat.succ.inj size) tails]

theorem IndexHolds.unique {file : Bytes} {indexOffset : Nat} {entries others : List BlockIndexEntry}
    (holds : IndexHolds file indexOffset entries) (holdsToo : IndexHolds file indexOffset others) :
    entries = others := by
  have same : writeIndex entries = writeIndex others := holds.bytes.symm.trans holdsToo.bytes
  have bodies : indexBody entries = indexBody others := by
    rw [← take_writeIndex, same, take_writeIndex]
  obtain ⟨size, rest⟩ := leBytes_append_inj holds.count holdsToo.count
    (List.append_cancel_left (bodies : kSstIndexMagic ++ _ = kSstIndexMagic ++ _))
  exact @flatMap_writeIndexEntry_inj _ _ holds.fields holdsToo.fields [] size (by rw [rest])

/-! ## The extents -/

theorem indexOffset_lt {bytes : Bytes} {header : SstHeader} (parsed : parseSstHeader bytes = .ok header) :
    header.indexOffset < 2 ^ 64 := by
  unfold parseSstHeader at parsed
  dsimp only at parsed
  split at parsed
  · cases parsed
  split at parsed
  · cases parsed
  next version headerBytes storedCrc found fields =>
    simp only [bind, Option.bind_eq_some_iff, pure, Option.some.injEq, Prod.mk.injEq, Prod.exists] at fields
    obtain ⟨_, _, -, _, _, -, _, _, -, _, _, -, _, _, -, _, _, offset, _, _, -, _, _, -, _, _, -, -, -, -, rfl⟩ :=
      fields
    split at parsed
    · cases parsed
    split at parsed
    · cases parsed
    · cases parsed
      exact (readWord_some offset).2

/-- The blocks of an accepted file lie in the data region exactly when no block that its
index names ends past the greatest number of 64 bits. -/
theorem extentsInside_iff {file : Bytes} {blocks : List BlockIndexEntry} {header : SstHeader}
    (accepted : loadMetadata file = .ok blocks)
    (parsed : parseSstHeader (file.take kSstHeaderBytes) = .ok header) :
    (∀ entry ∈ blocks, InsideData header.indexOffset entry) ↔
      ∀ entries, IndexHolds file header.indexOffset entries → ∀ entry ∈ entries,
        entry.offset + kBlockHeaderBytes + entry.storedBytes < 2 ^ 64 := by
  obtain ⟨holds, passes⟩ := indexHolds_of_accepted accepted parsed
  constructor
  · intro inside entries others entry member
    rw [others.unique holds] at member
    exact (inside entry member).2.trans_lt (indexOffset_lt parsed)
  · intro small entry member
    obtain ⟨behind, before⟩ := passes entry member
    rw [Nat.mod_eq_of_lt (small blocks holds entry member)] at before
    exact ⟨behind, before⟩

/-! ## An offset that wraps -/

/-- A header that names one block, and an index behind a data region of so many bytes. -/
def oneEntryFile (data : Nat) (entry : BlockIndexEntry) : Bytes :=
  writeHeader 4096 1 (kSstHeaderBytes + data) 1 ++ (List.replicate data 0 ++ writeIndex [entry])

theorem parseSstHeader_oneEntryFile {data : Nat} {entry : BlockIndexEntry} (small : data < 2 ^ 32) :
    parseSstHeader ((oneEntryFile data entry).take kSstHeaderBytes) =
      .ok ⟨1, kSstHeaderBytes + data, 1⟩ := by
  have header : (oneEntryFile data entry).take kSstHeaderBytes =
      writeHeader 4096 1 (kSstHeaderBytes + data) 1 := List.take_left' (length_writeHeader ..)
  have offset : (kSstHeaderBytes + data) % 256 ^ 8 = kSstHeaderBytes + data := by
    apply Nat.mod_eq_of_lt
    rw [kSstHeaderBytes]
    omega
  rw [header, parseSstHeader_writeHeader, if_neg (by decide), offset]
  rfl

/-- The reader accepts the file whatever the entry is, as long as it passes the check. -/
theorem loadMetadata_oneEntryFile {data : Nat} {entry : BlockIndexEntry} (small : data < 2 ^ 32)
    (read : readIndexEntry (kSstHeaderBytes + data) (writeIndexEntry entry) = .ok (entry, [])) :
    loadMetadata (oneEntryFile data entry) = .ok [entry] := by
  have index := length_writeIndex_ge [entry]
  have size : (oneEntryFile data entry).length =
      kSstHeaderBytes + data + (writeIndex [entry]).length := by
    rw [oneEntryFile, List.length_append, List.length_append, length_writeHeader, List.length_replicate,
      Nat.add_assoc]
  have behind : (oneEntryFile data entry).drop (kSstHeaderBytes + data) = writeIndex [entry] := by
    rw [oneEntryFile, ← List.append_assoc]
    apply List.drop_left'
    rw [List.length_append, length_writeHeader, List.length_replicate]
  have one : [entry].length % 256 ^ 4 = 1 := rfl
  have entries : readIndexEntries (kSstHeaderBytes + data) 1 (writeIndexEntry entry ++ []) =
      .ok ([entry], []) := by
    rw [readIndexEntries, List.append_nil, read]
    rfl
  rw [loadMetadata, if_neg (by omega), parseSstHeader_oneEntryFile small]
  dsimp only
  rw [if_neg (by omega), behind, take_writeIndex, drop_writeIndex, if_neg, if_neg, count_indexBody, one]
  · dsimp only
    rw [if_neg (by decide), List.flatMap_cons, List.flatMap_nil, entries]
    rfl
  · rw [not_not]
    exact crc_indexBody _
  · rw [not_or, not_not]
    exact ⟨by omega, magic_writeIndex _⟩

/-- A block of one byte whose end comes to 0 in 64 bits. -/
def wrappedEntry : BlockIndexEntry := ⟨2 ^ 64 - 25, 1, 1, 1, [97], [97]⟩

/-- The file is accepted, and its block lies far behind its end. -/
theorem extentsInside_not_wrapped :
    loadMetadata (oneEntryFile 0 wrappedEntry) = .ok [wrappedEntry] ∧
      parseSstHeader ((oneEntryFile 0 wrappedEntry).take kSstHeaderBytes) = .ok ⟨1, 64, 1⟩ ∧
      ¬InsideData 64 wrappedEntry := by
  refine ⟨loadMetadata_oneEntryFile (by decide) (by rfl), parseSstHeader_oneEntryFile (by decide), ?_⟩
  rintro ⟨-, before⟩
  exact absurd before (by decide)

def plainEntry : BlockIndexEntry := ⟨64, 1, 1, 1, [97], [97]⟩

theorem extentsInside_plain : InsideData 89 plainEntry := by
  have accepted : loadMetadata (oneEntryFile 25 plainEntry) = .ok [plainEntry] :=
    loadMetadata_oneEntryFile (by decide) (by rfl)
  have parsed : parseSstHeader ((oneEntryFile 25 plainEntry).take kSstHeaderBytes) = .ok ⟨1, 89, 1⟩ :=
    parseSstHeader_oneEntryFile (by decide)
  refine (extentsInside_iff accepted parsed).mpr (fun entries holds entry member => ?_) plainEntry
    (List.mem_singleton_self _)
  have own := holds.unique (indexHolds_of_accepted accepted parsed).1
  rw [own, List.mem_singleton] at member
  rw [member]
  decide

end PacificDb.Sst
