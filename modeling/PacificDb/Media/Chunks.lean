import PacificDb.Lib.SameOn
import Mathlib.Algebra.Order.Group.Nat
import Mathlib.Data.List.AList
import Mathlib.Data.Nat.Digits.Defs

/-!
# Media chunks

A media file is stored in chunks of one size, each in a file of its own, and a range of it
is read from the chunks that it touches, with or without their checksums. Positions are
numbers of 64 bits.

A range comes back as it was stored (`readsRange_iff`), unless its end or the number of
chunks is a sum that does not fit.
-/

namespace PacificDb.Media

open Lib

abbrev Bytes := List UInt8

/-- The files of a directory. -/
abbrev ChunkDir := AList fun _ : String => Bytes

/-! ## The code -/

structure MediaChunkMeta where
  index : Nat
  size : Nat
  checksum : String

def chunkName (index : Nat) : String := "chunk-" ++ toString index ++ ".bin"

/-- The bytes that go into a chunk. -/
def chunkBytesAt (binaryData : Bytes) (chunkBytes i : Nat) : Bytes :=
  (binaryData.drop (i * chunkBytes)).take (min chunkBytes (binaryData.length - i * chunkBytes))

/-- `writeMediaChunks`, with file operations that succeed: what it says of the chunks, and
the files. -/
def writeMediaChunks (sha256 : Bytes → String) (binaryData : Bytes) (chunkBytes : Nat) :
    Option (List MediaChunkMeta × ChunkDir) :=
  if chunkBytes = 0 then none
  else
    let outChunkCount := (binaryData.length + chunkBytes - 1) % 2 ^ 64 / chunkBytes
    let outChunks := (List.range outChunkCount).map fun i =>
      ⟨i, (chunkBytesAt binaryData chunkBytes i).length, sha256 (chunkBytesAt binaryData chunkBytes i)⟩
    let files := (List.range outChunkCount).foldl (fun files i =>
      files.insert (chunkName i) (chunkBytesAt binaryData chunkBytes i)) ∅
    some (outChunks, files)

/-- `sliceBinary`; none is a range whose end is before its start, which has no meaning. -/
def sliceBinary (data : Bytes) (offset length : Nat) : Option Bytes :=
  if data.length ≤ offset then some []
  else
    let stop := if 0 < length then min data.length ((offset + length) % 2 ^ 64) else data.length
    if stop < offset then none else some ((data.take stop).drop offset)

/-- An entry of the manifest about a bad chunk. -/
structure MediaNote where
  chunk : Nat
  expected : String
  actual : Option String
  repaired : Bool

structure MediaReadOutcome where
  data : Bytes := []
  ok : Bool := true
  repaired : Bool := false
  failedChunk : Option Nat := none
  error : String := ""
  notes : List MediaNote := []

/-- The optional arguments of a read. -/
structure ReadOptions where
  checksums : Option (List String) := none
  chunkSizes : Option (List Nat) := none
  enforceIntegrity : Bool := false
  attemptRepair : Bool := false
  hasManifest : Bool := false

/-- `attemptReplicaRepair`: the chunk of the first replica that has the checksum. -/
def attemptReplicaRepair (sha256 : Bytes → String) (replicas : List ChunkDir) (chunkIndex : Nat)
    (expectedChecksum : String) : Option Bytes :=
  replicas.findSome? fun replica =>
    (replica.lookup (chunkName chunkIndex)).filter fun candidate => sha256 candidate = expectedChecksum

/-- Whether the checksum of a chunk, and its size if that is known, are as expected. -/
def checksumOk (sha256 : Bytes → String) (options : ReadOptions) (chunkIndex : Nat) (expected : String)
    (chunkData : Bytes) : Bool :=
  (expected = "" || sha256 chunkData = expected) &&
    match options.chunkSizes.bind fun sizes => sizes[chunkIndex]? with
    | some expectedSize => !(decide (0 < expectedSize) && expectedSize != chunkData.length)
    | none => true

/-- A chunk that is read as a whole and validated, or repaired. -/
def validateChunk (sha256 : Bytes → String) (replicas : List ChunkDir) (options : ReadOptions)
    (chunkIndex : Nat) (expected : String) (chunkData : Bytes) (outcome : MediaReadOutcome) :
    Except MediaReadOutcome (MediaReadOutcome × Bytes) :=
  let note (actual : Option String) (repaired : Bool) :=
    if options.hasManifest then [MediaNote.mk chunkIndex expected actual repaired] else []
  if checksumOk sha256 options chunkIndex expected chunkData then .ok (outcome, chunkData)
  else
    let repair := if options.attemptRepair && expected != "" then
      attemptReplicaRepair sha256 replicas chunkIndex expected else none
    match repair with
    | some chunkData =>
        .ok ({ outcome with repaired := true, notes := outcome.notes ++ note none true }, chunkData)
    | none => .error { outcome with
        ok := false
        failedChunk := some chunkIndex
        error := "media_checksum_mismatch"
        notes := outcome.notes ++ note (some (sha256 chunkData)) false }

/-- The part of a chunk between two positions in it, as far as there are bytes. -/
def chunkSlice (chunkData : Bytes) (chunkOffset chunkEnd : Nat) : Bytes :=
  (chunkData.take chunkEnd).drop chunkOffset

/-- One round of the loop of `readChunkRange`. -/
def readChunk (sha256 : Bytes → String) (replicas : List ChunkDir) (files : ChunkDir)
    (options : ReadOptions) (chunkBytes offset endPos startChunk endChunk chunkIndex : Nat)
    (outcome : MediaReadOutcome) : Except MediaReadOutcome MediaReadOutcome :=
  match files.lookup (chunkName chunkIndex) with
  | none => .error { outcome with
      ok := false, failedChunk := some chunkIndex, error := "media_chunk_missing" }
  | some stored =>
      let checked := if options.enforceIntegrity then
        match options.checksums.bind fun checksums => checksums[chunkIndex]? with
        | some expected => validateChunk sha256 replicas options chunkIndex expected stored outcome
        | none => .ok (outcome, stored)
      else .ok (outcome, stored)
      match checked with
      | .error failed => .error failed
      | .ok (outcome, chunkData) =>
          let chunkOffset := if chunkIndex = startChunk then offset % chunkBytes else 0
          let chunkEnd := if chunkIndex = endChunk then endPos % chunkBytes else chunkBytes
          let chunkEnd := if chunkIndex = endChunk ∧ chunkEnd = 0 then chunkBytes else chunkEnd
          .ok { outcome with data := outcome.data ++ chunkSlice chunkData chunkOffset chunkEnd }

def readChunks (sha256 : Bytes → String) (replicas : List ChunkDir) (files : ChunkDir)
    (options : ReadOptions) (chunkBytes offset endPos startChunk endChunk : Nat) :
    List Nat → MediaReadOutcome → MediaReadOutcome
  | [], outcome => outcome
  | chunkIndex :: rest, outcome =>
      match readChunk sha256 replicas files options chunkBytes offset endPos startChunk endChunk
        chunkIndex outcome with
      | .error failed => failed
      | .ok outcome => readChunks sha256 replicas files options chunkBytes offset endPos startChunk
          endChunk rest outcome

def readChunkRange (sha256 : Bytes → String) (replicas : List ChunkDir) (files : ChunkDir)
    (chunkCount chunkBytes totalSize offset length : Nat) (options : ReadOptions) : MediaReadOutcome :=
  if chunkCount = 0 ∨ chunkBytes = 0 ∨ totalSize = 0 then {}
  else if totalSize ≤ offset then {}
  else if options.enforceIntegrity && options.checksums.any fun checksums => checksums.length < chunkCount then
    { ok := false, error := "media_manifest_incomplete" }
  else
    let endPos := if 0 < length then min totalSize ((offset + length) % 2 ^ 64) else totalSize
    if endPos ≤ offset then {}
    else
      let startChunk := offset / chunkBytes
      let endChunk := (endPos - 1) / chunkBytes
      readChunks sha256 replicas files options chunkBytes offset endPos startChunk endChunk
        (List.range' startChunk (endChunk + 1 - startChunk)) {}

/-! ## Slices -/

section Slices

variable {data : Bytes} {first second third : Nat}

/-- The bytes between two positions. -/
def slice (data : Bytes) (first second : Nat) : Bytes := (data.take second).drop first

theorem slice_append (before : first ≤ second) (behind : second ≤ third) :
    slice data first second ++ slice data second third = slice data first third := by
  have whole : data.take third = data.take second ++ (data.take third).drop second := by
    have front : data.take second = (data.take third).take second := by
      rw [List.take_take, Nat.min_eq_left behind]
    rw [front, List.take_append_drop]
  rw [slice, slice, slice]
  conv_rhs => rw [whole]
  by_cases short : first ≤ (data.take second).length
  · rw [List.drop_append_of_le_length short]
  · have long := Nat.lt_of_not_le short
    rw [List.length_take] at long
    have none : (data.take third).drop second = [] := by
      apply List.drop_eq_nil_of_le
      rw [List.length_take]
      omega
    rw [none, List.append_nil, List.append_nil]

/-- The part of a chunk is a part of the file. -/
theorem chunkSlice_chunkBytesAt {chunkBytes i lower upper : Nat} (inside : upper ≤ chunkBytes) :
    chunkSlice (chunkBytesAt data chunkBytes i) lower upper =
      slice data (i * chunkBytes + lower) (i * chunkBytes + upper) := by
  have whole : chunkBytesAt data chunkBytes i = (data.drop (i * chunkBytes)).take chunkBytes := by
    rw [chunkBytesAt, ← List.length_drop]
    rcases Nat.le_total chunkBytes (data.drop (i * chunkBytes)).length with long | short
    · rw [Nat.min_eq_left long]
    · rw [Nat.min_eq_right short, List.take_length, List.take_of_length_le short]
  rw [chunkSlice, whole, slice, List.take_take, Nat.min_eq_left inside, List.take_drop, List.drop_drop]

end Slices

/-! ## The files -/

theorem chunkName_inj {first second : Nat} (same : chunkName first = chunkName second) : first = second := by
  have lists := congrArg String.toList same
  simp only [chunkName, String.toList_append] at lists
  have digits := List.append_cancel_left (List.append_cancel_right lists)
  have text : ∀ n : Nat, (toString n).toList = Nat.toDigits 10 n := fun n => String.toList_ofList
  rw [text, text] at digits
  rw [← @Nat.ofDigitChars_ten_toDigits first, digits, Nat.ofDigitChars_ten_toDigits]

theorem lookup_chunkFiles (chunk : Nat → Bytes) (count i : Nat) :
    ((List.range count).foldl (fun files i => files.insert (chunkName i) (chunk i))
      (∅ : ChunkDir)).lookup (chunkName i) = if i < count then some (chunk i) else none := by
  induction count with
  | zero => rfl
  | succ count ih =>
    rw [List.range_succ, List.foldl_append, List.foldl_cons, List.foldl_nil]
    by_cases last : i = count
    · subst last
      rw [AList.lookup_insert, if_pos (Nat.lt_succ_self i)]
    · rw [AList.lookup_insert_ne fun same => last (chunkName_inj same), ih]
      by_cases before : i < count
      · rw [if_pos before, if_pos (by omega)]
      · rw [if_neg before, if_neg (by omega)]

/-! ## The loop -/

section Loop

variable {sha256 : Bytes → String} {replicas : List ChunkDir} {files : ChunkDir} {options : ReadOptions}
  {data : Bytes} {chunkBytes offset endPos : Nat}

/-- What the writer says of the chunks. -/
def chunkMetas (sha256 : Bytes → String) (data : Bytes) (chunkBytes count : Nat) : List MediaChunkMeta :=
  (List.range count).map fun i =>
    ⟨i, (chunkBytesAt data chunkBytes i).length, sha256 (chunkBytesAt data chunkBytes i)⟩

/-- Checksums and sizes, where they are given, are those of the writer. -/
structure ReadOptions.Of (options : ReadOptions) (metas : List MediaChunkMeta) : Prop where
  checksums : ∀ checksums ∈ options.checksums, checksums = metas.map MediaChunkMeta.checksum
  chunkSizes : ∀ sizes ∈ options.chunkSizes, sizes = metas.map MediaChunkMeta.size

/-- An intact chunk passes. -/
theorem checksumOk_chunk {count i : Nat} (own : options.Of (chunkMetas sha256 data chunkBytes count))
    (inside : i < count) : checksumOk sha256 options i (sha256 (chunkBytesAt data chunkBytes i))
      (chunkBytesAt data chunkBytes i) = true := by
  rw [checksumOk, decide_eq_true (rfl : sha256 (chunkBytesAt data chunkBytes i) = _), Bool.or_true,
    Bool.true_and]
  cases given : options.chunkSizes with
  | none => rfl
  | some sizes =>
    have known : sizes[i]? = some (chunkBytesAt data chunkBytes i).length := by
      rw [own.chunkSizes sizes given, chunkMetas, List.map_map, List.getElem?_map,
        List.getElem?_range inside]
      rfl
    rw [Option.bind_some, known]
    simp

/-- Where a chunk is entered. -/
theorem chunkOffset_eq {i : Nat} (positive : 0 < chunkBytes) (start : offset / chunkBytes ≤ i) :
    i * chunkBytes + (if i = offset / chunkBytes then offset % chunkBytes else 0) =
      max offset (i * chunkBytes) := by
  have whole := Nat.div_add_mod' offset chunkBytes
  have rest := Nat.mod_lt offset positive
  split
  next same =>
    rw [same, whole]
    omega
  next other =>
    have later := Nat.mul_le_mul_right chunkBytes (show offset / chunkBytes + 1 ≤ i by omega)
    rw [Nat.succ_mul] at later
    omega

/-- Where it is left. -/
theorem chunkEnd_eq {i : Nat} (positive : 0 < chunkBytes) (ordered : offset < endPos)
    (stop : i ≤ (endPos - 1) / chunkBytes) :
    let chunkEnd := if i = (endPos - 1) / chunkBytes then endPos % chunkBytes else chunkBytes
    let chunkEnd := if i = (endPos - 1) / chunkBytes ∧ chunkEnd = 0 then chunkBytes else chunkEnd
    chunkEnd ≤ chunkBytes ∧ i * chunkBytes + chunkEnd = min endPos ((i + 1) * chunkBytes) := by
  have whole := Nat.div_add_mod' (endPos - 1) chunkBytes
  have rest := Nat.mod_lt (endPos - 1) positive
  dsimp only
  by_cases last : i = (endPos - 1) / chunkBytes
  · rw [← last] at whole
    rw [if_pos last, Nat.succ_mul]
    have isEnd : endPos = i * chunkBytes + ((endPos - 1) % chunkBytes + 1) := by omega
    by_cases full : (endPos - 1) % chunkBytes + 1 = chunkBytes
    · have none : endPos % chunkBytes = 0 := by
        rw [isEnd, full, Nat.mul_add_mod', Nat.mod_self]
      rw [if_pos ⟨last, none⟩]
      omega
    · have part : endPos % chunkBytes = (endPos - 1) % chunkBytes + 1 := by
        conv_lhs => rw [isEnd]
        rw [Nat.mul_add_mod', Nat.mod_eq_of_lt (by omega)]
      rw [if_neg fun both => by omega, part]
      omega
  · have later := Nat.mul_le_mul_right chunkBytes (show i + 1 ≤ (endPos - 1) / chunkBytes by omega)
    rw [if_neg last, if_neg fun both => last both.1]
    refine ⟨le_rfl, ?_⟩
    rw [Nat.succ_mul] at later ⊢
    omega

theorem readChunk_intact {count i : Nat} (own : options.Of (chunkMetas sha256 data chunkBytes count))
    (inside : i < count) (stored : files.lookup (chunkName i) = some (chunkBytesAt data chunkBytes i))
    (positive : 0 < chunkBytes) (start : offset / chunkBytes ≤ i) (stop : i ≤ (endPos - 1) / chunkBytes)
    (ordered : offset < endPos) (outcome : MediaReadOutcome) :
    readChunk sha256 replicas files options chunkBytes offset endPos (offset / chunkBytes)
        ((endPos - 1) / chunkBytes) i outcome =
      .ok { outcome with
        data := outcome.data ++ slice data (max offset (i * chunkBytes)) (min endPos ((i + 1) * chunkBytes)) } := by
  have checked : (if options.enforceIntegrity then
      match options.checksums.bind fun checksums => checksums[i]? with
      | some expected => validateChunk sha256 replicas options i expected (chunkBytesAt data chunkBytes i) outcome
      | none => .ok (outcome, chunkBytesAt data chunkBytes i)
      else .ok (outcome, chunkBytesAt data chunkBytes i)) =
        (.ok (outcome, chunkBytesAt data chunkBytes i) : Except MediaReadOutcome _) := by
    split
    · split
      next expected found =>
        obtain ⟨checksums, given, listed⟩ := Option.bind_eq_some_iff.mp found
        have isOwn : expected = sha256 (chunkBytesAt data chunkBytes i) := by
          rw [own.checksums checksums given, chunkMetas, List.map_map, List.getElem?_map,
            List.getElem?_range inside] at listed
          exact (Option.some.inj listed).symm
        rw [validateChunk, isOwn, checksumOk_chunk own inside]
        rfl
      next => rfl
    · rfl
  rw [readChunk, stored]
  dsimp only
  rw [checked]
  dsimp only
  obtain ⟨within, upper⟩ := @chunkEnd_eq chunkBytes offset endPos i positive ordered stop
  rw [chunkSlice_chunkBytesAt within, upper, chunkOffset_eq positive start]

/-- The chunks from one on give the bytes up to the end of the range. -/
theorem readChunks_intact {count : Nat} (own : options.Of (chunkMetas sha256 data chunkBytes count))
    (stored : ∀ i < count, files.lookup (chunkName i) = some (chunkBytesAt data chunkBytes i))
    (positive : 0 < chunkBytes) (ordered : offset < endPos) (inside : (endPos - 1) / chunkBytes < count)
    (left i : Nat) (start : offset / chunkBytes ≤ i) (whole : i + left = (endPos - 1) / chunkBytes)
    (outcome : MediaReadOutcome) :
    readChunks sha256 replicas files options chunkBytes offset endPos (offset / chunkBytes)
        ((endPos - 1) / chunkBytes) (List.range' i (left + 1)) outcome =
      { outcome with data := outcome.data ++ slice data (max offset (i * chunkBytes)) endPos } := by
  have last := Nat.div_add_mod' (endPos - 1) chunkBytes
  have rest := Nat.mod_lt (endPos - 1) positive
  have below := Nat.mul_le_mul_right chunkBytes (show i ≤ (endPos - 1) / chunkBytes by omega)
  induction left generalizing i outcome with
  | zero =>
    have isLast : i = (endPos - 1) / chunkBytes := whole
    have top : min endPos ((i + 1) * chunkBytes) = endPos := by
      rw [Nat.succ_mul, isLast]
      omega
    rw [List.range'_succ, List.range'_zero, readChunks,
      readChunk_intact own (by omega) (stored i (by omega)) positive start (by omega) ordered, top]
    rfl
  | succ left ih =>
    have next := Nat.mul_le_mul_right chunkBytes (show i + 1 ≤ (endPos - 1) / chunkBytes by omega)
    have first := Nat.lt_div_mul_add positive (a := offset)
    have firstBelow := Nat.mul_le_mul_right chunkBytes start
    rw [Nat.succ_mul] at next
    have middle : min endPos ((i + 1) * chunkBytes) = max offset ((i + 1) * chunkBytes) := by
      rw [Nat.succ_mul]
      omega
    rw [List.range'_succ, readChunks,
      readChunk_intact own (by omega) (stored i (by omega)) positive start (by omega) ordered]
    dsimp only
    rw [ih (i + 1) (by omega) (by omega) _ (by rw [Nat.succ_mul]; exact next), middle, List.append_assoc,
      slice_append]
    · rw [Nat.succ_mul]
      omega
    · rw [Nat.succ_mul]
      omega

end Loop

/-! ## Ranges -/

section Ranges

variable {sha256 : Bytes → String} {replicas : List ChunkDir} {options : ReadOptions} {data : Bytes}
  {chunkBytes offset length : Nat}

/-- The bytes of a range, by exact sums; without a length up to the end. -/
def exactRange (data : Bytes) (offset length : Nat) : Bytes :=
  slice data offset (if length = 0 then data.length else min data.length (offset + length))

/-- The stored chunks and the data itself give the bytes of the range. -/
def ReadsRange (sha256 : Bytes → String) (replicas : List ChunkDir) (options : ReadOptions) (data : Bytes)
    (chunkBytes offset length : Nat) : Prop :=
  (∃ metas files, writeMediaChunks sha256 data chunkBytes = some (metas, files) ∧
    let outcome := readChunkRange sha256 replicas files metas.length chunkBytes data.length offset length
      options
    outcome.ok = true ∧ outcome.data = exactRange data offset length) ∧
  sliceBinary data offset length = some (exactRange data offset length)

/-- The checksums and sizes a reader may give are those that the writer has returned. -/
def OwnOptions (sha256 : Bytes → String) (options : ReadOptions) (data : Bytes) (chunkBytes : Nat) : Prop :=
  ∀ metas files, writeMediaChunks sha256 data chunkBytes = some (metas, files) → options.Of metas

theorem writeMediaChunks_eq (positive : 0 < chunkBytes) : ∃ files,
    writeMediaChunks sha256 data chunkBytes = some (chunkMetas sha256 data chunkBytes
      ((data.length + chunkBytes - 1) % 2 ^ 64 / chunkBytes), files) ∧
    ∀ i < (data.length + chunkBytes - 1) % 2 ^ 64 / chunkBytes,
      files.lookup (chunkName i) = some (chunkBytesAt data chunkBytes i) := by
  rw [writeMediaChunks, if_neg positive.ne']
  exact ⟨_, rfl, fun i inside => (lookup_chunkFiles _ _ i).trans (if_pos inside)⟩

theorem exactRange_of_behind (behind : data.length ≤ offset) : exactRange data offset length = [] := by
  apply List.drop_eq_nil_of_le
  rw [List.length_take]
  omega

theorem length_exactRange : (exactRange data offset length).length =
    (if length = 0 then data.length else min data.length (offset + length)) - offset := by
  rw [exactRange, slice, List.length_drop, List.length_take]
  split <;> omega

/-- A range that starts in the data is read as it is when no sum wraps. -/
theorem readsRange_of_fits (positive : 0 < chunkBytes) (inside : offset < data.length)
    (fitsChunk : data.length + chunkBytes ≤ 2 ^ 64) (fitsEnd : length = 0 ∨ offset + length < 2 ^ 64)
    (own : OwnOptions sha256 options data chunkBytes) :
    ReadsRange sha256 replicas options data chunkBytes offset length := by
  -- the end of the range as the code computes it
  have stop : (if 0 < length then min data.length ((offset + length) % 2 ^ 64) else data.length) =
      if length = 0 then data.length else min data.length (offset + length) := by
    by_cases none : length = 0
    · rw [if_neg (by omega), if_pos none]
    · rw [if_pos (by omega), if_neg none, Nat.mod_eq_of_lt (fitsEnd.resolve_left none)]
  have ordered : offset < if length = 0 then data.length else min data.length (offset + length) := by
    split <;> omega
  have within : (if length = 0 then data.length else min data.length (offset + length)) ≤ data.length := by
    split <;> omega
  have exact_ : exactRange data offset length =
      slice data offset (if length = 0 then data.length else min data.length (offset + length)) := rfl
  rw [ReadsRange, exact_]
  unfold sliceBinary readChunkRange
  dsimp only
  rw [stop]
  generalize (if length = 0 then data.length else min data.length (offset + length)) = endPos at ordered within
  refine ⟨?_, ?_⟩
  · obtain ⟨files, written, stored⟩ := @writeMediaChunks_eq sha256 data chunkBytes positive
    have count : (data.length + chunkBytes - 1) % 2 ^ 64 / chunkBytes = (data.length - 1) / chunkBytes + 1 := by
      rw [Nat.mod_eq_of_lt (by omega), ← Nat.add_div_right _ positive]
      congr 1
      omega
    rw [count] at written stored
    have last : (endPos - 1) / chunkBytes ≤ (data.length - 1) / chunkBytes :=
      Nat.div_le_div_right (by omega)
    have start : offset / chunkBytes ≤ (endPos - 1) / chunkBytes := Nat.div_le_div_right (by omega)
    have size : (chunkMetas sha256 data chunkBytes ((data.length - 1) / chunkBytes + 1)).length =
        (data.length - 1) / chunkBytes + 1 := by
      rw [chunkMetas, List.length_map, List.length_range]
    have complete : (options.enforceIntegrity && options.checksums.any fun checksums =>
        checksums.length < (data.length - 1) / chunkBytes + 1) = false := by
      cases given : options.checksums with
      | none => rw [Option.any_none, Bool.and_false]
      | some checksums =>
        rw [Option.any_some, (own _ _ written).checksums checksums given, List.length_map, size,
          decide_eq_false (Nat.lt_irrefl _), Bool.and_false]
    refine ⟨_, files, written, ?_⟩
    have nonempty : ¬((data.length - 1) / chunkBytes + 1 = 0 ∨ chunkBytes = 0 ∨ data.length = 0) := by
      rintro (none | none | none)
      · exact Nat.succ_ne_zero _ none
      · omega
      · omega
    rw [size, if_neg nonempty, if_neg (by omega), complete, if_neg Bool.false_ne_true, if_neg (by omega),
      Nat.succ_sub start, readChunks_intact (own _ _ written) stored positive ordered
        (Nat.lt_succ_of_le last) _ _ le_rfl (Nat.add_sub_cancel' start)]
    have enter := Nat.div_mul_le_self offset chunkBytes
    refine ⟨rfl, ?_⟩
    dsimp only
    rw [List.nil_append, Nat.max_eq_left enter]
  · rw [if_neg (by omega), if_neg (by omega)]
    rfl

/-- A range of stored data is read as it is, exactly when it is behind the data, or the
data and one chunk fit 64 bits and so does the end of the range. -/
theorem readsRange_iff (fitsData : data.length < 2 ^ 64) (positive : 0 < chunkBytes)
    (fitsOffset : offset < 2 ^ 64) (fitsLength : length < 2 ^ 64)
    (own : OwnOptions sha256 options data chunkBytes) :
    ReadsRange sha256 replicas options data chunkBytes offset length ↔
      data.length ≤ offset ∨
        (data.length + chunkBytes ≤ 2 ^ 64 ∧ (length = 0 ∨ offset + length < 2 ^ 64)) := by
  obtain ⟨files, written, stored⟩ := @writeMediaChunks_eq sha256 data chunkBytes positive
  by_cases behind : data.length ≤ offset
  · refine iff_of_true ⟨⟨_, files, written, ?_⟩, ?_⟩ (.inl behind)
    · unfold readChunkRange
      dsimp only
      rw [exactRange_of_behind behind, if_pos behind, ite_self]
      exact ⟨rfl, rfl⟩
    · rw [sliceBinary, if_pos behind, exactRange_of_behind behind]
  · have some : 0 < (exactRange data offset length).length := by
      rw [length_exactRange]
      split <;> omega
    rw [or_iff_right behind]
    constructor
    · rintro ⟨⟨metas, others, again, -, isData⟩, isSlice⟩
      cases written.symm.trans again
      constructor
      · by_contra wraps
        -- the number of chunks comes to 0
        have none : (data.length + chunkBytes - 1) % 2 ^ 64 / chunkBytes = 0 := by
          apply Nat.div_eq_of_lt
          omega
        rw [none, chunkMetas, List.range_zero, List.map_nil, List.length_nil, readChunkRange,
          if_pos (.inl rfl)] at isData
        rw [← isData] at some
        exact absurd some (Nat.lt_irrefl 0)
      · by_contra wraps
        rw [not_or, Nat.not_lt] at wraps
        obtain ⟨given, wraps⟩ := wraps
        -- the end comes before the start
        have small : (offset + length) % 2 ^ 64 < offset := by omega
        rw [sliceBinary, if_neg behind, if_pos (Nat.pos_of_ne_zero given)] at isSlice
        dsimp only at isSlice
        rw [if_pos (by omega)] at isSlice
        cases isSlice
    · rintro ⟨fitsChunk, fitsEnd⟩
      exact readsRange_of_fits positive (Nat.lt_of_not_le behind) fitsChunk fitsEnd own

/-- A length that leads past the greatest position reads nothing. -/
theorem readsRange_not_wrapped :
    (∃ metas files, writeMediaChunks (fun _ => "") [1, 2, 3] 2 = some (metas, files) ∧
      (readChunkRange (fun _ => "") [] files metas.length 2 3 1 (2 ^ 64 - 1) {}).data = []) ∧
      sliceBinary [1, 2, 3] 1 (2 ^ 64 - 1) = none ∧ exactRange [1, 2, 3] 1 (2 ^ 64 - 1) = [2, 3] ∧
      ¬ReadsRange (fun _ => "") [] {} [1, 2, 3] 2 1 (2 ^ 64 - 1) := by
  have sliced : sliceBinary [1, 2, 3] 1 (2 ^ 64 - 1) = none := by decide
  refine ⟨⟨_, _, rfl, by rfl⟩, sliced, by decide, ?_⟩
  rintro ⟨-, isSlice⟩
  rw [sliced] at isSlice
  cases isSlice

/-- Checksums and sizes of three chunks, which the read compares and enforces. -/
def lengthOptions : ReadOptions where
  checksums := some ["2", "2", "1"]
  chunkSizes := some [2, 2, 1]
  enforceIntegrity := true
  hasManifest := true

/-- A range over the end of a chunk, with the length of a chunk for its checksum. -/
theorem readsRange_middle :
    ReadsRange (fun bytes => toString bytes.length) [] lengthOptions [1, 2, 3, 4, 5] 2 1 3 := by
  have own : OwnOptions (fun bytes => toString bytes.length) lengthOptions [1, 2, 3, 4, 5] 2 := by
    rintro metas files written
    cases written
    exact ⟨fun _ given => by cases given; decide, fun _ given => by cases given; decide⟩
  exact (readsRange_iff (by decide) (by decide) (by decide) (by decide) own).mpr
    (.inr ⟨by decide, .inr (by decide)⟩)

end Ranges

end PacificDb.Media
