import Mathlib.Data.Prod.Lex
import PacificDb.Sst.File

/-!
# Segments of a column index

A segment is a header and the mutations of one batch, sorted by value, id and kind.
The writer bounds the fields of each mutation; the reader bounds the number of the
mutations and the size of the payload as well. A segment is read back exactly when it
keeps those bounds too.

Strings are lists of bytes.
-/

namespace PacificDb.Index

open Lib Sst

/-- `IndexMutation::Op`. -/
inductive Op where
  | clear
  | put
  deriving Repr, DecidableEq

def Op.code : Op → UInt8
  | .clear => 1
  | .put => 2

def Op.ofCode? (code : UInt8) : Option Op :=
  if code = 1 then some .clear else if code = 2 then some .put else none

structure IndexMutation where
  op : Op := .put
  value : Bytes
  id : Bytes
  deriving Repr, DecidableEq

structure IndexSegment where
  snapshot : Bool := false
  mutations : List IndexMutation := []
  deriving Repr, DecidableEq

def kIndexMagic : Bytes := [80, 68, 66, 67, 73, 88, 50, 0]

def kIndexHeaderBytes : Nat := 40

/-! ## Writing -/

/-- The order of the mutations in a segment. -/
def mutationLess (left right : IndexMutation) : Bool :=
  if left.value ≠ right.value then decide (left.value < right.value)
  else if left.id ≠ right.id then decide (left.id < right.id)
  else decide (left.op.code < right.op.code)

def sortMutations (mutations : List IndexMutation) : List IndexMutation :=
  mutations.mergeSort fun left right => !mutationLess right left

/-- The mutation is within the limits of the format. -/
def IndexMutation.Fits (mutation : IndexMutation) : Prop :=
  mutation.id ≠ [] ∧ mutation.id.length ≤ kMaxFieldBytes ∧ mutation.value.length ≤ kMaxFieldBytes

instance (mutation : IndexMutation) : Decidable mutation.Fits :=
  inferInstanceAs (Decidable (_ ∧ _ ∧ _))

def encodeMutation (mutation : IndexMutation) : Bytes :=
  mutation.op.code :: 0 :: 0 :: 0 ::
    (leBytes 4 mutation.value.length ++ (leBytes 4 mutation.id.length ++
      (mutation.value ++ mutation.id)))

def indexPayload (mutations : List IndexMutation) : Except String Bytes :=
  let append (payload : Bytes) (mutation : IndexMutation) : Except String Bytes :=
    if mutation.Fits then .ok (payload ++ encodeMutation mutation)
    else .error "column-index mutation exceeds format limit"
  mutations.foldlM append []

def indexHeader (snapshot : Bool) (count : Nat) (payload : Bytes) : Bytes :=
  kIndexMagic ++ (leBytes 4 kVersion ++ (leBytes 4 (if snapshot then 1 else 0) ++ (leBytes 8 count ++
    (leBytes 8 payload.length ++ (leBytes 4 (crc32c payload).toNat ++ leBytes 4 0)))))

/-- The file that `writeIndexSegment` publishes. -/
def segmentFile (mutations : List IndexMutation) (snapshot : Bool) : Except String Bytes := do
  let payload ← indexPayload (sortMutations mutations)
  return indexHeader snapshot mutations.length payload ++ payload

/-! ## Reading -/

/-- One mutation of the payload. -/
def readMutation (bytes : Bytes) : Except String (IndexMutation × Bytes) :=
  match readFixed 4 bytes with
  | none => .error "truncated column-index mutation"
  | some (kind, rest) =>
      let fields : Option (Op × Nat × Nat × Bytes) := do
        let op ← Op.ofCode? (kind.headD 0)
        let (valueSize, rest) ← readWord 4 rest
        let (idSize, rest) ← readWord 4 rest
        return (op, valueSize, idSize, rest)
      match fields with
      | none => .error "invalid column-index mutation"
      | some (op, valueSize, idSize, rest) =>
          if kMaxFieldBytes < valueSize ∨ idSize = 0 ∨ kMaxFieldBytes < idSize ∨
              rest.length < valueSize + idSize then
            .error "invalid column-index mutation"
          else
            .ok (⟨op, rest.take valueSize, (rest.drop valueSize).take idSize⟩,
              (rest.drop valueSize).drop idSize)

def readMutations : Nat → Bytes → Except String (List IndexMutation × Bytes)
  | 0, bytes => .ok ([], bytes)
  | count + 1, bytes => do
      let (mutation, rest) ← readMutation bytes
      let (mutations, left) ← readMutations count rest
      return (mutation :: mutations, left)

structure SegmentHeader where
  version : Nat
  flags : Nat
  count : Nat
  payloadSize : Nat
  checksum : Nat

def readSegmentHeader (header : Bytes) : Option SegmentHeader := do
  let (version, rest) ← readWord 4 (header.drop kIndexMagic.length)
  let (flags, rest) ← readWord 4 rest
  let (count, rest) ← readWord 8 rest
  let (payloadSize, rest) ← readWord 8 rest
  let (checksum, rest) ← readWord 4 rest
  let _ ← readWord 4 rest
  return ⟨version, flags, count, payloadSize, checksum⟩

/-- The limits that `readIndexSegment` puts on a header. -/
def SegmentHeader.Supported (header : SegmentHeader) : Prop :=
  header.version = kVersion ∧ header.count ≤ kMaxFieldBytes ∧
    header.payloadSize ≤ kMaxFieldBytes * 16

instance (header : SegmentHeader) : Decidable header.Supported :=
  inferInstanceAs (Decidable (_ ∧ _ ∧ _))

/-- The part of the payload that the mutations must fill. -/
def readPayload (header : SegmentHeader) (payload : Bytes) : Except String IndexSegment :=
  match readMutations header.count payload with
  | .error reason => .error reason
  | .ok (mutations, left) =>
      if left.isEmpty then .ok ⟨header.flags % 2 = 1, mutations⟩
      else .error "trailing bytes in column-index segment"

def readIndexSegment (file : Bytes) : Except String IndexSegment :=
  if file.length < kIndexHeaderBytes ∨ file.take kIndexMagic.length ≠ kIndexMagic then
    .error "invalid column-index segment header"
  else
    match (readSegmentHeader (file.take kIndexHeaderBytes)).filter fun header =>
        decide header.Supported with
    | none => .error "unsupported column-index segment"
    | some header =>
        match readFixed header.payloadSize (file.drop kIndexHeaderBytes) with
        | none => .error "column-index segment checksum mismatch or truncation"
        | some (payload, rest) =>
            if rest ≠ [] ∨ (crc32c payload).toNat ≠ header.checksum then
              .error "column-index segment checksum mismatch or truncation"
            else readPayload header payload

/-! ## The order of the mutations -/

variable {mutations : List IndexMutation} {left right : IndexMutation} {snapshot : Bool}

/-- What the mutations of a segment are sorted by. -/
def IndexMutation.sortKey (mutation : IndexMutation) : Bytes ×ₗ Bytes ×ₗ UInt8 :=
  toLex (mutation.value, toLex (mutation.id, mutation.op.code))

theorem mutationLess_iff : mutationLess left right = true ↔ left.sortKey < right.sortKey := by
  unfold mutationLess IndexMutation.sortKey
  rw [Prod.Lex.toLex_lt_toLex, Prod.Lex.toLex_lt_toLex]
  dsimp only
  split
  next differ => rw [decide_eq_true_eq, or_iff_left (fun same => differ same.1)]
  next sameValue =>
    have value : left.value = right.value := not_not.mp sameValue
    rw [or_iff_right (by rw [value]; exact lt_irrefl _), and_iff_right value]
    split
    next differ => rw [decide_eq_true_eq, or_iff_left (fun same => differ same.1)]
    next sameId =>
      have id : left.id = right.id := not_not.mp sameId
      rw [or_iff_right (by rw [id]; exact lt_irrefl _), and_iff_right id, decide_eq_true_eq]

theorem sortMutations_perm (mutations : List IndexMutation) :
    (sortMutations mutations).Perm mutations :=
  List.mergeSort_perm _ _

theorem sortMutations_sorted (mutations : List IndexMutation) :
    (sortMutations mutations).Pairwise fun left right => left.sortKey ≤ right.sortKey := by
  have sorted := @List.pairwise_mergeSort _ (fun left right => !mutationLess right left)
    (fun first second third below above => by
      simp only [Bool.not_eq_true', ← Bool.not_eq_true, mutationLess_iff, not_lt] at below above ⊢
      exact below.trans above)
    (fun first second => by
      simp only [Bool.or_eq_true, Bool.not_eq_true', ← Bool.not_eq_true, mutationLess_iff, not_lt]
      exact le_total _ _) mutations
  apply sorted.imp
  intro first second below
  simpa only [Bool.not_eq_true', ← Bool.not_eq_true, mutationLess_iff, not_lt] using below

/-! ## What the reader makes of a written segment -/

theorem Op.ofCode?_code (op : Op) : Op.ofCode? op.code = some op := by
  cases op with
  | clear => rfl
  | put => rfl

theorem length_encodeMutation (mutation : IndexMutation) :
    (encodeMutation mutation).length = 12 + mutation.value.length + mutation.id.length := by
  simp only [encodeMutation, List.length_cons, List.length_append, length_leBytes]
  omega

theorem readMutation_encodeMutation {mutation : IndexMutation} (fits : mutation.Fits) (rest : Bytes) :
    readMutation (encodeMutation mutation ++ rest) = .ok (mutation, rest) := by
  obtain ⟨named, idFits, valueFits⟩ := fits
  have limit : kMaxFieldBytes < 256 ^ 4 := by decide
  have front : encodeMutation mutation ++ rest = [mutation.op.code, 0, 0, 0] ++
      (leBytes 4 mutation.value.length ++ (leBytes 4 mutation.id.length ++
        (mutation.value ++ (mutation.id ++ rest)))) := by
    simp [encodeMutation, List.append_assoc]
  have some : mutation.id.length ≠ 0 := fun empty => named (List.length_eq_zero_iff.mp empty)
  have kind : [mutation.op.code, 0, 0, 0].length = 4 := rfl
  rw [front, readMutation, readFixed_append' _ kind]
  dsimp only
  rw [List.headD_cons, Op.ofCode?_code]
  dsimp only [Option.bind_eq_bind, Option.bind_some]
  rw [readWord_leBytes_of_lt _ (by omega)]
  dsimp only [Option.bind_some]
  rw [readWord_leBytes_of_lt _ (by omega)]
  dsimp only [Option.bind_some, pure]
  rw [if_neg (by simp only [List.length_append]; omega), List.take_left, List.drop_left,
    List.take_left, List.drop_left]

theorem readMutations_encodeMutations (fits : ∀ mutation ∈ mutations, mutation.Fits) (rest : Bytes) :
    readMutations mutations.length (mutations.flatMap encodeMutation ++ rest) =
      .ok (mutations, rest) := by
  induction mutations with
  | nil => rfl
  | cons mutation later ih =>
    obtain ⟨first, others⟩ := List.forall_mem_cons.mp fits
    rw [List.length_cons, readMutations, List.flatMap_cons, List.append_assoc,
      readMutation_encodeMutation first]
    dsimp only [bind, Except.bind]
    rw [ih others]
    rfl

theorem foldlM_append (fits : ∀ mutation ∈ mutations, mutation.Fits) (payload : Bytes) :
    mutations.foldlM (fun (payload : Bytes) mutation =>
      if mutation.Fits then Except.ok (payload ++ encodeMutation mutation)
      else Except.error "column-index mutation exceeds format limit") payload =
      .ok (payload ++ mutations.flatMap encodeMutation) := by
  induction mutations generalizing payload with
  | nil => simp [pure, Except.pure]
  | cons mutation later ih =>
    obtain ⟨first, others⟩ := List.forall_mem_cons.mp fits
    rw [List.foldlM_cons, if_pos first]
    dsimp only [bind, Except.bind]
    rw [ih others, List.flatMap_cons, List.append_assoc]

theorem indexPayload_of_fits (fits : ∀ mutation ∈ mutations, mutation.Fits) :
    indexPayload mutations = .ok (mutations.flatMap encodeMutation) :=
  foldlM_append fits []

theorem fits_of_foldlM {payload written : Bytes}
    (wrote : mutations.foldlM (fun (payload : Bytes) mutation =>
      if mutation.Fits then Except.ok (payload ++ encodeMutation mutation)
      else Except.error "column-index mutation exceeds format limit") payload = .ok written) :
    ∀ mutation ∈ mutations, mutation.Fits := by
  induction mutations generalizing payload with
  | nil => exact fun mutation member => absurd member List.not_mem_nil
  | cons mutation later ih =>
    rw [List.foldlM_cons] at wrote
    split at wrote
    next first => exact List.forall_mem_cons.mpr ⟨first, ih wrote⟩
    next => cases wrote

/-- The payload of a segment, in the order of its mutations. -/
def sortedPayload (mutations : List IndexMutation) : Bytes :=
  (sortMutations mutations).flatMap encodeMutation

/-- What the mutations take in the payload. -/
def payloadSize (mutations : List IndexMutation) : Nat :=
  (mutations.map fun mutation => 12 + mutation.value.length + mutation.id.length).sum

theorem length_flatMap_encodeMutation (mutations : List IndexMutation) :
    (mutations.flatMap encodeMutation).length = payloadSize mutations := by
  induction mutations with
  | nil => rfl
  | cons mutation later ih =>
    rw [List.flatMap_cons, List.length_append, ih, length_encodeMutation]
    rfl

theorem payloadSize_perm {others : List IndexMutation} (perm : mutations.Perm others) :
    payloadSize mutations = payloadSize others :=
  (perm.map _).sum_nat

theorem length_sortedPayload (mutations : List IndexMutation) :
    (sortedPayload mutations).length = payloadSize mutations := by
  rw [sortedPayload, length_flatMap_encodeMutation, payloadSize_perm (sortMutations_perm mutations)]

theorem twelve_mul_length_le (mutations : List IndexMutation) :
    12 * mutations.length ≤ payloadSize mutations := by
  induction mutations with
  | nil => exact Nat.zero_le _
  | cons mutation later ih =>
    have step : payloadSize (mutation :: later) =
        12 + mutation.value.length + mutation.id.length + payloadSize later := List.sum_cons
    rw [step, List.length_cons]
    omega

/-- The writer refuses a mutation outside its limits and nothing else. -/
theorem segmentFile_eq_ok {file : Bytes} :
    segmentFile mutations snapshot = .ok file ↔ (∀ mutation ∈ mutations, mutation.Fits) ∧
      file = indexHeader snapshot mutations.length (sortedPayload mutations) ++
        sortedPayload mutations := by
  have sameMembers : (∀ mutation ∈ sortMutations mutations, mutation.Fits) ↔
      ∀ mutation ∈ mutations, mutation.Fits := by
    simp only [(sortMutations_perm mutations).mem_iff]
  constructor
  · intro wrote
    have fits : ∀ mutation ∈ sortMutations mutations, mutation.Fits := by
      cases payload : indexPayload (sortMutations mutations) with
      | error reason =>
        rw [segmentFile, payload] at wrote
        cases wrote
      | ok bytes => exact fits_of_foldlM payload
    rw [segmentFile, indexPayload_of_fits fits] at wrote
    cases wrote
    exact ⟨sameMembers.mp fits, rfl⟩
  · rintro ⟨fits, rfl⟩
    rw [segmentFile, indexPayload_of_fits (sameMembers.mpr fits)]
    rfl

theorem segmentFile_ok (fits : ∀ mutation ∈ mutations, mutation.Fits) (snapshot : Bool) :
    ∃ file, segmentFile mutations snapshot = .ok file :=
  ⟨_, segmentFile_eq_ok.mpr ⟨fits, rfl⟩⟩

theorem length_indexHeader (snapshot : Bool) (count : Nat) (payload : Bytes) :
    (indexHeader snapshot count payload).length = kIndexHeaderBytes := by
  simp only [indexHeader, List.length_append, length_leBytes]
  rfl

/-- The header of a segment as it is read back. -/
def writtenHeader (snapshot : Bool) (count : Nat) (payload : Bytes) : SegmentHeader :=
  ⟨kVersion, if snapshot then 1 else 0, count % 2 ^ 64, payload.length % 2 ^ 64,
    (crc32c payload).toNat⟩

theorem readSegmentHeader_indexHeader (snapshot : Bool) (count : Nat) (payload : Bytes) :
    readSegmentHeader (indexHeader snapshot count payload) =
      some (writtenHeader snapshot count payload) := by
  have checksum : (crc32c payload).toNat < 256 ^ 4 := (crc32c payload).toNat_lt
  have flag : (if snapshot then 1 else 0) < 256 ^ 4 := by
    split
    · decide
    · decide
  have wide : 256 ^ 8 = 2 ^ 64 := by decide
  have last : readWord 4 (leBytes 4 0) = some (0, []) := by decide
  rw [readSegmentHeader, indexHeader, List.drop_left, readWord_leBytes_of_lt _ (by decide)]
  dsimp only [Option.bind_eq_bind, Option.bind_some]
  rw [readWord_leBytes_of_lt _ flag]
  dsimp only [Option.bind_some]
  rw [readWord_leBytes]
  dsimp only [Option.bind_some]
  rw [readWord_leBytes]
  dsimp only [Option.bind_some]
  rw [readWord_leBytes_of_lt _ checksum]
  dsimp only [Option.bind_some]
  rw [last, wide]
  rfl

/-- Reading a header and a payload that were written together. -/
theorem readIndexSegment_written (snapshot : Bool) (count : Nat) (payload : Bytes) :
    readIndexSegment (indexHeader snapshot count payload ++ payload) =
      if (writtenHeader snapshot count payload).Supported then
        match readFixed (payload.length % 2 ^ 64) payload with
        | none => .error "column-index segment checksum mismatch or truncation"
        | some (bytes, rest) =>
            if rest ≠ [] ∨ (crc32c bytes).toNat ≠ (crc32c payload).toNat then
              .error "column-index segment checksum mismatch or truncation"
            else readPayload (writtenHeader snapshot count payload) bytes
      else .error "unsupported column-index segment" := by
  have size := length_indexHeader snapshot count payload
  have start : (indexHeader snapshot count payload ++ payload).take kIndexMagic.length =
      kIndexMagic := by
    rw [indexHeader, List.append_assoc, List.take_left]
  have whole : ¬((indexHeader snapshot count payload ++ payload).length < kIndexHeaderBytes ∨
      (indexHeader snapshot count payload ++ payload).take kIndexMagic.length ≠ kIndexMagic) := by
    rintro (short | other)
    · rw [List.length_append] at short
      omega
    · exact other start
  rw [readIndexSegment, if_neg whole, List.take_left' size, List.drop_left' size,
    readSegmentHeader_indexHeader, Option.filter_some]
  by_cases supported : (writtenHeader snapshot count payload).Supported
  · rw [if_pos supported, if_pos (decide_eq_true supported)]
    rfl
  · rw [if_neg supported, if_neg (by simpa using supported)]

/-- The segment keeps the limits that only the reader has. -/
def Readable (mutations : List IndexMutation) : Prop :=
  mutations.length ≤ kMaxFieldBytes ∧ payloadSize mutations ≤ kMaxFieldBytes * 16

instance (mutations : List IndexMutation) : Decidable (Readable mutations) :=
  inferInstanceAs (Decidable (_ ∧ _))

theorem readIndexSegment_of_readable {file : Bytes} (wrote : segmentFile mutations snapshot = .ok file)
    (readable : Readable mutations) :
    readIndexSegment file = .ok ⟨snapshot, sortMutations mutations⟩ := by
  obtain ⟨fits, rfl⟩ := segmentFile_eq_ok.mp wrote
  obtain ⟨few, small⟩ := readable
  have limit : kMaxFieldBytes * 16 < 2 ^ 64 := by decide
  have size := length_sortedPayload mutations
  have count : mutations.length % 2 ^ 64 = mutations.length := Nat.mod_eq_of_lt (by omega)
  have bytes : (sortedPayload mutations).length % 2 ^ 64 = (sortedPayload mutations).length :=
    Nat.mod_eq_of_lt (by omega)
  have supported : (writtenHeader snapshot mutations.length (sortedPayload mutations)).Supported := by
    refine ⟨rfl, ?_, ?_⟩
    · exact count.trans_le few
    · exact bytes.trans_le (size.trans_le small)
  have whole : readFixed (sortedPayload mutations).length (sortedPayload mutations) =
      some (sortedPayload mutations, []) := by
    simpa using readFixed_append (sortedPayload mutations) []
  have read := readMutations_encodeMutations
    (fun mutation member => fits mutation ((sortMutations_perm mutations).mem_iff.mp member)) []
  rw [List.append_nil, (sortMutations_perm mutations).length_eq] at read
  rw [readIndexSegment_written, if_pos supported, bytes, whole]
  dsimp only
  rw [if_neg (by simp), readPayload, writtenHeader]
  dsimp only
  rw [count, sortedPayload, read]
  cases snapshot with
  | false => rfl
  | true => rfl

theorem readIndexSegment_of_not_readable {file : Bytes}
    (wrote : segmentFile mutations snapshot = .ok file) (unreadable : ¬Readable mutations) :
    ∃ reason, readIndexSegment file = .error reason := by
  obtain ⟨-, rfl⟩ := segmentFile_eq_ok.mp wrote
  have size := length_sortedPayload mutations
  have twelve := twelve_mul_length_le mutations
  rw [readIndexSegment_written]
  split
  next supported =>
    obtain ⟨-, few, small⟩ := supported
    dsimp only [writtenHeader] at few small
    -- a size that is within the limit only because it wraps leaves bytes behind
    by_cases fits : payloadSize mutations < 2 ^ 64
    · rw [Nat.mod_eq_of_lt (size.trans_lt fits), size] at small
      rw [Nat.mod_eq_of_lt (show mutations.length < 2 ^ 64 by omega)] at few
      exact absurd ⟨few, small⟩ unreadable
    · have long : (sortedPayload mutations).length % 2 ^ 64 < (sortedPayload mutations).length := by
        omega
      have behind : (sortedPayload mutations).drop ((sortedPayload mutations).length % 2 ^ 64) ≠ [] := by
        intro empty
        have none := List.drop_eq_nil_iff.mp empty
        omega
      rw [readFixed, if_neg (by omega)]
      dsimp only
      rw [if_pos (.inl behind)]
      exact ⟨_, rfl⟩
  next => exact ⟨_, rfl⟩

end PacificDb.Index
