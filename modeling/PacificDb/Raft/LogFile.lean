import PacificDb.Lib.Bytes
import PacificDb.Raft.Node

/-!
# The bytes of `log.bin`

A record is an index, a term, a size and the payload, one after the other, with
nothing around it that would tell a reader where a record starts. Every reader
walks from a record to the next until what follows is not a whole record.
-/

namespace PacificDb.Raft

open Lib

abbrev Bytes := List UInt8

def kMaxRaftPayloadBytes : Nat := 64 * 1024 * 1024

/-- `appendRaftRecordBytes`. -/
def Entry.bytes (entry : Entry Bytes) : Bytes :=
  leBytes 8 entry.index ++ (leBytes 8 entry.term ++ (leBytes 4 entry.payload.length ++ entry.payload))

/-- The size check of `appendRaftRecordBytes`, of the loader and of the applier. -/
def validSize (size : Nat) : Bool := size != 0 && decide (size ≤ kMaxRaftPayloadBytes)

/-- A record that `appendRaftRecordBytes` accepts, in numbers of 64 bits. -/
structure Entry.Fits (entry : Entry Bytes) : Prop where
  index : entry.index < 2 ^ 64
  term : entry.term < 2 ^ 64
  size : validSize entry.payload.length = true

instance (entry : Entry Bytes) : Decidable entry.Fits :=
  decidable_of_iff (entry.index < 2 ^ 64 ∧ entry.term < 2 ^ 64 ∧ validSize entry.payload.length = true)
    ⟨fun ⟨index, term, size⟩ => ⟨index, term, size⟩, fun fits => ⟨fits.index, fits.term, fits.size⟩⟩

/-- The bytes of records one after the other. -/
def recordBytes (entries : List (Entry Bytes)) : Bytes := (entries.map Entry.bytes).flatten

/-- What stands at the start of some bytes. -/
inductive ReadRecord where
  | atEnd
  | cutHeader
  | badSize (index : Nat)
  | cutPayload (index : Nat)
  | record (entry : Entry Bytes) (rest : Bytes)

/-- The reads that every loop over `log.bin` makes; `check` is what the loop
demands of a size. -/
def readRecord (check : Nat → Bool) (bytes : Bytes) : ReadRecord :=
  if bytes.isEmpty then .atEnd
  else if bytes.length < 20 then .cutHeader
  else
    let index := readLe (bytes.take 8)
    let term := readLe ((bytes.drop 8).take 8)
    let size := readLe ((bytes.drop 16).take 4)
    if !check size then .badSize index
    else if bytes.length < 20 + size then .cutPayload index
    else .record { index, term, payload := (bytes.drop 20).take size } (bytes.drop (20 + size))

/-- The whole records from the start, and the bytes behind them. The fuel is the
number of bytes: each round consumes a record. -/
def scanRecords (check : Nat → Bool) : Nat → Bytes → List (Entry Bytes) × Bytes
  | 0, bytes => ([], bytes)
  | fuel + 1, bytes =>
      match readRecord check bytes with
      | .record entry rest =>
          let (entries, left) := scanRecords check fuel rest
          (entry :: entries, left)
      | _ => ([], bytes)

def parse (check : Nat → Bool) (bytes : Bytes) : List (Entry Bytes) × Bytes :=
  scanRecords check bytes.length bytes

section

variable {check : Nat → Bool} {bytes rest : Bytes} {entry : Entry Bytes}

/-! ## One record -/

theorem Entry.length_bytes (entry : Entry Bytes) : entry.bytes.length = 20 + entry.payload.length := by
  simp only [Entry.bytes, List.length_append, length_leBytes]
  omega

theorem readRecord_bytes (fits : entry.Fits) (valid : check entry.payload.length = true) :
    readRecord check (entry.bytes ++ rest) = .record entry rest := by
  have size : entry.payload.length < 256 ^ 4 := by
    have both := Bool.and_eq_true_iff.mp fits.size
    have bound := of_decide_eq_true both.2
    have small : kMaxRaftPayloadBytes < 256 ^ 4 := by decide
    omega
  have long : (entry.bytes ++ rest).length = 20 + entry.payload.length + rest.length := by
    rw [List.length_append, Entry.length_bytes]
  have index : readLe ((entry.bytes ++ rest).take 8) = entry.index := by
    rw [Entry.bytes, List.append_assoc, List.take_left' (length_leBytes _ _)]
    exact readLe_leBytes_of_lt fits.index
  have afterIndex : (entry.bytes ++ rest).drop 8 =
      leBytes 8 entry.term ++ (leBytes 4 entry.payload.length ++ (entry.payload ++ rest)) := by
    rw [Entry.bytes, List.append_assoc, List.drop_left' (length_leBytes _ _)]
    simp only [List.append_assoc]
  have term : readLe (((entry.bytes ++ rest).drop 8).take 8) = entry.term := by
    rw [afterIndex, List.take_left' (length_leBytes _ _)]
    exact readLe_leBytes_of_lt fits.term
  have afterTerm : (entry.bytes ++ rest).drop 16 =
      leBytes 4 entry.payload.length ++ (entry.payload ++ rest) := by
    rw [show 16 = 8 + 8 from rfl, ← List.drop_drop, afterIndex, List.drop_left' (length_leBytes _ _)]
  have count : readLe (((entry.bytes ++ rest).drop 16).take 4) = entry.payload.length := by
    rw [afterTerm, List.take_left' (length_leBytes _ _)]
    exact readLe_leBytes_of_lt size
  have afterSize : (entry.bytes ++ rest).drop 20 = entry.payload ++ rest := by
    rw [show 20 = 16 + 4 from rfl, ← List.drop_drop, afterTerm, List.drop_left' (length_leBytes _ _)]
  have some : (entry.bytes ++ rest).isEmpty = false := by
    rw [← Bool.not_eq_true, List.isEmpty_iff, ← List.length_eq_zero_iff]
    omega
  unfold readRecord
  dsimp only
  rw [some, index, term, count, valid, if_neg Bool.false_ne_true, if_neg (by omega), Bool.not_true,
    if_neg Bool.false_ne_true, if_neg (by omega), afterSize, List.take_left' rfl, ← List.drop_drop,
    afterSize, List.drop_left' rfl]

/-- A record that was not written to its end is not read. -/
theorem readRecord_torn (fits : entry.Fits) (valid : check entry.payload.length = true)
    (torn : Torn bytes entry.bytes) :
    (readRecord check bytes = .atEnd ∧ bytes = []) ∨ readRecord check bytes = .cutHeader ∨
      ∃ index, readRecord check bytes = .cutPayload index := by
  obtain ⟨k, short, rfl⟩ := torn
  have length := Entry.length_bytes entry
  have cut : (entry.bytes.take k).length = k := List.length_take_of_le short.le
  have size : entry.payload.length < 256 ^ 4 := by
    have both := Bool.and_eq_true_iff.mp fits.size
    have bound := of_decide_eq_true both.2
    have small : kMaxRaftPayloadBytes < 256 ^ 4 := by decide
    omega
  unfold readRecord
  dsimp only
  split
  next none => exact .inl ⟨rfl, List.isEmpty_iff.mp none⟩
  · split
    · exact .inr (.inl rfl)
    next header =>
      have whole : 20 ≤ k := by omega
      have count : readLe (((entry.bytes.take k).drop 16).take 4) = entry.payload.length := by
        have place : ((entry.bytes.take k).drop 16).take 4 = leBytes 4 entry.payload.length := by
          rw [List.drop_take, List.take_take, min_eq_left (by omega), Entry.bytes,
            ← List.append_assoc, List.drop_left' (by
              rw [List.length_append, length_leBytes, length_leBytes]),
            List.take_left' (length_leBytes _ _)]
        rw [place]
        exact readLe_leBytes_of_lt size
      rw [count, valid, Bool.not_true, if_neg Bool.false_ne_true, if_pos (by omega)]
      exact .inr (.inr ⟨_, rfl⟩)

theorem readRecord_length (read : readRecord check bytes = .record entry rest) :
    rest.length < bytes.length := by
  unfold readRecord at read
  dsimp only at read
  split at read
  · cases read
  · split at read
    · cases read
    · split at read
      · cases read
      · split at read
        · cases read
        next whole =>
          cases read
          rw [List.length_drop]
          omega

/-- The bytes of a record that is read. -/
theorem readRecord_eq_record (read : readRecord check bytes = .record entry rest) :
    bytes = entry.bytes ++ rest ∧ check entry.payload.length = true := by
  unfold readRecord at read
  dsimp only at read
  split at read
  · cases read
  · split at read
    · cases read
    next header =>
      split at read
      · cases read
      next valid =>
        split at read
        · cases read
        next whole =>
          cases read
          have valid : check (readLe ((bytes.drop 16).take 4)) = true := by simpa using valid
          have size : ((bytes.drop 20).take (readLe ((bytes.drop 16).take 4))).length =
              readLe ((bytes.drop 16).take 4) := by
            rw [List.length_take, List.length_drop]
            omega
          have number (width place : Nat) (inside : place + width ≤ 20) :
              leBytes width (readLe ((bytes.drop place).take width)) = (bytes.drop place).take width := by
            have length : ((bytes.drop place).take width).length = width := by
              rw [List.length_take, List.length_drop]
              omega
            have back := leBytes_readLe ((bytes.drop place).take width)
            rw [length] at back
            exact back
          have index := number 8 0 (by omega)
          rw [List.drop_zero] at index
          refine ⟨?_, by rw [size]; exact valid⟩
          rw [Entry.bytes, size, index, number 8 8 (by omega), number 4 16 (by omega)]
          simp only [List.append_assoc]
          have split (place width : Nat) :
              (bytes.drop place).take width ++ bytes.drop (place + width) = bytes.drop place := by
            rw [← List.drop_drop, List.take_append_drop]
          rw [split 20, split 16, split 8, List.take_append_drop]

/-! ## All records -/

theorem scanRecords_of_le {fuel : Nat} (enough : bytes.length ≤ fuel) :
    scanRecords check fuel bytes = parse check bytes := by
  induction fuel using Nat.strong_induction_on generalizing bytes with
  | _ fuel ih =>
    cases fuel with
    | zero =>
      rw [parse, Nat.le_zero.mp enough]
    | succ fuel =>
      cases size : bytes.length with
      | zero =>
        have none : bytes = [] := List.length_eq_zero_iff.mp size
        rw [none]
        rfl
      | succ length =>
        rw [parse, size, scanRecords, scanRecords]
        cases read : readRecord check bytes with
        | record entry rest =>
          have shorter := readRecord_length read
          dsimp only
          rw [ih fuel (Nat.lt_succ_self _) (by omega), ih length (by omega) (by omega)]
        | atEnd => rfl
        | cutHeader => rfl
        | badSize index => rfl
        | cutPayload index => rfl

theorem parse_record (read : readRecord check bytes = .record entry rest) :
    parse check bytes = (entry :: (parse check rest).1, (parse check rest).2) := by
  have shorter := readRecord_length read
  rw [parse, show bytes.length = bytes.length - 1 + 1 by omega, scanRecords, read]
  dsimp only
  rw [scanRecords_of_le (by omega)]

theorem parse_stop (stop : ∀ entry rest, readRecord check bytes ≠ .record entry rest) :
    parse check bytes = ([], bytes) := by
  cases size : bytes.length with
  | zero =>
    rw [parse, size]
    rfl
  | succ length =>
    rw [parse, size, scanRecords]
    cases read : readRecord check bytes with
    | record entry rest => exact absurd read (stop entry rest)
    | atEnd => rfl
    | cutHeader => rfl
    | badSize index => rfl
    | cutPayload index => rfl

theorem parse_nil : parse check [] = ([], []) := rfl

/-- The records and what stands behind them are the whole file. -/
theorem parse_bytes (check : Nat → Bool) (bytes : Bytes) :
    bytes = recordBytes (parse check bytes).1 ++ (parse check bytes).2 := by
  induction size : bytes.length using Nat.strong_induction_on generalizing bytes with
  | _ length ih =>
    by_cases stop : ∀ entry rest, readRecord check bytes ≠ .record entry rest
    · rw [parse_stop stop]
      rfl
    · rw [not_forall] at stop
      obtain ⟨entry, stop⟩ := stop
      rw [not_forall] at stop
      obtain ⟨rest, read⟩ := stop
      have read := not_not.mp read
      have shorter := readRecord_length read
      obtain ⟨same, -⟩ := readRecord_eq_record read
      have onward := ih rest.length (by omega) rest rfl
      have bytes_cons (entries : List (Entry Bytes)) :
          recordBytes (entry :: entries) = entry.bytes ++ recordBytes entries := rfl
      rw [parse_record read, bytes_cons, List.append_assoc, ← onward]
      exact same

theorem recordBytes_append (first second : List (Entry Bytes)) :
    recordBytes (first ++ second) = recordBytes first ++ recordBytes second := by
  rw [recordBytes, List.map_append, List.flatten_append, recordBytes, recordBytes]

theorem length_le_recordBytes (entries : List (Entry Bytes)) :
    entries.length ≤ (recordBytes entries).length := by
  induction entries with
  | nil => exact le_rfl
  | cons entry entries ih =>
    have bytes : recordBytes (entry :: entries) = entry.bytes ++ recordBytes entries := rfl
    have length := entry.length_bytes
    rw [bytes, List.length_append, List.length_cons]
    omega

/-- Whole records are read back, and the reader goes on behind them. -/
theorem parse_recordBytes {entries : List (Entry Bytes)}
    (valid : ∀ size, validSize size = true → check size = true)
    (fit : ∀ entry ∈ entries, entry.Fits) :
    parse check (recordBytes entries ++ rest) =
      (entries ++ (parse check rest).1, (parse check rest).2) := by
  induction entries with
  | nil => rfl
  | cons entry entries ih =>
    obtain ⟨fits, fit⟩ := List.forall_mem_cons.mp fit
    have read : readRecord check (recordBytes (entry :: entries) ++ rest) =
        .record entry (recordBytes entries ++ rest) := by
      rw [recordBytes, List.map_cons, List.flatten_cons, List.append_assoc]
      exact readRecord_bytes fits (valid _ fits.size)
    rw [parse_record read, ih fit]
    rfl

/-- What a write that stopped short leaves behind whole records: nothing, or part
of one record. -/
def TornTail (torn : Bytes) : Prop := ∃ entry : Entry Bytes, entry.Fits ∧ Torn torn entry.bytes

theorem tornTail_nil : TornTail [] :=
  ⟨⟨0, 0, [0]⟩, by decide, 0, by decide, rfl⟩

section TornTail

variable (valid : ∀ size, validSize size = true → check size = true)

include valid

theorem TornTail.readRecord {torn : Bytes} (tail : TornTail torn) :
    (readRecord check torn = .atEnd ∧ torn = []) ∨ readRecord check torn = .cutHeader ∨
      ∃ index, readRecord check torn = .cutPayload index := by
  obtain ⟨entry, fits, isTorn⟩ := tail
  exact readRecord_torn fits (valid _ fits.size) isTorn

theorem TornTail.parse {torn : Bytes} (tail : TornTail torn) : parse check torn = ([], torn) := by
  apply parse_stop
  intro entry rest read
  rcases tail.readRecord valid with ⟨same, -⟩ | same | ⟨_, same⟩
  all_goals
    rw [read] at same
    cases same

/-- A log is read up to its torn tail. -/
theorem parse_recordBytes_torn {entries : List (Entry Bytes)} {torn : Bytes}
    (fit : ∀ entry ∈ entries, entry.Fits) (tail : TornTail torn) :
    Raft.parse check (recordBytes entries ++ torn) = (entries, torn) := by
  rw [parse_recordBytes valid fit, tail.parse valid, List.append_nil]

end TornTail

/-- The first bytes of a log: some whole records, and a torn tail. -/
theorem take_recordBytes {entries : List (Entry Bytes)} (fit : ∀ entry ∈ entries, entry.Fits)
    (k : Nat) :
    ∃ m torn, m ≤ entries.length ∧
      (recordBytes entries).take k = recordBytes (entries.take m) ++ torn ∧ TornTail torn ∧
      ∀ n ≤ entries.length, (recordBytes (entries.take n)).length ≤ k ↔ n ≤ m := by
  have mono {i j : Nat} (le : i ≤ j) :
      (recordBytes (entries.take i)).length ≤ (recordBytes (entries.take j)).length := by
    rw [← List.take_append_drop i (entries.take j), recordBytes_append, List.take_take,
      min_eq_left le, List.length_append]
    exact Nat.le_add_right _ _
  have total {n : Nat} (inside : n ≤ entries.length) :
      (recordBytes (entries.take n)).length ≤ (recordBytes entries).length := by
    have le := mono inside
    rw [List.take_length] at le
    exact le
  rcases take_flatten (entries.map Entry.bytes) k with ⟨m, torn, split, block, place, isTorn⟩ | all
  · rw [List.getElem?_map, Option.map_eq_some_iff] at place
    obtain ⟨entry, found, rfl⟩ := place
    have inside := (List.getElem?_eq_some_iff.mp found).1
    rw [← List.map_take] at split
    have size := congrArg List.length split
    rw [List.length_append, List.length_take] at size
    have next : recordBytes (entries.take (m + 1)) = recordBytes (entries.take m) ++ entry.bytes := by
      rw [List.take_add_one, found, recordBytes_append]
      exact congrArg (recordBytes (entries.take m) ++ ·) (List.append_nil _)
    have nextSize := congrArg List.length next
    rw [List.length_append] at nextSize
    have short := isTorn.length_lt
    have below := @total (m + 1) inside
    change min k (recordBytes entries).length = (recordBytes (entries.take m)).length + _ at size
    refine ⟨m, torn, inside.le, split, ⟨entry, fit entry (List.mem_of_getElem? found), isTorn⟩,
      fun n _ => ⟨fun fits => ?_, fun le => ?_⟩⟩
    · by_contra more
      have less := @mono (m + 1) n (by omega)
      omega
    · have less := mono le
      omega
  · have size := congrArg List.length all
    rw [List.length_take] at size
    change min k (recordBytes entries).length = (recordBytes entries).length at size
    refine ⟨entries.length, [], le_rfl, ?_, tornTail_nil, fun n inside => ?_⟩
    · rw [List.take_length, List.append_nil]
      exact all
    · have below := total inside
      exact iff_of_true (by omega) inside

/-- What is read of the first bytes of a log: the records that are whole there. -/
theorem sublist_parse_take_iff (valid : ∀ size, validSize size = true → check size = true)
    {entries : List (Entry Bytes)} (fit : ∀ entry ∈ entries, entry.Fits) (n k : Nat) :
    (entries.take n).Sublist (parse check ((recordBytes entries).take k)).1 ↔
      (recordBytes (entries.take n)).length ≤ k := by
  obtain ⟨m, torn, -, split, tail, whole⟩ := take_recordBytes fit k
  have same : entries.take n = entries.take (min n entries.length) := by
    rw [List.take_eq_take_iff]
    omega
  rw [split, parse_recordBytes_torn valid
    (fun entry member => fit entry (List.mem_of_mem_take member)) tail, same,
    whole _ (min_le_right _ _)]
  constructor
  · intro sub
    have lengths := sub.length_le
    rw [List.length_take, List.length_take] at lengths
    omega
  · intro le
    exact List.take_sublist_take_left le

/-- Part of some records, if no whole one of them is there. -/
theorem tornTail_take {entries : List (Entry Bytes)} (fit : ∀ entry ∈ entries, entry.Fits) {k : Nat}
    (short : ∀ entry, entries.head? = some entry → k < entry.bytes.length) :
    TornTail ((recordBytes entries).take k) := by
  cases entries with
  | nil =>
    rw [show recordBytes [] = [] from rfl, List.take_nil]
    exact tornTail_nil
  | cons entry rest =>
    have inside := short entry rfl
    refine ⟨entry, fit entry List.mem_cons_self, k, inside, ?_⟩
    rw [recordBytes, List.map_cons, List.flatten_cons, List.take_append_of_le_length inside.le]

end

end PacificDb.Raft
