import PacificDb.Lib.Machine
import PacificDb.Raft.Position
import PacificDb.Raft.Replay

/-!
# Appends that fail

`PersistentRaftLog::append` writes until it is done or a `write` fails; then the
bytes already written stay in the file. Only the standalone path cuts them off.
The writers of the log are here the events of a machine on `log.bin` and the last
position, each with the number of bytes that were written if it failed.
-/

namespace PacificDb.Raft

open Lib

/-- `log.bin` and the last position, with the records of the appends that
succeeded. -/
structure LogWriter where
  file : Bytes := []
  lastIndex : Nat := 0
  lastEntryTerm : Nat := 0
  written : List (Entry Bytes) := []

namespace LogWriter

/-- `PersistentRaftLog::append`: the whole of the bytes, or only so many. -/
def append (bytes : Bytes) (failsAfter : Option Nat) (file : Bytes) : Bytes × Bool :=
  match failsAfter with
  | none => (file ++ bytes, true)
  | some persisted => (file ++ bytes.take persisted, false)

/-- The records of an append are in the file and the position is that of the last. -/
def publish (records : List (Entry Bytes)) (writer : LogWriter) (file : Bytes) : LogWriter where
  file := file
  lastIndex := records.foldl (fun last record => max last record.index) writer.lastIndex
  lastEntryTerm := (records.getLast?.map Entry.term).getD writer.lastEntryTerm
  written := writer.written ++ records

/-- The log section of a writer. -/
def write (records : List (Entry Bytes)) (failsAfter : Option Nat) (writer : LogWriter) : LogWriter :=
  let (file, appended) := append (recordBytes records) failsAfter writer.file
  if appended then writer.publish records file else { writer with file }

/-- The record of `replicateSynchronous`. -/
def replicateSynchronous (term : Nat) (payload : Bytes) (writer : LogWriter) : List (Entry Bytes) :=
  NodeState.numbered writer.lastIndex term [payload]

/-- The records of `replicateSynchronousBatch`. -/
def replicateSynchronousBatch (term : Nat) (payloads : List Bytes) (writer : LogWriter) :
    List (Entry Bytes) :=
  NodeState.numbered writer.lastIndex term payloads

/-- The records of an `append_entries` whose new entries follow the log. -/
def appendEntries (entries : List (Nat × Bytes)) (writer : LogWriter) : List (Entry Bytes) :=
  entries.mapIdx fun k entry =>
    { index := writer.lastIndex + 1 + k, term := entry.1, payload := entry.2 }

end LogWriter

/-- A writer's turn. A standalone write that fails, in the append or after it, cuts
the file back to where it started, unless that fails too. -/
inductive AppendEvent where
  | replicate (term : Nat) (payload : Bytes) (failsAfter : Option Nat)
  | replicateBatch (term : Nat) (payloads : List Bytes) (failsAfter : Option Nat)
  | receive (entries : List (Nat × Bytes)) (failsAfter : Option Nat)
  | standalone (term : Nat) (payload : Bytes)
  | standaloneFails (term : Nat) (payload : Bytes) (persisted : Nat) (rolledBack : Bool)

namespace LogWriter

/-- The records a turn means to write. -/
def records (writer : LogWriter) : AppendEvent → List (Entry Bytes)
  | .replicate term payload _ | .standalone term payload | .standaloneFails term payload _ _ =>
      writer.replicateSynchronous term payload
  | .replicateBatch term payloads _ => writer.replicateSynchronousBatch term payloads
  | .receive entries _ => writer.appendEntries entries

/-- The number of bytes left behind by a turn that fails and does not roll back. -/
def leftBehind : AppendEvent → Option Nat
  | .replicate _ _ failsAfter | .replicateBatch _ _ failsAfter | .receive _ failsAfter => failsAfter
  | .standalone .. => none
  | .standaloneFails _ _ persisted rolledBack => if rolledBack then some 0 else some persisted

/-- One turn, if the records fit their fields. -/
def step (writer : LogWriter) (event : AppendEvent) : Option LogWriter :=
  if ∀ record ∈ writer.records event, record.Fits then
    some (writer.write (writer.records event) (leftBehind event))
  else none

/-- A turn comes only when the file ends in a whole record, and a turn that fails
leaves less than its first record. -/
def KeepsRecords (writer : LogWriter) (event : AppendEvent) : Prop :=
  (parse validSize writer.file).2 = [] ∧
    ∀ persisted, leftBehind event = some persisted →
      ∀ record, (writer.records event).head? = some record → persisted < record.bytes.length

/-- The last position of some records. -/
def position (records : List (Entry Bytes)) : Nat × Nat :=
  match records.getLast? with
  | some record => (record.index, record.term)
  | none => (0, 0)

/-- The file has the records of the appends that succeeded, and perhaps a torn
tail. -/
structure WellFormed (writer : LogWriter) : Prop where
  fit : ∀ record ∈ writer.written, record.Fits
  indexes : writer.written.map Entry.index = List.range' 1 writer.written.length
  position : (writer.lastIndex, writer.lastEntryTerm) = position writer.written
  file : ∃ torn, TornTail torn ∧ writer.file = recordBytes writer.written ++ torn

variable {writer after : LogWriter} {event : AppendEvent}

theorem map_index_records (writer : LogWriter) (event : AppendEvent) :
    (writer.records event).map Entry.index =
      List.range' (writer.lastIndex + 1) (writer.records event).length := by
  have batch (term : Nat) (payloads : List Bytes) :
      (NodeState.numbered writer.lastIndex term payloads).map Entry.index =
        List.range' (writer.lastIndex + 1)
          (NodeState.numbered writer.lastIndex term payloads).length := by
    rw [map_index_numbered, NodeState.numbered, List.length_mapIdx]
  cases event with
  | replicate term payload _ => exact batch term [payload]
  | replicateBatch term payloads _ => exact batch term payloads
  | standalone term payload => exact batch term [payload]
  | standaloneFails term payload _ _ => exact batch term [payload]
  | receive entries _ =>
    refine List.ext_getElem (by simp) fun k _ _ => ?_
    simp [records, appendEntries]

namespace WellFormed

theorem lastIndex (wf : writer.WellFormed) : writer.lastIndex = writer.written.length := by
  have same := congrArg Prod.fst wf.position
  rw [LogWriter.position] at same
  cases last : writer.written.getLast? with
  | none =>
    rw [last] at same
    rw [List.getLast?_eq_none_iff.mp last]
    exact same
  | some record =>
    rw [last] at same
    have place := index_getLast wf.indexes last
    dsimp only at same
    omega

theorem parse (wf : writer.WellFormed) : (parse validSize writer.file).1 = writer.written := by
  obtain ⟨torn, tail, file⟩ := wf.file
  rw [file, parse_recordBytes_torn (fun _ valid => valid) wf.fit tail]

/-- A file that ends in a whole record is the records, and nothing else. -/
theorem file_eq (wf : writer.WellFormed) (whole : (Raft.parse validSize writer.file).2 = []) :
    writer.file = recordBytes writer.written := by
  obtain ⟨torn, tail, file⟩ := wf.file
  rw [file, parse_recordBytes_torn (fun _ valid => valid) wf.fit tail] at whole
  dsimp only at whole
  rw [file, whole, List.append_nil]

/-- An append that succeeds. -/
theorem publish (wf : writer.WellFormed) {records : List (Entry Bytes)}
    (fit : ∀ record ∈ records, record.Fits)
    (next : records.map Entry.index = List.range' (writer.lastIndex + 1) records.length) :
    (writer.publish records (recordBytes (writer.written ++ records))).WellFormed := by
  have lastIndex := wf.lastIndex
  have indexes : (writer.written ++ records).map Entry.index =
      List.range' 1 (writer.written ++ records).length :=
    consecutive_append wf.indexes (by rw [next, lastIndex, Nat.add_comm])
  refine ⟨?_, indexes, ?_, [], tornTail_nil, (List.append_nil _).symm⟩
  · intro record member
    rcases List.mem_append.mp member with old | new
    · exact wf.fit record old
    · exact fit record new
  · rw [LogWriter.publish, LogWriter.position, NodeState.foldl_max_index next]
    cases last : records.getLast? with
    | none =>
      have none := List.getLast?_eq_none_iff.mp last
      have same := wf.position
      rw [LogWriter.position] at same
      rw [none, if_pos rfl, List.append_nil]
      exact same
    | some record =>
      have some : records ≠ [] := fun none => by
        rw [none] at last
        cases last
      have place := index_getLast next last
      rw [if_neg some, List.getLast?_append_of_ne_nil _ some, last]
      dsimp only [Option.map_some, Option.getD_some]
      congr 1
      have positive := List.length_pos_iff.mpr some
      omega

theorem step (wf : writer.WellFormed) (keeps : writer.KeepsRecords event)
    (taken : writer.step event = some after) : after.WellFormed := by
  simp only [LogWriter.step, Option.ite_none_right_eq_some] at taken
  obtain ⟨fit, same⟩ := taken
  obtain rfl := Option.some.inj same
  obtain ⟨whole, short⟩ := keeps
  have file := wf.file_eq whole
  unfold LogWriter.write LogWriter.append
  cases fails : leftBehind event with
  | none =>
    dsimp only
    rw [if_pos rfl, file, ← recordBytes_append]
    exact wf.publish fit (map_index_records writer event)
  | some persisted =>
    dsimp only
    rw [if_neg Bool.false_ne_true]
    refine ⟨wf.fit, wf.indexes, wf.position, (recordBytes (writer.records event)).take persisted,
      tornTail_take fit (short persisted fails), ?_⟩
    dsimp only
    rw [file]

end WellFormed

/-- In every run whose turns keep the records apart, `log.bin` has exactly the
records of the appends that succeeded, the position is that of the last, and a
restart loads them all. -/
theorem records_of_reach (reached : Reach step KeepsRecords {} writer) :
    (parse validSize writer.file).1 = writer.written ∧
      writer.written.map Entry.index = List.range' 1 writer.written.length ∧
      (writer.lastIndex, writer.lastEntryTerm) = position writer.written ∧
      ∀ {Value : Type} (decode : Bytes → Option Value) (request : LoadRequest),
        (∀ record ∈ writer.written, (decode record.payload).isSome = true) →
        request.durableStateKnown = true → request.syncs = true →
        request.durableCommitIndex ≤ writer.lastIndex →
        ∃ entries, (loadBinaryRaftLogEntries decode request writer.file).entries = .ok entries ∧
          List.Forall₂ (DecodedAs decode) entries writer.written := by
  have wf : writer.WellFormed := reached.invariant
    ⟨nofun, rfl, rfl, [], tornTail_nil, rfl⟩ fun wf keeps taken => wf.step keeps taken
  refine ⟨wf.parse, wf.indexes, wf.position, fun decode request decodes known syncs covered => ?_⟩
  obtain ⟨torn, tail, file⟩ := wf.file
  have last : lastWholeIndex writer.written = writer.lastIndex := by
    have same := congrArg Prod.fst wf.position
    rw [lastWholeIndex]
    dsimp only at same
    rw [same, position]
    cases writer.written.getLast? <;> rfl
  obtain ⟨entries, decoded, ⟨-, loaded⟩ | ⟨⟨-, refused⟩, -⟩⟩ :=
    @loadBinaryRaftLogEntries_records _ decode request _ _ wf.fit tail decodes syncs
  · rw [file, loaded]
    exact ⟨entries, rfl, decoded⟩
  · have may : request.mayDiscard entries = true := by
      rw [LoadRequest.mayDiscard, known, completeIndex_eq decoded, last, Bool.true_and]
      exact decide_eq_true (covered.trans (le_max_left _ _))
    rw [may] at refused
    cases refused

/-- A leader whose second write fails after five bytes and whose third succeeds. -/
def tornRun : List AppendEvent :=
  [.replicate 1 [7] none, .replicate 1 [8] (some 5), .replicate 1 [9] none]

/-- The record behind the five bytes is not read by anyone. -/
theorem append_behind_torn_record_lost :
    ∃ writer, run step {} tornRun = some writer ∧ writer.lastIndex = 2 ∧
      writer.written = [⟨1, 1, [7]⟩, ⟨2, 1, [9]⟩] ∧
      (parse validSize writer.file).1 = [⟨1, 1, [7]⟩] :=
  ⟨_, rfl, by decide, by decide, by decide⟩

/-- A standalone write that was rolled back, between two that succeed. -/
def rolledBackRun : List AppendEvent :=
  [.standalone 1 [7], .standaloneFails 1 [8] 21 true, .standalone 1 [9]]

theorem records_of_reach_rolledBack :
    ∃ writer, run step {} rolledBackRun = some writer ∧
      (parse validSize writer.file).1 = writer.written ∧
      writer.written = [⟨1, 1, [7]⟩, ⟨2, 1, [9]⟩] := by
  have succeeds {writer : LogWriter} (payload : Bytes)
      (whole : (parse validSize writer.file).2 = []) :
      writer.KeepsRecords (.standalone 1 payload) :=
    ⟨whole, fun _ fails => absurd fails.symm (Option.some_ne_none _)⟩
  have first : Reach step KeepsRecords {} ((step {} (.standalone 1 [7])).get rfl) :=
    .tail .refl (succeeds [7] rfl) (Option.some_get _).symm
  have second : Reach step KeepsRecords {} ((step ((step {} (.standalone 1 [7])).get rfl)
      (.standaloneFails 1 [8] 21 true)).get rfl) := by
    refine first.tail ⟨by decide, ?_⟩ (Option.some_get _).symm
    intro persisted fails record head
    obtain rfl := Option.some.inj fails
    rw [Entry.length_bytes]
    omega
  have third := second.tail (succeeds [9] (by decide)) rfl
  exact ⟨_, rfl, (records_of_reach third).1, by decide⟩

end LogWriter

end PacificDb.Raft
