import PacificDb.Raft.Follower

/-!
# The last position of a node

`lastIndex_` and `lastEntryTerm_` are kept beside the log, and the vote handler
compares a candidate with them. Here is what each of the pieces of code that change
the log or the pair does to a log whose pair is its last position.
-/

namespace PacificDb.Raft

variable {Node Payload : Type}

namespace NodeState

variable {node after : NodeState Node Payload}

/-- The last record of `log.bin`, or the snapshot if there is none beyond it. -/
def truePosition (node : NodeState Node Payload) : Nat × Nat :=
  match node.file.getLast? with
  | some entry => (entry.index, entry.term)
  | none => (node.lastSnapshotIndex, node.lastSnapshotTerm)

/-- The records are numbered from one, and what is kept beside them agrees. -/
structure WellFormed (node : NodeState Node Payload) : Prop where
  indexes : node.log.map Entry.index = List.range' 1 node.log.length
  lastIndex : node.lastIndex = node.log.length
  lastEntryTerm : node.lastEntryTerm =
    if node.lastSnapshotIndex = node.log.length then node.lastSnapshotTerm
    else (node.log.getLast?.map Entry.term).getD 0
  snapshot : node.lastSnapshotIndex ≤ node.lastApplied
  applied : node.lastApplied ≤ node.log.length
  noSnapshot : node.lastSnapshotIndex = 0 → node.lastSnapshotTerm = 0

end NodeState

/-! ## Consecutive records -/

section Consecutive

variable {records more : List (Entry Payload)} {first : Nat}

theorem filter_index_le (consecutive : records.map Entry.index = List.range' first records.length)
    (index : Nat) :
    records.filter (fun entry => entry.index ≤ index) = records.take (index + 1 - first) := by
  induction records generalizing first with
  | nil => rw [List.filter_nil, List.take_nil]
  | cons record rest ih =>
    rw [List.map_cons, List.length_cons, List.range'_succ, List.cons.injEq] at consecutive
    obtain ⟨head, consecutive⟩ := consecutive
    rw [List.filter_cons, ih consecutive, head]
    by_cases inside : first ≤ index
    · rw [if_pos (decide_eq_true inside), show index + 1 - first = index + 1 - (first + 1) + 1 by omega,
        List.take_succ_cons]
    · rw [if_neg (by simpa using inside), show index + 1 - first = 0 by omega,
        show index + 1 - (first + 1) = 0 by omega, List.take_zero, List.take_zero]

theorem filter_index_gt (consecutive : records.map Entry.index = List.range' first records.length)
    (index : Nat) :
    records.filter (fun entry => index < entry.index) = records.drop (index + 1 - first) := by
  induction records generalizing first with
  | nil => rw [List.filter_nil, List.drop_nil]
  | cons record rest ih =>
    rw [List.map_cons, List.length_cons, List.range'_succ, List.cons.injEq] at consecutive
    obtain ⟨head, consecutive⟩ := consecutive
    rw [List.filter_cons, ih consecutive, head]
    by_cases inside : first ≤ index
    · rw [if_neg (by simpa using inside),
        show index + 1 - first = index + 1 - (first + 1) + 1 by omega, List.drop_succ_cons]
    · rw [if_pos (decide_eq_true (Nat.lt_of_not_le inside)), show index + 1 - first = 0 by omega,
        show index + 1 - (first + 1) = 0 by omega, List.drop_zero, List.drop_zero]

theorem consecutive_take (consecutive : records.map Entry.index = List.range' first records.length)
    (k : Nat) : (records.take k).map Entry.index = List.range' first (records.take k).length := by
  rw [List.map_take, consecutive, List.length_take]
  rcases Nat.le_total k records.length with short | long
  · rw [List.take_range'_of_length_ge short, min_eq_left short]
  · rw [List.take_range'_of_length_le long, min_eq_right long]

theorem consecutive_drop (consecutive : records.map Entry.index = List.range' first records.length)
    (k : Nat) :
    (records.drop k).map Entry.index = List.range' (first + k) (records.drop k).length := by
  rw [List.map_drop, consecutive, List.length_drop, List.drop_range', Nat.mul_one]

/-- The last of consecutive records. -/
theorem index_getLast (consecutive : records.map Entry.index = List.range' first records.length)
    {entry : Entry Payload} (last : records.getLast? = some entry) :
    entry.index + 1 = first + records.length := by
  have some : records.length ≠ 0 := fun none => by
    rw [List.length_eq_zero_iff.mp none] at last
    cases last
  have index := congrArg List.getLast? consecutive
  rw [List.getLast?_map, last, List.getLast?_range', if_neg some] at index
  have same := Option.some.inj index
  omega

theorem consecutive_append
    (consecutive : records.map Entry.index = List.range' first records.length)
    (next : more.map Entry.index = List.range' (first + records.length) more.length) :
    (records ++ more).map Entry.index = List.range' first (records ++ more).length := by
  rw [List.map_append, consecutive, next, List.length_append, List.range'_append_1]

theorem map_index_numbered (last term : Nat) (payloads : List Payload) :
    (NodeState.numbered last term payloads).map Entry.index =
      List.range' (last + 1) payloads.length := by
  refine List.ext_getElem (by simp [NodeState.numbered]) fun k _ _ => ?_
  simp [NodeState.numbered]

end Consecutive

namespace NodeState.WellFormed

variable {node after : NodeState Node Payload}

theorem file_eq (wf : node.WellFormed) : node.file = node.log.drop node.lastSnapshotIndex := by
  rw [file, filter_index_gt wf.indexes, Nat.add_sub_cancel]

theorem snapshot_le (wf : node.WellFormed) : node.lastSnapshotIndex ≤ node.log.length :=
  wf.snapshot.trans wf.applied

theorem effectiveLastIndex (wf : node.WellFormed) : node.effectiveLastIndex = node.log.length := by
  rw [NodeState.effectiveLastIndex, wf.lastIndex, max_eq_left wf.snapshot_le]

/-- The pair is the true last position. -/
theorem position (wf : node.WellFormed) :
    (node.lastIndex, node.lastEntryTerm) = node.truePosition := by
  rw [truePosition, wf.file_eq, wf.lastIndex, wf.lastEntryTerm]
  by_cases all : node.lastSnapshotIndex = node.log.length
  · rw [if_pos all, all, List.drop_length]
    rfl
  · have below := lt_of_le_of_ne wf.snapshot_le all
    rw [if_neg all, List.getLast?_drop, if_neg (by omega)]
    cases last : node.log.getLast? with
    | none =>
      rw [List.getLast?_eq_none_iff.mp last] at below
      exact absurd below (Nat.not_lt_zero _)
    | some entry =>
      have index : entry.index = node.log.length := by
        have same := index_getLast wf.indexes last
        omega
      dsimp only
      rw [index]
      rfl

/-- Records after the last one, with the pair moved to the last of them. -/
theorem append (wf : node.WellFormed) {records : List (Entry Payload)} (some : records ≠ [])
    (next : records.map Entry.index = List.range' (node.log.length + 1) records.length)
    (log : after.log = node.log ++ records)
    (lastIndex : after.lastIndex = node.log.length + records.length)
    (lastEntryTerm : after.lastEntryTerm = (records.getLast?.map Entry.term).getD 0)
    (snapshotIndex : after.lastSnapshotIndex = node.lastSnapshotIndex)
    (snapshotTerm : after.lastSnapshotTerm = node.lastSnapshotTerm)
    (applied : after.applied = node.applied) : after.WellFormed where
  indexes := by
    rw [log]
    refine consecutive_append wf.indexes ?_
    rw [next, Nat.add_comm 1]
  lastIndex := by rw [lastIndex, log, List.length_append]
  lastEntryTerm := by
    have positive := List.length_pos_iff.mpr some
    have below := wf.snapshot_le
    rw [lastEntryTerm, log, snapshotIndex, if_neg (by rw [List.length_append]; omega),
      List.getLast?_append_of_ne_nil _ some]
  snapshot := by
    rw [snapshotIndex, NodeState.lastApplied, applied]
    exact wf.snapshot
  applied := by
    rw [NodeState.lastApplied, applied, log, List.length_append]
    exact wf.applied.trans (Nat.le_add_right _ _)
  noSnapshot := by
    rw [snapshotIndex, snapshotTerm]
    exact wf.noSnapshot

theorem appendPayloads (wf : node.WellFormed) (term : Nat) {payloads : List Payload}
    (some : payloads ≠ []) : (node.appendPayloads term payloads).WellFormed := by
  have size : (numbered node.lastIndex term payloads).length = payloads.length := by
    simp [numbered]
  have nonempty : numbered node.lastIndex term payloads ≠ [] := fun none => by
    rw [none, List.length_nil] at size
    exact some (List.length_eq_zero_iff.mp size.symm)
  refine wf.append nonempty ?_ rfl ?_ ?_ rfl rfl rfl
  · rw [map_index_numbered, size, wf.lastIndex]
  · rw [size, ← wf.lastIndex]
    rfl
  · cases last : (numbered node.lastIndex term payloads).getLast? with
    | none => exact absurd (List.getLast?_eq_none_iff.mp last) nonempty
    | some entry =>
      obtain ⟨k, below, rfl⟩ := List.mem_iff_getElem.mp (List.mem_of_getLast? last)
      simp [NodeState.appendPayloads, numbered]

theorem truncateAfter (wf : node.WellFormed) {index : Nat} (floor : node.lastApplied ≤ index)
    (inside : index ≤ node.log.length) : (node.truncateAfter index).WellFormed := by
  have cut : node.log.filter (fun entry => entry.index ≤ index) = node.log.take index := by
    rw [filter_index_le wf.indexes, Nat.add_sub_cancel]
  have size : (node.log.take index).length = index := List.length_take_of_le inside
  have base := wf.snapshot.trans floor
  have dropped := consecutive_drop wf.indexes node.lastSnapshotIndex
  have kept : (node.file.filter fun entry => entry.index ≤ index).getLast? =
      if index ≤ node.lastSnapshotIndex then none else (node.log.take index).getLast? := by
    rw [wf.file_eq, filter_index_le dropped,
      show index + 1 - (1 + node.lastSnapshotIndex) = index - node.lastSnapshotIndex by omega,
      List.take_drop, Nat.add_sub_cancel' base, List.getLast?_drop, size]
  have pair : (node.truncateAfter index).lastIndex = index ∧
      (node.truncateAfter index).lastEntryTerm =
        if node.lastSnapshotIndex = index then node.lastSnapshotTerm
        else ((node.log.take index).getLast?.map Entry.term).getD 0 := by
    unfold NodeState.truncateAfter
    dsimp only
    by_cases all : node.lastSnapshotIndex = index
    · rw [if_pos all.ge] at kept
      rw [kept, Option.map_none, Option.map_none, Option.getD_none, if_pos all]
      split
      next zero =>
        have none : node.lastSnapshotIndex = 0 := Nat.le_zero.mp zero
        exact ⟨by omega, (wf.noSnapshot none).symm⟩
      next => exact ⟨all, rfl⟩
    · rw [if_neg (by omega)] at kept
      rw [kept, if_neg all]
      cases last : (node.log.take index).getLast? with
      | none =>
        rw [List.getLast?_eq_none_iff.mp last, List.length_nil] at size
        omega
      | some entry =>
        have place := index_getLast (consecutive_take wf.indexes index) last
        have same : entry.index = index := by omega
        rw [Option.map_some, Option.getD_some, same, if_pos base, if_pos base]
        exact ⟨rfl, rfl⟩
  constructor
  case indexes =>
    have log : (node.truncateAfter index).log = node.log.take index := cut
    rw [log]
    exact consecutive_take wf.indexes index
  case lastIndex =>
    have log : (node.truncateAfter index).log = node.log.take index := cut
    rw [pair.1, log, size]
  case lastEntryTerm =>
    have log : (node.truncateAfter index).log = node.log.take index := cut
    rw [pair.2, log, size]
    rfl
  case snapshot => exact wf.snapshot
  case applied =>
    have log : (node.truncateAfter index).log = node.log.take index := cut
    rw [log, size]
    exact floor
  case noSnapshot => exact wf.noSnapshot

theorem appendRecords (wf : node.WellFormed) {request : AppendEntries Node Payload} {skip : Nat}
    (place : skip < request.entries.length → request.prevLogIndex + skip = node.log.length) :
    (node.appendRecords (request.records skip)).WellFormed := by
  have size : (request.records skip).length = request.entries.length - skip := by
    simp [AppendEntries.records]
  by_cases short : skip < request.entries.length
  · have some : request.records skip ≠ [] := fun none => by
      rw [none, List.length_nil] at size
      omega
    have next := place short
    have lastIndex := wf.lastIndex
    refine wf.append some ?_ rfl ?_ ?_ rfl rfl rfl
    · rw [map_index_records, size]
      congr 1
      omega
    · rw [lastIndex_appendRecords, if_neg (by omega)]
      omega
    · cases last : (request.records skip).getLast? with
      | none => exact absurd (List.getLast?_eq_none_iff.mp last) some
      | some entry =>
        rw [NodeState.appendRecords, last]
        rfl
  · have none : request.records skip = [] := List.length_eq_zero_iff.mp (by omega)
    rw [none, appendRecords_nil]
    exact wf

/-- The log to append to is well formed, and the records continue it. -/
theorem prepareAppend (wf : node.WellFormed) {request : AppendEntries Node Payload}
    {records : List (Entry Payload)} (prepared : node.prepareAppend request = .ok (after, records)) :
    after.WellFormed ∧ ∃ skip, records = request.records skip ∧
      (skip < request.entries.length → request.prevLogIndex + skip = after.log.length) := by
  have ends := wf.effectiveLastIndex
  have lastIndex := wf.lastIndex
  obtain ⟨skip, rfl, -, -, -, ⟨rfl, all, -⟩ | ⟨rfl, some, -, short, reaches⟩ |
    ⟨rfl, some, -, floor, inside, -⟩⟩ := prepareAppend_ok prepared
  · exact ⟨wf, skip, rfl, fun some => absurd all some.ne⟩
  · exact ⟨wf, skip, rfl, fun _ => by omega⟩
  · refine ⟨wf.truncateAfter (by omega) (by omega), skip, rfl, fun _ => ?_⟩
    have log : (node.truncateAfter (request.prevLogIndex + skip)).log =
        node.log.take (request.prevLogIndex + skip + 1 - 1) := filter_index_le wf.indexes _
    rw [log, Nat.add_sub_cancel, List.length_take]
    omega

theorem appendEntries (wf : node.WellFormed) {request : AppendEntries Node Payload}
    (accepted : node.appendEntries request = .ok after) : after.WellFormed := by
  obtain ⟨base, records, prepared, rfl⟩ := appendEntries_eq_ok.mp accepted
  obtain ⟨wf, skip, rfl, place⟩ := wf.prepareAppend prepared
  exact wf.appendRecords place

/-- A record is found in `log.bin` at its place. -/
theorem find_index (wf : node.WellFormed) {index : Nat} (above : node.lastSnapshotIndex < index)
    (inside : index ≤ node.log.length) :
    node.file.find? (fun entry => entry.index == index) = node.log[index - 1]? := by
  have place : index - 1 < node.log.length := by omega
  have numbers (k : Nat) (below : k < node.log.length) : (node.log[k]).index = 1 + k := by
    have same : (node.log.map Entry.index)[k]? = (List.range' 1 node.log.length)[k]? := by
      rw [wf.indexes]
    rw [List.getElem?_map, List.getElem?_eq_getElem below,
      List.getElem?_range' below, Nat.one_mul] at same
    exact Option.some.inj same
  have own := numbers (index - 1) place
  rw [List.getElem?_eq_getElem place, wf.file_eq, List.find?_eq_some_iff_getElem]
  refine ⟨beq_iff_eq.mpr (by omega), index - 1 - node.lastSnapshotIndex, ?_, ?_, fun j before => ?_⟩
  · rw [List.length_drop]
    omega
  · rw [List.getElem_drop]
    congr 1
    omega
  · rw [List.getElem_drop, numbers]
    simp only [Bool.not_eq_true', beq_eq_false_iff_ne, ne_eq]
    omega

theorem applyNext (wf : node.WellFormed) : node.applyNext.WellFormed := by
  unfold NodeState.applyNext
  split
  · split
    next entry found =>
      have member := List.mem_of_find?_eq_some found
      have index : entry.index = node.lastApplied + 1 := by
        simpa using List.find?_some found
      have inside : entry.index ∈ node.log.map Entry.index :=
        List.mem_map_of_mem (List.mem_of_mem_filter member)
      rw [wf.indexes, List.mem_range'_1] at inside
      refine { wf with
        snapshot := ?_
        applied := ?_ }
      · refine wf.snapshot.trans ?_
        simp [NodeState.lastApplied]
      · have size : ({ node with applied := node.applied ++ [entry] } :
            NodeState Node Payload).lastApplied = node.lastApplied + 1 := by
          simp [NodeState.lastApplied]
        rw [size]
        show node.lastApplied + 1 ≤ node.log.length
        omega
    next => exact wf
  · exact wf

/-- A snapshot at an applied index keeps the position. -/
theorem compact (wf : node.WellFormed) {index : Nat} (positive : 0 < index)
    (above : node.lastSnapshotIndex ≤ index) (inside : index ≤ node.lastApplied) :
    (node.compact index).WellFormed := by
  refine { wf with
    lastEntryTerm := ?_
    snapshot := inside
    noSnapshot := fun zero => absurd zero positive.ne' }
  show node.lastEntryTerm = if index = node.log.length then node.getTermForIndex index
    else (node.log.getLast?.map Entry.term).getD 0
  rw [wf.lastEntryTerm]
  have applied := wf.applied
  by_cases again : node.lastSnapshotIndex = index
  · have term : node.getTermForIndex index = node.lastSnapshotTerm := by
      have absent : node.file.find? (fun entry => entry.index == index) = none := by
        rw [List.find?_eq_none]
        intro entry member
        have beyond := of_decide_eq_true (List.mem_filter.mp member).2
        rw [beq_iff_eq]
        omega
      rw [getTermForIndex, if_neg positive.ne']
      split
      · rfl
      next zero =>
        rw [absent]
        dsimp only
        by_contra differs
        exact zero ⟨by omega, again.symm, by omega⟩
    rw [again, term]
  · have above : node.lastSnapshotIndex < index := lt_of_le_of_ne above again
    rw [if_neg (by omega)]
    split
    next all =>
      have some : index - 1 < node.log.length := by omega
      rw [getTermForIndex, if_neg positive.ne', if_neg fun both => again both.2.1.symm,
        wf.find_index above (by omega), List.getLast?_eq_getElem?, all,
        List.getElem?_eq_getElem (by omega)]
      rfl
    next => rfl

/-- An install keeps the position if the larger of the two last terms is the one
that comes out last. -/
theorem installSnapshot (wf : node.WellFormed) {snapshot : InstallSnapshot Node Payload}
    (covers : node.lastIndex ≤ snapshot.lastIncludedIndex →
      node.lastEntryTerm ≤ snapshot.lastIncludedTerm)
    (tail : snapshot.lastIncludedIndex < node.lastIndex →
      snapshot.lastIncludedTerm ≤ node.lastEntryTerm) :
    (node.installSnapshot snapshot).WellFormed := by
  unfold NodeState.installSnapshot
  split
  · exact wf
  next beyond =>
    have beyond := Nat.lt_of_not_le beyond
    have snapshot_le := wf.snapshot
    have lastIndex := wf.lastIndex
    have lastEntryTerm := wf.lastEntryTerm
    have rest : node.log.filter (fun entry => snapshot.lastIncludedIndex < entry.index) =
        node.log.drop snapshot.lastIncludedIndex := by
      rw [filter_index_gt wf.indexes, Nat.add_sub_cancel]
    have dropped := consecutive_drop wf.indexes snapshot.lastIncludedIndex
    have included : snapshot.records.length = snapshot.lastIncludedIndex := rfl
    have size : (snapshot.records ++ node.log.drop snapshot.lastIncludedIndex).length =
        max node.log.length snapshot.lastIncludedIndex := by
      rw [List.length_append, List.length_drop, included]
      omega
    dsimp only
    rw [rest]
    constructor
    case indexes =>
      dsimp only
      rcases Nat.le_total node.log.length snapshot.lastIncludedIndex with short | long
      · rw [List.drop_eq_nil_of_le short, List.append_nil]
        exact snapshot.consecutive
      · exact consecutive_append snapshot.consecutive (by rw [dropped, included])
    case lastIndex =>
      dsimp only
      rw [size, lastIndex]
    case lastEntryTerm =>
      dsimp only
      have newer : node.lastSnapshotIndex ≤ snapshot.lastIncludedIndex := by omega
      rw [size, if_pos newer, max_eq_right newer]
      rcases Nat.lt_or_ge snapshot.lastIncludedIndex node.log.length with more | all
      · rw [if_neg (by omega), max_eq_left (tail (by omega)), lastEntryTerm, if_neg (by omega),
          List.getLast?_append_of_ne_nil _ (by
            rw [ne_eq, List.drop_eq_nil_iff]
            omega),
          List.getLast?_drop, if_neg (by omega)]
      · rw [if_pos (by omega), max_eq_right (covers (by omega))]
    case snapshot =>
      show max node.lastSnapshotIndex snapshot.lastIncludedIndex ≤ snapshot.records.length
      omega
    case applied =>
      show snapshot.records.length ≤ _
      rw [size]
      omega
    case noSnapshot =>
      dsimp only
      omega

/-- A restart finds the position in `log.bin`, unless records that are committed
are gone and the node stays fenced. -/
theorem restart (wf : node.WellFormed) {keep : Nat} {useRenamed : Bool}
    (covered : (node.restart keep useRenamed).commitIndex ≤ (node.survivingLog keep).length) :
    (node.restart keep useRenamed).WellFormed := by
  have base : node.lastSnapshotIndex ≤ (node.survivingLog keep).length := by
    have inside := wf.snapshot_le
    rw [survivingLog, List.length_take]
    omega
  have numbered : (node.survivingLog keep).map Entry.index =
      List.range' 1 (node.survivingLog keep).length := consecutive_take wf.indexes _
  have file : (node.survivingLog keep).filter (fun entry => node.lastSnapshotIndex < entry.index) =
      (node.survivingLog keep).drop node.lastSnapshotIndex := by
    rw [filter_index_gt numbered, Nat.add_sub_cancel]
  have noSnapshot := wf.noSnapshot
  unfold NodeState.restart at covered ⊢
  dsimp only at covered ⊢
  rw [file]
  have last : ((node.survivingLog keep).drop node.lastSnapshotIndex).getLast? =
      if (node.survivingLog keep).length ≤ node.lastSnapshotIndex then none
      else (node.survivingLog keep).getLast? := List.getLast?_drop
  have snapshotCommit : node.lastSnapshotIndex ≤
      max (if useRenamed then node.renamed.getD node.disk else node.disk).commitIndex
        node.lastSnapshotIndex := le_max_right _ _
  generalize max (if useRenamed then node.renamed.getD node.disk else node.disk).commitIndex
    node.lastSnapshotIndex = commit at covered snapshotCommit ⊢
  generalize node.survivingLog keep = log at covered base numbered last ⊢
  by_cases all : log.length ≤ node.lastSnapshotIndex
  · rw [if_pos all] at last
    have complete : commit ≤ max 0 node.lastSnapshotIndex := by omega
    rw [last]
    simp only [Option.map_none, Option.getD_none, complete, decide_true, if_true, Nat.not_lt_zero,
      and_false, if_false]
    refine ⟨numbered, ?_, ?_, ?_, ?_, noSnapshot⟩
    · dsimp only
      omega
    · dsimp only
      rw [if_pos (by omega)]
    · show node.lastSnapshotIndex ≤ (log.take commit).length
      rw [List.length_take]
      omega
    · exact List.length_take_le' _ _
  · rw [if_neg all] at last
    rw [last]
    cases final : log.getLast? with
    | none =>
      rw [List.getLast?_eq_none_iff.mp final, List.length_nil] at all
      omega
    | some entry =>
      have place := index_getLast numbered final
      have same : entry.index = log.length := by omega
      have complete : commit ≤ max log.length node.lastSnapshotIndex := by omega
      have beyond : node.lastSnapshotIndex < log.length := by omega
      simp only [Option.map_some, Option.getD_some, same, complete, decide_true, if_true, beyond,
        and_self]
      refine ⟨numbered, ?_, ?_, ?_, ?_, noSnapshot⟩
      · dsimp only
        omega
      · dsimp only
        rw [if_neg (by omega), final]
        rfl
      · show node.lastSnapshotIndex ≤ (log.take commit).length
        rw [List.length_take]
        omega
      · exact List.length_take_le' _ _

end NodeState.WellFormed

end PacificDb.Raft
