import PacificDb.Raft.Node
import Mathlib.Algebra.GroupWithZero.Nat

/-!
# The log of a follower

What `append_entries` does to the log: an accepted append finds its entries there, or
cuts the log at the first that differs, and writes the others.
-/

namespace PacificDb.Raft

variable {Node Payload : Type}

namespace NodeState

variable {node after : NodeState Node Payload}

/-! ## The last index after an append -/

theorem map_index_records (append : AppendEntries Node Payload) (skip : Nat) :
    (append.records skip).map Entry.index =
      List.range' (append.prevLogIndex + 1 + skip) (append.entries.length - skip) := by
  refine List.ext_getElem (by simp [AppendEntries.records]) fun k _ _ => ?_
  simp [AppendEntries.records, Nat.add_assoc]

/-- The largest index of consecutive records. -/
theorem foldl_max_index {records : List (Entry Payload)} {first : Nat}
    (consecutive : records.map Entry.index = List.range' first records.length) (last : Nat) :
    records.foldl (fun last record => max last record.index) last =
      if records = [] then last else max last (first + records.length - 1) := by
  induction records generalizing first last with
  | nil => rfl
  | cons record rest ih =>
    rw [List.map_cons, List.length_cons, List.range'_succ, List.cons.injEq] at consecutive
    obtain ⟨head, consecutive⟩ := consecutive
    rw [List.foldl_cons, ih consecutive, head, if_neg (List.cons_ne_nil _ _), List.length_cons]
    split
    next none =>
      rw [none, List.length_nil]
      omega
    next => omega

theorem lastIndex_appendRecords (append : AppendEntries Node Payload) (skip : Nat) :
    (node.appendRecords (append.records skip)).lastIndex =
      if append.entries.length ≤ skip then node.lastIndex
      else max node.lastIndex (append.prevLogIndex + append.entries.length) := by
  have size : (append.records skip).length = append.entries.length - skip := by
    simp [AppendEntries.records]
  have indexes : (append.records skip).map Entry.index =
      List.range' (append.prevLogIndex + 1 + skip) (append.records skip).length := by
    rw [size, map_index_records]
  refine (foldl_max_index indexes node.lastIndex).trans ?_
  by_cases short : append.entries.length ≤ skip
  · have none : append.records skip = [] := List.length_eq_zero_iff.mp (by omega)
    rw [if_pos short, if_pos none]
  · have some : append.records skip ≠ [] := fun none => by
      rw [none, List.length_nil] at size
      omega
    rw [if_neg short, if_neg some, size]
    omega

theorem appendRecords_nil (node : NodeState Node Payload) : node.appendRecords [] = node := by
  rw [appendRecords, List.append_nil]
  rfl

/-- The log has a record for every entry from this index on, of the same term. -/
def Holds (node : NodeState Node Payload) (index : Nat) (entries : List (Nat × Payload)) : Prop :=
  ∀ k, (below : k < entries.length) →
    index + k ≤ node.lastIndex ∧ node.getTermForIndex (index + k) = (entries[k]).1

theorem holds_cons {index term : Nat} {payload : Payload} {rest : List (Nat × Payload)} :
    node.Holds index ((term, payload) :: rest) ↔
      (index ≤ node.lastIndex ∧ node.getTermForIndex index = term) ∧ node.Holds (index + 1) rest := by
  constructor
  · intro holds
    refine ⟨holds 0 (Nat.zero_lt_succ _), fun k below => ?_⟩
    have next := holds (k + 1) (Nat.succ_lt_succ below)
    rw [Nat.add_assoc, Nat.add_comm 1]
    exact next
  · rintro ⟨head, holds⟩ k below
    cases k with
    | zero => exact head
    | succ k =>
      have next := holds k (Nat.lt_of_succ_lt_succ below)
      rw [Nat.add_assoc, Nat.add_comm 1] at next
      exact next

/-- What the loop over the entries finds. -/
theorem firstConflict_spec (node : NodeState Node Payload) (index : Nat)
    (entries : List (Nat × Payload)) :
    match node.firstConflict index entries with
    | (none, matching) => (matching = entries.length ∧ node.Holds index entries) ∨
        (matching < entries.length ∧ node.lastIndex < index + matching)
    | (some conflict, matching) => conflict = index + matching ∧ matching < entries.length ∧
        conflict ≤ node.lastIndex ∧ ¬node.Holds index entries := by
  induction entries generalizing index with
  | nil => exact .inl ⟨rfl, fun k below => absurd below (Nat.not_lt_zero k)⟩
  | cons entry rest ih =>
    obtain ⟨term, payload⟩ := entry
    rw [firstConflict]
    by_cases beyond : node.lastIndex < index
    · rw [if_pos beyond]
      exact .inr ⟨Nat.zero_lt_succ _, beyond⟩
    · rw [if_neg beyond]
      by_cases differs : node.getTermForIndex index ≠ term
      · rw [if_pos differs]
        refine ⟨rfl, Nat.zero_lt_succ _, Nat.le_of_not_lt beyond, fun holds => ?_⟩
        exact differs (holds_cons.mp holds).1.2
      · rw [if_neg differs]
        have own : index ≤ node.lastIndex ∧ node.getTermForIndex index = term :=
          ⟨Nat.le_of_not_lt beyond, not_not.mp differs⟩
        have onward := ih (index + 1)
        generalize node.firstConflict (index + 1) rest = found at onward ⊢
        obtain ⟨conflict, matching⟩ := found
        cases conflict with
        | none =>
          rcases onward with ⟨all, holds⟩ | ⟨some, short⟩
          · exact .inl ⟨by rw [List.length_cons, all], holds_cons.mpr ⟨own, holds⟩⟩
          · refine .inr ⟨?_, ?_⟩
            · rw [List.length_cons]
              omega
            · omega
        | some conflict =>
          obtain ⟨place, some, inside, differs⟩ := onward
          refine ⟨by omega, ?_, inside, fun holds => differs (holds_cons.mp holds).2⟩
          rw [List.length_cons]
          omega

/-- The entries before the one that the loop stops at are there, and a conflict is a record
of another term. -/
theorem firstConflict_matches (node : NodeState Node Payload) (index : Nat)
    (entries : List (Nat × Payload)) :
    node.Holds index (entries.take (node.firstConflict index entries).2) ∧
      ∀ conflict, (node.firstConflict index entries).1 = some conflict →
        entries[(node.firstConflict index entries).2]?.map Prod.fst ≠ some (node.getTermForIndex conflict) := by
  induction entries generalizing index with
  | nil => exact ⟨fun k below => absurd below (Nat.not_lt_zero k), fun _ found => by cases found⟩
  | cons entry rest ih =>
    obtain ⟨term, payload⟩ := entry
    rw [firstConflict]
    split
    · exact ⟨fun k below => absurd below (Nat.not_lt_zero k), fun _ found => by cases found⟩
    next inside =>
      split
      next differs =>
        refine ⟨fun k below => absurd below (Nat.not_lt_zero k), fun _ found => ?_⟩
        cases found
        exact fun same => differs (Option.some.inj same).symm
      next same =>
        obtain ⟨holds, conflicts⟩ := ih (index + 1)
        refine ⟨holds_cons.mpr ⟨⟨Nat.le_of_not_lt inside, not_not.mp same⟩, holds⟩, fun conflict found => ?_⟩
        exact conflicts conflict found

theorem lastIndex_truncateAfter_le {index : Nat} (floor : node.lastSnapshotIndex ≤ index) :
    (node.truncateAfter index).lastIndex ≤ index := by
  unfold truncateAfter
  dsimp only
  cases kept : (node.file.filter fun entry => entry.index ≤ index).getLast? with
  | none =>
    split
    · exact Nat.zero_le _
    · exact floor
  | some entry =>
    have member := List.mem_of_getLast? kept
    have inside := (List.mem_filter.mp member).2
    split
    · exact of_decide_eq_true inside
    · exact floor

theorem firstConflict_matching_le (node : NodeState Node Payload) {index : Nat}
    (entries : List (Nat × Payload)) (inside : index ≤ node.lastIndex + 1) :
    index + (node.firstConflict index entries).2 ≤ node.lastIndex + 1 := by
  induction entries generalizing index with
  | nil => exact inside
  | cons entry rest ih =>
    obtain ⟨term, payload⟩ := entry
    rw [firstConflict]
    split
    · exact inside
    · split
      · exact inside
      next beyond differs =>
        have onward := @ih (index + 1) (by omega)
        dsimp only
        omega

/-- What the log section of an accepted append does: every entry is there; or the
log ends before the first that is not; or it is cut at a conflict above the
commit floor. The records of the entries behind those that are there are then written. -/
theorem prepareAppend_ok {request : AppendEntries Node Payload} {records : List (Entry Payload)}
    (accepted : node.prepareAppend request = .ok (after, records)) :
    ∃ skip, records = request.records skip ∧ request.prevLogIndex ≤ node.effectiveLastIndex ∧
      (0 < request.prevLogIndex → node.getTermForIndex request.prevLogIndex = request.prevLogTerm) ∧
      node.Holds (request.prevLogIndex + 1) (request.entries.take skip) ∧
      ((after = node ∧ skip = request.entries.length ∧
          node.Holds (request.prevLogIndex + 1) request.entries) ∨
        (after = node ∧ skip < request.entries.length ∧
          ¬node.Holds (request.prevLogIndex + 1) request.entries ∧
          node.lastIndex ≤ request.prevLogIndex + skip ∧
          request.prevLogIndex + skip ≤ node.effectiveLastIndex) ∨
        (after = node.truncateAfter (request.prevLogIndex + skip) ∧ skip < request.entries.length ∧
          ¬node.Holds (request.prevLogIndex + 1) request.entries ∧
          max node.commitIndex node.lastApplied ≤ request.prevLogIndex + skip ∧
          request.prevLogIndex + skip < node.lastIndex ∧
          node.lastSnapshotIndex ≤ request.prevLogIndex)) := by
  unfold prepareAppend at accepted
  split at accepted
  · cases accepted
  next reaches =>
    have reaches := Nat.le_of_not_lt reaches
    split at accepted
    · cases accepted
    next floor =>
      split at accepted
      · cases accepted
      next same =>
        have same : 0 < request.prevLogIndex →
            node.getTermForIndex request.prevLogIndex = request.prevLogTerm := fun positive => by
          by_contra differs
          exact same ⟨positive, differs⟩
        split at accepted
        next overlaps =>
          have spec := node.firstConflict_spec (request.prevLogIndex + 1) request.entries
          have there := (node.firstConflict_matches (request.prevLogIndex + 1) request.entries).1
          have bound := node.firstConflict_matching_le request.entries
            (show request.prevLogIndex + 1 ≤ node.lastIndex + 1 by omega)
          dsimp only at accepted
          generalize node.firstConflict (request.prevLogIndex + 1) request.entries = found
            at accepted spec there bound
          obtain ⟨conflict, matching⟩ := found
          dsimp only at there bound
          cases conflict with
          | none =>
            cases accepted
            refine ⟨matching, rfl, reaches, same, there, ?_⟩
            rcases spec with ⟨all, holds⟩ | ⟨some, short⟩
            · exact .inl ⟨rfl, all, holds⟩
            · refine .inr (.inl ⟨rfl, some, fun holds => ?_, by omega, ?_⟩)
              · have there := (holds matching some).1
                omega
              · rw [effectiveLastIndex]
                omega
          | some conflict =>
            obtain ⟨place, some, inside, differs⟩ := spec
            dsimp only at accepted
            split at accepted
            · cases accepted
            next above =>
              cases accepted
              have cut : conflict - 1 = request.prevLogIndex + matching := by omega
              refine ⟨matching, rfl, reaches, same, there, .inr (.inr ⟨by rw [cut], some, differs, ?_, ?_, ?_⟩)⟩
              · omega
              · omega
              · by_contra below
                exact floor ⟨overlaps.1, by omega, by omega⟩
        next apart =>
          cases accepted
          refine ⟨0, rfl, reaches, same, fun k below => absurd below (Nat.not_lt_zero k), ?_⟩
          by_cases none : request.entries = []
          · refine .inl ⟨rfl, by rw [none, List.length_nil], fun k below => ?_⟩
            rw [none] at below
            exact absurd below (Nat.not_lt_zero k)
          · have beyond : ¬request.prevLogIndex < node.lastIndex := fun below => apart ⟨none, below⟩
            have positive := List.length_pos_iff.mpr none
            refine .inr (.inl ⟨rfl, positive, fun holds => ?_, by omega, reaches⟩)
            have there := (holds 0 positive).1
            omega

theorem appendEntries_eq_ok {request : AppendEntries Node Payload} :
    node.appendEntries request = .ok after ↔
      ∃ base records, node.prepareAppend request = .ok (base, records) ∧
        after = base.appendRecords records := by
  rw [appendEntries]
  cases node.prepareAppend request with
  | error refusal => simp
  | ok prepared =>
    obtain ⟨base, records⟩ := prepared
    constructor
    · intro done
      exact ⟨base, records, rfl, (Except.ok.inj done).symm⟩
    · rintro ⟨_, _, same, rfl⟩
      cases same
      rfl

/-- After an append the log ends at its last entry, unless every entry was there
already and the suffix stayed. -/
theorem appendEntries_ok {request : AppendEntries Node Payload}
    (accepted : node.appendEntries request = .ok after) :
    after.commitIndex = node.commitIndex ∧
      (node.Holds (request.prevLogIndex + 1) request.entries → after.lastIndex = node.lastIndex) ∧
      (¬node.Holds (request.prevLogIndex + 1) request.entries →
        after.lastIndex = request.prevLogIndex + request.entries.length) := by
  obtain ⟨base, records, prepared, rfl⟩ := appendEntries_eq_ok.mp accepted
  obtain ⟨skip, rfl, -, -, -, ⟨rfl, all, holds⟩ | ⟨rfl, some, differs, ends, -⟩ |
    ⟨rfl, some, differs, -, inside, floor⟩⟩ := prepareAppend_ok prepared
  · refine ⟨rfl, fun _ => ?_, fun differs => absurd holds differs⟩
    rw [lastIndex_appendRecords, if_pos all.ge]
  · refine ⟨rfl, fun holds => absurd holds differs, fun _ => ?_⟩
    rw [lastIndex_appendRecords, if_neg (by omega)]
    omega
  · refine ⟨rfl, fun holds => absurd holds differs, fun _ => ?_⟩
    have cut : (node.truncateAfter (request.prevLogIndex + skip)).lastIndex ≤
        request.prevLogIndex + skip := lastIndex_truncateAfter_le (by omega)
    rw [lastIndex_appendRecords, if_neg (by omega)]
    omega

/-- The clusters of the examples have three nodes. -/
instance threeNodes : NeZero 3 := ⟨by decide⟩

end NodeState

end PacificDb.Raft
