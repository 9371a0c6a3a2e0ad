import PacificDb.Lib.Machine
import PacificDb.Raft.LogFile
import PacificDb.Raft.Position

/-!
# Runs of a log and its last position

The pieces of code that change the log or the pair beside it are the events of a machine
on one node. A write that fails leaves some of its bytes in `log.bin`, and what is read
of a later write depends on the bytes before it. The pair is the last position of the log
in every state that is reached by events which update it right.
-/

namespace PacificDb.Raft

open Lib

variable {Node Payload : Type}

/-! ## What the log sections read -/

namespace NodeState

variable {node after : NodeState Node Payload}

/-- What the log sections read and write. -/
def logPart (node : NodeState Node Payload) :
    List (Entry Payload) × List (Entry Payload) × Nat × Nat × Nat × Nat × Nat :=
  (node.log, node.applied, node.lastIndex, node.lastEntryTerm, node.lastSnapshotIndex,
    node.lastSnapshotTerm, node.commitIndex)

theorem logPart_persistConsensusState (write : Write) (term : Nat) (votedFor : Option Node)
    (update : Bool) : (node.persistConsensusState write term votedFor update).1.logPart =
      node.logPart := by
  unfold persistConsensusState
  split
  · rfl
  · cases write <;> rfl

theorem logPart_persistElection (write : Write) :
    (node.persistElection write).1.logPart = node.logPart :=
  logPart_persistConsensusState _ _ _ _

theorem logPart_stepDown (write : Write) (term : Nat) :
    (node.stepDown write term).1.logPart = node.logPart :=
  logPart_persistElection _

theorem WellFormed.congr (wf : node.WellFormed) (same : after.logPart = node.logPart) :
    after.WellFormed := by
  simp only [logPart, Prod.mk.injEq] at same
  obtain ⟨log, applied, lastIndex, lastEntryTerm, snapshotIndex, snapshotTerm, -⟩ := same
  constructor
  case indexes => rw [log, wf.indexes]
  case lastIndex => rw [lastIndex, log, wf.lastIndex]
  case lastEntryTerm => rw [lastEntryTerm, snapshotIndex, log, snapshotTerm, wf.lastEntryTerm]
  case snapshot =>
    rw [snapshotIndex, lastApplied, applied]
    exact wf.snapshot
  case applied =>
    rw [lastApplied, applied, log]
    exact wf.applied
  case noSnapshot =>
    rw [snapshotIndex, snapshotTerm]
    exact wf.noSnapshot

variable [DecidableEq Node]

theorem logPart_considerVote (writeTerm writeVote : Write) (request : VoteRequest Node) :
    (node.considerVote writeTerm writeVote request).1.logPart = node.logPart := by
  unfold considerVote
  have first : (if node.currentTerm < request.term then node.stepDown writeTerm request.term
      else (node, true)).1.logPart = node.logPart := by
    split
    · exact logPart_stepDown _ _
    · rfl
  generalize (if node.currentTerm < request.term then node.stepDown writeTerm request.term
    else (node, true)) = stepped at first ⊢
  obtain ⟨stepped, returned⟩ := stepped
  dsimp only at first ⊢
  rw [← first]
  split
  · rfl
  · split
    · rfl
    · split
      · split
        all_goals exact logPart_persistElection _
      · rfl

theorem logPart_handleVoteRequest (self : Node) (fence : VoteFence) (writeTerm writeVote : Write)
    (request : VoteRequest Node) :
    (node.handleVoteRequest self fence writeTerm writeVote request).1.logPart = node.logPart := by
  unfold handleVoteRequest
  split
  · rfl
  · split
    · rfl
    · exact logPart_considerVote _ _ _

end NodeState

/-! ## The machine -/

/-- A node, and the bytes of `log.bin` behind the last record that can be read. -/
structure LogNode (Node : Type) where
  node : NodeState Node Bytes := {}
  torn : Bytes := []

/-- What happens to the log of a node. A write that fails has put so many bytes into the file. -/
inductive LogEvent (Node : Type) where
  | append (term : Nat) (payloads : List Bytes) (failsAfter : Option Nat)
  | receive (request : AppendEntries Node Bytes) (failsAfter : Option Nat)
  | walShip (ship : WalShip Node Bytes) (failsAfter : Option Nat)
  | sync
  | commit (leaderCommit : Nat)
  | apply
  | createSnapshot (index : Nat)
  | installSnapshot (snapshot : InstallSnapshot Node Bytes)
  | vote (self : Node) (fence : VoteFence) (writeTerm writeVote : NodeState.Write)
      (request : VoteRequest Node)
  | persist (write : NodeState.Write)
  | restart (keep : Nat) (useRenamed : Bool)

namespace LogNode

variable [DecidableEq Node]

/-- A write of records, of which only so many bytes get into the file if it fails; then the
pair does not move. -/
def write (records : List (Entry Bytes)) (failsAfter : Option Nat)
    (publish : NodeState Node Bytes → NodeState Node Bytes) (s : LogNode Node) :
    Option (LogNode Node) :=
  if ∀ record ∈ records, record.Fits then
    let bytes := match failsAfter with
      | none => recordBytes records
      | some persisted => (recordBytes records).take persisted
    let (read, torn) := parse validSize (s.torn ++ bytes)
    let node := { s.node with log := s.node.log ++ read }
    some { node := if failsAfter.isNone then publish node else node, torn }
  else none

def publishPayloads (term count : Nat) (node : NodeState Node Bytes) : NodeState Node Bytes :=
  { node with lastIndex := node.lastIndex + count, lastEntryTerm := term }

def publishRecords (records : List (Entry Bytes)) (node : NodeState Node Bytes) :
    NodeState Node Bytes :=
  { node with
    lastIndex := records.foldl (fun last record => max last record.index) node.lastIndex
    lastEntryTerm := ((records.getLast?).map Entry.term).getD node.lastEntryTerm }

/-- The append finds a conflict, and `log.bin` is written again without what follows. -/
def cuts (request : AppendEntries Node Bytes) (node : NodeState Node Bytes) : Bool :=
  !request.entries.isEmpty && decide (request.prevLogIndex < node.lastIndex) &&
    (node.firstConflict (request.prevLogIndex + 1) request.entries).1.isSome

/-- The log section of `append_entries` up to the write. -/
def prepare (request : AppendEntries Node Bytes) (s : LogNode Node) :
    Option (LogNode Node × List (Entry Bytes)) :=
  match s.node.prepareAppend request with
  | .error _ => none
  | .ok (node, records) => some ({ node, torn := if cuts request s.node then [] else s.torn }, records)

def step (s : LogNode Node) : LogEvent Node → Option (LogNode Node)
  | .append term payloads failsAfter =>
      if payloads = [] then none
      else s.write (NodeState.numbered s.node.lastIndex term payloads) failsAfter
        (publishPayloads term payloads.length)
  | .receive request failsAfter =>
      (s.prepare request).bind fun prepared =>
        prepared.1.write prepared.2 failsAfter (publishRecords prepared.2)
  | .walShip ship failsAfter =>
      s.write (NodeState.numbered s.node.lastIndex ship.term ship.entries) failsAfter
        (publishPayloads ship.term ship.entries.length)
  | .sync => some { s with node := s.node.syncLog }
  | .commit leaderCommit => some { s with node := s.node.commitUpTo leaderCommit }
  | .apply => some { s with node := s.node.applyNext }
  | .createSnapshot index =>
      if 0 < index ∧ s.node.lastSnapshotIndex ≤ index ∧ index ≤ s.node.lastApplied then
        some { node := s.node.compact index }
      else none
  | .installSnapshot snapshot =>
      some { node := s.node.installSnapshot snapshot
             torn := if snapshot.lastIncludedIndex ≤ s.node.lastApplied then s.torn else [] }
  | .vote self fence writeTerm writeVote request =>
      some { s with node := (s.node.handleVoteRequest self fence writeTerm writeVote request).1 }
  | .persist write => some { s with node := (s.node.persistElection write).1 }
  | .restart keep useRenamed =>
      let node := s.node.restart keep useRenamed
      some { node, torn := if node.recoveryComplete then [] else s.torn }

/-- A write comes behind a whole record, and leaves less than its first record if it fails. -/
def Whole (records : List (Entry Bytes)) (failsAfter : Option Nat) (s : LogNode Node) : Prop :=
  (records ≠ [] → s.torn = []) ∧
    (failsAfter.all fun persisted =>
      records.head?.all fun record => decide (persisted < record.bytes.length)) = true

instance (records : List (Entry Bytes)) (failsAfter : Option Nat) (s : LogNode Node) :
    Decidable (s.Whole records failsAfter) := inferInstanceAs (Decidable (_ ∧ _))

/-- The event does not hit one of the updates that get the pair wrong: no write comes behind
torn bytes, and one that fails leaves no whole record; `wal_ship` ships something, an installed
snapshot ends in the larger of the two terms exactly if it covers the log, and a restart finds
every record it knows to be committed. -/
def KeepsPosition (s : LogNode Node) : LogEvent Node → Prop
  | .append term payloads failsAfter =>
      s.Whole (NodeState.numbered s.node.lastIndex term payloads) failsAfter
  | .receive request failsAfter =>
      ∀ prepared ∈ s.prepare request, prepared.1.Whole prepared.2 failsAfter
  | .walShip ship failsAfter => ship.entries ≠ [] ∧
      s.Whole (NodeState.numbered s.node.lastIndex ship.term ship.entries) failsAfter
  | .installSnapshot snapshot => snapshot.lastIncludedIndex ≤ s.node.lastApplied ∨
      ((s.node.lastIndex ≤ snapshot.lastIncludedIndex →
          s.node.lastEntryTerm ≤ snapshot.lastIncludedTerm) ∧
        (snapshot.lastIncludedIndex < s.node.lastIndex →
          snapshot.lastIncludedTerm ≤ s.node.lastEntryTerm))
  | .restart keep useRenamed =>
      max (if useRenamed then s.node.renamed.getD s.node.disk else s.node.disk).commitIndex
        s.node.lastSnapshotIndex ≤ (s.node.survivingLog keep).length
  | _ => True

/-! ## Steps -/

/-- The pair is kept right, and what stands behind the records is no record. -/
structure WellFormed (s : LogNode Node) : Prop where
  node : s.node.WellFormed
  torn : TornTail s.torn

variable {s after : LogNode Node}

omit [DecidableEq Node] in
/-- A write that is not behind torn bytes adds its records, or none if it fails. -/
theorem WellFormed.write (wf : s.WellFormed) {records : List (Entry Bytes)} {failsAfter : Option Nat}
    {publish : NodeState Node Bytes → NodeState Node Bytes} (whole : s.Whole records failsAfter)
    (written : (publish { s.node with log := s.node.log ++ records }).WellFormed)
    (taken : s.write records failsAfter publish = some after) : after.WellFormed := by
  simp only [LogNode.write, Option.ite_none_right_eq_some] at taken
  obtain ⟨fit, same⟩ := taken
  obtain rfl := Option.some.inj same
  obtain ⟨behind, short⟩ := whole
  have valid : ∀ size, validSize size = true → validSize size = true := fun _ => id
  cases failsAfter with
  | none =>
    have read : parse validSize (s.torn ++ recordBytes records) = (records, s.torn) := by
      cases records with
      | nil => exact (congrArg _ (List.append_nil _)).trans (wf.torn.parse valid)
      | cons record rest =>
        have whole := parse_recordBytes_torn valid fit tornTail_nil
        rw [List.append_nil] at whole
        rw [behind (List.cons_ne_nil _ _), List.nil_append, whole]
    dsimp only
    rw [read]
    exact ⟨written, wf.torn⟩
  | some persisted =>
    have tail : TornTail (s.torn ++ (recordBytes records).take persisted) := by
      cases records with
      | nil =>
        rw [show recordBytes [] = [] from rfl, List.take_nil, List.append_nil]
        exact wf.torn
      | cons record rest =>
        rw [behind (List.cons_ne_nil _ _), List.nil_append]
        refine tornTail_take fit fun first isFirst => ?_
        obtain rfl := Option.some.inj isFirst
        exact of_decide_eq_true short
    dsimp only
    rw [tail.parse valid]
    refine ⟨wf.node.congr ?_, tail⟩
    rw [List.append_nil]
    rfl

/-- One step. -/
theorem WellFormed.step (wf : s.WellFormed) {event : LogEvent Node} (keeps : s.KeepsPosition event)
    (taken : s.step event = some after) : after.WellFormed := by
  cases event with
  | append term payloads failsAfter =>
    simp only [LogNode.step, Option.ite_none_left_eq_some] at taken
    exact wf.write keeps (wf.node.appendPayloads term taken.1) taken.2
  | receive request failsAfter =>
    obtain ⟨⟨base, records⟩, prepared, written⟩ := Option.bind_eq_some_iff.mp taken
    have keeps := keeps _ prepared
    rw [prepare] at prepared
    cases accepted : s.node.prepareAppend request with
    | error refusal =>
      rw [accepted] at prepared
      cases prepared
    | ok both =>
      rw [accepted] at prepared
      obtain ⟨node, appended⟩ := both
      cases prepared
      have tail : TornTail (if cuts request s.node then [] else s.torn) := by
        split
        · exact tornTail_nil
        · exact wf.torn
      have both := wf.node.prepareAppend accepted
      exact WellFormed.write ⟨both.1, tail⟩ keeps
        (wf.node.appendEntries (NodeState.appendEntries_eq_ok.mpr ⟨_, _, accepted, rfl⟩)) written
  | walShip ship failsAfter => exact wf.write keeps.2 (wf.node.appendPayloads ship.term keeps.1) taken
  | sync =>
    obtain rfl := Option.some.inj taken
    exact ⟨wf.node.congr rfl, wf.torn⟩
  | commit leaderCommit =>
    obtain rfl := Option.some.inj taken
    exact ⟨{ wf.node with }, wf.torn⟩
  | apply =>
    obtain rfl := Option.some.inj taken
    exact ⟨wf.node.applyNext, wf.torn⟩
  | createSnapshot index =>
    simp only [LogNode.step, Option.ite_none_right_eq_some] at taken
    obtain ⟨⟨positive, above, inside⟩, same⟩ := taken
    obtain rfl := Option.some.inj same
    exact ⟨wf.node.compact positive above inside, tornTail_nil⟩
  | installSnapshot snapshot =>
    obtain rfl := Option.some.inj taken
    refine ⟨?_, ?_⟩
    · rcases keeps with old | ⟨covers, tail⟩
      · dsimp only
        rw [NodeState.installSnapshot, if_pos old]
        exact wf.node
      · exact wf.node.installSnapshot covers tail
    · dsimp only
      split
      · exact wf.torn
      · exact tornTail_nil
  | vote self fence writeTerm writeVote request =>
    obtain rfl := Option.some.inj taken
    exact ⟨wf.node.congr (NodeState.logPart_handleVoteRequest _ _ _ _ _), wf.torn⟩
  | persist write =>
    obtain rfl := Option.some.inj taken
    exact ⟨wf.node.congr (NodeState.logPart_persistElection _), wf.torn⟩
  | restart keep useRenamed =>
    obtain rfl := Option.some.inj taken
    refine ⟨wf.node.restart keeps, ?_⟩
    dsimp only
    split
    · exact tornTail_nil
    · exact wf.torn

/-- An empty `wal_ship` of term 7 to a follower with one record of term 1. -/
def emptyShip : LogEvent (Fin 3) := .walShip { term := 7, leader := 0, leaderCommit := 0, entries := [] } none

/-- Two records, a third that is torn, a conflicting append of a later leader, and a snapshot. -/
def truncatedRun : List (LogEvent (Fin 3)) :=
  [.append 1 [[10], [11]] none, .append 1 [[12]] (some 5),
    .receive { term := 2, leader := 1, prevLogIndex := 1, prevLogTerm := 1, leaderCommit := 2
               entries := [(2, [20])], rpcFormat := .text } none,
    .commit 2, .apply, .apply, .createSnapshot 2]

instance (s : LogNode (Fin 3)) : ∀ event, Decidable (s.KeepsPosition event)
  | .append _ _ _ => inferInstanceAs (Decidable (s.Whole _ _))
  | .receive _ _ => inferInstanceAs (Decidable (∀ prepared ∈ s.prepare _, _))
  | .walShip _ _ => inferInstanceAs (Decidable (_ ∧ _))
  | .installSnapshot _ => inferInstanceAs (Decidable (_ ∨ _))
  | .restart _ _ => inferInstanceAs (Decidable (_ ≤ _))
  | .sync | .commit _ | .apply | .createSnapshot _ | .vote _ _ _ _ _ | .persist _ => .isTrue trivial

end LogNode

end PacificDb.Raft
