import Mathlib.Data.List.Sort
import Mathlib.Logic.Function.Basic
import Mathlib.Algebra.GroupWithZero.Nat

/-!
# One node

The state of `RaftCore` on one node, and the sections of its code that run under
one lock: what the election sections do to the term and the vote, what the log
sections do to `log.bin`, and what the commit sections store.

Terms, indexes and counts are `uint64_t` in the code and numbers here; the term of an
election wraps as `++currentTerm_` does. A record
that compaction or a snapshot took out of `log.bin` stays in `log`; nothing reads
a record at or below `lastSnapshotIndex`.
-/

namespace PacificDb.Raft

/-- A record of `log.bin`. -/
structure Entry (Payload : Type) where
  index : Nat
  term : Nat
  payload : Payload
  deriving Repr, DecidableEq

/-- `consensus_state.json`. -/
structure ConsensusState (Node : Type) where
  currentTerm : Nat := 0
  votedFor : Option Node := none
  commitIndex : Nat := 0
  lastApplied : Nat := 0
  deriving Repr, DecidableEq

structure NodeState (Node Payload : Type) where
  currentTerm : Nat := 0
  votedFor : Option Node := none
  leader : Bool := false
  leaderId : Option Node := none
  recoveryComplete : Bool := true
  log : List (Entry Payload) := []
  lastIndex : Nat := 0
  lastEntryTerm : Nat := 0
  lastSnapshotIndex : Nat := 0
  lastSnapshotTerm : Nat := 0
  commitIndex : Nat := 0
  /-- What the state machine holds, in the order of application. -/
  applied : List (Entry Payload) := []
  matchIndex : Node → Nat := fun _ => 0
  nextIndex : Node → Nat := fun _ => 0
  quorumReachedIndex : Nat := 0
  /-- The state `persistConsensusState` last meant to write. -/
  persisted : ConsensusState Node := {}
  /-- The file. -/
  disk : ConsensusState Node := {}
  /-- The file after a rename that may or may not survive a crash. -/
  renamed : Option (ConsensusState Node) := none
  /-- Records of `log.bin` that survive a crash. -/
  synced : Nat := 0
  /-- `log.bin` was replaced and not synced since. -/
  rewritten : Bool := false

variable {Node Payload : Type} [DecidableEq Node]

namespace NodeState

def lastApplied (node : NodeState Node Payload) : Nat := node.applied.length

/-! ## Persistence -/

/-- What becomes of a write of `consensus_state.json`: it is durable, it fails
before the rename, or the directory sync after the rename fails. -/
inductive Write where
  | durable
  | failed
  | uncertain
  deriving Repr, DecidableEq

/-- `persistConsensusState`: the state after it, and whether it returned. After
an uncertain rename every later write fails. -/
def persistConsensusState (write : Write) (term : Nat) (votedFor : Option Node)
    (updateElectionState : Bool) (node : NodeState Node Payload) : NodeState Node Payload × Bool :=
  if node.renamed.isSome then (node, false)
  else
    let newerElection := updateElectionState && decide (node.persisted.currentTerm ≤ term)
    let intent : ConsensusState Node :=
      if newerElection then { node.persisted with currentTerm := term, votedFor := votedFor }
      else node.persisted
    let next : ConsensusState Node :=
      { intent with
        commitIndex := max node.persisted.commitIndex node.commitIndex
        lastApplied := max node.persisted.lastApplied node.lastApplied }
    match write with
    | .durable => ({ node with persisted := next, disk := next }, true)
    | .failed => ({ node with persisted := intent }, false)
    | .uncertain =>
        ({ node with persisted := intent, renamed := some next, leader := false
                     recoveryComplete := false }, false)

/-- `persistCurrentTerm` and `persistVotedFor`. -/
def persistElection (write : Write) (node : NodeState Node Payload) : NodeState Node Payload × Bool :=
  node.persistConsensusState write node.currentTerm node.votedFor true

/-! ## Election sections -/

/-- A higher term: no leader, no vote, and the term is written. -/
def stepDown (write : Write) (term : Nat) (node : NodeState Node Payload) :
    NodeState Node Payload × Bool :=
  persistElection write { node with currentTerm := term, leader := false, votedFor := none }

def observeHigherTerm (write : Write) (newTerm : Nat) (node : NodeState Node Payload) :
    NodeState Node Payload :=
  if newTerm ≤ node.currentTerm then node else (node.stepDown write newTerm).1

/-- `adoptLeaderTermLocked`, for a term not below the current one. -/
def adoptLeaderTerm (write : Write) (term : Nat) (node : NodeState Node Payload) :
    NodeState Node Payload × Bool :=
  if node.currentTerm < term then node.stepDown write term
  else ({ node with leader := false }, true)

/-- The election section of the handlers for `append_entries` and `wal_ship`, for
a term not below the current one: the state, and whether the handler goes on. -/
def contact (write : Write) (term : Nat) (leaderId : Option Node) (node : NodeState Node Payload) :
    NodeState Node Payload × Bool :=
  let (node, returned) := node.adoptLeaderTerm write term
  if returned then ({ node with leaderId := leaderId.or node.leaderId }, true) else (node, false)

/-- The first section of `attemptElection`. -/
def startElection (self : Node) (writeTerm writeVote : Write) (node : NodeState Node Payload) :
    NodeState Node Payload × Bool :=
  let (node, returned) :=
    { node with currentTerm := (node.currentTerm + 1) % 2 ^ 64 }.persistElection writeTerm
  if !returned then (node, false)
  else
    let (node, returned) := { node with votedFor := some self }.persistElection writeVote
    if !returned then (node, false) else ({ node with leader := false }, true)

end NodeState

structure VoteRequest (Node : Type) where
  term : Nat
  candidate : Node
  lastLogIndex : Nat
  lastLogTerm : Nat
  deriving Repr, DecidableEq

/-- The readings of the clock before the section of `vote_request`. -/
structure VoteFence where
  leaderLeaseActive : Bool := false
  freshLeaderHeartbeat : Bool := false
  deriving Repr, DecidableEq

namespace NodeState

/-- The candidate's log is at least as up to date as the node's. -/
def upToDate (node : NodeState Node Payload) (request : VoteRequest Node) : Bool :=
  decide (node.lastEntryTerm < request.lastLogTerm) ||
    (node.lastEntryTerm == request.lastLogTerm && decide (node.lastIndex ≤ request.lastLogIndex))

/-- The section of `vote_request` past the fences. -/
def considerVote (writeTerm writeVote : Write) (request : VoteRequest Node)
    (node : NodeState Node Payload) : NodeState Node Payload × Option Bool :=
  let (node, returned) :=
    if node.currentTerm < request.term then node.stepDown writeTerm request.term else (node, true)
  if !returned then (node, none)
  else if !node.recoveryComplete then (node, some false)
  else if request.term = node.currentTerm ∧
      (node.votedFor = none ∨ node.votedFor = some request.candidate) ∧ node.upToDate request then
    let (node, returned) :=
      { node with votedFor := some request.candidate }.persistElection writeVote
    if returned then (node, some true) else (node, none)
  else (node, some false)

/-- The section of `vote_request`: the state and the answer, if one is sent. -/
def handleVoteRequest (self : Node) (fence : VoteFence) (writeTerm writeVote : Write)
    (request : VoteRequest Node) (node : NodeState Node Payload) :
    NodeState Node Payload × Option Bool :=
  if fence.leaderLeaseActive ∧ request.candidate ≠ self then (node, some false)
  else if fence.freshLeaderHeartbeat ∧ node.leaderId ≠ some request.candidate then (node, some false)
  else node.considerVote writeTerm writeVote request

end NodeState

/-! ## The log -/

namespace NodeState

/-- The records that are in `log.bin`. -/
def file (node : NodeState Node Payload) : List (Entry Payload) :=
  node.log.filter fun entry => node.lastSnapshotIndex < entry.index

def getTermForIndex (node : NodeState Node Payload) (index : Nat) : Nat :=
  if index = 0 then 0
  else if 0 < node.lastSnapshotIndex ∧ index = node.lastSnapshotIndex ∧ 0 < node.lastSnapshotTerm then
    node.lastSnapshotTerm
  else
    match node.file.find? fun entry => entry.index == index with
    | some entry => entry.term
    | none => 0

/-- `readRaftEntriesRange`: all records of the range, or none. -/
def readRaftEntriesRange (node : NodeState Node Payload) (fromIndex toIndex : Nat) :
    List (Entry Payload) :=
  let found := node.file.filter fun entry => fromIndex ≤ entry.index ∧ entry.index ≤ toIndex
  if found.map Entry.index = List.range' fromIndex (toIndex + 1 - fromIndex) then found else []

/-- `std::max(lastIndex_, lastSnapshotIndex_)`. -/
def effectiveLastIndex (node : NodeState Node Payload) : Nat :=
  max node.lastIndex node.lastSnapshotIndex

/-- The records a leader or `wal_ship` adds: numbered from the last index. -/
def numbered (lastIndex term : Nat) (payloads : List Payload) : List (Entry Payload) :=
  payloads.mapIdx fun i payload => { index := lastIndex + 1 + i, term, payload }

/-- The log section of `replicateSynchronous`, of a batch, and of `wal_ship`. -/
def appendPayloads (term : Nat) (payloads : List Payload) (node : NodeState Node Payload) :
    NodeState Node Payload :=
  { node with
    log := node.log ++ numbered node.lastIndex term payloads
    lastIndex := node.lastIndex + payloads.length
    lastEntryTerm := term }

/-- A sync of `log.bin`. -/
def syncLog (node : NodeState Node Payload) : NodeState Node Payload :=
  { node with synced := node.log.length, rewritten := false }

end NodeState

/-- Whether a follower answers in JSON or in text. -/
inductive RpcFormat where
  | json
  | text
  deriving Repr, DecidableEq

structure AppendEntries (Node Payload : Type) where
  term : Nat
  leader : Node
  prevLogIndex : Nat
  prevLogTerm : Nat
  leaderCommit : Nat
  /-- `entries` with `entryTerms`. -/
  entries : List (Nat × Payload)
  rpcFormat : RpcFormat
  deriving Repr, DecidableEq

/-- The records of an append from `prevLogIndex` on, without the first `skip`. -/
def AppendEntries.records (append : AppendEntries Node Payload) (skip : Nat) :
    List (Entry Payload) :=
  (append.entries.mapIdx fun k entry =>
    { index := append.prevLogIndex + 1 + k, term := entry.1, payload := entry.2 }).drop skip

/-- Why an append is refused. -/
inductive Refusal where
  | prevIndexConflict
  | snapshotFloorConflict
  | prevTermConflict
  | truncationBelowCommitFloor
  | recoveryIncomplete
  deriving Repr, DecidableEq

namespace NodeState

/-- The loop over the entries of an append: the first index whose local term
differs, and how many entries are there already. -/
def firstConflict (node : NodeState Node Payload) : Nat → List (Nat × Payload) → Option Nat × Nat
  | _, [] => (none, 0)
  | index, (term, _) :: rest =>
      if node.lastIndex < index then (none, 0)
      else if node.getTermForIndex index ≠ term then (some index, 0)
      else
        let (conflict, matching) := node.firstConflict (index + 1) rest
        (conflict, matching + 1)

/-- The rewrite of `log.bin` without the records after an index. -/
def truncateAfter (index : Nat) (node : NodeState Node Payload) : NodeState Node Payload :=
  let log := node.log.filter fun entry => entry.index ≤ index
  let kept := (node.file.filter fun entry => entry.index ≤ index).getLast?
  let keepLastIndex := (kept.map Entry.index).getD 0
  { node with
    log
    synced := min node.synced log.length
    rewritten := true
    lastIndex := if node.lastSnapshotIndex ≤ keepLastIndex then keepLastIndex
      else node.lastSnapshotIndex
    lastEntryTerm := if node.lastSnapshotIndex ≤ keepLastIndex then (kept.map Entry.term).getD 0
      else node.lastSnapshotTerm }

def appendRecords (records : List (Entry Payload)) (node : NodeState Node Payload) :
    NodeState Node Payload :=
  { node with
    log := node.log ++ records
    lastIndex := records.foldl (fun last record => max last record.index) node.lastIndex
    lastEntryTerm := ((records.getLast?).map Entry.term).getD node.lastEntryTerm }

/-- The log section of `append_entries` up to the write: the log to append to, cut
at the first conflict, and the records. A refusal comes with the index reported. -/
def prepareAppend (append : AppendEntries Node Payload) (node : NodeState Node Payload) :
    Except (Refusal × Nat) (NodeState Node Payload × List (Entry Payload)) :=
  if node.effectiveLastIndex < append.prevLogIndex then
    .error (.prevIndexConflict, node.effectiveLastIndex)
  else if append.entries ≠ [] ∧ 0 < node.lastSnapshotIndex ∧
      append.prevLogIndex < node.lastSnapshotIndex then
    .error (.snapshotFloorConflict, node.lastSnapshotIndex)
  else if 0 < append.prevLogIndex ∧
      node.getTermForIndex append.prevLogIndex ≠ append.prevLogTerm then
    .error (.prevTermConflict, node.effectiveLastIndex)
  else if append.entries ≠ [] ∧ append.prevLogIndex < node.lastIndex then
    let commitFloor := max node.commitIndex node.lastApplied
    match node.firstConflict (append.prevLogIndex + 1) append.entries with
    | (none, matching) => .ok (node, append.records matching)
    | (some index, matching) =>
        if index ≤ commitFloor then .error (.truncationBelowCommitFloor, commitFloor)
        else .ok (node.truncateAfter (index - 1), append.records matching)
  else .ok (node, append.records 0)

/-- The log section of `append_entries`. -/
def appendEntries (append : AppendEntries Node Payload) (node : NodeState Node Payload) :
    Except (Refusal × Nat) (NodeState Node Payload) :=
  match node.prepareAppend append with
  | .error refusal => .error refusal
  | .ok (base, records) => .ok (base.appendRecords records)

/-- The commit section of `append_entries`, `wal_ship` and `heartbeat`. -/
def commitUpTo (leaderCommit : Nat) (node : NodeState Node Payload) : NodeState Node Payload :=
  { node with commitIndex := max node.commitIndex (min leaderCommit node.lastIndex) }

end NodeState

structure Heartbeat (Node : Type) where
  term : Nat
  leader : Node
  leaderCommit : Nat
  leaderLastLogIndex : Nat
  leaderLastLogTerm : Nat
  deriving Repr, DecidableEq

/-- The node's last position as the heartbeat handler reads it. -/
structure Tail where
  index : Nat
  term : Nat
  deriving Repr, DecidableEq

def Heartbeat.tailMatches (heartbeat : Heartbeat Node) (tail : Tail) : Bool :=
  heartbeat.leaderLastLogIndex == tail.index && heartbeat.leaderLastLogTerm == tail.term

def Heartbeat.logBehind (heartbeat : Heartbeat Node) (tail : Tail) : Bool :=
  decide (heartbeat.leaderLastLogTerm < tail.term) ||
    (heartbeat.leaderLastLogTerm == tail.term && decide (heartbeat.leaderLastLogIndex < tail.index))

namespace NodeState

def heartbeatTail (node : NodeState Node Payload) : Tail :=
  let index := node.effectiveLastIndex
  { index
    term := if node.getTermForIndex index = 0 then node.lastEntryTerm
      else node.getTermForIndex index }

/-- The election section of `heartbeat`: whether the leader is accepted. -/
def heartbeatContact (write : Write) (heartbeat : Heartbeat Node) (tail : Tail)
    (node : NodeState Node Payload) : NodeState Node Payload × Bool :=
  if heartbeat.term < node.currentTerm then (node, false)
  else if heartbeat.logBehind tail ∧
      ¬(heartbeat.term = node.currentTerm ∧ tail.term = heartbeat.term ∧
        node.leaderId = some heartbeat.leader) then
    if node.currentTerm < heartbeat.term then ((node.stepDown write heartbeat.term).1, false)
    else (node, false)
  else node.contact write heartbeat.term (some heartbeat.leader)

/-- The commit section of `heartbeat`: only an exact tail match lets it commit. -/
def heartbeatCommit (heartbeat : Heartbeat Node) (tail : Tail) (node : NodeState Node Payload) :
    NodeState Node Payload :=
  if node.recoveryComplete && heartbeat.tailMatches tail then node.commitUpTo heartbeat.leaderCommit
  else node

end NodeState

structure WalShip (Node Payload : Type) where
  term : Nat
  leader : Node
  leaderCommit : Nat
  entries : List Payload
  deriving Repr, DecidableEq

/-! ## Snapshots and restarts -/

/-- A snapshot in transfer. The payload is what the state machine holds after the
records up to the included index. -/
structure InstallSnapshot (Node Payload : Type) where
  term : Nat
  leader : Node
  records : List (Entry Payload)
  lastIncludedTerm : Nat
  consecutive : records.map Entry.index = List.range' 1 records.length

def InstallSnapshot.lastIncludedIndex (snapshot : InstallSnapshot Node Payload) : Nat :=
  snapshot.records.length

namespace NodeState

/-- The election section of the snapshot handlers. -/
def snapshotContact (write : Write) (term : Nat) (leaderId : Node) (node : NodeState Node Payload) :
    NodeState Node Payload × Bool :=
  let (node, returned) :=
    if node.currentTerm < term then node.stepDown write term else (node, true)
  if returned then ({ node with leaderId := some leaderId }, true) else (node, false)

/-- The install: the state machine is replaced, the log loses what the snapshot
covers and keeps its tail. -/
def installSnapshot (snapshot : InstallSnapshot Node Payload) (node : NodeState Node Payload) :
    NodeState Node Payload :=
  if snapshot.lastIncludedIndex ≤ node.lastApplied then node
  else
    let included := snapshot.lastIncludedIndex
    let tail := node.log.filter fun entry => included < entry.index
    { node with
      lastSnapshotTerm := if node.lastSnapshotIndex ≤ included then snapshot.lastIncludedTerm
        else node.lastSnapshotTerm
      lastSnapshotIndex := max node.lastSnapshotIndex included
      lastIndex := max node.lastIndex included
      lastEntryTerm := max node.lastEntryTerm snapshot.lastIncludedTerm
      commitIndex := max node.commitIndex included
      applied := snapshot.records
      log := snapshot.records ++ tail
      synced := min node.synced (snapshot.records ++ tail).length
      rewritten := true }

/-- `createSnapshot` and `compactRaftLog` at an applied index. -/
def compact (index : Nat) (node : NodeState Node Payload) : NodeState Node Payload :=
  { node with
    lastSnapshotTerm := node.getTermForIndex index
    lastSnapshotIndex := index
    rewritten := true }

/-- Apply the next committed record. -/
def applyNext (node : NodeState Node Payload) : NodeState Node Payload :=
  if node.lastApplied < node.commitIndex then
    match node.file.find? fun entry => entry.index == node.lastApplied + 1 with
    | some entry => { node with applied := node.applied ++ [entry] }
    | none => node
  else node

/-- What is left of `log.bin` after a crash that keeps so many records: none that
were synced are lost, unless the file was replaced and not synced since. -/
def survivingLog (keep : Nat) (node : NodeState Node Payload) : List (Entry Payload) :=
  node.log.take (max node.lastSnapshotIndex (if node.rewritten then keep else max node.synced keep))

/-- A crash and the start of a new process: `loadPersistedState` and
`replayRaftLog`, which rewrites `log.bin` (`trimRaftLog`). -/
def restart (keep : Nat) (useRenamed : Bool) (node : NodeState Node Payload) :
    NodeState Node Payload :=
  let disk := if useRenamed then node.renamed.getD node.disk else node.disk
  let log := node.survivingLog keep
  let file := log.filter fun entry => node.lastSnapshotIndex < entry.index
  let maxIndex := (file.getLast?.map Entry.index).getD 0
  let commitIndex := max disk.commitIndex node.lastSnapshotIndex
  let complete : Bool := decide (commitIndex ≤ max maxIndex node.lastSnapshotIndex)
  { currentTerm := disk.currentTerm
    votedFor := disk.votedFor
    recoveryComplete := complete
    log
    lastIndex := if complete then max node.lastSnapshotIndex maxIndex else node.lastSnapshotIndex
    lastEntryTerm := if complete ∧ node.lastSnapshotIndex < maxIndex then
        (file.getLast?.map Entry.term).getD 0
      else node.lastSnapshotTerm
    lastSnapshotIndex := node.lastSnapshotIndex
    lastSnapshotTerm := node.lastSnapshotTerm
    commitIndex
    applied := log.take (if complete then commitIndex else node.lastSnapshotIndex)
    persisted := disk
    disk
    synced := log.length
    rewritten := !file.isEmpty }

end NodeState

end PacificDb.Raft
