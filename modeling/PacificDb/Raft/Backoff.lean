import PacificDb.Raft.LeaderLog
import Mathlib.Logic.Function.Iterate

/-!
# The back-off of a peer replicator

A leader sends each follower the records from `nextIndex_` on. A follower whose log ends
earlier, or has another term at the record before, answers `conflict:` with its last index,
and the leader goes on behind that index, in both cases.

So the replicator steps back at most once. Where it then stands on a record that both logs
have, every later round advances, and the follower ends with the leader's records
(`backoff_converges`); its own records behind them stay. The logs are without snapshots, the
messages arrive, and the follower is in the leader's term.
-/

namespace PacificDb.Raft

variable {Node Payload : Type}

/-- What the follower answers: `ok`, `conflict:` or `conflict_committed:`. In JSON the first
also carries the last index. -/
inductive Answer where
  | ok (lastIndex : Nat)
  | conflict (lastIndex : Nat)
  | conflictCommitted (commitFloor : Nat)
  deriving Repr, DecidableEq

/-- The handler of `append_entries` behind its checks of the term and of the recovery. -/
def NodeState.answer (node : NodeState Node Payload) (append : AppendEntries Node Payload) :
    NodeState Node Payload × Answer :=
  match node.appendEntries append with
  | .ok after => (after.commitUpTo append.leaderCommit, .ok after.effectiveLastIndex)
  | .error (.truncationBelowCommitFloor, commitFloor) => (node, .conflictCommitted commitFloor)
  | .error (_, lastIndex) => (node, .conflict lastIndex)

/-- A leader without a snapshot whose replicators are to ship its records up to `target`.
`fitRaftEntriesFrame` leaves some entries of every message that has any. -/
structure Sender (Node Payload : Type) where
  leader : NodeState Node Payload
  nodeId : Node
  target : Nat
  chunkLimit : Nat
  maxBatch : Nat
  fitted : List (Nat × Payload) → Nat
  wellFormed : leader.WellFormed
  noSnapshot : leader.lastSnapshotIndex = 0
  target_le : target ≤ leader.log.length
  chunkLimit_pos : 0 < chunkLimit
  fitted_pos : ∀ entries, entries ≠ [] → 0 < fitted entries

/-- A follower, and what the leader keeps of it. -/
structure Peer (Node Payload : Type) where
  follower : NodeState Node Payload
  matchIndex : Nat
  nextIndex : Nat

namespace Sender

variable (s : Sender Node Payload)

/-- The message with as many of the records as fit a frame. -/
def message (rpcFormat : RpcFormat) (prevIndex : Nat) (records : List (Entry Payload)) :
    AppendEntries Node Payload where
  term := s.leader.currentTerm
  leader := s.nodeId
  prevLogIndex := prevIndex
  prevLogTerm := s.leader.getTermForIndex prevIndex
  leaderCommit := s.leader.commitIndex
  entries :=
    let entries := records.map fun record => (record.term, record.payload)
    entries.take (s.fitted entries)
  rpcFormat := rpcFormat

def advance (peer : Peer Node Payload) (after : NodeState Node Payload) (remoteMatch : Nat) :
    Peer Node Payload where
  follower := after
  matchIndex := max peer.matchIndex remoteMatch
  nextIndex := max peer.nextIndex (remoteMatch + 1)

/-- The attempts of `backfillCommittedEntriesToPeer`, and whether the last one got through. -/
def backfillFrom (s : Sender Node Payload) :
    Nat → Nat → Peer Node Payload → Peer Node Payload × Bool
  | 0, prevIndex, peer => (peer, decide (s.target ≤ prevIndex))
  | attempts + 1, prevIndex, peer =>
      if s.target ≤ prevIndex then (peer, true)
      else
        let found := s.leader.readRaftEntriesRange (prevIndex + 1) (min s.target (prevIndex + s.maxBatch))
        if found.isEmpty then (peer, false)
        else
          let append := s.message .json prevIndex found
          match peer.follower.answer append with
          | (after, .ok lastIndex) =>
              let remoteMatch := if lastIndex ≤ prevIndex then prevIndex + append.entries.length
                else lastIndex
              s.backfillFrom attempts remoteMatch (advance peer after remoteMatch)
          | (after, .conflict lastIndex) =>
              s.backfillFrom attempts (if 0 < lastIndex then lastIndex else prevIndex - 1)
                { peer with follower := after }
          | (after, .conflictCommitted _) =>
              if 0 < prevIndex then
                s.backfillFrom attempts (prevIndex - 1) { peer with follower := after }
              else ({ peer with follower := after }, false)

def backfillCommittedEntriesToPeer (prevIndex : Nat) (peer : Peer Node Payload) :
    Peer Node Payload × Bool :=
  s.backfillFrom 16 (max prevIndex peer.matchIndex) peer

def prevIndex (peer : Peer Node Payload) : Nat :=
  min (if 0 < peer.nextIndex then peer.nextIndex - 1 else s.target - 1) s.target

/-- The records that the next message is made of, and how many of them it ships. -/
def found (peer : Peer Node Payload) : List (Entry Payload) :=
  s.leader.readRaftEntriesRange (s.prevIndex peer + 1) (min s.target (s.prevIndex peer + s.chunkLimit))

def shipCount (peer : Peer Node Payload) : Nat :=
  (s.message .text (s.prevIndex peer) (s.found peer)).entries.length

/-- One round of the loop of the replicator. -/
def round (peer : Peer Node Payload) : Peer Node Payload :=
  if s.target ≤ peer.matchIndex then peer
  else
    let prevIndex := s.prevIndex peer
    let found := s.found peer
    if found.isEmpty then
      let (peer, installed) := s.backfillCommittedEntriesToPeer prevIndex peer
      if !installed ∧ 0 < prevIndex ∧ 1 < peer.nextIndex then
        { peer with nextIndex := max 1 prevIndex }
      else peer
    else
      let append := s.message .text prevIndex found
      match peer.follower.answer append with
      | (after, .ok _) => advance peer after (prevIndex + append.entries.length)
      | (after, .conflict lastIndex) =>
          { peer with
            follower := after
            nextIndex := if 0 < lastIndex then lastIndex + 1 else 1 }
      | (after, .conflictCommitted _) => { peer with follower := after }

end Sender

/-! ## Logs without a snapshot -/

namespace NodeState.WellFormed

variable {node : NodeState Node Payload}

theorem getTermForIndex (wf : node.WellFormed) (noSnapshot : node.lastSnapshotIndex = 0) {index : Nat}
    (inside : index ≤ node.log.length) : node.getTermForIndex index = node.contents.term index := by
  cases index with
  | zero => rfl
  | succ i =>
    rw [NodeState.getTermForIndex, if_neg (Nat.succ_ne_zero i), if_neg (by omega),
      wf.find_index (by omega) inside, Nat.succ_sub_one, LeaderLog.term, contents, List.getElem?_map,
      List.getElem?_eq_getElem inside]
    rfl

theorem readRaftEntriesRange (wf : node.WellFormed) (noSnapshot : node.lastSnapshotIndex = 0)
    {before last : Nat} (inside : last ≤ node.log.length) :
    node.readRaftEntriesRange (before + 1) last = (node.log.take last).drop before := by
  have upTo : node.log.filter (fun entry => entry.index ≤ last) = node.log.take last := by
    rw [filter_index_le wf.indexes, Nat.add_sub_cancel]
  have taken := consecutive_take wf.indexes last
  have found : (node.file.filter fun entry => before + 1 ≤ entry.index ∧ entry.index ≤ last) =
      (node.log.take last).drop before := by
    have both : (node.log.filter fun entry => before + 1 ≤ entry.index ∧ entry.index ≤ last) =
        (node.log.filter fun entry => entry.index ≤ last).filter fun entry => before < entry.index := by
      rw [List.filter_filter]
      refine List.filter_congr fun entry _ => ?_
      rw [Bool.decide_and]
      rfl
    rw [wf.file_eq, noSnapshot, List.drop_zero, both, upTo, filter_index_gt taken, Nat.add_sub_cancel]
  have size : ((node.log.take last).drop before).length = last - before := by
    rw [List.length_drop, List.length_take_of_le inside]
  rw [NodeState.readRaftEntriesRange, found, if_pos]
  rw [consecutive_drop taken, size]
  congr 1 <;> omega

end NodeState.WellFormed

/-! ## What a message ships -/

namespace Sender

variable {s : Sender Node Payload} {append : AppendEntries Node Payload} {before last : Nat}

/-- The message has the leader's records from `before` up to `last`. -/
structure Ships (s : Sender Node Payload) (append : AppendEntries Node Payload) (before last : Nat) :
    Prop where
  prevLogIndex : append.prevLogIndex = before
  leaderCommit : append.leaderCommit = s.leader.commitIndex
  length : before + append.entries.length = last
  some : before < last
  inside : last ≤ s.leader.log.length
  sent : (LeaderMessage.append append).SentFrom s.leader.contents

theorem ships_message (rpcFormat : RpcFormat) {upTo : Nat} (some : before < upTo)
    (inside : upTo ≤ s.leader.log.length) :
    ∃ last ≤ upTo, s.Ships (s.message rpcFormat before ((s.leader.log.take upTo).drop before))
      before last := by
  have size : ((s.leader.log.take upTo).drop before).length = upTo - before := by
    rw [List.length_drop, List.length_take_of_le inside]
  generalize all : ((s.leader.log.take upTo).drop before).map
    (fun record => (record.term, record.payload)) = entries
  have length : entries.length = upTo - before := by rw [← all, List.length_map, size]
  have kept := s.fitted_pos entries (List.ne_nil_of_length_pos (by omega))
  have sent : (s.message rpcFormat before ((s.leader.log.take upTo).drop before)).entries =
      entries.take (s.fitted entries) := by
    rw [← all]
    rfl
  have short : (entries.take (s.fitted entries)).length = min (s.fitted entries) (upTo - before) := by
    rw [List.length_take, length]
  refine ⟨before + min (s.fitted entries) (upTo - before), by omega, rfl, rfl, by rw [sent, short],
    by omega, by omega, ?_, s.wellFormed.getTermForIndex s.noSnapshot (by omega), ?_⟩
  · rw [NodeState.length_contents]
    exact some.le.trans inside
  · rw [sent]
    refine (List.take_prefix _ _).trans ?_
    show entries <+: s.leader.contents.drop before
    rw [← all, NodeState.contents, List.map_drop, List.map_take, List.drop_take]
    exact List.take_prefix _ _

/-! ## Following a leader -/

/-- The follower's log and the leader's, both without a snapshot. -/
structure Follows (s : Sender Node Payload) (node : NodeState Node Payload) : Prop
    extends node.Matches s.leader.contents where
  noSnapshot : node.lastSnapshotIndex = 0

/-- The follower has the first records of the leader. -/
def Agree (s : Sender Node Payload) (node : NodeState Node Payload) (count : Nat) : Prop :=
  count ≤ node.log.length ∧ node.Agree s.leader.contents count

/-- The records of the follower that the leader counts as committed are the leader's. -/
def Covered (s : Sender Node Payload) (node : NodeState Node Payload) : Prop :=
  node.Agree s.leader.contents (min s.leader.commitIndex node.log.length)

variable {node after : NodeState Node Payload}

theorem Agree.mono {count more : Nat} (agree : s.Agree node more) (fewer : count ≤ more) :
    s.Agree node count := ⟨fewer.trans agree.1, NodeState.Agree.mono agree.2 fewer⟩

theorem Agree.congr {count : Nat} (contents : after.contents = node.contents) :
    s.Agree after count ↔ s.Agree node count := by
  rw [Agree, Agree, ← NodeState.length_contents, ← NodeState.length_contents, NodeState.Agree,
    NodeState.Agree, contents]

/-- Terms at agreed indexes are the same. -/
theorem Agree.term {index : Nat} (agree : s.Agree node index) (follows : s.Follows node) :
    node.getTermForIndex index = s.leader.contents.term index := by
  rw [follows.wellFormed.getTermForIndex follows.noSnapshot agree.1]
  cases index with
  | zero => rfl
  | succ i =>
    have same := congrArg (·[i]?) agree.2
    rw [List.getElem?_take_of_lt i.lt_succ_self, List.getElem?_take_of_lt i.lt_succ_self] at same
    rw [LeaderLog.term, LeaderLog.term, same]

/-- The term of an entry that a message ships. -/
theorem Ships.term (ships : s.Ships append before last) {k : Nat} (below : k < append.entries.length) :
    (append.entries[k]).1 = s.leader.contents.term (before + k + 1) := by
  obtain ⟨rest, split⟩ := ships.sent.2.2
  rw [ships.prevLogIndex] at split
  have entry : s.leader.contents[before + k]? = .some append.entries[k] := by
    rw [← List.getElem?_drop, ← split, List.getElem?_append_left below, List.getElem?_eq_getElem below]
  rw [LeaderLog.term, entry]
  rfl

theorem Follows.holds_iff (follows : s.Follows node) (agree : s.Agree node before)
    (ships : s.Ships append before last) :
    node.Holds (before + 1) append.entries ↔ s.Agree node last := by
  have length := ships.length
  have lastIndex := follows.wellFormed.lastIndex
  constructor
  · intro holds
    have whole := follows.agree_of_holds agree.2 (ships.prevLogIndex ▸ ships.sent.2.2) le_rfl
      (by rwa [List.take_length])
    rw [length] at whole
    have some := ships.some
    have there := (holds (append.entries.length - 1) (by omega)).1
    exact ⟨by omega, whole⟩
  · intro whole k below
    have there := whole.mono (show before + 1 + k ≤ last by omega)
    have inside := there.1
    rw [there.term follows, ships.term below, show before + 1 + k = before + k + 1 by omega]
    exact ⟨by omega, rfl⟩

/-- A message that starts on an agreed record is accepted: what is in conflict is not committed. -/
theorem Follows.accepts (follows : s.Follows node) (agree : s.Agree node before)
    (ships : s.Ships append before last) : ∃ after, node.appendEntries append = .ok after := by
  have noSnapshot := follows.noSnapshot
  have lastIndex := follows.wellFormed.lastIndex
  have inside := follows.inside
  have behind := follows.behind
  have start := agree.1
  have prevLogIndex := ships.prevLogIndex
  have prepared : ∃ prepared, node.prepareAppend append = .ok prepared := by
    unfold NodeState.prepareAppend
    rw [if_neg (by rw [NodeState.effectiveLastIndex]; omega), if_neg (by omega),
      if_neg fun other => other.2 (by rw [prevLogIndex, agree.term follows, ← prevLogIndex, ships.sent.2.1])]
    split
    · have spec := node.firstConflict_spec (append.prevLogIndex + 1) append.entries
      have there := node.firstConflict_matches (append.prevLogIndex + 1) append.entries
      dsimp only
      generalize node.firstConflict (append.prevLogIndex + 1) append.entries = found at spec there ⊢
      obtain ⟨conflict, matching⟩ := found
      cases conflict with
      | none => exact ⟨_, rfl⟩
      | some conflict =>
        obtain ⟨place, fewer, -, -⟩ := spec
        dsimp only at there ⊢
        rw [if_neg fun low => ?_]
        · exact ⟨_, rfl⟩
        · have committed : s.Agree node conflict :=
            ⟨by omega, NodeState.Agree.mono follows.committed (by omega)⟩
          refine there.2 conflict rfl ?_
          rw [List.getElem?_eq_getElem fewer, Option.map_some, ships.term fewer, committed.term follows,
            place, prevLogIndex, show before + 1 + matching = before + matching + 1 by omega]
    · exact ⟨_, rfl⟩
  obtain ⟨⟨base, records⟩, prepared⟩ := prepared
  exact ⟨_, NodeState.appendEntries_eq_ok.mpr ⟨base, records, prepared, rfl⟩⟩

/-- What a message does that starts on an agreed record: all its records are there already, or the
log ends with the last of them. -/
theorem Follows.answer (follows : s.Follows node) (agree : s.Agree node before)
    (ships : s.Ships append before last) (covered : s.Agree node last → s.Covered node) :
    ∃ after lastIndex, node.answer append = (after, .ok lastIndex) ∧ s.Follows after ∧
      s.Covered after ∧ s.Agree after last ∧ ((after.contents = node.contents ∧ s.Agree node last) ∨
        (after.contents = s.leader.contents.take last ∧ ¬s.Agree node last)) := by
  obtain ⟨appended, accepted⟩ := follows.accepts agree ships
  obtain ⟨snapshot, -, shown, contents⟩ := follows.appendEntries ships.sent accepted
  have wf := follows.wellFormed.appendEntries accepted
  have commit := (NodeState.appendEntries_ok accepted).1
  have length := @NodeState.length_contents _ _ appended
  have lastIndex := wf.lastIndex
  have upTo := ships.inside
  have leaderLength := @NodeState.length_contents _ _ s.leader
  rw [ships.prevLogIndex, ships.length, follows.holds_iff agree ships] at contents
  rw [ships.prevLogIndex, ships.length] at shown
  have both : appended.Agree s.leader.contents
      (max node.commitIndex (min s.leader.commitIndex appended.log.length)) ∧
        last ≤ appended.log.length ∧
        ((appended.contents = node.contents ∧ s.Agree node last) ∨
          (appended.contents = s.leader.contents.take last ∧ ¬s.Agree node last)) := by
    rcases contents with ⟨whole, kept⟩ | ⟨short, written, floor⟩
    · have same : appended.log.length = node.log.length := by
        rw [← length, kept, NodeState.length_contents]
      refine ⟨?_, same ▸ whole.1, .inl ⟨kept, whole⟩⟩
      rw [same]
      rcases Nat.le_total node.commitIndex (min s.leader.commitIndex node.log.length) with more | less
      · rw [max_eq_right more]
        exact (covered whole).congr (by rw [kept])
      · rw [max_eq_left less]
        exact follows.committed.congr (by rw [kept])
    · have size : appended.log.length = last := by
        rw [← length, written, List.length_take]
        omega
      exact ⟨NodeState.Agree.mono shown (by omega), size.ge, .inr ⟨written, short⟩⟩
  have isCommit : (appended.commitUpTo append.leaderCommit).commitIndex =
      max node.commitIndex (min s.leader.commitIndex appended.log.length) := by
    rw [NodeState.commitUpTo, commit, ships.leaderCommit, lastIndex]
  refine ⟨appended.commitUpTo append.leaderCommit, _, by rw [NodeState.answer, accepted], ⟨?_, ?_⟩,
    NodeState.Agree.mono both.1 (le_max_right _ _), ⟨both.2.1, shown⟩, both.2.2⟩
  · refine (follows.append ships.sent accepted).2 ?_
    rw [isCommit]
    exact both.1
  · exact snapshot.trans follows.noSnapshot

end Sender

/-! ## Rounds -/

namespace Sender

variable {s : Sender Node Payload} {peer : Peer Node Payload}

/-- The next message starts on an agreed record, and commits nothing that is not the leader's. -/
structure Landed (s : Sender Node Payload) (peer : Peer Node Payload) : Prop where
  follows : s.Follows peer.follower
  behind : peer.matchIndex < s.target
  before : s.prevIndex peer < s.target
  agree : s.Agree peer.follower (s.prevIndex peer)
  covered : s.Agree peer.follower (s.prevIndex peer + s.shipCount peer) → s.Covered peer.follower

theorem nextIndex_le (before : s.prevIndex peer < s.target) :
    peer.nextIndex ≤ s.prevIndex peer + 1 := by
  unfold prevIndex at *
  by_cases positive : 0 < peer.nextIndex
  · rw [if_pos positive] at *
    omega
  · omega

/-- The records of a round are there, unless it starts at the target. -/
theorem round_eq (behind : peer.matchIndex < s.target) (before : s.prevIndex peer < s.target) :
    ∃ append, s.Ships append (s.prevIndex peer) (s.prevIndex peer + s.shipCount peer) ∧
      s.prevIndex peer + s.shipCount peer ≤ s.target ∧
      s.round peer = match peer.follower.answer append with
        | (after, .ok _) => advance peer after (s.prevIndex peer + s.shipCount peer)
        | (after, .conflict lastIndex) =>
            { peer with
              follower := after
              nextIndex := if 0 < lastIndex then lastIndex + 1 else 1 }
        | (after, .conflictCommitted _) => { peer with follower := after } := by
  have limit := s.chunkLimit_pos
  have upTo := s.target_le
  have found : s.found peer = (s.leader.log.take (min s.target (s.prevIndex peer + s.chunkLimit))).drop
      (s.prevIndex peer) := s.wellFormed.readRaftEntriesRange s.noSnapshot (by omega)
  obtain ⟨last, inside, ships⟩ := s.ships_message .text
    (show s.prevIndex peer < min s.target (s.prevIndex peer + s.chunkLimit) by omega) (by omega)
  have some : (s.found peer).isEmpty = false := by
    rw [found, List.isEmpty_eq_false_iff, ← List.length_pos_iff, List.length_drop, List.length_take]
    omega
  rw [← found] at ships
  have length : s.prevIndex peer + s.shipCount peer = last := ships.length
  refine ⟨_, length ▸ ships, by omega, ?_⟩
  rw [round, if_neg behind.not_ge]
  dsimp only
  rw [some, if_neg Bool.false_ne_true]
  rfl

theorem Landed.round (landed : s.Landed peer) :
    ∃ after, s.prevIndex peer < s.prevIndex peer + s.shipCount peer ∧
      s.prevIndex peer + s.shipCount peer ≤ s.target ∧
      s.round peer = advance peer after (s.prevIndex peer + s.shipCount peer) ∧ s.Follows after ∧
      s.Covered after ∧ s.Agree after (s.prevIndex peer + s.shipCount peer) ∧
      ((after.contents = peer.follower.contents ∧
          s.Agree peer.follower (s.prevIndex peer + s.shipCount peer)) ∨
        (after.contents = s.leader.contents.take (s.prevIndex peer + s.shipCount peer) ∧
          ¬s.Agree peer.follower (s.prevIndex peer + s.shipCount peer))) := by
  obtain ⟨append, ships, inside, result⟩ := round_eq landed.behind landed.before
  obtain ⟨after, lastIndex, answered, rest⟩ := landed.follows.answer landed.agree ships landed.covered
  rw [answered] at result
  exact ⟨after, ships.some, inside, result, rest⟩

theorem prevIndex_advance (after : NodeState Node Payload) {last : Nat}
    (before : s.prevIndex peer < s.target) (more : s.prevIndex peer < last) (inside : last ≤ s.target) :
    s.prevIndex (advance peer after last) = last := by
  have next := nextIndex_le before
  have own : (advance peer after last).nextIndex = last + 1 := max_eq_right (by omega)
  rw [prevIndex, own, if_pos (Nat.succ_pos last)]
  omega

/-- The replicator is done, and the follower has the leader's records: its log is the one of
`start` if they were there, and ends with the last of them otherwise. -/
structure Shipped (s : Sender Node Payload) (start peer : Peer Node Payload) : Prop where
  matched : s.target ≤ peer.matchIndex
  agree : s.Agree peer.follower s.target
  log : (peer.follower.contents = start.follower.contents ∧ s.Agree start.follower s.target) ∨
    (peer.follower.contents = s.leader.contents.take s.target ∧ ¬s.Agree start.follower s.target)

/-- What a round and the rounds after it do to the log. -/
theorem Shipped.trans {start next peer : Peer Node Payload} {last : Nat} (before : last < s.target)
    (log : (next.follower.contents = start.follower.contents ∧ s.Agree start.follower last) ∨
      (next.follower.contents = s.leader.contents.take last ∧ ¬s.Agree start.follower last))
    (shipped : s.Shipped next peer) : s.Shipped start peer := by
  refine ⟨shipped.matched, shipped.agree, ?_⟩
  rcases log with ⟨kept, _⟩ | ⟨written, disagree⟩
  · rw [← kept, ← Agree.congr kept]
    exact shipped.log
  · rcases shipped.log with ⟨_, agree⟩ | ⟨replaced, _⟩
    · have short := agree.1
      rw [← NodeState.length_contents, written, List.length_take] at short
      omega
    · exact .inr ⟨replaced, fun agree => disagree (agree.mono before.le)⟩

/-- Every round from an agreed record takes the replicator nearer to its target. -/
theorem Landed.shipped (landed : s.Landed peer) :
    ∃ rounds, s.Shipped peer (s.round^[rounds] peer) := by
  generalize left : s.target - s.prevIndex peer = distance
  induction distance using Nat.strong_induction_on generalizing peer with
  | _ distance ih =>
    obtain ⟨after, more, inside, round, follows, covered, agree, log⟩ := landed.round
    generalize s.prevIndex peer + s.shipCount peer = last at more inside round agree log
    have matched : (advance peer after last).matchIndex = max peer.matchIndex last := rfl
    by_cases done : last = s.target
    · refine ⟨1, ?_, ?_, ?_⟩
      · rw [Function.iterate_one, round, matched, done]
        exact le_max_right _ _
      · rw [Function.iterate_one, round, ← done]
        exact agree
      · rw [Function.iterate_one, round, ← done]
        exact log
    · have before := prevIndex_advance after landed.before more inside
      have next : s.Landed (advance peer after last) := by
        have behind := landed.behind
        refine ⟨follows, ?_, ?_, ?_, fun _ => covered⟩
        · omega
        · rw [before]
          omega
        · rw [before]
          exact agree
      obtain ⟨rounds, shipped⟩ := ih _ (by rw [← left, before]; omega) next rfl
      refine ⟨rounds + 1, ?_⟩
      rw [Function.iterate_succ_apply, round]
      exact shipped.trans (by omega) log

/-! ## The step back -/

/-- The replicator has something to send, and at the record it starts behind, or at the end
of a log that does not reach so far, the follower has the leader's term. If its first message
then finds all its records there, the follower's others are the leader's as far as they count
as committed. -/
structure Lands (s : Sender Node Payload) (peer : Peer Node Payload) : Prop where
  behind : peer.matchIndex < s.target
  before : s.prevIndex peer < s.target
  term : peer.follower.getTermForIndex (min (s.prevIndex peer) peer.follower.log.length) =
    s.leader.getTermForIndex (min (s.prevIndex peer) peer.follower.log.length)
  covered : s.Agree peer.follower (s.prevIndex peer + s.shipCount peer) → s.Covered peer.follower

/-- A log that is too short is answered with its length. -/
theorem round_short (follows : s.Follows peer.follower) (behind : peer.matchIndex < s.target)
    (before : s.prevIndex peer < s.target) (short : peer.follower.log.length < s.prevIndex peer) :
    s.round peer = { peer with nextIndex := peer.follower.log.length + 1 } := by
  obtain ⟨append, ships, _, result⟩ := round_eq behind before
  have ends := follows.wellFormed.effectiveLastIndex
  have answered : peer.follower.answer append = (peer.follower, .conflict peer.follower.log.length) := by
    rw [NodeState.answer, NodeState.appendEntries, NodeState.prepareAppend,
      if_pos (by rw [ends, ships.prevLogIndex]; exact short), ends]
  rw [result, answered]
  dsimp only
  congr 1
  split <;> omega

/-- From every follower and every `nextIndex_`: if the follower has the leader's term where
the replicator starts or at the end of a shorter log, the replicator gets done after finitely
many rounds, and the follower then has all the leader's records up to the target. -/
theorem backoff_converges (s : Sender Node Payload) (peer : Peer Node Payload)
    (follows : s.Follows peer.follower) (lands : s.Lands peer) :
    ∃ rounds, s.Shipped peer (s.round^[rounds] peer) := by
  have before := lands.before
  have upTo := s.target_le
  have agree : s.Agree peer.follower (min (s.prevIndex peer) peer.follower.log.length) := by
    refine ⟨min_le_right _ _, follows.agree_of_term (min_le_right _ _) ?_ ?_⟩
    · rw [NodeState.length_contents]
      omega
    · rw [lands.term]
      exact s.wellFormed.getTermForIndex s.noSnapshot (by omega)
  by_cases short : peer.follower.log.length < s.prevIndex peer
  · have stepped := round_short follows lands.behind before short
    have start : s.prevIndex { peer with nextIndex := peer.follower.log.length + 1 } =
        peer.follower.log.length := by
      rw [prevIndex, if_pos (Nat.succ_pos _)]
      dsimp only
      omega
    rw [min_eq_right short.le] at agree
    have behind : s.prevIndex { peer with nextIndex := peer.follower.log.length + 1 } < s.target := by
      rw [start]
      omega
    have landed : s.Landed { peer with nextIndex := peer.follower.log.length + 1 } := by
      refine ⟨follows, lands.behind, behind, by rw [start]; exact agree, fun more => ?_⟩
      -- the next message starts at the end of the log
      obtain ⟨_, ships, -⟩ := @round_eq _ _ s { peer with nextIndex := peer.follower.log.length + 1 }
        lands.behind behind
      have beyond := ships.some
      have there := more.1
      dsimp only at there
      omega
    obtain ⟨rounds, shipped⟩ := landed.shipped
    refine ⟨rounds + 1, ?_⟩
    rw [Function.iterate_succ_apply, stepped]
    exact ⟨shipped.matched, shipped.agree, shipped.log⟩
  · rw [min_eq_left (Nat.le_of_not_lt short)] at agree
    have landed : s.Landed peer := ⟨follows, lands.behind, before, agree, lands.covered⟩
    exact landed.shipped

end Sender

/-! ## A follower with a record of another term -/

def ofLog (log : List (Entry Nat)) (commitIndex : Nat) : NodeState (Fin 3) Nat where
  currentTerm := 3
  log := log
  lastIndex := log.length
  lastEntryTerm := (log.getLast?.map Entry.term).getD 0
  commitIndex := commitIndex

/-- A leader of three committed records. -/
def shipsThree : Sender (Fin 3) Nat where
  leader := ofLog [⟨1, 1, 10⟩, ⟨2, 2, 20⟩, ⟨3, 2, 30⟩] 3
  nodeId := 0
  target := 3
  chunkLimit := 256
  maxBatch := 512
  fitted := List.length
  wellFormed := ⟨rfl, rfl, rfl, by decide, by decide, fun _ => rfl⟩
  noSnapshot := rfl
  target_le := le_rfl
  chunkLimit_pos := by decide
  fitted_pos _ := List.length_pos_iff.mpr

/-- A follower with another record at index 2, and this `nextIndex_`. -/
def divergentPeer (commitIndex nextIndex : Nat) : Peer (Fin 3) Nat :=
  ⟨ofLog [⟨1, 1, 10⟩, ⟨2, 1, 21⟩] commitIndex, 0, nextIndex⟩

theorem backoff_converges_divergent : ∃ rounds,
    shipsThree.Shipped (divergentPeer 1 2) (shipsThree.round^[rounds] (divergentPeer 1 2)) := by
  apply Sender.backoff_converges
  · refine ⟨⟨⟨rfl, rfl, rfl, by decide, by decide, fun _ => rfl⟩, fun i own there isOwn isThere same => ?_,
      rfl, by decide, rfl, by decide, rfl⟩, rfl⟩
    rcases i with _ | _ | i
    · rfl
    · cases isOwn
      cases isThere
      cases same
    · cases isOwn
  · exact ⟨by decide, by decide, rfl, fun all => absurd all.1 (by decide)⟩

/-- The logs never become the same. -/
def Sender.Diverges (s : Sender Node Payload) (peer : Peer Node Payload) : Prop :=
  ¬∃ rounds, (s.round^[rounds] peer).follower.log = s.leader.log

theorem Sender.Diverges.of_fixed {s : Sender Node Payload} {peer : Peer Node Payload}
    (fixed : s.round peer = peer) (differs : peer.follower.log ≠ s.leader.log) : s.Diverges peer := by
  rintro ⟨rounds, same⟩
  rw [Function.iterate_fixed fixed] at same
  exact differs same

theorem Sender.Diverges.of_round {s : Sender Node Payload} {peer : Peer Node Payload}
    (later : s.Diverges (s.round peer)) (differs : peer.follower.log ≠ s.leader.log) :
    s.Diverges peer := by
  rintro ⟨rounds, same⟩
  cases rounds with
  | zero => exact differs same
  | succ rounds => exact later ⟨rounds, same⟩

/-- A replicator that starts behind the other record stays there, and one that starts behind
all records sends nothing. A longer log is left as it is, equal terms hide another record, and
a committed record is not cut off, even one that the first message committed. -/
theorem backoff_not_convergent :
    (shipsThree.round (divergentPeer 0 3) = divergentPeer 0 3 ∧
      shipsThree.Diverges (divergentPeer 0 3)) ∧
    shipsThree.Diverges (divergentPeer 0 4) ∧
    shipsThree.Diverges ⟨ofLog [⟨1, 1, 10⟩, ⟨2, 2, 20⟩, ⟨3, 2, 30⟩, ⟨4, 2, 41⟩] 0, 0, 1⟩ ∧
    shipsThree.Diverges ⟨ofLog [⟨1, 1, 11⟩, ⟨2, 2, 20⟩] 0, 0, 3⟩ ∧
    shipsThree.Diverges (divergentPeer 2 2) ∧
    Sender.Diverges { shipsThree with chunkLimit := 1, chunkLimit_pos := Nat.one_pos }
      (divergentPeer 0 1) := by
  have differs {log other : List (Entry Nat)} (apart : decide (log = other) = false) : log ≠ other :=
    of_decide_eq_false apart
  refine ⟨⟨rfl, .of_fixed rfl (differs rfl)⟩, .of_fixed rfl (differs rfl), ?_, ?_,
    .of_fixed rfl (differs rfl), ?_⟩
  · exact .of_round (.of_fixed rfl (differs rfl)) (differs rfl)
  · exact .of_round (.of_fixed rfl (differs rfl)) (differs rfl)
  · exact .of_round (.of_fixed rfl (differs rfl)) (differs rfl)

end PacificDb.Raft
