import PacificDb.Lib.Machine
import PacificDb.Raft.Position

/-!
# What a follower commits

The commit sections store `min(leaderCommit, lastIndex_)`. Here a follower takes messages that a
leader sends of its log, and what it commits is compared with that log: an append that keeps a
longer suffix can commit past its own entries, and `wal_ship` compares nothing, so that a log it
was written to may end like the leader's and differ before.
-/

namespace PacificDb.Raft

open Lib

variable {Node Payload : Type}

/-- The messages of the current leader that can move a follower's commit index. -/
inductive LeaderMessage (Node Payload : Type) where
  | append (append : AppendEntries Node Payload)
  | walShip (ship : WalShip Node Payload)
  | heartbeat (heartbeat : Heartbeat Node)

/-! ## The leader's log -/

/-- The terms and payloads of the leader's records, from index 1 on. -/
abbrev LeaderLog (Payload : Type) := List (Nat × Payload)

def LeaderLog.term (leader : LeaderLog Payload) : Nat → Nat
  | 0 => 0
  | i + 1 => ((leader[i]?).map Prod.fst).getD 0

/-- The records that `wal_ship` writes. -/
def WalShip.records (ship : WalShip Node Payload) : LeaderLog Payload :=
  ship.entries.map fun payload => (ship.term, payload)

/-- The message is about a part of the log, as the leader has it or has had it. -/
def LeaderMessage.SentFrom (leader : LeaderLog Payload) : LeaderMessage Node Payload → Prop
  | .append request => request.prevLogIndex ≤ leader.length ∧
      request.prevLogTerm = leader.term request.prevLogIndex ∧
      request.entries <+: leader.drop request.prevLogIndex
  | .walShip ship => ship.entries ≠ [] ∧ ∃ first, ship.records <+: leader.drop first
  | .heartbeat request => request.leaderLastLogIndex ≤ leader.length ∧
      request.leaderLastLogTerm = leader.term request.leaderLastLogIndex

namespace NodeState

/-- The log and commit sections of the handler, one after the other; none if the
log section refuses the message. -/
def handle (node : NodeState Node Payload) :
    LeaderMessage Node Payload → Option (NodeState Node Payload)
  | .append append =>
      match node.appendEntries append with
      | .ok after => some (after.commitUpTo append.leaderCommit)
      | .error _ => none
  | .walShip ship =>
      some ((node.appendPayloads ship.term ship.entries).commitUpTo ship.leaderCommit)
  | .heartbeat heartbeat => some (node.heartbeatCommit heartbeat node.heartbeatTail)

/-- The terms and payloads of the records. -/
def contents (node : NodeState Node Payload) : LeaderLog Payload :=
  node.log.map fun entry => (entry.term, entry.payload)

/-- The log has the leader's first records. -/
def Agree (leader : LeaderLog Payload) (node : NodeState Node Payload) (count : Nat) : Prop :=
  node.contents.take count = leader.take count

/-- What the follower now counts as committed is the leader's, and an append commits no further
than its last entry. -/
def CommitsVerified (leader : LeaderLog Payload) (node after : NodeState Node Payload) :
    LeaderMessage Node Payload → Prop
  | .append append => after.Agree leader after.commitIndex ∧
      after.commitIndex ≤ max node.commitIndex (append.prevLogIndex + append.entries.length)
  | _ => after.Agree leader after.commitIndex

/-- The follower has every entry of the append and more behind them, and the leader's commit index
reaches into that suffix; or a `wal_ship` commits records that are not the leader's. -/
def CommitsUnverified (leader : LeaderLog Payload) (node : NodeState Node Payload) :
    LeaderMessage Node Payload → Prop
  | .append append => node.Holds (append.prevLogIndex + 1) append.entries ∧
      max node.commitIndex (append.prevLogIndex + append.entries.length) <
        min append.leaderCommit node.lastIndex
  | .walShip ship =>
      let last := min ship.leaderCommit (node.lastIndex + ship.entries.length)
      node.commitIndex < last ∧ (node.contents ++ ship.records).take last ≠ leader.take last
  | .heartbeat _ => False

end NodeState

inductive FollowerEvent (Node Payload : Type) where
  | message (message : LeaderMessage Node Payload)
  | apply

namespace NodeState

def followStep (node : NodeState Node Payload) :
    FollowerEvent Node Payload → Option (NodeState Node Payload)
  | .message message => node.handle message
  | .apply => some node.applyNext

/-- The message commits nothing unverified, and a `wal_ship` continues the leader's log. -/
def FollowsLeader (leader : LeaderLog Payload) (node : NodeState Node Payload) :
    FollowerEvent Node Payload → Prop
  | .message message => message.SentFrom leader ∧ ¬node.CommitsUnverified leader message ∧
      match message with
      | .walShip ship => node.contents ++ ship.records <+: leader
      | _ => True
  | .apply => True

/-- A record of the same term at the same index comes with the same records before it, and what
the snapshot covers or counts as committed is the leader's. -/
structure Matches (leader : LeaderLog Payload) (node : NodeState Node Payload) : Prop where
  wellFormed : node.WellFormed
  matching : ∀ i own there, node.contents[i]? = some own → leader[i]? = some there →
    own.1 = there.1 → node.Agree leader (i + 1)
  snapshot : node.Agree leader node.lastSnapshotIndex
  inside : node.commitIndex ≤ node.log.length
  committed : node.Agree leader node.commitIndex
  behind : node.lastApplied ≤ node.commitIndex
  applied : node.applied.map (fun entry => (entry.term, entry.payload)) = leader.take node.lastApplied

/-! ## Agreement -/

variable {leader : LeaderLog Payload} {node after : NodeState Node Payload}

theorem length_contents : node.contents.length = node.log.length := List.length_map _

theorem Agree.mono {count more : Nat} (agree : node.Agree leader more) (fewer : count ≤ more) :
    node.Agree leader count := by
  have shorter := congrArg (List.take count) agree
  rwa [List.take_take, List.take_take, min_eq_left fewer] at shorter

theorem Agree.congr {count : Nat} (agree : node.Agree leader count)
    (contents : after.contents.take count = node.contents.take count) : after.Agree leader count :=
  contents.trans agree

/-- The entries behind some of them, written behind the leader's records. -/
theorem contents_appendRecords {base : NodeState Node Payload} {append : AppendEntries Node Payload}
    {skip : Nat} (entries : append.entries <+: leader.drop append.prevLogIndex)
    (short : skip ≤ append.entries.length)
    (contents : base.contents = leader.take (append.prevLogIndex + skip)) :
    (base.appendRecords (append.records skip)).contents =
      leader.take (append.prevLogIndex + append.entries.length) := by
  have all : append.entries = (leader.drop append.prevLogIndex).take append.entries.length :=
    List.prefix_iff_eq_take.mp entries
  have payloads : (append.records skip).map (fun entry => (entry.term, entry.payload)) =
      append.entries.drop skip := by
    rw [AppendEntries.records, List.map_drop]
    congr 1
    exact List.ext_getElem (by simp) fun k _ _ => by simp
  have behind : append.entries.drop skip =
      (leader.take (append.prevLogIndex + append.entries.length)).drop (append.prevLogIndex + skip) := by
    nth_rewrite 1 [all]
    rw [List.take_drop, List.drop_drop]
  have head : leader.take (append.prevLogIndex + skip) =
      (leader.take (append.prevLogIndex + append.entries.length)).take (append.prevLogIndex + skip) := by
    rw [List.take_take, min_eq_left (by omega)]
  show (base.log ++ append.records skip).map _ = _
  rw [List.map_append, payloads, behind]
  change base.contents ++ _ = _
  rw [contents, head, List.take_append_drop]

namespace Matches

/-- Up to a record of the leader's term the logs agree. -/
theorem agree_of_term (follows : node.Matches leader) {index : Nat} (own : index ≤ node.log.length)
    (there : index ≤ leader.length) (same : node.getTermForIndex index = leader.term index) :
    node.Agree leader index := by
  rcases Nat.lt_or_ge node.lastSnapshotIndex index with above | covered
  · cases index with
    | zero => exact absurd above (Nat.not_lt_zero _)
    | succ i =>
      rw [getTermForIndex, if_neg (Nat.succ_ne_zero i), if_neg (by omega),
        follows.wellFormed.find_index above own, Nat.succ_sub_one, List.getElem?_eq_getElem own,
        LeaderLog.term, List.getElem?_eq_getElem there] at same
      have stored : node.contents[i]? = some (node.log[i].term, node.log[i].payload) := by
        rw [contents, List.getElem?_map, List.getElem?_eq_getElem own]
        rfl
      exact follows.matching i _ _ stored (List.getElem?_eq_getElem there) same
  · exact follows.snapshot.mono covered

/-- Entries that are there are the leader's, with all before them. -/
theorem agree_of_holds (follows : node.Matches leader) {before count : Nat}
    {entries : List (Nat × Payload)} (agree : node.Agree leader before)
    (sent : entries <+: leader.drop before) (inside : count ≤ entries.length)
    (holds : node.Holds (before + 1) (entries.take count)) : node.Agree leader (before + count) := by
  cases count with
  | zero => exact agree
  | succ k =>
    obtain ⟨own, same⟩ := holds k (by rw [List.length_take]; omega)
    obtain ⟨rest, split⟩ := sent
    have size := congrArg List.length split
    rw [List.length_append, List.length_drop] at size
    have there : before + k < leader.length := by omega
    have entry : leader[before + k]? = some entries[k] := by
      rw [← List.getElem?_drop, ← split, List.getElem?_append_left (by omega),
        List.getElem?_eq_getElem (by omega)]
    rw [follows.wellFormed.lastIndex] at own
    refine follows.agree_of_term (by omega) (by omega) ?_
    rw [show before + (k + 1) = before + 1 + k by omega, same, List.getElem_take,
      show before + 1 + k = before + k + 1 by omega, LeaderLog.term, entry]
    rfl

/-- The log is as it was, or a part of the leader's that reaches the snapshot. -/
theorem of_contents (follows : node.Matches leader) (wellFormed : after.WellFormed)
    (snapshot : after.lastSnapshotIndex = node.lastSnapshotIndex) (applied : after.applied = node.applied)
    (inside : after.commitIndex ≤ after.log.length) (committed : after.Agree leader after.commitIndex)
    (grows : node.commitIndex ≤ after.commitIndex) (contents : after.contents = node.contents ∨
      ∃ count, after.contents = leader.take count ∧ node.lastSnapshotIndex ≤ count) :
    after.Matches leader where
  wellFormed := wellFormed
  matching i own there isOwn isThere same := by
    rcases contents with kept | ⟨count, written, -⟩
    · rw [kept] at isOwn
      exact (follows.matching i own there isOwn isThere same).congr (by rw [kept])
    · rw [written] at isOwn
      have below := (List.getElem?_eq_some_iff.mp isOwn).1
      rw [List.length_take] at below
      rw [Agree, written, List.take_take, min_eq_left (by omega)]
  snapshot := by
    rw [snapshot]
    rcases contents with kept | ⟨count, written, reaches⟩
    · exact follows.snapshot.congr (by rw [kept])
    · rw [Agree, written, List.take_take, min_eq_left reaches]
  inside := inside
  committed := committed
  behind := by
    rw [lastApplied, applied]
    exact follows.behind.trans grows
  applied := by
    rw [lastApplied, applied]
    exact follows.applied

/-! ## Messages -/

/-- What an accepted append makes of the log: it had all the entries, or ends with the last of them. -/
theorem appendEntries (follows : node.Matches leader) {append : AppendEntries Node Payload}
    (sent : (LeaderMessage.append append).SentFrom leader)
    (accepted : node.appendEntries append = .ok after) :
    after.lastSnapshotIndex = node.lastSnapshotIndex ∧ after.applied = node.applied ∧
      after.Agree leader (append.prevLogIndex + append.entries.length) ∧
      (node.Holds (append.prevLogIndex + 1) append.entries ∧ after.contents = node.contents ∨
        ¬node.Holds (append.prevLogIndex + 1) append.entries ∧
          after.contents = leader.take (append.prevLogIndex + append.entries.length) ∧
          max node.commitIndex node.lastSnapshotIndex ≤ append.prevLogIndex + append.entries.length) := by
  obtain ⟨reaches, term, entries⟩ := sent
  have snapshot_le := follows.wellFormed.snapshot_le
  have lastIndex := follows.wellFormed.lastIndex
  have inside := follows.inside
  obtain ⟨base, records, prepared, rfl⟩ := appendEntries_eq_ok.mp accepted
  obtain ⟨skip, rfl, start, same, there, cases⟩ := prepareAppend_ok prepared
  rw [effectiveLastIndex] at start
  have before : node.Agree leader append.prevLogIndex := by
    by_cases zero : append.prevLogIndex = 0
    · rw [zero]
      rfl
    · refine follows.agree_of_term (by omega) reaches ?_
      rw [same (Nat.pos_of_ne_zero zero), term]
  have agreed {log : LeaderLog Payload} {count : Nat} (whole : log = leader.take count) :
      log.take count = leader.take count := by
    rw [whole, List.take_take, min_self]
  rcases cases with ⟨rfl, all, holds⟩ | ⟨rfl, some, differs, ends, atMost⟩ |
    ⟨rfl, some, differs, floor, cut, low⟩
  · have none : append.records skip = [] := by
      rw [AppendEntries.records, List.drop_eq_nil_of_le (by rw [List.length_mapIdx, all])]
    rw [none, appendRecords_nil]
    rw [all] at there
    exact ⟨rfl, rfl, follows.agree_of_holds before entries le_rfl there, .inl ⟨holds, rfl⟩⟩
  · have agree := follows.agree_of_holds before entries some.le there
    rw [effectiveLastIndex] at atMost
    have whole : base.contents = leader.take (append.prevLogIndex + skip) := by
      rw [← agree, List.take_of_length_le]
      rw [length_contents]
      omega
    have result := contents_appendRecords entries some.le whole
    exact ⟨rfl, rfl, agreed result, .inr ⟨differs, result, by omega⟩⟩
  · have agree := follows.agree_of_holds before entries some.le there
    have kept : (node.truncateAfter (append.prevLogIndex + skip)).contents =
        leader.take (append.prevLogIndex + skip) := by
      show ((node.log.filter fun entry => entry.index ≤ append.prevLogIndex + skip)).map _ = _
      rw [filter_index_le follows.wellFormed.indexes, Nat.add_sub_cancel, List.map_take]
      exact agree
    have result := contents_appendRecords entries some.le kept
    exact ⟨rfl, rfl, agreed result, .inr ⟨differs, result, by omega⟩⟩

theorem append (follows : node.Matches leader) {append : AppendEntries Node Payload}
    (sent : (LeaderMessage.append append).SentFrom leader)
    (accepted : node.appendEntries append = .ok after) :
    (node.CommitsVerified leader (after.commitUpTo append.leaderCommit) (.append append) ↔
        ¬node.CommitsUnverified leader (.append append)) ∧
      ((after.commitUpTo append.leaderCommit).Agree leader
          (after.commitUpTo append.leaderCommit).commitIndex →
        (after.commitUpTo append.leaderCommit).Matches leader) := by
  obtain ⟨snapshot, applied, agree, contents⟩ := follows.appendEntries sent accepted
  obtain ⟨commit, held, differs⟩ := appendEntries_ok accepted
  have wf := follows.wellFormed.appendEntries accepted
  have ownLast := follows.wellFormed.lastIndex
  have lastIndex := wf.lastIndex
  have inside := follows.inside
  have committed : (after.commitUpTo append.leaderCommit).commitIndex =
      max node.commitIndex (min append.leaderCommit after.lastIndex) := by rw [commitUpTo, commit]
  have length : node.commitIndex ≤ after.log.length := by
    rcases contents with ⟨-, kept⟩ | ⟨-, -, reaches⟩
    · rw [← length_contents, kept, length_contents]
      exact inside
    · by_cases holds : node.Holds (append.prevLogIndex + 1) append.entries
      · have := held holds
        omega
      · have := differs holds
        omega
  -- up to the last entry, and up to what was committed, the logs agree
  have agrees (bound : (after.commitUpTo append.leaderCommit).commitIndex ≤
      max node.commitIndex (append.prevLogIndex + append.entries.length)) :
      (after.commitUpTo append.leaderCommit).Agree leader
        (after.commitUpTo append.leaderCommit).commitIndex := by
    have either : (after.commitUpTo append.leaderCommit).commitIndex ≤ node.commitIndex ∨
        (after.commitUpTo append.leaderCommit).commitIndex ≤
          append.prevLogIndex + append.entries.length := by omega
    rcases either with old | shown
    · rcases contents with ⟨-, kept⟩ | ⟨-, -, reaches⟩
      · exact (follows.committed.mono old).congr (congrArg (List.take _) kept)
      · exact Agree.mono agree (by omega)
    · exact Agree.mono agree shown
  have verified : ¬node.CommitsUnverified leader (.append append) ↔
      (after.commitUpTo append.leaderCommit).commitIndex ≤
        max node.commitIndex (append.prevLogIndex + append.entries.length) := by
    rw [CommitsUnverified, committed]
    by_cases holds : node.Holds (append.prevLogIndex + 1) append.entries
    · rw [and_iff_right holds, held holds]
      omega
    · rw [differs holds]
      exact iff_of_true (fun unverified => holds unverified.1) (by omega)
  refine ⟨⟨fun shown => verified.mpr shown.2, fun fine => ⟨agrees (verified.mp fine), verified.mp fine⟩⟩,
    fun agree => follows.of_contents { wf with } snapshot applied ?_ agree (by omega)
      (contents.imp And.right fun cut => ⟨_, cut.2.1, by omega⟩)⟩
  show (after.commitUpTo append.leaderCommit).commitIndex ≤ after.log.length
  omega

theorem contents_appendPayloads (node : NodeState Node Payload) (ship : WalShip Node Payload) :
    (node.appendPayloads ship.term ship.entries).contents = node.contents ++ ship.records := by
  rw [contents, NodeState.appendPayloads, List.map_append, numbered, WalShip.records]
  congr 1
  exact List.ext_getElem (by simp) fun k _ _ => by simp

theorem walShip (follows : node.Matches leader) {ship : WalShip Node Payload} (some : ship.entries ≠ []) :
    (node.CommitsVerified leader
          ((node.appendPayloads ship.term ship.entries).commitUpTo ship.leaderCommit) (.walShip ship) ↔
        ¬node.CommitsUnverified leader (.walShip ship)) ∧
      (node.contents ++ ship.records <+: leader →
        ((node.appendPayloads ship.term ship.entries).commitUpTo ship.leaderCommit).Matches leader) := by
  have contents := contents_appendPayloads node ship
  have lastIndex := follows.wellFormed.lastIndex
  have inside := follows.inside
  have length := @length_contents _ _ node
  have verified : node.CommitsVerified leader
      ((node.appendPayloads ship.term ship.entries).commitUpTo ship.leaderCommit) (.walShip ship) ↔
        ¬node.CommitsUnverified leader (.walShip ship) := by
    change List.take (max node.commitIndex (min ship.leaderCommit (node.lastIndex + ship.entries.length)))
      (node.appendPayloads ship.term ship.entries).contents =
        List.take (max node.commitIndex (min ship.leaderCommit (node.lastIndex + ship.entries.length)))
          leader ↔
      ¬(node.commitIndex < min ship.leaderCommit (node.lastIndex + ship.entries.length) ∧ _ ≠ _)
    rw [contents]
    generalize min ship.leaderCommit (node.lastIndex + ship.entries.length) = last
    rcases Nat.lt_or_ge node.commitIndex last with more | none
    · rw [max_eq_right more.le, and_iff_right more, not_ne_iff]
    · rw [max_eq_left none, List.take_append_of_le_length (by omega)]
      exact iff_of_true follows.committed fun other => absurd other.1 none.not_gt
  refine ⟨verified, fun continues => ?_⟩
  have whole := List.prefix_iff_eq_take.mp continues
  have wf := follows.wellFormed.appendPayloads ship.term some
  have size : (node.contents ++ ship.records).length = (node.appendPayloads ship.term ship.entries).log.length := by
    rw [← contents, length_contents]
  have last := wf.lastIndex
  refine follows.of_contents { wf with } rfl rfl ?_ (verified.mpr fun unverified => ?_)
    (le_max_left _ _) (.inr ⟨_, contents.trans whole, ?_⟩)
  · show max node.commitIndex (min ship.leaderCommit
      (node.appendPayloads ship.term ship.entries).lastIndex) ≤ _
    rw [last, ← size, List.length_append, length]
    show _ ≤ (node.appendPayloads ship.term ship.entries).log.length
    rw [← size, List.length_append, length]
    omega
  · refine unverified.2 ?_
    have atMost : min ship.leaderCommit (node.lastIndex + ship.entries.length) ≤
        (node.contents ++ ship.records).length := by
      rw [List.length_append, WalShip.records, List.length_map]
      omega
    nth_rewrite 1 [whole]
    rw [List.take_take, min_eq_left atMost]
  · have below := follows.wellFormed.snapshot_le
    rw [List.length_append]
    omega

theorem heartbeat (follows : node.Matches leader) {heartbeat : Heartbeat Node}
    (sent : (LeaderMessage.heartbeat heartbeat : LeaderMessage Node Payload).SentFrom leader) :
    (node.heartbeatCommit heartbeat node.heartbeatTail).Matches leader := by
  have lastIndex := follows.wellFormed.lastIndex
  have inside := follows.inside
  unfold heartbeatCommit
  split
  next accepted =>
    have both := (Bool.and_eq_true_iff.mp accepted).2
    obtain ⟨index, term⟩ := Bool.and_eq_true_iff.mp both
    have ends := follows.wellFormed.effectiveLastIndex
    have isLast : heartbeat.leaderLastLogIndex = node.log.length := (beq_iff_eq.mp index).trans ends
    have same : heartbeat.leaderLastLogTerm = node.heartbeatTail.term := beq_iff_eq.mp term
    have whole : node.Agree leader node.log.length := by
      rcases Nat.lt_or_ge node.lastSnapshotIndex node.log.length with above | covered
      · refine follows.agree_of_term le_rfl (isLast ▸ sent.1) ?_
        have position := follows.wellFormed.lastEntryTerm
        have last : node.getTermForIndex node.log.length =
            (node.log.getLast?.map Entry.term).getD 0 := by
          rw [getTermForIndex, if_neg (by omega), if_neg (by omega),
            follows.wellFormed.find_index above le_rfl, ← List.getLast?_eq_getElem?]
          cases node.log.getLast? <;> rfl
        rw [if_neg above.ne] at position
        rw [heartbeatTail, ends, position, ← last] at same
        dsimp only at same
        rw [ite_self] at same
        rw [← same, sent.2, isLast]
      · exact follows.snapshot.mono covered
    have bound : (node.commitUpTo heartbeat.leaderCommit).commitIndex ≤ node.log.length := by
      rw [commitUpTo, lastIndex]
      dsimp only
      omega
    exact follows.of_contents { follows.wellFormed with } rfl rfl bound (Agree.mono whole bound)
      (le_max_left _ _) (.inl rfl)
  next => exact follows

theorem applyNext (follows : node.Matches leader) : node.applyNext.Matches leader := by
  have wf := follows.wellFormed.applyNext
  unfold NodeState.applyNext at wf ⊢
  split
  next more =>
    rw [if_pos more] at wf
    have inside := follows.inside
    have above := follows.wellFormed.snapshot
    have own : node.lastApplied < node.log.length := by omega
    rw [follows.wellFormed.find_index (by omega) own, Nat.succ_sub_one,
      List.getElem?_eq_getElem own] at wf ⊢
    refine ⟨wf, follows.matching, follows.snapshot, inside, follows.committed, ?_, ?_⟩
    · show (node.applied ++ [_]).length ≤ node.commitIndex
      rw [List.length_append]
      exact more
    have next := congrArg (·[node.lastApplied]?) follows.committed
    dsimp only at next ⊢
    rw [List.getElem?_take_of_lt more, List.getElem?_take_of_lt more, contents, List.getElem?_map,
      List.getElem?_eq_getElem own] at next
    rw [List.map_append, follows.applied]
    show _ = leader.take (node.applied ++ [_]).length
    rw [List.length_append, List.length_singleton, List.take_add_one]
    change _ = leader.take node.lastApplied ++ (leader[node.lastApplied]?).toList
    rw [← next]
    rfl
  next => exact follows

end Matches

/-- One message, handled. -/
theorem Matches.message (follows : node.Matches leader) {message : LeaderMessage Node Payload}
    (sent : message.SentFrom leader) (handled : node.handle message = some after) :
    (node.CommitsVerified leader after message ↔ ¬node.CommitsUnverified leader message) ∧
      (node.FollowsLeader leader (.message message) → after.Matches leader) := by
  cases message with
  | append append =>
    rw [handle] at handled
    cases accepted : node.appendEntries append with
    | error refusal =>
      rw [accepted] at handled
      cases handled
    | ok appended =>
      rw [accepted] at handled
      obtain rfl := Option.some.inj handled
      obtain ⟨verified, keeps⟩ := follows.append sent accepted
      exact ⟨verified, fun fine => keeps (verified.mpr fine.2.1).1⟩
  | walShip ship =>
    obtain rfl := Option.some.inj handled
    obtain ⟨verified, keeps⟩ := follows.walShip sent.1
    exact ⟨verified, fun fine => keeps fine.2.2⟩
  | heartbeat heartbeat =>
    obtain rfl := Option.some.inj handled
    have kept := follows.heartbeat sent
    exact ⟨iff_of_true kept.committed not_false, fun _ => kept⟩

/-- A follower whose second record was never committed, of an older term than the leader's. -/
def divergentFollower : NodeState (Fin 3) Nat where
  currentTerm := 4
  log := [⟨1, 1, 10⟩, ⟨2, 2, 20⟩]
  lastIndex := 2
  lastEntryTerm := 2

/-- The leader's log, committed to its end. -/
def committedLog : LeaderLog Nat := [(1, 10), (3, 30), (4, 40)]

/-- A catch-up chunk of that leader. -/
def chunk (entries : LeaderLog Nat) : AppendEntries (Fin 3) Nat where
  term := 4
  leader := 1
  prevLogIndex := 0
  prevLogTerm := 0
  leaderCommit := 3
  entries := entries
  rpcFormat := .json

/-- The last record alone, and the heartbeat of the whole log. -/
def lastBatch : WalShip (Fin 3) Nat := ⟨4, 1, 0, [40]⟩

def wholeTail : Heartbeat (Fin 3) := ⟨4, 1, 3, 3, 4⟩

end NodeState

end PacificDb.Raft
