import PacificDb.Lib.Machine
import PacificDb.Raft.Follower
import PacificDb.Raft.Node
import PacificDb.Raft.Quorum
import Mathlib.Data.Fintype.Card

/-!
# Elections

The sections of a node that change its term or its vote, in any order, with crashes between
them and writes of `consensus_state.json` that fail or stay uncertain. The node gives one
vote in a term all the same, so `attemptElection` wins a term on one node at most. In the
last term of a `uint64_t` no election may start: the next would be that of term 0.
-/

namespace PacificDb.Raft

open Lib

variable {Node Payload : Type}

namespace NodeState

variable {node before mid after : NodeState Node Payload} {candidate : Node}

/-- The term and the vote in memory, in the last write meant and in the file. -/
def electionStates (node : NodeState Node Payload) : List (Nat × Option Node) :=
  (node.currentTerm, node.votedFor) ::
    (node.persisted :: node.disk :: node.renamed.toList).map fun state =>
      (state.currentTerm, state.votedFor)

/-- Wherever the node goes on from, it has this vote or a later term. -/
def Remembers (node : NodeState Node Payload) (term : Nat) (candidate : Node) : Prop :=
  ∀ state ∈ node.electionStates, term < state.1 ∨ state = (term, some candidate)

/-- It has this vote wherever it goes on from. -/
def Settled (node : NodeState Node Payload) (term : Nat) (candidate : Node) : Prop :=
  ∀ state ∈ node.electionStates, state = (term, some candidate)

/-- No write was meant for a later term. -/
def UpToTerm (node : NodeState Node Payload) : Prop :=
  ∀ state ∈ node.electionStates, state.1 ≤ node.currentTerm

/-- What every section does. -/
structure Follows (before after : NodeState Node Payload) : Prop where
  remembers {term : Nat} {candidate : Node} :
    before.Remembers term candidate → after.Remembers term candidate
  upToTerm : before.UpToTerm → after.UpToTerm

theorem Follows.trans (first : Follows before mid) (second : Follows mid after) :
    Follows before after where
  remembers known := second.remembers (first.remembers known)
  upToTerm known := second.upToTerm (first.upToTerm known)

theorem Follows.refl : Follows node node := ⟨id, id⟩

theorem Follows.of_subset (states : after.electionStates ⊆ before.electionStates)
    (term : after.currentTerm = before.currentTerm) : Follows before after where
  remembers known state member := known state (states member)
  upToTerm known state member := term ▸ known state (states member)

theorem Follows.same (states : after.electionStates = before.electionStates) : Follows before after :=
  .of_subset (states ▸ List.Subset.refl _) (Prod.mk.inj (List.cons.inj states).1).1

theorem Remembers.le {term : Nat} (known : node.Remembers term candidate) :
    term ≤ node.currentTerm := by
  rcases known _ List.mem_cons_self with earlier | same
  · exact earlier.le
  · exact (Prod.mk.inj same).1.ge

theorem Follows.newTerm {term : Nat} (above : node.currentTerm < term) (votedFor : Option Node)
    (leader : Bool) : Follows node { node with currentTerm := term, votedFor, leader } where
  remembers known := List.forall_mem_cons.mpr
    ⟨.inl (known.le.trans_lt above), (List.forall_mem_cons.mp known).2⟩
  upToTerm known := List.forall_mem_cons.mpr ⟨le_rfl, fun state member =>
    ((List.forall_mem_cons.mp known).2 state member).trans above.le⟩

/-! ## Writes -/

theorem currentTerm_persistConsensusState (write : Write) (term : Nat) (votedFor : Option Node)
    (update : Bool) :
    (node.persistConsensusState write term votedFor update).1.currentTerm = node.currentTerm := by
  unfold persistConsensusState
  split
  · rfl
  · cases write <;> rfl

/-- A write puts no new term or vote into the node, whatever becomes of it. -/
theorem follows_persistConsensusState {write : Write} {term : Nat} {votedFor : Option Node}
    {update : Bool} (known : update = true → (term, votedFor) ∈ node.electionStates) :
    Follows node (node.persistConsensusState write term votedFor update).1 := by
  refine .of_subset (fun state member => ?_) (currentTerm_persistConsensusState _ _ _ _)
  unfold persistConsensusState at member
  simp only [electionStates, List.map_cons, List.mem_cons] at known
  cases write with
  | durable | failed | uncertain =>
    simp only [electionStates] at member ⊢
    grind

theorem follows_persistElection (write : Write) : Follows node (node.persistElection write).1 :=
  follows_persistConsensusState fun _ => List.mem_cons_self

theorem settled_persistElection {write : Write} (upTo : node.UpToTerm)
    (voted : node.votedFor = some candidate) (returned : (node.persistElection write).2 = true) :
    (node.persistElection write).1.Settled node.currentTerm candidate := by
  intro state member
  have newer : node.persisted.currentTerm ≤ node.currentTerm :=
    upTo (node.persisted.currentTerm, node.persisted.votedFor) (by simp [electionStates])
  unfold persistElection persistConsensusState at returned member
  cases write with
  | durable | failed | uncertain =>
    simp only [electionStates] at member
    grind

/-! ## Sections -/

theorem follows_stepDown {term : Nat} (write : Write) (above : node.currentTerm < term) :
    Follows node (node.stepDown write term).1 :=
  (Follows.newTerm above none false).trans (follows_persistElection write)

theorem follows_higherTerm (write : Write) (term : Nat) :
    Follows node (if node.currentTerm < term then node.stepDown write term else (node, true)).1 := by
  split
  next above => exact follows_stepDown write above
  next => exact .refl

theorem follows_contact (write : Write) (term : Nat) (leaderId : Option Node) :
    Follows node (node.contact write term leaderId).1 := by
  have adopts : Follows node (node.adoptLeaderTerm write term).1 := by
    unfold adoptLeaderTerm
    split
    next above => exact follows_stepDown write above
    next => exact .same rfl
  unfold contact
  dsimp only
  split
  · exact adopts.trans (.same rfl)
  · exact adopts

/-- A vote of a term just taken up, or the first or the same again of its term. -/
theorem follows_vote (write : Write) {term : Nat} (first : Follows before mid)
    (current : mid.currentTerm = term)
    (free : before.currentTerm < term ∨ mid.votedFor = none ∨ mid.votedFor = some candidate) :
    let voted := persistElection write { mid with votedFor := some candidate }
    Follows before voted.1 ∧
      (voted.2 = true → before.UpToTerm → voted.1.Settled term candidate) := by
  subst current
  have votes : Follows before { mid with votedFor := some candidate } := by
    refine ⟨fun {term other} known => ?_, fun known => ?_⟩
    · obtain ⟨memory, rest⟩ := List.forall_mem_cons.mp (first.remembers known)
      refine List.forall_mem_cons.mpr ⟨?_, rest⟩
      have bound := known.le
      grind
    · exact List.forall_mem_cons.mpr ⟨le_rfl, (List.forall_mem_cons.mp (first.upToTerm known)).2⟩
  exact ⟨votes.trans (follows_persistElection write),
    fun returned upTo => settled_persistElection (votes.upToTerm upTo) rfl returned⟩

/-- A candidate has its own vote everywhere before it asks for others. -/
theorem startElection_spec (self : Node) (writeTerm writeVote : Write)
    (counts : node.currentTerm + 1 < 2 ^ 64) :
    let started := node.startElection self writeTerm writeVote
    Follows node started.1 ∧
      (started.2 = true → node.UpToTerm → started.1.Settled (node.currentTerm + 1) self) := by
  have first := (Follows.newTerm (Nat.lt_succ_self node.currentTerm) node.votedFor node.leader).trans
    (follows_persistElection writeTerm)
  obtain ⟨votes, settled⟩ := @follows_vote _ _ _ _ self writeVote _ first
    (currentTerm_persistConsensusState _ _ _ _) (.inl (Nat.lt_succ_self _))
  unfold startElection
  rw [Nat.mod_eq_of_lt counts]
  dsimp only
  split_ifs with failed failed'
  · exact ⟨first, nofun⟩
  · exact ⟨votes, nofun⟩
  · exact ⟨votes.trans (.same rfl), fun _ => settled (by simpa using failed')⟩

variable [DecidableEq Node]

/-- A vote is given in the term of the request, and only when the node has it everywhere. -/
theorem handleVoteRequest_spec (self : Node) (fence : VoteFence) (writeTerm writeVote : Write)
    (request : VoteRequest Node) :
    let handled := node.handleVoteRequest self fence writeTerm writeVote request
    Follows node handled.1 ∧ (handled.2 = some true → node.UpToTerm →
      handled.1.Settled request.term request.candidate) := by
  have first : Follows node _ := follows_higherTerm writeTerm request.term
  unfold handleVoteRequest considerVote
  generalize (if node.currentTerm < request.term then node.stepDown writeTerm request.term
    else (node, true)) = stepped at first ⊢
  obtain ⟨stepped, returned⟩ := stepped
  dsimp only at first ⊢
  split_ifs with lease fresh failed fenced grants written
  · exact ⟨.refl, nofun⟩
  · exact ⟨.refl, nofun⟩
  · exact ⟨first, nofun⟩
  · exact ⟨first, nofun⟩
  · have votes := follows_vote writeVote first grants.1.symm (.inr grants.2.1)
    exact ⟨votes.1, fun _ => votes.2 written⟩
  · exact ⟨(follows_vote writeVote first grants.1.symm (.inr grants.2.1)).1, nofun⟩
  · exact ⟨first, nofun⟩

/-- The sections that write `consensus_state.json` or read it. `other` leaves the term, the
vote and the file as they are. -/
inductive Section (Node Payload : Type) where
  | startElection (writeTerm writeVote : Write)
  | voteRequest (fence : VoteFence) (writeTerm writeVote : Write) (request : VoteRequest Node)
  | contact (write : Write) (term : Nat) (leaderId : Option Node)
  | heartbeat (write : Write) (heartbeat : Heartbeat Node) (tail : Tail)
  | snapshot (write : Write) (term : Nat) (leaderId : Node)
  | observeHigherTerm (write : Write) (term : Nat)
  | persistProgress (write : Write)
  | restart (keep : Nat) (useRenamed : Bool)
  | other (after : NodeState Node Payload)

/-- The node after a section, and the vote it gives: its own before it asks for others,
another with the answer. -/
def runSection (self : Node) (node : NodeState Node Payload) :
    Section Node Payload → NodeState Node Payload × Option (Nat × Node)
  | .startElection writeTerm writeVote =>
      let (node, started) := node.startElection self writeTerm writeVote
      (node, if started then some (node.currentTerm, self) else none)
  | .voteRequest fence writeTerm writeVote request =>
      let (node, answer) := node.handleVoteRequest self fence writeTerm writeVote request
      (node, if answer = some true then some (request.term, request.candidate) else none)
  | .contact write term leaderId =>
      (if node.currentTerm ≤ term then (node.contact write term leaderId).1 else node, none)
  | .heartbeat write heartbeat tail => ((node.heartbeatContact write heartbeat tail).1, none)
  | .snapshot write term leaderId =>
      (if node.currentTerm ≤ term then (node.snapshotContact write term leaderId).1 else node, none)
  | .observeHigherTerm write term => (node.observeHigherTerm write term, none)
  | .persistProgress write =>
      ((node.persistConsensusState write node.currentTerm node.votedFor false).1, none)
  | .restart keep useRenamed => (node.restart keep useRenamed, none)
  | .other after => (if after.electionStates = node.electionStates then after else node, none)

/-- An election starts in a term that can be counted up. -/
def TermLeft (node : NodeState Node Payload) : Section Node Payload → Prop
  | .startElection _ _ => node.currentTerm + 1 < 2 ^ 64
  | _ => True

theorem runSection_spec (self : Node) {entered : Section Node Payload} (left : node.TermLeft entered) :
    Follows node (node.runSection self entered).1 ∧
      ∀ vote, (node.runSection self entered).2 = some vote → node.UpToTerm →
        (node.runSection self entered).1.Settled vote.1 vote.2 := by
  cases entered <;> dsimp only [runSection]
  case startElection writeTerm writeVote =>
    obtain ⟨follows, settled⟩ := node.startElection_spec self writeTerm writeVote left
    refine ⟨follows, fun vote given upTo => ?_⟩
    simp only [Option.ite_none_right_eq_some, Option.some.injEq] at given
    obtain ⟨started, rfl⟩ := given
    have settled := settled started upTo
    rw [(Prod.mk.inj (settled _ List.mem_cons_self)).1]
    exact settled
  case voteRequest fence writeTerm writeVote request =>
    obtain ⟨follows, settled⟩ := node.handleVoteRequest_spec self fence writeTerm writeVote request
    refine ⟨follows, fun vote given => ?_⟩
    simp only [Option.ite_none_right_eq_some, Option.some.injEq] at given
    obtain ⟨granted, rfl⟩ := given
    exact settled granted
  case contact write term leaderId =>
    refine ⟨?_, nofun⟩
    split
    · exact follows_contact write term leaderId
    · exact .refl
  case heartbeat write heartbeat tail =>
    refine ⟨?_, nofun⟩
    unfold heartbeatContact
    split_ifs with stale behind above
    · exact .refl
    · exact follows_stepDown write above
    · exact .refl
    · exact follows_contact write _ _
  case snapshot write term leaderId =>
    refine ⟨?_, nofun⟩
    have first : Follows node _ := follows_higherTerm write term
    dsimp only [snapshotContact]
    split
    · generalize (if node.currentTerm < term then node.stepDown write term else (node, true)) = stepped
        at first ⊢
      split
      · exact first.trans (.same rfl)
      · exact first
    · exact .refl
  case observeHigherTerm write term =>
    refine ⟨?_, nofun⟩
    unfold observeHigherTerm
    split
    · exact .refl
    next above => exact follows_stepDown write (not_le.mp above)
  case persistProgress write => exact ⟨follows_persistConsensusState nofun, nofun⟩
  case restart keep useRenamed =>
    have states : ∀ state ∈ (node.restart keep useRenamed).electionStates,
        state ∈ node.electionStates ∧ state.1 = (node.restart keep useRenamed).currentTerm := by
      intro state member
      simp only [electionStates, restart] at member ⊢
      cases useRenamed <;> cases renamed : node.renamed <;> simp_all
    exact ⟨⟨fun known state member => known state (states state member).1,
      fun _ state member => (states state member).2.le⟩, nofun⟩
  case other after =>
    refine ⟨?_, nofun⟩
    split
    next same => exact .same same
    next => exact .refl

end NodeState

/-! ## Runs -/

/-- A node and the votes it has given. -/
structure Voter (Node Payload : Type) where
  node : NodeState Node Payload := {}
  votes : List (Nat × Node) := []

namespace Voter

open NodeState

variable [DecidableEq Node] {s t : Voter Node Payload} {self : Node}

def step (self : Node) (s : Voter Node Payload) (entered : Section Node Payload) :
    Option (Voter Node Payload) :=
  let (node, vote) := s.node.runSection self entered
  some { node, votes := vote.toList ++ s.votes }

/-- Every vote given is remembered, and no two of one term differ. -/
structure Faithful (s : Voter Node Payload) : Prop where
  upToTerm : s.node.UpToTerm
  remembered : ∀ vote ∈ s.votes, s.node.Remembers vote.1 vote.2
  single : ∀ vote ∈ s.votes, ∀ other ∈ s.votes, vote.1 = other.1 → vote.2 = other.2

/-- The sections of a run. -/
def Allowed (s : Voter Node Payload) (entered : Section Node Payload) : Prop := s.node.TermLeft entered

theorem Faithful.step {entered : Section Node Payload} (faithful : s.Faithful)
    (left : s.Allowed entered) (taken : s.step self entered = some t) : t.Faithful := by
  obtain ⟨follows, settles⟩ := s.node.runSection_spec self left
  simp only [Voter.step, Option.some.injEq] at taken
  obtain rfl := taken
  generalize s.node.runSection self entered = after at follows settles ⊢
  obtain ⟨after, vote⟩ := after
  have remembered : ∀ vote ∈ s.votes, after.Remembers vote.1 vote.2 := fun vote member =>
    follows.remembers (faithful.remembered vote member)
  cases vote with
  | none => exact ⟨follows.upToTerm faithful.upToTerm, remembered, faithful.single⟩
  | some given =>
    have settled := settles given rfl faithful.upToTerm
    have same : ∀ vote ∈ s.votes, vote.1 = given.1 → vote.2 = given.2 := by
      intro vote member terms
      have known := remembered vote member _ List.mem_cons_self
      rw [settled _ List.mem_cons_self, terms] at known
      rcases known with earlier | known
      · exact absurd earlier (lt_irrefl _)
      · exact (Option.some.inj (Prod.mk.inj known).2).symm
    refine ⟨follows.upToTerm faithful.upToTerm, List.forall_mem_cons.mpr
      ⟨fun state member => .inr (settled state member), remembered⟩, ?_⟩
    intro vote member other member' terms
    have earlier := faithful.single vote
    simp only [Option.toList_some, List.singleton_append, List.mem_cons] at member member'
    grind

theorem faithful_of_reach (reached : Reach (step self) Allowed {} s) : s.Faithful :=
  reached.invariant ⟨by simp [UpToTerm, electionStates], by simp, by simp⟩ Faithful.step

/-- Whatever a node receives and wherever it crashes, the votes it gives in one term are for
one candidate. -/
theorem one_vote_per_term (reached : Reach (step self) Allowed {} s) {term : Nat}
    {first second : Node} (given : (term, first) ∈ s.votes) (again : (term, second) ∈ s.votes) :
    first = second :=
  (faithful_of_reach reached).single _ given _ again rfl

/-- A candidate asks for a vote of term 1. -/
def ask (candidate : Fin 3) (write : Write) : Section (Fin 3) Nat :=
  .voteRequest {} .durable write ⟨1, candidate, 0, 0⟩

/-- The vote for candidate 2 is not written and lost in a crash, and candidate 0 gets it; then the
next write stays uncertain, the node crashes again, and candidate 2 asks once more. -/
def twoCrashes : List (Section (Fin 3) Nat) :=
  [ask 2 .failed, .restart 0 false, ask 0 .durable, .persistProgress .uncertain, .restart 0 true,
    ask 2 .durable]

theorem allowed_twoCrashes {entered : Section (Fin 3) Nat} (member : entered ∈ twoCrashes)
    (s : Voter (Fin 3) Nat) : s.Allowed entered := by
  simp only [twoCrashes, ask, List.mem_cons, List.not_mem_nil, or_false] at member
  obtain rfl | rfl | rfl | rfl | rfl | rfl := member <;> trivial

theorem one_vote_asked : ∃ s : Voter (Fin 3) Nat, run (step 1) {} twoCrashes = some s ∧
    s.votes = [(1, 0)] ∧ ∀ other, (1, other) ∈ s.votes → 0 = other :=
  have reached := @Reach.of_run _ _ (step (1 : Fin 3)) Allowed {} {} twoCrashes _ .refl
    (fun _ member s => allowed_twoCrashes member s) rfl
  ⟨_, rfl, rfl, fun _ => one_vote_per_term reached (.head _)⟩

end Voter

/-! ## Elections -/

/-- `requestVoteResponse`. -/
structure VoteResponse where
  term : Nat
  voteGranted : Bool
  deriving Repr, DecidableEq

/-- A candidate behind the first section of `attemptElection`, and what its peers answer; none
if there is no contact. -/
structure Candidacy (Node : Type) where
  candidate : Node
  electionTerm : Nat
  cluster : QuorumNode
  response : String → Option VoteResponse

namespace Candidacy

variable [DecidableEq Node] (c : Candidacy Node)

/-- Only a vote for this election counts. -/
def granted (peer : String) : Bool :=
  (c.response peer).any fun response => response.voteGranted && response.term == c.electionTerm

def votes : Nat := (c.cluster.remotePeers.filter c.granted).length + 1

def contactedAnyPeer : Bool := c.cluster.remotePeers.any fun peer => (c.response peer).isSome

/-- The last section of `attemptElection`, and what it returns. -/
def won (node : NodeState Node Payload) : Bool :=
  if node.currentTerm ≠ c.electionTerm ∨ node.votedFor ≠ some c.candidate then false
  else if c.cluster.quorumSize ≤ c.votes ∧ !c.contactedAnyPeer ∧ 1 < c.cluster.clusterNodeCount then
    false
  else decide (c.cluster.quorumSize ≤ c.votes)

/-- The candidate lists each other node once, has voted for itself, and gets from each peer
what that node has voted. -/
structure Heard (c : Candidacy Node) (nodeAt : String → Node) (voters : Node → Voter Node Payload) :
    Prop where
  once : (c.candidate :: c.cluster.remotePeers.map nodeAt).Nodup
  all : ∀ node, node ∈ c.candidate :: c.cluster.remotePeers.map nodeAt
  own : (c.electionTerm, c.candidate) ∈ (voters c.candidate).votes
  votes : ∀ peer response, c.response peer = some response → response.voteGranted = true →
    (response.term, c.candidate) ∈ (voters (nodeAt peer)).votes

variable {c} {nodeAt : String → Node} {voters : Node → Voter Node Payload}

/-- A candidate that wins has the votes of more than half of the nodes. -/
theorem Heard.quorum [Fintype Node] (heard : c.Heard nodeAt voters) {node : NodeState Node Payload}
    (won : c.won node = true) :
    ∃ quorum : Finset Node, Fintype.card Node < 2 * quorum.card ∧
      ∀ voter ∈ quorum, (c.electionTerm, c.candidate) ∈ (voters voter).votes := by
  have enough : c.cluster.quorumSize ≤ c.votes := by
    unfold Candidacy.won at won
    split_ifs at won
    exact of_decide_eq_true won
  have nodes : c.cluster.clusterNodeCount = Fintype.card Node := by
    have every : (c.candidate :: c.cluster.remotePeers.map nodeAt).toFinset = Finset.univ :=
      Finset.eq_univ_iff_forall.mpr fun node => List.mem_toFinset.mpr (heard.all node)
    rw [← Finset.card_univ, ← every, List.toFinset_card_of_nodup heard.once, List.length_cons,
      List.length_map]
    rfl
  have voted : (c.candidate :: (c.cluster.remotePeers.filter c.granted).map nodeAt).Nodup :=
    heard.once.sublist (List.filter_sublist.map nodeAt |>.cons_cons c.candidate)
  refine ⟨(c.candidate :: (c.cluster.remotePeers.filter c.granted).map nodeAt).toFinset, ?_, ?_⟩
  · rw [List.toFinset_card_of_nodup voted, List.length_cons, List.length_map]
    change _ < 2 * c.votes
    rw [QuorumNode.quorumSize, nodes] at enough
    omega
  · intro voter member
    rcases List.mem_cons.mp (List.mem_toFinset.mp member) with rfl | member
    · exact heard.own
    · obtain ⟨peer, granted, rfl⟩ := List.mem_map.mp member
      obtain ⟨response, answered, counted⟩ := Option.any_eq_true _ _ |>.mp (List.mem_filter.mp granted).2
      obtain ⟨grant, term⟩ := Bool.and_eq_true_iff.mp counted
      rw [← beq_iff_eq.mp term]
      exact heard.votes peer response answered grant

open Voter in
/-- `attemptElection` wins a term on one node at most. -/
theorem one_winner_per_term [Fintype Node] {voters : Node → Voter Node Payload}
    (reached : ∀ self, Reach (Voter.step self) Allowed {} (voters self)) {first second : Candidacy Node}
    (heard : first.Heard nodeAt voters) (heard' : second.Heard nodeAt voters)
    {node node' : NodeState Node Payload} (won : first.won node = true) (won' : second.won node' = true)
    (term : first.electionTerm = second.electionTerm) : first.candidate = second.candidate := by
  obtain ⟨quorum, more, voted⟩ := heard.quorum won
  obtain ⟨quorum', more', voted'⟩ := heard'.quorum won'
  obtain ⟨voter, both⟩ := Finset.inter_nonempty_of_card_lt_card_add_card
    (Finset.subset_univ quorum) (Finset.subset_univ quorum') (by rw [Finset.card_univ]; omega)
  obtain ⟨member, member'⟩ := Finset.mem_inter.mp both
  exact (faithful_of_reach (reached voter)).single _ (voted voter member) _ (voted' voter member') term

/-! ## Three nodes -/

/-- Nodes 0 and 2 stand for election in term 1. -/
def threeVoters (self : Fin 3) : Voter (Fin 3) Nat :=
  (run (Voter.step self) {}
    (if self = 1 then Voter.twoCrashes else [.startElection .durable .durable])).getD {}

theorem reach_threeVoters (self : Fin 3) :
    Reach (Voter.step self) Voter.Allowed {} (threeVoters self) := by
  by_cases one : self = 1
  · subst one
    exact .of_run .refl (fun _ member s => Voter.allowed_twoCrashes member s) rfl
  · rw [threeVoters, if_neg one]
    exact .tail (e := .startElection .durable .durable) .refl (show 0 + 1 < 2 ^ 64 by decide) rfl

def threeNodesAt (peer : String) : Fin 3 :=
  if peer = "a@10.0.0.1:7001" then 0 else if peer = "b@10.0.0.2:7001" then 1 else 2

/-- Node 0 gets the vote of node 1, and node 2 has voted for itself. -/
def candidacy : Candidacy (Fin 3) where
  candidate := 0
  electionTerm := 1
  cluster := ⟨"a", 7001, ["b@10.0.0.2:7001", "c@10.0.0.3:7001"], 0, []⟩
  response peer := some ⟨1, peer = "b@10.0.0.2:7001"⟩

theorem one_winner_of_three : (threeVoters 1).votes = [(1, 0)] ∧
    candidacy.won (threeVoters 0).node = true ∧ ∀ (other : Candidacy (Fin 3))
      (node' : NodeState (Fin 3) Nat), other.Heard threeNodesAt threeVoters → other.won node' = true →
        1 = other.electionTerm → 0 = other.candidate := by
  have remote : candidacy.cluster.remotePeers = candidacy.cluster.peers :=
    List.filter_eq_self.mpr (by decide)
  have won : candidacy.won (threeVoters 0).node = true := by
    rw [Candidacy.won, Candidacy.votes, Candidacy.contactedAnyPeer, QuorumNode.quorumSize,
      QuorumNode.clusterNodeCount, remote]
    decide
  have heard : candidacy.Heard threeNodesAt threeVoters := by
    refine ⟨?_, ?_, .head _, fun peer response answered grant => ?_⟩
    · rw [remote]
      decide
    · rw [remote]
      decide
    · obtain rfl := Option.some.inj answered
      obtain rfl : peer = "b@10.0.0.2:7001" := of_decide_eq_true grant
      exact .head _
  exact ⟨rfl, won, fun other _ heard' won' term =>
    one_winner_per_term reach_threeVoters heard heard' won won' term⟩

end Candidacy

end PacificDb.Raft
