import PacificDb.Json
import PacificDb.Lib.OrderStatistic

/-!
# The quorum index

What the leader commits up to: `computeQuorumIndex` sorts its own last index and the match
indexes of its peers and takes the middle one. `quorumSize` counts the nodes on its own, from
the list of peers.

The middle of an odd number of nodes is the index that a quorum has. Of an even number the
upper middle is taken, which half of the nodes have (`quorumIndex_iff`).
-/

namespace PacificDb.Raft

open Lib

/-! ## Peers -/

/-- `peerNodeId`: what stands before the first `@`. -/
def peerNodeId (peer : String) : String :=
  if '@' ∈ peer.toList then String.ofList (peer.toList.takeWhile (· != '@')) else ""

/-- `peerEndpoint`: what stands behind the first `@`. -/
def peerEndpoint (peer : String) : String :=
  if '@' ∈ peer.toList then String.ofList ((peer.toList.dropWhile (· != '@')).drop 1) else peer

/-- `std::stoi`. -/
def stoi (text : String) : Option Int :=
  (stoll text).filter fun value => decide (-2 ^ 31 ≤ value ∧ value < 2 ^ 31)

/-- The host and the port on both sides of the last colon. -/
def splitEndpoint (endpoint : String) : Option (String × String) :=
  let backwards := endpoint.toList.reverse
  if ':' ∈ endpoint.toList then
    some (String.ofList ((backwards.dropWhile (· != ':')).drop 1).reverse,
      String.ofList (backwards.takeWhile (· != ':')).reverse)
  else none

/-- The part of `RaftCore` that counts replicas. `matchIndex_` has its entries in the order of
the hash table. -/
structure QuorumNode where
  nodeId : String
  listenPort : Int
  peers : List String
  lastIndex : Nat
  matchIndex : List (String × Nat)

namespace QuorumNode

variable (node : QuorumNode)

def isSelfPeer (peer : String) : Bool :=
  if peerNodeId peer != "" && peerNodeId peer == node.nodeId then true
  else
    match splitEndpoint (peerEndpoint peer) with
    | none => false
    | some (host, portStr) =>
        match stoi portStr with
        | none => false
        | some peerPort =>
            if peerPort ≠ node.listenPort then false
            else host == "127.0.0.1" || host == "localhost" || host == "::1"

def remotePeers : List String := node.peers.filter fun peer => !node.isSelfPeer peer

def clusterNodeCount : Nat := node.remotePeers.length + 1

def quorumSize : Nat := node.clusterNodeCount / 2 + 1

/-- The indexes that `computeQuorumIndex` gathers: the leader's own, then one of each peer. -/
def indexes : List Nat := node.lastIndex :: node.matchIndex.map Prod.snd

def computeQuorumIndex : Nat :=
  let idxs := node.indexes.mergeSort fun first second => decide (second ≤ first)
  idxs.getD ((idxs.length - 1) / 2) 0

/-! ## What a quorum has -/

/-- The greatest index that so many nodes have, the leader with its last index among them. -/
def IsQuorumIndex (index : Nat) : Prop :=
  IsGreatest {reached | node.quorumSize ≤ reaching node.indexes reached} index

/-- There is one entry for each remote peer. -/
def Tracked : Prop := (node.matchIndex.map Prod.fst).Perm node.remotePeers

variable {node}

theorem length_indexes (tracked : node.Tracked) : node.indexes.length = node.clusterNodeCount := by
  have size := tracked.length_eq
  rw [List.length_map] at size
  rw [indexes, List.length_cons, List.length_map, clusterNodeCount, size]

/-- The code takes the greatest index that more than `(n - 1) / 2` of the `n` nodes have. -/
theorem computeQuorumIndex_greatest (tracked : node.Tracked) :
    IsGreatest {index | (node.clusterNodeCount - 1) / 2 < reaching node.indexes index}
      node.computeQuorumIndex := by
  have ranked : (node.indexes.mergeSort fun first second => decide (second ≤ first)).Pairwise
      fun first second => second ≤ first := by
    have sorted := @List.pairwise_mergeSort Nat (fun first second => decide (second ≤ first))
      (fun a b c ab bc => by
        rw [decide_eq_true_eq] at ab bc ⊢
        exact bc.trans ab)
      (fun a b => by
        rw [Bool.or_eq_true, decide_eq_true_eq, decide_eq_true_eq]
        exact le_total b a) node.indexes
    exact sorted.imp fun {a b} before => of_decide_eq_true before
  have perm := List.mergeSort_perm node.indexes fun first second => decide (second ≤ first)
  have size : (node.indexes.mergeSort fun first second => decide (second ≤ first)).length =
      node.clusterNodeCount := by
    rw [perm.length_eq, length_indexes tracked]
  have inside : (node.clusterNodeCount - 1) / 2 <
      (node.indexes.mergeSort fun first second => decide (second ≤ first)).length := by
    rw [size, clusterNodeCount]
    omega
  have greatest := isGreatest_rank ranked inside
  rw [computeQuorumIndex]
  rw [size, List.getD_eq_getElem?_getD, List.getElem?_eq_getElem inside, Option.getD_some]
  simpa only [reaching_perm perm] using greatest

/-- The index is the one of a quorum when the number of nodes is odd, or when no index is one
that exactly half of the nodes have. -/
theorem quorumIndex_iff (tracked : node.Tracked) :
    node.IsQuorumIndex node.computeQuorumIndex ↔
      node.clusterNodeCount % 2 = 1 ∨
        ∀ index, reaching node.indexes index ≠ node.clusterNodeCount / 2 := by
  obtain ⟨most, greatest⟩ := computeQuorumIndex_greatest tracked
  have reached : (node.clusterNodeCount - 1) / 2 < reaching node.indexes node.computeQuorumIndex := most
  have some : 0 < node.clusterNodeCount := Nat.succ_pos _
  constructor
  · intro ⟨quorum, _⟩
    have enough : node.clusterNodeCount / 2 + 1 ≤ reaching node.indexes node.computeQuorumIndex := quorum
    by_cases odd : node.clusterNodeCount % 2 = 1
    · exact .inl odd
    · refine .inr fun index half => ?_
      -- An index that half of the nodes have is not above the one of the code, which a quorum has.
      have more : (node.clusterNodeCount - 1) / 2 < reaching node.indexes index := by omega
      have fewer := reaching_anti node.indexes (greatest more)
      omega
  · intro apart
    have enough : node.clusterNodeCount / 2 + 1 ≤ reaching node.indexes node.computeQuorumIndex := by
      rcases apart with odd | apart
      · omega
      · have other := apart node.computeQuorumIndex
        omega
    refine ⟨enough, fun index quorum => greatest ?_⟩
    have more : node.clusterNodeCount / 2 + 1 ≤ reaching node.indexes index := quorum
    show (node.clusterNodeCount - 1) / 2 < reaching node.indexes index
    omega

/-- Three nodes. -/
theorem quorumIndex_three :
    let node : QuorumNode := ⟨"a", 7001, ["b@10.0.0.2:7001", "c@10.0.0.3:7001"], 9,
      [("b@10.0.0.2:7001", 4), ("c@10.0.0.3:7001", 7)]⟩
    node.IsQuorumIndex node.computeQuorumIndex ↔
      node.clusterNodeCount % 2 = 1 ∨
        ∀ index, reaching node.indexes index ≠ node.clusterNodeCount / 2 :=
  quorumIndex_iff (by
    have remote : ∀ peer ∈ ["b@10.0.0.2:7001", "c@10.0.0.3:7001"],
        (!isSelfPeer ⟨"a", 7001, ["b@10.0.0.2:7001", "c@10.0.0.3:7001"], 9,
          [("b@10.0.0.2:7001", 4), ("c@10.0.0.3:7001", 7)]⟩ peer) = true := by decide
    rw [Tracked, remotePeers, List.filter_eq_self.mpr remote]
    exact .refl _)

/-- Two nodes: what only the leader has is taken for the index of a quorum. -/
theorem quorumIndex_two_wrong : ¬∀ node : QuorumNode, node.Tracked →
    node.IsQuorumIndex node.computeQuorumIndex := by
  intro all
  have remote : ∀ peer ∈ ["b@10.0.0.2:7001"],
      (!isSelfPeer ⟨"a", 7001, ["b@10.0.0.2:7001"], 5, [("b@10.0.0.2:7001", 3)]⟩ peer) = true := by decide
  have tracked : Tracked ⟨"a", 7001, ["b@10.0.0.2:7001"], 5, [("b@10.0.0.2:7001", 3)]⟩ := by
    rw [Tracked, remotePeers, List.filter_eq_self.mpr remote]
    exact .refl _
  obtain ⟨quorum, _⟩ := all _ tracked
  obtain ⟨_, greatest⟩ := computeQuorumIndex_greatest tracked
  have size : quorumSize ⟨"a", 7001, ["b@10.0.0.2:7001"], 5, [("b@10.0.0.2:7001", 3)]⟩ = 2 := by
    rw [quorumSize, clusterNodeCount, remotePeers, List.filter_eq_self.mpr remote]
    rfl
  have both : 2 ≤ reaching [5, 3] _ := size.symm.trans_le quorum
  have above : 5 ≤ computeQuorumIndex ⟨"a", 7001, ["b@10.0.0.2:7001"], 5, [("b@10.0.0.2:7001", 3)]⟩ := by
    apply greatest
    show (clusterNodeCount _ - 1) / 2 < reaching [5, 3] 5
    rw [clusterNodeCount, remotePeers, List.filter_eq_self.mpr remote]
    decide
  have one := both.trans (reaching_anti [5, 3] above)
  exact absurd one (by decide)

end QuorumNode

end PacificDb.Raft
