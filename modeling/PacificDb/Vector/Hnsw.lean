import Mathlib.Algebra.Order.Ring.Int
import Mathlib.Data.List.AList
import PacificDb.Lib.BestFirst

/-!
# The HNSW index

`HNSWIndex` keeps vectors as the nodes of a layered graph. A node is on the layers from
zero up to a random level, and has a list of neighbours on each. An insertion descends
from the entry point to the level of the new node, and links it on every layer below to
some of the nodes that a search finds there. A list that is too long is pruned. Nodes
that are removed or replaced stay and are marked.

The vectors, their distance and what is implementation-defined in the standard library
(queues and sorting with ties) are parameters. Allocation failures, cancellation and
what they leave of the graph are left out.
-/

namespace PacificDb.Vector

open Lib

/-- Vectors as the index sees them. -/
structure Space (V D : Type) where
  validVector : V → Bool
  size : V → Nat
  prepare : V → V
  /-- Equal component by component. -/
  same : V → V → Bool
  distance : V → V → D

/-- `std::priority_queue` and `std::sort`. -/
structure Standard (D : Type) [LinearOrder D] where
  queues : SearchQueues Nat D
  sort : List (Nat × D) → List (Nat × D)
  sort_perm : ∀ scored, (sort scored).Perm scored

structure HNSWConfig where
  M : Nat := 16
  efConstruction : Nat := 200
  efSearch : Nat := 50
  dimensions : Nat := 0
  maxElements : Nat := 1000000
  valid : (2 ≤ M ∧ M ≤ 128) ∧ (M ≤ efConstruction ∧ efConstruction ≤ 100000) ∧
    (0 < efSearch ∧ efSearch ≤ 100000) ∧ dimensions ≤ 65536 ∧
      0 < maxElements ∧ maxElements < 2 ^ 32 := by decide

structure HNSWNode (V : Type) where
  id : String
  vector : V
  record : List UInt8
  neighbors : List (List Nat)
  deleted : Bool := false

structure HNSWIndex (V : Type) where
  config : HNSWConfig
  dimensions : Nat
  nodes : List (HNSWNode V) := []
  maxLevel : Nat := 0
  entryPoint : Nat := 0
  idToIndex : AList fun _ : String => Nat := ∅
  staged : Bool := false

instance {V : Type} [Inhabited V] : Inhabited (HNSWNode V) := ⟨⟨"", default, [], [], false⟩⟩

namespace HNSWIndex

variable {V D : Type} [Inhabited V] [LinearOrder D] (space : Space V D) (std : Standard D)

def ofConfig (config : HNSWConfig) : HNSWIndex V where
  config
  dimensions := config.dimensions

def node (s : HNSWIndex V) (i : Nat) : HNSWNode V := s.nodes.getD i default

/-- `nodes_[i].neighbors[l]`. -/
def links (s : HNSWIndex V) (i l : Nat) : List Nat := (s.node i).neighbors.getD l []

/-- `nodes_[i].neighbors.size()`. -/
def layers (s : HNSWIndex V) (i : Nat) : Nat := (s.node i).neighbors.length

def setLinks (s : HNSWIndex V) (i l : Nat) (list : List Nat) : HNSWIndex V :=
  { s with nodes := s.nodes.modify i fun node => { node with neighbors := node.neighbors.set l list } }

def size (s : HNSWIndex V) : Nat := s.idToIndex.keys.length

/-! ## Layer search -/

/-- The search of one layer; removed nodes are followed, and count unless only live nodes do. -/
def layerSearch (s : HNSWIndex V) (query : V) (ef l : Nat) (liveOnly : Bool) : BestFirst Nat D where
  next i := s.links i l
  score i := space.distance query (s.node i).vector
  counts i := !liveOnly || !(s.node i).deleted
  most := ef

def searchLayer (s : HNSWIndex V) (query : V) (entry ef l : Nat) (liveOnly : Bool) : List (Nat × D) :=
  (s.layerSearch space query ef l liveOnly).run std.queues s.nodes.length entry

/-- The next entry: the nearest that was found. -/
def nearest (results : List (Nat × D)) (entry : Nat) : Nat :=
  match results with
  | [] => entry
  | (found, _) :: _ => found

/-- From layer `top` down to the layer above `level`. -/
def descend (s : HNSWIndex V) (query : V) (level : Nat) : Nat → Nat → Nat
  | 0, entry => entry
  | top + 1, entry =>
      if level < top + 1 then
        descend s query level top (nearest (s.searchLayer space std query entry 1 (top + 1) false) entry)
      else entry

/-! ## Links -/

/-- No selected node is nearer to the candidate than the candidate's own distance. -/
def diverse (s : HNSWIndex V) (selected : List Nat) (candidate : Nat × D) : Bool :=
  selected.all fun other =>
    !decide (space.distance (s.node candidate.1).vector (s.node other).vector < candidate.2)

def selectNeighbors (s : HNSWIndex V) (maximum : Nat) : List Nat → List (Nat × D) → List Nat
  | selected, [] => selected
  | selected, candidate :: rest =>
      let selected := if s.diverse space selected candidate then selected ++ [candidate.1] else selected
      if selected.length = maximum then selected else selectNeighbors s maximum selected rest

def maximum (s : HNSWIndex V) (l : Nat) : Nat := if l = 0 then s.config.M * 2 else s.config.M

def prune (s : HNSWIndex V) (i l : Nat) : HNSWIndex V :=
  let scored := (s.links i l).map fun other =>
    (other, space.distance (s.node i).vector (s.node other).vector)
  s.setLinks i l (s.selectNeighbors space (s.maximum l) [] (std.sort scored))

/-- The link from the neighbour back, with what is kept where there are too many. -/
def linkBack (s : HNSWIndex V) (l idx neighbor : Nat) : HNSWIndex V :=
  if l < s.layers neighbor then
    let linked := s.setLinks neighbor l (s.links neighbor l ++ [idx])
    if linked.maximum l < (linked.links neighbor l).length then linked.prune space std neighbor l
    else linked
  else s

def link (l idx : Nat) (s : HNSWIndex V) (neighbor : Nat) : HNSWIndex V :=
  let linked :=
    if l < s.layers idx then s.setLinks idx l (s.links idx l ++ [neighbor]) else s
  linked.linkBack space std l idx neighbor

/-- The neighbours that are chosen on a layer. -/
def chosen (s : HNSWIndex V) (query : V) (l entry : Nat) : List Nat :=
  s.selectNeighbors space s.config.M []
    (s.searchLayer space std query entry s.config.efConstruction l false)

def connectLayer (s : HNSWIndex V) (idx : Nat) (query : V) (l entry : Nat) : HNSWIndex V :=
  (s.chosen space std query l entry).foldl (link space std l idx) s

/-- From layer `l` down to the last. -/
def connectLayers (idx : Nat) (query : V) : Nat → HNSWIndex V → Nat → HNSWIndex V
  | 0, s, entry => s.connectLayer space std idx query 0 entry
  | l + 1, s, entry =>
      let results := s.searchLayer space std query entry s.config.efConstruction (l + 1) false
      connectLayers idx query l (s.connectLayer space std idx query (l + 1) entry)
        (nearest results entry)

def connectLocked (s : HNSWIndex V) (idx : Nat) : HNSWIndex V :=
  let level := s.layers idx - 1
  if idx = 0 then { s with maxLevel := level, entryPoint := 0 }
  else
    let query := (s.node idx).vector
    let entry := s.descend space std query level s.maxLevel s.entryPoint
    let linked := connectLayers space std idx query (min level s.maxLevel) s entry
    if s.maxLevel < level then { linked with maxLevel := level, entryPoint := idx } else linked

/-! ## Changes -/

/-- `randomLevel()` returned `level`. -/
def appendLocked (s : HNSWIndex V) (id : String) (vector : V) (record : List UInt8) (level : Nat) :
    Bool × HNSWIndex V :=
  if id = "" ∨ space.validVector vector = false ∨ s.config.maxElements ≤ s.nodes.length then (false, s)
  else
    let s := if s.dimensions = 0 then { s with dimensions := space.size vector } else s
    if space.size vector ≠ s.dimensions then (false, s)
    else
      let node : HNSWNode V := ⟨id, space.prepare vector, record, List.replicate (level + 1) [], false⟩
      (true, { s with
        nodes := s.nodes ++ [node], idToIndex := s.idToIndex.insert id s.nodes.length })

def markDeleted (s : HNSWIndex V) (i : Nat) : HNSWIndex V :=
  { s with nodes := s.nodes.modify i fun node => { node with deleted := true } }

def setRecord (s : HNSWIndex V) (i : Nat) (record : List UInt8) : HNSWIndex V :=
  { s with nodes := s.nodes.modify i fun node => { node with record } }

def insertLocked (s : HNSWIndex V) (id : String) (vector : V) (replace : Bool)
    (record : List UInt8) (level : Nat) : Except String (Bool × HNSWIndex V) :=
  if s.staged then .error "vector index unhealthy or not built"
  else if id = "" ∨ space.validVector vector = false then .ok (false, s)
  else
    let previous := s.idToIndex.lookup id
    if previous.isSome ∧ replace = false then .ok (false, s)
    else
      let sized := if s.dimensions = 0 then { s with dimensions := space.size vector } else s
      if space.size vector ≠ sized.dimensions then .ok (false, sized)
      else
        match previous with
        | some old =>
            if space.same (space.prepare vector) (sized.node old).vector then
              .ok (true, sized.setRecord old record)
            else if sized.config.maxElements ≤ sized.nodes.length then .ok (false, sized)
            else
              match sized.appendLocked space id vector record level with
              | (false, kept) => .ok (false, kept)
              | (true, appended) =>
                  .ok (true, (appended.markDeleted old).connectLocked space std sized.nodes.length)
        | none =>
            if sized.config.maxElements ≤ sized.nodes.length then .ok (false, sized)
            else
              match sized.appendLocked space id vector record level with
              | (false, kept) => .ok (false, kept)
              | (true, appended) => .ok (true, appended.connectLocked space std sized.nodes.length)

def insert (s : HNSWIndex V) (id : String) (vector : V) (record : List UInt8) (level : Nat) :
    Except String (Bool × HNSWIndex V) := s.insertLocked space std id vector false record level

def upsert (s : HNSWIndex V) (id : String) (vector : V) (record : List UInt8) (level : Nat) :
    Except String (Bool × HNSWIndex V) := s.insertLocked space std id vector true record level

def remove (s : HNSWIndex V) (id : String) : Bool × HNSWIndex V :=
  match s.idToIndex.lookup id with
  | none => (false, s)
  | some found => (true, { s.markDeleted found with idToIndex := s.idToIndex.erase id })

def stage (s : HNSWIndex V) (id : String) (vector : V) (record : List UInt8) (level : Nat) :
    Except String (Bool × HNSWIndex V) :=
  if !s.staged && !s.nodes.isEmpty then .error "invalid staged graph state"
  else if (s.idToIndex.lookup id).isSome then .ok (false, s)
  else .ok ({ s with staged := true }.appendLocked space id vector record level)

/-- Every node is connected, in order. -/
def buildStaged (s : HNSWIndex V) : HNSWIndex V :=
  { (List.range s.nodes.length).foldl (connectLocked space std) s with staged := false }

/-! ## Queries -/

structure Hit (D : Type) where
  id : String
  distance : D
  record : List UInt8
  deriving Repr, DecidableEq

/-- The loop over the results. -/
def hits (s : HNSWIndex V) (maximumRecordBytes : Nat) (withRecords : Bool) :
    Nat → List (Nat × D) → Except String (List (Hit D))
  | _, [] => .ok []
  | recordBytes, (i, distance) :: rest =>
      let node := s.node i
      if withRecords = true ∧ (maximumRecordBytes < node.record.length ∨
          maximumRecordBytes - node.record.length < recordBytes) then
        .error "vector_candidate_bytes_exceeded"
      else do
        let later ← hits s maximumRecordBytes withRecords (recordBytes + node.record.length) rest
        .ok (⟨node.id, distance, if withRecords then node.record else []⟩ :: later)

def searchRecordsLocked (s : HNSWIndex V) (query : V) (k efSearch maximumRecordBytes : Nat)
    (withRecords : Bool) : Except String (List (Hit D)) :=
  if s.staged then .error "vector index unhealthy or not built"
  else if k = 0 ∨ s.size = 0 ∨ space.validVector query = false ∨ space.size query ≠ s.dimensions then
    .ok []
  else if s.config.efSearch < efSearch then .error "query ef_search exceeds configured bound"
  else
    let prepared := space.prepare query
    let entry := s.descend space std prepared 0 s.maxLevel s.entryPoint
    let ef := max k (if efSearch = 0 then s.config.efSearch else efSearch)
    let results := s.searchLayer space std prepared entry ef 0 true
    s.hits maximumRecordBytes withRecords 0 (results.take k)

def search (s : HNSWIndex V) (query : V) (k efSearch : Nat) : Except String (List (String × D)) :=
  (s.searchRecordsLocked space std query k efSearch 0 false).map fun hits =>
    hits.map fun hit => (hit.id, hit.distance)

def searchRecords (s : HNSWIndex V) (query : V) (k efSearch maximumRecordBytes : Nat) :
    Except String (List (Hit D)) :=
  s.searchRecordsLocked space std query k efSearch maximumRecordBytes true

end HNSWIndex

end PacificDb.Vector
