import Mathlib.Data.Fintype.Basic
import PacificDb.Lib.Machine
import PacificDb.Vector.Source

/-!
# Vector index generations

`VectorIndexGeneration` serves a graph with the certificate of the source it was built
from. A worker builds graphs, and after that brings the published one up to date in
place, batch after batch of the journal, while the source is edited.

The steps are the sections between which others can run: what a lock covers, one
callback, one read of the journal, one record of the graph. The number of a graph stands
for the graph, of which only its live records matter here; checks that throw are the
event `abort`.
-/

namespace PacificDb.Vector

open Lib Journal

/-- The lambda `compatible` of a build and of a round. -/
def compatible (complete : Bool) (current : Option Stamp) (before : Stamp) : Bool :=
  match current with
  | none => false
  | some current => decide (current = before) || complete && current.sameSourceAtOrAfter before

inductive State where
  | absent
  | queued
  | building
  | ready
  | stale
  | failed
  deriving Repr, DecidableEq

structure Status where
  state : State := .absent
  generation : Nat := 0
  error : String := ""
  deriving Repr, DecidableEq

structure Generation where
  number : Nat
  certificate : Stamp
  graph : Nat
  visibilityComplete : Bool
  deriving Repr, DecidableEq

def Generation.accepts (generation : Generation) (current : Stamp) : Bool :=
  compatible generation.visibilityComplete (some current) generation.certificate

structure Maintenance where
  cursor : Cursor
  maximumBatch : Nat
  sourceVisibilityComplete : Bool
  deriving Repr, DecidableEq

structure Job where
  revision : Nat
  sourceVisibilityComplete : Bool
  deriving Repr, DecidableEq

/-- What `maintain` has read when it begins a round. -/
structure Round where
  maintenance : Maintenance
  previous : Generation
  revision : Nat
  target : Stamp
  deriving Repr, DecidableEq

/-! ## The system -/

/-- Where the worker is. -/
inductive Worker (Id Record : Type) where
  | waiting
  | chosen (maintenance : Maintenance) (previous : Generation) (revision : Nat)
  | targeted (round : Round)
  | admitted (round : Round)
  | reading (round : Round)
  | resolving (round : Round) (batch : Batch Id) (rest : List (Change Id))
      (resolved : List (Id × Option Record))
  | updating (round : Round) (batch : Batch Id) (rest : List (Id × Option Record))
  | measuring (round : Round) (batch : Batch Id) (final : Option Stamp)
  | publishing (round : Round) (batch : Batch Id) (final : Option Stamp) (head : Cursor)
  | starting (job : Job)
  | scanning (job : Job) (pinned : Stamp) (staged : Id → Option Record) (scanned : List Id)
  | finishing (job : Job) (pinned : Stamp) (staged : Id → Option Record)
      (completed : Option Stamp) (anchors : List Cursor)
  | notifying (job : Job)

structure System (Id Record : Type) where
  source : Source Id Record
  /-- The cursors that callers took as anchors. -/
  captured : List Cursor := []
  status : Status := {}
  revision : Nat := 0
  nextGeneration : Nat := 0
  stopped : Bool := false
  building : Bool := false
  queue : List Job := []
  published : Option Generation := none
  /-- The anchors taken before the certificate of the published build. -/
  anchored : List Cursor := []
  maintenance : Option Maintenance := none
  graphs : Nat → Id → Option Record
  nextGraph : Nat := 0
  worker : Worker Id Record := .waiting
  /-- What `acquire` returned, with the certificate it was asked for. -/
  served : List (Stamp × Generation) := []

inductive Event (Id Record : Type) where
  | source (event : SourceEvent Id Record)
  | anchor
  | enqueue (complete : Bool)
  | enable (anchor : Cursor) (maximumBatch : Nat) (complete : Bool)
  | invalidate
  | close
  | acquire (stamp : Stamp)
  | maintain
  | build
  | exit
  | emit (id : Id)
  | work
  /-- The certificate callback has none. -/
  | withhold
  /-- A check, a callback or an allocation throws. -/
  | abort (error : String)
  /-- A check of a build finds another certificate. -/
  | sourceChanged

variable {Id Record : Type}

namespace System

/-! ## Callers -/

def enqueue (s : System Id Record) (complete : Bool) : System Id Record :=
  if s.stopped || !s.queue.isEmpty || s.building then s
  else
    { s with
      revision := s.revision + 1, queue := [⟨s.revision + 1, complete⟩], published := none
      anchored := [], maintenance := none, status := ⟨.queued, s.status.generation, ""⟩ }

def enableMaintenance (s : System Id Record) (anchor : Cursor) (maximumBatch : Nat)
    (complete : Bool) : System Id Record :=
  match s.published with
  | none => s
  | some published =>
      if anchor.epoch = 0 ∨ maximumBatch = 0 ∨ 1024 < maximumBatch then s
      else if s.stopped || s.building || !s.queue.isEmpty || s.status.state != .ready ||
          s.maintenance.isSome then s
      else
        { s with
          published := some { published with
            visibilityComplete := published.visibilityComplete || complete }
          maintenance := some ⟨anchor, maximumBatch, complete⟩ }

def invalidate (s : System Id Record) : System Id Record :=
  { s with revision := s.revision + 1, status := { s.status with state := .stale } }

def close (s : System Id Record) : System Id Record := { s.invalidate with stopped := true }

def acquire (s : System Id Record) (stamp : Stamp) : Option Generation :=
  match s.published with
  | none => none
  | some published =>
      if s.status.state ≠ .ready ∨ published.accepts stamp = false then none
      else if published.visibilityComplete then
        match s.maintenance with
        | none => none
        | some maintenance =>
            if s.source.journal.capture = maintenance.cursor then some published else none
      else some published

/-! ## Rounds of maintenance -/

/-- The catch block of a round. -/
def failRound (s : System Id Record) (round : Round) (error : String) : System Id Record :=
  { s with
    building := false, worker := .waiting
    status :=
      if s.stopped ∨ s.revision ≠ round.revision then { s.status with state := .stale }
      else ⟨.failed, s.status.generation, error⟩ }

def startMaintenance (s : System Id Record) : Option (System Id Record) :=
  match s.maintenance, s.published with
  | some maintenance, some published =>
      if s.stopped || s.building || !s.queue.isEmpty || s.status.state == .failed then none
      else some { s with worker := .chosen maintenance published s.revision }
  | _, _ => none

/-- The first lock after the certificate. -/
def admitRound (s : System Id Record) (round : Round) : System Id Record :=
  if s.stopped ∨ s.revision ≠ round.revision ∨ s.maintenance ≠ some round.maintenance ∨
      s.building = true ∨ s.queue ≠ [] then { s with worker := .waiting }
  else
    { s with building := true, status := { s.status with state := .stale }, worker := .reading round }

/-- Unversioned changes are those of a target that the generation already accepts. -/
def readBatch (s : System Id Record) (round : Round) : System Id Record :=
  let previous := round.previous.certificate
  if round.target.root ≠ previous.root ∨ round.target.configuration ≠ previous.configuration ∨
      round.target.collection < previous.collection ∨
      round.target.visibility < previous.visibility then
    s.failRound round "vector_index_incremental_root_or_configuration_requires_rebuild"
  else
    let batch := s.source.journal.after round.maintenance.cursor round.target.visibility
      round.maintenance.maximumBatch
    if batch.state = .gap then
      s.failRound round "vector_index_incremental_history_gap_requires_rebuild"
    else if !batch.changes.isEmpty && round.previous.accepts round.target then
      s.failRound round "vector_index_incremental_unversioned_changes_require_rebuild"
    else { s with worker := .resolving round batch batch.changes [] }

/-- The lambda `completeProgress`. -/
def completeProgress (round : Round) (current : Option Stamp) : Bool :=
  match current with
  | none => false
  | some current =>
      round.maintenance.sourceVisibilityComplete && decide (current.root = round.target.root) &&
        decide (current.configuration = round.target.configuration) &&
        decide (round.target.collection ≤ current.collection) &&
        decide (round.target.visibility ≤ current.visibility)

def usable (round : Round) (current : Option Stamp) : Bool :=
  compatible round.maintenance.sourceVisibilityComplete current round.target ||
    completeProgress round current

/-- The last lock of a round. -/
def publishRound (s : System Id Record) (round : Round) (batch : Batch Id) (final : Option Stamp)
    (head : Cursor) : System Id Record :=
  let free := { s with building := false, worker := .waiting }
  if s.stopped ∨ s.revision ≠ round.revision ∨ s.maintenance ≠ some round.maintenance then free
  else
    let moved := { free with maintenance := some { round.maintenance with cursor := batch.next } }
    match final with
    | some certificate =>
        if batch.state = .covered ∧ usable round (some certificate) = true ∧ head = batch.next then
          { moved with
            published := some {
              number := s.nextGeneration + 1
              certificate :=
                if round.maintenance.sourceVisibilityComplete then certificate else round.target
              graph := round.previous.graph
              visibilityComplete := round.maintenance.sourceVisibilityComplete }
            nextGeneration := s.nextGeneration + 1
            status := ⟨.ready, s.nextGeneration + 1, ""⟩ }
        else { moved with status := { s.status with state := .stale } }
    | none => { moved with status := { s.status with state := .stale } }

/-! ## Builds -/

def startBuild (s : System Id Record) : Option (System Id Record) :=
  match s.queue with
  | [] => none
  | job :: rest =>
      if s.stopped then none
      else if job.revision ≠ s.revision then some { s with queue := rest }
      else some { s with
        queue := rest, building := true, status := { s.status with state := .building }
        worker := .starting job }

/-- The catch block of a build. -/
def failBuild (s : System Id Record) (job : Job) (changed : Bool) (error : String) :
    System Id Record :=
  { s with
    building := false, worker := .waiting
    status :=
      if job.revision ≠ s.revision ∨ changed = true then { s.status with state := .stale }
      else ⟨.failed, s.status.generation, error⟩ }

def publishBuild (s : System Id Record) (job : Job) (pinned : Stamp) (staged : Id → Option Record)
    (completed : Option Stamp) (anchors : List Cursor) : System Id Record :=
  let free := { s with building := false }
  match completed with
  | some certificate =>
      if compatible job.sourceVisibilityComplete (some certificate) pinned = false ∨
          job.revision ≠ s.revision ∨ s.stopped then
        { free with status := { s.status with state := .stale }, worker := .waiting }
      else
        { free with
          graphs := Function.update s.graphs s.nextGraph staged, nextGraph := s.nextGraph + 1
          published := some ⟨s.nextGeneration + 1, certificate, s.nextGraph,
            job.sourceVisibilityComplete⟩
          anchored := anchors, nextGeneration := s.nextGeneration + 1
          status := ⟨.ready, s.nextGeneration + 1, ""⟩, worker := .notifying job }
  | none => { free with status := { s.status with state := .stale }, worker := .waiting }

/-! ## Steps -/

variable [DecidableEq Id]

/-- The next section of the worker. -/
def work (s : System Id Record) : Option (System Id Record) :=
  match s.worker with
  | .waiting => none
  | .chosen maintenance previous revision =>
      match s.source.certificate with
      | none => some { s with worker := .waiting }
      | some target => some { s with worker := .targeted ⟨maintenance, previous, revision, target⟩ }
  | .targeted round =>
      if round.previous.accepts round.target ∧ s.source.journal.capture = round.maintenance.cursor then
        some { s with worker := .waiting }
      else some { s with worker := .admitted round }
  | .admitted round => some (s.admitRound round)
  | .reading round => some (s.readBatch round)
  | .resolving round batch (change :: rest) resolved =>
      if resolved.any fun pair => pair.1 == change.id then
        some { s with worker := .resolving round batch rest resolved }
      else
        let record := s.source.records change.id
        some { s with worker := .resolving round batch rest (resolved ++ [(change.id, record)]) }
  | .resolving round batch [] resolved =>
      if usable round s.source.certificate then some { s with worker := .updating round batch resolved }
      else some { s with building := false, worker := .waiting }
  | .updating round batch ((id, record) :: rest) =>
      let graph := round.previous.graph
      some { s with
        graphs := Function.update s.graphs graph (Function.update (s.graphs graph) id record)
        worker := .updating round batch rest }
  | .updating round batch [] => some { s with worker := .measuring round batch s.source.certificate }
  | .measuring round batch final =>
      some { s with worker := .publishing round batch final s.source.journal.capture }
  | .publishing round batch final head => some (s.publishRound round batch final head)
  | .starting job =>
      match s.source.certificate with
      | none => some (s.failBuild job false "vector source is changing")
      | some pinned => some { s with worker := .scanning job pinned (fun _ => none) [] }
  | .scanning job pinned staged _ =>
      some { s with worker := .finishing job pinned staged s.source.certificate s.captured }
  | .finishing job pinned staged completed anchors =>
      some (s.publishBuild job pinned staged completed anchors)
  | .notifying _ => some { s with worker := .waiting }

/-- The certificate callback without a certificate: sections that ask for one. -/
def withhold (s : System Id Record) : Option (System Id Record) :=
  match s.worker with
  | .chosen _ _ _ => some { s with worker := .waiting }
  | .resolving _ _ [] _ => some { s with building := false, worker := .waiting }
  | .updating round batch [] => some { s with worker := .measuring round batch none }
  | .starting job => some (s.failBuild job false "vector source is changing")
  | .scanning job pinned staged _ =>
      some { s with worker := .finishing job pinned staged none s.captured }
  | _ => none

/-- What is thrown in a section. -/
def abort (s : System Id Record) (error : String) : Option (System Id Record) :=
  match s.worker with
  | .chosen maintenance _ revision =>
      some { s with
        worker := .waiting
        status :=
          if s.revision = revision ∧ s.maintenance = some maintenance then
            ⟨.failed, s.status.generation, error⟩
          else s.status }
  | .admitted _ =>
      some { s with worker := .waiting, status := ⟨.failed, s.status.generation, error⟩ }
  | .reading round | .resolving round _ _ _ | .updating round _ _ | .measuring round _ _ =>
      some (s.failRound round error)
  | .starting job | .scanning job _ _ _ | .notifying job => some (s.failBuild job false error)
  | _ => none

def step (s : System Id Record) : Event Id Record → Option (System Id Record)
  | .source event => (s.source.step event).map fun source => { s with source }
  | .anchor => some { s with captured := s.source.journal.capture :: s.captured }
  | .enqueue complete => some (s.enqueue complete)
  | .enable anchor maximumBatch complete => some (s.enableMaintenance anchor maximumBatch complete)
  | .invalidate => some s.invalidate
  | .close => some s.close
  | .acquire stamp =>
      match s.acquire stamp with
      | none => some s
      | some generation => some { s with served := (stamp, generation) :: s.served }
  | .maintain =>
      match s.worker with
      | .waiting => s.startMaintenance
      | _ => none
  | .build =>
      match s.worker with
      | .waiting => s.startBuild
      | _ => none
  | .exit =>
      match s.worker with
      | .waiting => if s.stopped then some { s with published := none, queue := [] } else none
      | _ => none
  | .emit id =>
      match s.worker with
      | .scanning job pinned staged scanned => some { s with
          worker := .scanning job pinned (Function.update staged id (s.source.records id)) (id :: scanned) }
      | _ => none
  | .work => s.work
  | .withhold => s.withhold
  | .abort error => s.abort error
  | .sourceChanged =>
      match s.worker with
      | .scanning job pinned _ _ =>
          if compatible job.sourceVisibilityComplete s.source.certificate pinned then none
          else some (s.failBuild job true "vector source changed during construction")
      | _ => none

end System

/-- Nothing happened yet to the index of a source. -/
def System.initial (records : Id → Option Record) (capacity : Nat) : System Id Record where
  source := { records, journal := { capacity, epochs := 2, epoch := 1 } }
  graphs := fun _ _ => none

/-- A scan that ends has come to every record that is stored, while nothing is edited. -/
def WholeScan (source : Source Id Record) : Worker Id Record → Prop
  | .scanning _ pinned _ scanned =>
      source.Current pinned → ∀ id, id ∉ scanned → source.records id = none
  | _ => True

/-- What the callers promise: maintenance starts from an anchor that was taken before the
certificate of the build. -/
def Promised (s : System Id Record) : Event Id Record → Prop
  | .enable anchor _ _ => anchor ∈ s.anchored
  | .work => WholeScan s.source s.worker
  | _ => True

section

variable [Fintype Id] [DecidableEq Id] [DecidableEq Record]

instance decidableWholeScan (source : Source Id Record) : ∀ worker, Decidable (WholeScan source worker)
  | .scanning _ pinned _ scanned =>
      inferInstanceAs (Decidable (source.Current pinned → ∀ id, id ∉ scanned → source.records id = none))
  | .waiting | .chosen _ _ _ | .targeted _ | .admitted _ | .reading _ | .resolving _ _ _ _
  | .updating _ _ _ | .measuring _ _ _ | .publishing _ _ _ _ | .starting _ | .finishing _ _ _ _ _
  | .notifying _ => .isTrue trivial

instance decidablePromised (s : System Id Record) : ∀ event, Decidable (Promised s event)
  | .enable anchor _ _ => inferInstanceAs (Decidable (anchor ∈ s.anchored))
  | .work => inferInstanceAs (Decidable (WholeScan s.source s.worker))
  | .source _ | .anchor | .enqueue _ | .invalidate | .close | .acquire _ | .maintain | .build
  | .exit | .emit _ | .withhold | .abort _ | .sourceChanged => .isTrue trivial

end

end PacificDb.Vector
