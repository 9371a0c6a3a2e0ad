import PacificDb.Vector.Generation

/-!
# Served generations are current

The graph that `acquire` returns is the map of the source for as long as the certificate
it was asked for is current. Every graph that can be held is that of the source while
its own certificate is current, and the published one tracks the source from the cursor
of its maintenance, whatever part of a batch it has taken.
-/

namespace PacificDb.Vector

open Lib Journal

variable {Id Record : Type}

namespace System

/-- The generation can be held by a reader. -/
def Known (s : System Id Record) (generation : Generation) : Prop :=
  s.published = some generation ∨ ∃ stamp, (stamp, generation) ∈ s.served

structure Faithful (s : System Id Record) (generation : Generation) : Prop where
  drawn : generation.graph < s.nextGraph
  past : s.source.Past generation.certificate
  same : s.source.Current generation.certificate → s.graphs generation.graph = s.source.records

/-- Maintenance can start from the cursor. -/
structure Followed (s : System Id Record) (cursor : Cursor) : Prop where
  reached : s.source.journal.Reached cursor
  tracks : ∀ generation, s.published = some generation →
    s.source.Tracks (s.graphs generation.graph) cursor

structure Core (s : System Id Record) : Prop where
  valid : s.source.journal.Valid
  captured : ∀ anchor ∈ s.captured, s.source.journal.Reached anchor
  faithful : ∀ generation, s.Known generation → s.Faithful generation
  served : ∀ stamp generation, (stamp, generation) ∈ s.served →
    stamp.root = generation.certificate.root ∧ stamp.collection = generation.certificate.collection
  anchored : s.maintenance = none → ∀ anchor ∈ s.anchored, s.Followed anchor
  maintained : ∀ maintenance, s.maintenance = some maintenance →
    s.Followed maintenance.cursor ∧ maintenance.cursor.epoch ≠ 0 ∧ maintenance.maximumBatch ≠ 0
  short : s.queue.length ≤ 1
  queued : s.queue ≠ [] → s.published = none ∧ s.maintenance = none

/-! ## Where the worker is -/

/-- What was chosen is still there, unless a build was asked for since. -/
def Offered (s : System Id Record) (maintenance : Maintenance) (previous : Generation) : Prop :=
  s.published = some previous ∧ s.maintenance = some maintenance ∨
    s.published = none ∧ s.maintenance = none

/-- The target is no older than what a reader can hold. -/
structure Newest (s : System Id Record) (target : Stamp) : Prop where
  past : s.source.Past target
  root : ∀ generation, s.Known generation → generation.certificate.root ≤ target.root
  collection : ∀ generation, s.Known generation →
    generation.certificate.collection ≤ target.collection

/-- While a round runs nobody else publishes. -/
structure Running (s : System Id Record) (round : Round) : Prop where
  building : s.building = true
  published : s.published = some round.previous
  maintenance : s.maintenance = some round.maintenance
  queue : s.queue = []
  newest : s.Newest round.target

structure Reading (s : System Id Record) (round : Round) (batch : Batch Id) : Prop
    extends Running s round where
  epoch : batch.next.epoch = round.maintenance.cursor.epoch
  grows : round.maintenance.cursor.sequence ≤ batch.next.sequence
  reached : s.source.journal.Reached batch.next

/-- The id is with the graph as it is with the source after the batch. -/
def Covers (s : System Id Record) (round : Round) (batch : Batch Id) (id : Id) : Prop :=
  s.source.Agrees batch.next id (s.graphs round.previous.graph id)

structure Resolved (s : System Id Record) (round : Round) (batch : Batch Id)
    (pair : Id × Option Record) : Prop where
  agrees : s.source.Agrees batch.next pair.1 pair.2
  same : s.source.Current round.target → pair.2 = s.source.records pair.1

structure Constructing (s : System Id Record) : Prop where
  building : s.building = true
  published : s.published = none
  maintenance : s.maintenance = none
  queue : s.queue = []

/-- What was scanned is stored, while the certificate of the start is current. -/
structure Scanned (s : System Id Record) (pinned : Stamp) (staged : Id → Option Record)
    (scanned : List Id) : Prop where
  past : s.source.Past pinned
  inside : s.source.Current pinned → ∀ id ∈ scanned, staged id = s.source.records id
  outside : ∀ id, id ∉ scanned → staged id = none

structure Completed (s : System Id Record) (staged : Id → Option Record) (certificate : Stamp)
    (anchors : List Cursor) : Prop where
  past : s.source.Past certificate
  same : s.source.Current certificate → staged = s.source.records
  anchors : ∀ anchor ∈ anchors, s.source.journal.Reached anchor ∧ s.source.Tracks staged anchor

def At (s : System Id Record) : Worker Id Record → Prop
  | .waiting | .notifying _ => True
  | .chosen maintenance previous _ => s.Offered maintenance previous
  | .targeted round | .admitted round =>
      s.Offered round.maintenance round.previous ∧ s.Newest round.target
  | .reading round => s.Running round
  | .resolving round batch rest resolved =>
      s.Reading round batch ∧ (∀ pair ∈ resolved, s.Resolved round batch pair) ∧
        ∀ id, (∃ change ∈ rest, change.id = id) ∨ (∃ value, (id, value) ∈ resolved) ∨
          s.Covers round batch id
  | .updating round batch rest =>
      s.Reading round batch ∧ (∀ pair ∈ rest, s.Resolved round batch pair) ∧
        ∀ id, (∃ value, (id, value) ∈ rest) ∨ s.Covers round batch id
  | .measuring round batch final =>
      s.Reading round batch ∧ (∀ id, s.Covers round batch id) ∧
        ∀ certificate, final = some certificate → s.source.Past certificate
  | .publishing round batch final head =>
      s.Reading round batch ∧ (∀ id, s.Covers round batch id) ∧
        ∀ certificate, final = some certificate → s.source.Past certificate ∧
          (head = batch.next → s.source.Current certificate →
            s.graphs round.previous.graph = s.source.records)
  | .starting _ => s.Constructing
  | .scanning _ pinned staged scanned => s.Constructing ∧ s.Scanned pinned staged scanned
  | .finishing job pinned staged completed anchors =>
      s.Constructing ∧ ∀ certificate, completed = some certificate →
        compatible job.sourceVisibilityComplete (some certificate) pinned = true →
          s.Completed staged certificate anchors

structure Inv (s : System Id Record) : Prop extends Core s where
  worker : s.At s.worker

variable {s t : System Id Record} {source : Source Id Record} {round : Round} {batch : Batch Id}

/-! ## The source moves -/

theorem Core.moves (core : s.Core) (moves : s.source.Moves source) : { s with source }.Core where
  valid := moves.valid core.valid
  captured := fun anchor member =>
    (moves.journal core.valid).reached anchor (core.captured anchor member)
  faithful := by
    intro generation known
    have before := core.faithful generation known
    refine ⟨before.drawn, moves.past _ before.past, fun current => ?_⟩
    obtain ⟨was, records⟩ := moves.still _ before.past current
    exact (before.same was).trans records.symm
  served := core.served
  anchored := fun none anchor member =>
    have before := core.anchored none anchor member
    ⟨(moves.journal core.valid).reached _ before.reached, fun generation published =>
      moves.tracks core.valid before.reached (before.tracks generation published)⟩
  maintained := fun maintenance some =>
    have before := core.maintained maintenance some
    ⟨⟨(moves.journal core.valid).reached _ before.1.reached, fun generation published =>
      moves.tracks core.valid before.1.reached (before.1.tracks generation published)⟩, before.2⟩
  short := core.short
  queued := core.queued

theorem Newest.moves {target : Stamp} (newest : s.Newest target) (moves : s.source.Moves source) :
    { s with source }.Newest target :=
  ⟨moves.past _ newest.past, newest.root, newest.collection⟩

theorem Running.moves (running : s.Running round) (moves : s.source.Moves source) :
    { s with source }.Running round :=
  ⟨running.building, running.published, running.maintenance, running.queue,
    running.newest.moves moves⟩

theorem Reading.moves (reading : s.Reading round batch) (valid : s.source.journal.Valid)
    (moves : s.source.Moves source) : { s with source }.Reading round batch :=
  ⟨reading.toRunning.moves moves, reading.epoch, reading.grows,
    (moves.journal valid).reached _ reading.reached⟩

theorem Covers.moves {id : Id} (covers : s.Covers round batch id) (reading : s.Reading round batch)
    (valid : s.source.journal.Valid) (moves : s.source.Moves source) :
    { s with source }.Covers round batch id :=
  moves.agrees _ _ _ valid reading.reached covers

theorem Resolved.moves {pair : Id × Option Record} (resolved : s.Resolved round batch pair)
    (reading : s.Reading round batch) (valid : s.source.journal.Valid)
    (moves : s.source.Moves source) : { s with source }.Resolved round batch pair := by
  refine ⟨moves.agrees _ _ _ valid reading.reached resolved.agrees, fun current => ?_⟩
  obtain ⟨was, records⟩ := moves.still _ reading.newest.past current
  exact (resolved.same was).trans (congrFun records _).symm

theorem At.moves {worker : Worker Id Record} (valid : s.source.journal.Valid)
    (place : s.At worker) (moves : s.source.Moves source) : { s with source }.At worker := by
  cases worker with
  | waiting => trivial
  | notifying job => trivial
  | chosen maintenance previous revision => exact place
  | targeted round => exact ⟨place.1, place.2.moves moves⟩
  | admitted round => exact ⟨place.1, place.2.moves moves⟩
  | reading round => exact Running.moves place moves
  | resolving round batch rest resolved =>
    obtain ⟨reading, values, covered⟩ := place
    refine ⟨reading.moves valid moves, ?_, fun id => ?_⟩
    · exact fun pair member => (values pair member).moves reading valid moves
    · exact (covered id).imp_right (Or.imp_right fun covers => covers.moves reading valid moves)
  | updating round batch rest =>
    obtain ⟨reading, values, covered⟩ := place
    refine ⟨reading.moves valid moves, ?_, fun id => ?_⟩
    · exact fun pair member => (values pair member).moves reading valid moves
    · exact (covered id).imp_right fun covers => covers.moves reading valid moves
  | measuring round batch final =>
    obtain ⟨reading, covered, past⟩ := place
    exact ⟨reading.moves valid moves, fun id => (covered id).moves reading valid moves,
      fun certificate isFinal => moves.past _ (past certificate isFinal)⟩
  | publishing round batch final head =>
    obtain ⟨reading, covered, closed⟩ := place
    refine ⟨reading.moves valid moves, fun id => (covered id).moves reading valid moves, ?_⟩
    intro certificate isFinal
    obtain ⟨past, same⟩ := closed certificate isFinal
    refine ⟨moves.past _ past, fun atHead current => ?_⟩
    obtain ⟨was, records⟩ := moves.still _ past current
    exact (same atHead was).trans records.symm
  | starting job => exact ⟨place.building, place.published, place.maintenance, place.queue⟩
  | scanning job pinned staged scanned =>
    obtain ⟨constructing, before⟩ := place
    refine ⟨⟨constructing.building, constructing.published, constructing.maintenance,
      constructing.queue⟩, moves.past _ before.past, fun current id member => ?_, before.outside⟩
    obtain ⟨was, records⟩ := moves.still _ before.past current
    exact (before.inside was id member).trans (congrFun records id).symm
  | finishing job pinned staged completed anchors =>
    obtain ⟨constructing, closed⟩ := place
    refine ⟨⟨constructing.building, constructing.published, constructing.maintenance,
      constructing.queue⟩, fun certificate isCompleted fits => ?_⟩
    have before := closed certificate isCompleted fits
    refine ⟨moves.past _ before.past, fun current => ?_, fun anchor member => ?_⟩
    · obtain ⟨was, records⟩ := moves.still _ before.past current
      exact (before.same was).trans records.symm
    · obtain ⟨reached, tracks⟩ := before.anchors anchor member
      exact ⟨(moves.journal valid).reached _ reached, moves.tracks valid reached tracks⟩

/-! ## What a step leaves alone -/

theorem Core.frame (core : s.Core) (status : Status) (revision nextGeneration : Nat)
    (stopped building : Bool) (worker : Worker Id Record) :
    { s with status, revision, nextGeneration, stopped, building, worker }.Core where
  valid := core.valid
  captured := core.captured
  faithful := fun generation known =>
    have before := core.faithful generation known
    ⟨before.drawn, before.past, before.same⟩
  served := core.served
  anchored := fun none anchor member =>
    have before := core.anchored none anchor member
    ⟨before.reached, before.tracks⟩
  maintained := fun maintenance some =>
    have before := core.maintained maintenance some
    ⟨⟨before.1.reached, before.1.tracks⟩, before.2⟩
  short := core.short
  queued := core.queued

theorem Reading.frame (reading : s.Reading round batch) (captured : List Cursor) (status : Status)
    (revision nextGeneration : Nat) (stopped : Bool) (worker : Worker Id Record)
    (served : List (Stamp × Generation))
    (known : ∀ generation, { s with served }.Known generation → s.Known generation) :
    { s with captured, status, revision, nextGeneration, stopped, worker, served }.Reading
      round batch := by
  obtain ⟨⟨building, published, maintenance, queue, newest⟩, epoch, grows, reached⟩ := reading
  refine ⟨⟨building, published, maintenance, queue, newest.past, ?_, ?_⟩, epoch, grows, reached⟩
  · exact fun generation isKnown => newest.root generation (known generation isKnown)
  · exact fun generation isKnown => newest.collection generation (known generation isKnown)

theorem At.frame {place : Worker Id Record} (at_ : s.At place) (captured : List Cursor)
    (status : Status) (revision nextGeneration : Nat) (stopped : Bool) (worker : Worker Id Record)
    (served : List (Stamp × Generation))
    (known : ∀ generation, { s with served }.Known generation → s.Known generation) :
    { s with captured, status, revision, nextGeneration, stopped, worker, served }.At place := by
  have newest : ∀ {target}, s.Newest target →
      { s with captured, status, revision, nextGeneration, stopped, worker, served }.Newest target :=
    fun before => ⟨before.past,
      fun generation isKnown => before.root generation (known generation isKnown),
      fun generation isKnown => before.collection generation (known generation isKnown)⟩
  have constructing : s.Constructing →
      { s with captured, status, revision, nextGeneration, stopped, worker, served }.Constructing :=
    fun before => ⟨before.building, before.published, before.maintenance, before.queue⟩
  cases place with
  | waiting => trivial
  | notifying job => trivial
  | chosen maintenance previous revision => exact at_
  | targeted round => exact ⟨at_.1, newest at_.2⟩
  | admitted round => exact ⟨at_.1, newest at_.2⟩
  | reading round =>
    obtain ⟨building, published, maintenance, queue, before⟩ := at_
    exact ⟨building, published, maintenance, queue, newest before⟩
  | resolving round batch rest resolved =>
    obtain ⟨reading, values, covered⟩ := at_
    exact ⟨reading.frame captured status revision nextGeneration stopped worker served known,
      fun pair member => ⟨(values pair member).agrees, (values pair member).same⟩, covered⟩
  | updating round batch rest =>
    obtain ⟨reading, values, covered⟩ := at_
    exact ⟨reading.frame captured status revision nextGeneration stopped worker served known,
      fun pair member => ⟨(values pair member).agrees, (values pair member).same⟩, covered⟩
  | measuring round batch final =>
    exact ⟨at_.1.frame captured status revision nextGeneration stopped worker served known, at_.2⟩
  | publishing round batch final head =>
    exact ⟨at_.1.frame captured status revision nextGeneration stopped worker served known, at_.2⟩
  | starting job => exact constructing at_
  | scanning job pinned staged scanned =>
    obtain ⟨past, inside, outside⟩ := at_.2
    exact ⟨constructing at_.1, past, inside, outside⟩
  | finishing job pinned staged completed anchors =>
    refine ⟨constructing at_.1, fun certificate isCompleted fits => ?_⟩
    obtain ⟨past, same, anchors⟩ := at_.2 certificate isCompleted fits
    exact ⟨past, same, anchors⟩

/-- A worker that waits needs nothing. -/
theorem Core.rest (core : s.Core) (status : Status) (building : Bool) :
    { s with status, building, worker := .waiting }.Inv :=
  ⟨core.frame status s.revision s.nextGeneration s.stopped building .waiting, trivial⟩

theorem Core.goto (core : s.Core) {place : Worker Id Record} (at_ : s.At place) :
    { s with worker := place }.Inv :=
  ⟨core.frame s.status s.revision s.nextGeneration s.stopped s.building place,
    at_.frame s.captured s.status s.revision s.nextGeneration s.stopped place s.served
      fun _ known => known⟩

/-! ## Callers -/

theorem Inv.moved (inv : s.Inv) (moves : s.source.Moves source) : { s with source }.Inv :=
  ⟨inv.toCore.moves moves, inv.worker.moves inv.valid moves⟩

theorem Inv.anchor (inv : s.Inv) :
    { s with captured := s.source.journal.capture :: s.captured }.Inv := by
  obtain ⟨⟨valid, captured, faithful, served, anchored, maintained, short, queued⟩, worker⟩ := inv
  constructor
  · constructor
    · exact valid
    · exact List.forall_mem_cons.mpr ⟨reached_capture valid, captured⟩
    · intro generation known
      obtain ⟨drawn, past, same⟩ := faithful generation known
      exact ⟨drawn, past, same⟩
    · exact served
    · intro none anchor member
      obtain ⟨reached, tracks⟩ := anchored none anchor member
      exact ⟨reached, tracks⟩
    · intro maintenance some
      obtain ⟨⟨reached, tracks⟩, real⟩ := maintained maintenance some
      exact ⟨⟨reached, tracks⟩, real⟩
    · exact short
    · exact queued
  · exact worker.frame _ s.status s.revision s.nextGeneration s.stopped s.worker s.served
      fun _ known => known

theorem Inv.invalidate (inv : s.Inv) : s.invalidate.Inv :=
  ⟨inv.toCore.frame _ _ s.nextGeneration s.stopped s.building s.worker,
    inv.worker.frame s.captured _ _ s.nextGeneration s.stopped s.worker s.served
      fun _ known => known⟩

theorem Inv.close (inv : s.Inv) : s.close.Inv :=
  ⟨inv.toCore.frame _ _ s.nextGeneration true s.building s.worker,
    inv.worker.frame s.captured _ _ s.nextGeneration true s.worker s.served fun _ known => known⟩

/-- A generation answers for stamps of its own source. -/
theorem accepts_source {generation : Generation} {stamp : Stamp}
    (accepts : generation.accepts stamp = true) :
    stamp.root = generation.certificate.root ∧
      stamp.collection = generation.certificate.collection := by
  unfold Generation.accepts compatible at accepts
  simp only [Bool.or_eq_true, Bool.and_eq_true, decide_eq_true_eq, Stamp.sameSourceAtOrAfter]
    at accepts
  rcases accepts with same | ⟨-, ⟨⟨root, collection⟩, -⟩, -⟩
  · rw [same]
    exact ⟨rfl, rfl⟩
  · exact ⟨root, collection⟩

theorem acquire_cases {stamp : Stamp} {generation : Generation}
    (acquired : s.acquire stamp = some generation) :
    s.published = some generation ∧ generation.accepts stamp = true := by
  unfold acquire at acquired
  split at acquired
  next => cases acquired
  next published isPublished =>
    split at acquired
    next => cases acquired
    next eligible =>
      rw [not_or, Bool.not_eq_false] at eligible
      have is : published = generation := by
        split at acquired
        next =>
          split at acquired
          next => cases acquired
          next =>
            split at acquired
            next => exact Option.some.inj acquired
            next => cases acquired
        next => exact Option.some.inj acquired
      rw [← is]
      exact ⟨isPublished, eligible.2⟩

theorem Inv.acquire {stamp : Stamp} {generation : Generation} (inv : s.Inv)
    (acquired : s.acquire stamp = some generation) :
    { s with served := (stamp, generation) :: s.served }.Inv := by
  obtain ⟨isPublished, accepts⟩ := acquire_cases acquired
  have known : ∀ other, { s with served := (stamp, generation) :: s.served }.Known other →
      s.Known other := by
    rintro other (published | ⟨asked, member⟩)
    · exact .inl published
    · rcases List.mem_cons.mp member with isNew | before
      · cases isNew
        exact .inl isPublished
      · exact .inr ⟨asked, before⟩
  obtain ⟨⟨valid, captured, faithful, served, anchored, maintained, short, queued⟩, worker⟩ := inv
  constructor
  · constructor
    · exact valid
    · exact captured
    · intro other isKnown
      obtain ⟨drawn, past, same⟩ := faithful other (known other isKnown)
      exact ⟨drawn, past, same⟩
    · intro asked other member
      rcases List.mem_cons.mp member with isNew | before
      · cases isNew
        exact accepts_source accepts
      · exact served asked other before
    · intro none anchor member
      obtain ⟨reached, tracks⟩ := anchored none anchor member
      exact ⟨reached, tracks⟩
    · intro maintenance some
      obtain ⟨⟨reached, tracks⟩, real⟩ := maintained maintenance some
      exact ⟨⟨reached, tracks⟩, real⟩
    · exact short
    · exact queued
  · exact worker.frame s.captured s.status s.revision s.nextGeneration s.stopped s.worker _ known

/-- A caller that finds nothing building meets the worker in few places. -/
theorem At.callers {place : Worker Id Record} (at_ : s.At place) (free : s.building = false)
    (offered : ∀ maintenance previous, s.Offered maintenance previous →
      t.Offered maintenance previous)
    (newest : ∀ target, s.Newest target → t.Newest target) : t.At place := by
  have busy {P : Prop} (building : s.building = true) : P := by
    rw [free] at building
    cases building
  cases place with
  | waiting => trivial
  | notifying job => trivial
  | chosen maintenance previous revision => exact offered maintenance previous at_
  | targeted round => exact ⟨offered _ _ at_.1, newest _ at_.2⟩
  | admitted round => exact ⟨offered _ _ at_.1, newest _ at_.2⟩
  | reading round => exact busy (Running.building at_)
  | resolving round batch rest resolved => exact busy at_.1.building
  | updating round batch rest => exact busy at_.1.building
  | measuring round batch final => exact busy at_.1.building
  | publishing round batch final head => exact busy at_.1.building
  | starting job => exact busy (Constructing.building at_)
  | scanning job pinned staged scanned => exact busy at_.1.building
  | finishing job pinned staged completed anchors => exact busy at_.1.building

theorem Inv.enqueue (inv : s.Inv) (complete : Bool) : (s.enqueue complete).Inv := by
  unfold System.enqueue
  split
  next => exact inv
  next idle =>
    simp only [Bool.or_eq_true, not_or, Bool.not_eq_true] at idle
    obtain ⟨⟨valid, captured, faithful, served, -, -, -, -⟩, worker⟩ := inv
    constructor
    · constructor
      · exact valid
      · exact captured
      · rintro generation (published | isServed)
        · cases published
        · obtain ⟨drawn, past, same⟩ := faithful generation (.inr isServed)
          exact ⟨drawn, past, same⟩
      · exact served
      · intro _ anchor member
        cases member
      · intro maintenance some
        cases some
      · exact le_rfl
      · exact fun _ => ⟨rfl, rfl⟩
    · refine worker.callers idle.2 (fun _ _ _ => .inr ⟨rfl, rfl⟩) fun target before => ?_
      refine ⟨before.past, ?_, ?_⟩
      · rintro generation (published | isServed)
        · cases published
        · exact before.root generation (.inr isServed)
      · rintro generation (published | isServed)
        · cases published
        · exact before.collection generation (.inr isServed)

theorem Inv.enable {anchor : Cursor} {maximumBatch : Nat} {complete : Bool} (inv : s.Inv)
    (promised : anchor ∈ s.anchored) :
    (s.enableMaintenance anchor maximumBatch complete).Inv := by
  unfold enableMaintenance
  split
  next => exact inv
  next published isPublished =>
    split
    next => exact inv
    next fits =>
      split
      next => exact inv
      next idle =>
        simp only [Bool.or_eq_true, not_or, Bool.not_eq_true, Option.isSome_eq_false_iff,
          Option.isNone_iff_eq_none] at idle
        obtain ⟨⟨⟨⟨-, free⟩, -⟩, -⟩, none⟩ := idle
        obtain ⟨⟨valid, captured, faithful, served, anchored, -, short, queued⟩, worker⟩ := inv
        have before := faithful published (.inl isPublished)
        constructor
        · constructor
          · exact valid
          · exact captured
          · rintro generation (same | isServed)
            · cases same
              exact ⟨before.drawn, before.past, before.same⟩
            · obtain ⟨drawn, past, same⟩ := faithful generation (.inr isServed)
              exact ⟨drawn, past, same⟩
          · exact served
          · intro isNone
            cases isNone
          · intro maintenance isSome
            cases isSome
            have followed := anchored none anchor promised
            refine ⟨⟨followed.reached, ?_⟩, fun zero => fits (.inl zero),
              fun zero => fits (.inr (.inl zero))⟩
            intro generation same
            cases same
            exact followed.tracks published isPublished
          · exact short
          · intro waits
            rw [(queued waits).1] at isPublished
            cases isPublished
        · refine worker.callers free ?_ fun target newest => ⟨newest.past, ?_, ?_⟩
          · rintro maintenance previous (⟨-, isSome⟩ | ⟨isNone, -⟩)
            · rw [none] at isSome
              cases isSome
            · rw [isNone] at isPublished
              cases isPublished
          · rintro generation (same | isServed)
            · cases same
              exact newest.root published (.inl isPublished)
            · exact newest.root generation (.inr isServed)
          · rintro generation (same | isServed)
            · cases same
              exact newest.collection published (.inl isPublished)
            · exact newest.collection generation (.inr isServed)

/-! ## A round -/

/-- Nothing that can be held is newer than the certificate. -/
theorem Core.newest {target : Stamp} (core : s.Core) (found : s.source.certificate = some target) :
    s.Newest target := by
  obtain ⟨-, root, collection⟩ := Source.certificate_eq_some found
  refine ⟨Source.past_certificate found, fun generation known => ?_, fun generation known => ?_⟩
  · rw [root]
    exact (core.faithful generation known).past.root
  · rw [collection]
    exact (core.faithful generation known).past.collection

theorem Core.admitRound (core : s.Core) (at_ : s.At (.admitted round)) : (s.admitRound round).Inv := by
  unfold System.admitRound
  split
  next => exact core.rest s.status s.building
  next still =>
    simp only [ne_eq, not_or, not_not] at still
    obtain ⟨-, -, maintenance, -, queue⟩ := still
    obtain ⟨offered, newest⟩ := at_
    rcases offered with ⟨published, -⟩ | ⟨-, none⟩
    · exact ⟨core.frame _ s.revision s.nextGeneration s.stopped true _,
        rfl, published, maintenance, queue, newest.past, newest.root, newest.collection⟩
    · rw [none] at maintenance
      cases maintenance

theorem Core.readBatch (core : s.Core) (running : s.Running round) : (s.readBatch round).Inv := by
  unfold System.readBatch
  dsimp only
  split
  next => exact core.rest _ false
  next =>
    split
    next => exact core.rest _ false
    next noGap =>
      split
      next => exact core.rest _ false
      next =>
        have batchOf := after_batchOf core.valid noGap
        obtain ⟨⟨-, tracks⟩, -⟩ := core.maintained _ running.maintenance
        refine core.goto ⟨⟨running, batchOf.epoch, batchOf.grows, batchOf.reached⟩, nofun, ?_⟩
        intro id
        rcases tracks _ running.published id with same | logged | unjournaled
        · exact .inr (.inr (.inl same))
        · exact (batchOf.logged id logged).imp_right fun later => .inr (.inr (.inl later))
        · exact .inr (.inr (.inr (.inr unjournaled)))

theorem At.skip [DecidableEq Id] {change : Change Id} {rest : List (Change Id)}
    {resolved : List (Id × Option Record)}
    (at_ : s.At (.resolving round batch (change :: rest) resolved))
    (seen : (resolved.any fun pair => pair.1 == change.id) = true) :
    s.At (.resolving round batch rest resolved) := by
  obtain ⟨reading, values, covered⟩ := at_
  refine ⟨reading, values, fun id => ?_⟩
  rcases covered id with ⟨other, member, isId⟩ | known
  · rcases List.mem_cons.mp member with isChange | later
    · obtain ⟨pair, inside, same⟩ := List.any_eq_true.mp seen
      refine .inr (.inl ⟨pair.2, ?_⟩)
      rw [← isId, isChange, ← eq_of_beq same]
      exact inside
    · exact .inl ⟨other, later, isId⟩
  · exact .inr known

theorem At.resolve {change : Change Id} {rest : List (Change Id)}
    {resolved : List (Id × Option Record)}
    (at_ : s.At (.resolving round batch (change :: rest) resolved)) :
    s.At (.resolving round batch rest (resolved ++ [(change.id, s.source.records change.id)])) := by
  obtain ⟨reading, values, covered⟩ := at_
  refine ⟨reading, fun pair member => ?_, fun id => ?_⟩
  · rcases List.mem_append.mp member with before | isNew
    · exact values pair before
    · rw [List.mem_singleton.mp isNew]
      exact ⟨.inl rfl, fun _ => rfl⟩
  · rcases covered id with ⟨other, member, isId⟩ | ⟨value, member⟩ | covers
    · rcases List.mem_cons.mp member with isChange | later
      · subst isChange isId
        exact .inr (.inl ⟨_, List.mem_append_right _ (List.mem_singleton_self _)⟩)
      · exact .inl ⟨other, later, isId⟩
    · exact .inr (.inl ⟨value, List.mem_append_left _ member⟩)
    · exact .inr (.inr covers)

/-- One record goes into the graph that readers hold. -/
theorem Core.update [DecidableEq Id] {pair : Id × Option Record} {rest : List (Id × Option Record)}
    (core : s.Core) (at_ : s.At (.updating round batch (pair :: rest))) :
    { s with
      graphs := Function.update s.graphs round.previous.graph
        (Function.update (s.graphs round.previous.graph) pair.1 pair.2)
      worker := .updating round batch rest }.Inv := by
  obtain ⟨reading, values, covered⟩ := at_
  obtain ⟨first, values⟩ := List.forall_mem_cons.mp values
  obtain ⟨running, epoch, grows, reached⟩ := reading
  obtain ⟨building, published, maintenance, queue, newest⟩ := running
  obtain ⟨⟨cursor, tracks⟩, real⟩ := core.maintained _ maintenance
  constructor
  · constructor
    · exact core.valid
    · exact core.captured
    · intro generation known
      obtain ⟨drawn, past, same⟩ := core.faithful generation known
      refine ⟨drawn, past, fun current => ?_⟩
      dsimp only
      by_cases isGraph : generation.graph = round.previous.graph
      · -- Then the target is current too, and nothing was edited since.
        have root := (newest.root generation known).antisymm (current.1 ▸ newest.past.root)
        have collection :=
          (newest.collection generation known).antisymm (current.2 ▸ newest.past.collection)
        have value := first.same ⟨root ▸ current.1, collection ▸ current.2⟩
        rw [isGraph, Function.update_self, value, ← isGraph, same current, Function.update_eq_self]
      · rw [Function.update_of_ne isGraph]
        exact same current
    · exact core.served
    · intro isNone
      cases maintenance.symm.trans isNone
    · intro other isOther
      cases maintenance.symm.trans isOther
      refine ⟨⟨cursor, ?_⟩, real⟩
      intro generation isGeneration id
      cases published.symm.trans isGeneration
      dsimp only
      rw [Function.update_self]
      by_cases isId : id = pair.1
      · rw [isId, Function.update_self]
        exact first.agrees.earlier epoch grows
      · rw [Function.update_of_ne isId]
        exact tracks _ published id
    · exact core.short
    · exact core.queued
  · refine ⟨⟨⟨building, published, maintenance, queue, newest.past, newest.root, newest.collection⟩,
      epoch, grows, reached⟩, ?_, fun id => ?_⟩
    · exact fun pair member => ⟨(values pair member).agrees, (values pair member).same⟩
    · by_cases isId : id = pair.1
      · refine .inr ?_
        unfold Covers
        dsimp only
        rw [Function.update_self, isId, Function.update_self]
        exact first.agrees
      · rcases covered id with ⟨value, member⟩ | covers
        · rcases List.mem_cons.mp member with isFirst | later
          · exact absurd (congrArg Prod.fst isFirst) isId
          · exact .inl ⟨value, later⟩
        · refine .inr ?_
          unfold Covers
          dsimp only
          rw [Function.update_self, Function.update_of_ne isId]
          exact covers

theorem At.measure {final : Option Stamp} (core : s.Core)
    (at_ : s.At (.measuring round batch final)) :
    s.At (.publishing round batch final s.source.journal.capture) := by
  obtain ⟨reading, covered, past⟩ := at_
  refine ⟨reading, covered, fun certificate isFinal => ⟨past certificate isFinal, ?_⟩⟩
  intro head current
  funext id
  have real : batch.next.epoch ≠ 0 := by
    rw [reading.epoch]
    exact (core.maintained _ reading.maintenance).2.1
  exact (past certificate isFinal).agrees_head current core.valid head real (covered id)

/-- The cursor moves over the batch, and the graph stays published. -/
theorem Core.advance (core : s.Core) (reading : s.Reading round batch)
    (covered : ∀ id, s.Covers round batch id) (published : Option Generation)
    (fits : ∀ generation, published = some generation →
      generation.graph = round.previous.graph ∧ s.Faithful generation)
    (nextGeneration : Nat) (status : Status) :
    { s with
      published, nextGeneration, status, building := false, worker := .waiting
      maintenance := some { round.maintenance with cursor := batch.next } }.Inv := by
  constructor
  · constructor
    · exact core.valid
    · exact core.captured
    · rintro generation (isPublished | isServed)
      · obtain ⟨drawn, past, same⟩ := (fits generation isPublished).2
        exact ⟨drawn, past, same⟩
      · obtain ⟨drawn, past, same⟩ := core.faithful generation (.inr isServed)
        exact ⟨drawn, past, same⟩
    · exact core.served
    · intro isNone
      cases isNone
    · intro maintenance isSome
      cases isSome
      refine ⟨⟨reading.reached, ?_⟩, ?_⟩
      · intro generation isPublished
        dsimp only
        rw [(fits generation isPublished).1]
        exact covered
      · dsimp only
        rw [reading.epoch]
        exact (core.maintained _ reading.maintenance).2
    · exact core.short
    · intro waits
      exact absurd reading.queue waits
  · trivial

/-- Without the complete source the last certificate is the target. -/
theorem usable_target {certificate : Stamp} (usable : usable round (some certificate) = true)
    (strict : round.maintenance.sourceVisibilityComplete = false) : certificate = round.target := by
  unfold System.usable compatible completeProgress at usable
  simp only [strict, Bool.false_and, Bool.or_false, decide_eq_true_eq] at usable
  exact usable

theorem Core.publishRound {final : Option Stamp} {head : Cursor} (core : s.Core)
    (at_ : s.At (.publishing round batch final head)) :
    (s.publishRound round batch final head).Inv := by
  obtain ⟨reading, covered, closed⟩ := at_
  have faithful := core.faithful _ (.inl reading.published)
  have previous : ∀ generation, s.published = some generation →
      generation.graph = round.previous.graph ∧ s.Faithful generation := by
    intro generation isPublished
    cases reading.published.symm.trans isPublished
    exact ⟨rfl, faithful⟩
  unfold System.publishRound
  dsimp only
  split
  next => exact core.rest s.status false
  next =>
    split
    next certificate =>
      split
      next whole =>
        obtain ⟨-, isUsable, head⟩ := whole
        obtain ⟨past, same⟩ := closed certificate rfl
        have own : (if round.maintenance.sourceVisibilityComplete then certificate
            else round.target) = certificate := by
          split
          next => rfl
          next strict => exact (usable_target isUsable ((Bool.not_eq_true _).mp strict)).symm
        rw [own]
        refine core.advance reading covered _ ?_ _ _
        intro generation isNew
        cases isNew
        exact ⟨rfl, faithful.drawn, past, same head⟩
      next => exact core.advance reading covered s.published previous s.nextGeneration _
    next => exact core.advance reading covered s.published previous s.nextGeneration _

/-! ## A build -/

theorem Core.startBuild (core : s.Core) (taken : s.startBuild = some t)
    (waiting : s.worker = .waiting) : t.Inv := by
  unfold System.startBuild at taken
  split at taken
  next => cases taken
  next job rest queue =>
    obtain ⟨none, unmaintained⟩ := core.queued (by rw [queue]; exact List.cons_ne_nil _ _)
    have empty : rest = [] := by
      have short := core.short
      rw [queue, List.length_cons] at short
      exact List.length_eq_zero_iff.mp (by omega)
    -- The queue is short, and nothing is published while a job waits.
    have core : { s with queue := rest }.Core := by
      obtain ⟨valid, captured, faithful, served, anchored, maintained, -, -⟩ := core
      refine ⟨valid, captured, fun generation known => ?_, served, fun _ anchor member => ?_, ?_, ?_, ?_⟩
      · obtain ⟨drawn, past, same⟩ := faithful generation known
        exact ⟨drawn, past, same⟩
      · obtain ⟨reached, tracks⟩ := anchored unmaintained anchor member
        exact ⟨reached, tracks⟩
      · intro maintenance isSome
        cases unmaintained.symm.trans isSome
      · rw [empty]
        exact Nat.zero_le 1
      · exact fun waits => absurd empty waits
    split at taken
    next => cases taken
    next =>
      split at taken
      next =>
        cases taken
        refine ⟨core, ?_⟩
        dsimp only
        rw [waiting]
        trivial
      next =>
        cases taken
        exact ⟨core.frame _ s.revision s.nextGeneration s.stopped true _, rfl, none, unmaintained,
          empty⟩

theorem Core.complete {job : Job} {pinned : Stamp} {staged : Id → Option Record}
    {scanned : List Id} (core : s.Core) (at_ : s.At (.scanning job pinned staged scanned))
    (whole : s.source.Current pinned → ∀ id, id ∉ scanned → s.source.records id = none) :
    s.At (.finishing job pinned staged s.source.certificate s.captured) := by
  obtain ⟨constructing, past, inside, outside⟩ := at_
  refine ⟨constructing, fun certificate found fits => ?_⟩
  obtain ⟨idle, root, collection⟩ := Source.certificate_eq_some found
  -- A certificate that fits is of the revisions that were pinned.
  have current : s.source.Current pinned := by
    have same := @accepts_source ⟨0, pinned, 0, job.sourceVisibilityComplete⟩ certificate fits
    exact ⟨same.1.symm.trans root, same.2.symm.trans collection⟩
  have same : staged = s.source.records := by
    funext id
    by_cases member : id ∈ scanned
    · exact inside current id member
    · rw [outside id member, whole current id member]
  refine ⟨Source.past_certificate found, fun _ => same, fun anchor member => ?_⟩
  exact ⟨core.captured anchor member, fun id => .inl (congrFun same id)⟩

theorem Core.publishBuild {job : Job} {pinned : Stamp} {staged : Id → Option Record}
    {completed : Option Stamp} {anchors : List Cursor} (core : s.Core)
    (at_ : s.At (.finishing job pinned staged completed anchors)) :
    (s.publishBuild job pinned staged completed anchors).Inv := by
  obtain ⟨constructing, closed⟩ := at_
  unfold System.publishBuild
  dsimp only
  split
  next certificate =>
    split
    next => exact core.rest _ false
    next still =>
      rw [not_or, Bool.not_eq_false] at still
      obtain ⟨past, same, anchored⟩ := closed certificate rfl still.1
      obtain ⟨building, none, unmaintained, queue⟩ := constructing
      constructor
      · constructor
        · exact core.valid
        · exact core.captured
        · rintro generation (isNew | isServed)
          · cases isNew
            refine ⟨Nat.lt_succ_self _, past, fun current => ?_⟩
            dsimp only
            rw [Function.update_self]
            exact same current
          · obtain ⟨drawn, past, same⟩ := core.faithful generation (.inr isServed)
            refine ⟨drawn.trans (Nat.lt_succ_self _), past, fun current => ?_⟩
            dsimp only
            rw [Function.update_of_ne drawn.ne]
            exact same current
        · exact core.served
        · intro _ anchor member
          obtain ⟨reached, tracks⟩ := anchored anchor member
          refine ⟨reached, fun generation isNew => ?_⟩
          cases isNew
          dsimp only
          rw [Function.update_self]
          exact tracks
        · intro maintenance isSome
          cases unmaintained.symm.trans isSome
        · exact core.short
        · exact fun waits => absurd queue waits
      · trivial
  next => exact core.rest _ false

/-! ## Every step -/

theorem Inv.work [DecidableEq Id] (inv : s.Inv) (promised : Promised s .work) (taken : s.work = some t) : t.Inv := by
  obtain ⟨core, at_⟩ := inv
  unfold Promised WholeScan at promised
  unfold System.work at taken
  generalize s.worker = place at at_ taken promised
  cases place with
  | waiting => cases taken
  | chosen maintenance previous revision =>
    dsimp only at taken
    split at taken
    next =>
      cases taken
      exact core.rest s.status s.building
    next target found =>
      cases taken
      exact core.goto ⟨at_, core.newest found⟩
  | targeted round =>
    dsimp only at taken
    split at taken
    next =>
      cases taken
      exact core.rest s.status s.building
    next =>
      cases taken
      exact core.goto at_
  | admitted round =>
    cases taken
    exact core.admitRound at_
  | reading round =>
    cases taken
    exact core.readBatch at_
  | resolving round batch rest resolved =>
    cases rest with
    | nil =>
      dsimp only at taken
      split at taken
      next =>
        cases taken
        exact core.goto ⟨at_.1, at_.2.1, fun id => (at_.2.2 id).resolve_left nofun⟩
      next =>
        cases taken
        exact core.rest s.status false
    | cons change rest =>
      dsimp only at taken
      split at taken
      next seen =>
        cases taken
        exact core.goto (at_.skip seen)
      next =>
        cases taken
        exact core.goto at_.resolve
  | updating round batch rest =>
    cases rest with
    | nil =>
      cases taken
      refine core.goto ⟨at_.1, fun id => (at_.2.2 id).resolve_left nofun, ?_⟩
      exact fun certificate found => Source.past_certificate found
    | cons pair rest =>
      cases taken
      exact core.update at_
  | measuring round batch final =>
    cases taken
    exact core.goto (at_.measure core)
  | publishing round batch final head =>
    cases taken
    exact core.publishRound at_
  | starting job =>
    dsimp only at taken
    split at taken
    next =>
      cases taken
      exact core.rest _ false
    next pinned found =>
      cases taken
      exact core.goto ⟨at_, Source.past_certificate found, nofun, fun _ _ => rfl⟩
  | scanning job pinned staged scanned =>
    cases taken
    exact core.goto (core.complete at_ promised)
  | finishing job pinned staged completed anchors =>
    cases taken
    exact core.publishBuild at_
  | notifying job =>
    cases taken
    exact core.rest s.status s.building

theorem Inv.withhold (inv : s.Inv) (taken : s.withhold = some t) : t.Inv := by
  obtain ⟨core, at_⟩ := inv
  unfold System.withhold at taken
  split at taken
  next =>
    cases taken
    exact core.rest s.status s.building
  next =>
    cases taken
    exact core.rest s.status false
  next round batch place =>
    cases taken
    rw [place] at at_
    exact core.goto ⟨at_.1, fun id => (at_.2.2 id).resolve_left nofun, nofun⟩
  next =>
    cases taken
    exact core.rest _ false
  next job pinned staged scanned place =>
    cases taken
    rw [place] at at_
    exact core.goto ⟨at_.1, nofun⟩
  next => cases taken

theorem Inv.abort {error : String} (inv : s.Inv) (taken : s.abort error = some t) : t.Inv := by
  unfold System.abort at taken
  split at taken
  all_goals
    cases taken
  · exact inv.toCore.rest _ s.building
  · exact inv.toCore.rest _ s.building
  all_goals exact inv.toCore.rest _ false

theorem Inv.exit (inv : s.Inv) (waiting : s.worker = .waiting) :
    { s with published := none, queue := [] }.Inv := by
  obtain ⟨⟨valid, captured, faithful, served, anchored, maintained, -, -⟩, -⟩ := inv
  constructor
  · refine ⟨valid, captured, ?_, served, ?_, ?_, Nat.zero_le 1, fun waits => absurd rfl waits⟩
    · rintro generation (isPublished | isServed)
      · cases isPublished
      · obtain ⟨drawn, past, same⟩ := faithful generation (.inr isServed)
        exact ⟨drawn, past, same⟩
    · exact fun none anchor member => ⟨(anchored none anchor member).reached, nofun⟩
    · intro maintenance some
      obtain ⟨⟨reached, -⟩, real⟩ := maintained maintenance some
      exact ⟨⟨reached, nofun⟩, real⟩
  · dsimp only
    rw [waiting]
    trivial

theorem inv_step [DecidableEq Id] {event : Event Id Record} (inv : s.Inv) (promised : Promised s event)
    (taken : s.step event = some t) : t.Inv := by
  cases event with
  | source event =>
    obtain ⟨source, moved, rfl⟩ := Option.map_eq_some_iff.mp taken
    exact inv.moved (Source.moves_step moved)
  | anchor =>
    cases taken
    exact inv.anchor
  | enqueue complete =>
    cases taken
    exact inv.enqueue complete
  | enable anchor maximumBatch complete =>
    cases taken
    exact inv.enable promised
  | invalidate =>
    cases taken
    exact inv.invalidate
  | close =>
    cases taken
    exact inv.close
  | acquire stamp =>
    simp only [step] at taken
    split at taken
    next =>
      cases taken
      exact inv
    next generation acquired =>
      cases taken
      exact inv.acquire acquired
  | maintain =>
    simp only [step] at taken
    split at taken
    next =>
      unfold startMaintenance at taken
      split at taken
      next maintenance published isMaintenance isPublished =>
        split at taken
        next => cases taken
        next =>
          cases taken
          exact inv.toCore.goto (.inl ⟨isPublished, isMaintenance⟩)
      next => cases taken
    next => cases taken
  | build =>
    simp only [step] at taken
    split at taken
    next waiting => exact inv.toCore.startBuild taken waiting
    next => cases taken
  | exit =>
    simp only [step] at taken
    split at taken
    next waiting =>
      split at taken
      next =>
        cases taken
        exact inv.exit waiting
      next => cases taken
    next => cases taken
  | emit id =>
    simp only [step] at taken
    split at taken
    next job pinned staged scanned place =>
      cases taken
      obtain ⟨core, at_⟩ := inv
      rw [place] at at_
      obtain ⟨constructing, past, inside, outside⟩ := at_
      refine core.goto ⟨constructing, past, fun current other member => ?_, fun other member => ?_⟩
      · by_cases same : other = id
        · rw [same, Function.update_self]
        · rw [Function.update_of_ne same]
          exact inside current other ((List.mem_cons.mp member).resolve_left same)
      · obtain ⟨ne, notScanned⟩ := not_or.mp (fun either => member (List.mem_cons.mpr either))
        rw [Function.update_of_ne ne]
        exact outside other notScanned
    next => cases taken
  | work => exact inv.work promised taken
  | withhold => exact inv.withhold taken
  | abort error => exact inv.abort taken
  | sourceChanged =>
    simp only [step] at taken
    split at taken
    next =>
      split at taken
      next => cases taken
      next =>
        cases taken
        exact inv.toCore.rest _ false
    next => cases taken

theorem inv_initial (records : Id → Option Record) (capacity : Nat) :
    (System.initial records capacity).Inv := by
  refine ⟨⟨?_, nofun, ?_, nofun, nofun, nofun, Nat.zero_le 1, fun waits => absurd rfl waits⟩, trivial⟩
  · exact ⟨⟨le_rfl, nofun, nofun, .nil, Nat.lt_succ_self 1⟩, .inl rfl⟩
  · rintro generation (isPublished | ⟨stamp, member⟩)
    · cases isPublished
    · cases member

end System

/-- A generation that was acquired with the certificate that is still current has the
map of the source for its graph. -/
theorem served_generation_current [DecidableEq Id] {records : Id → Option Record} {capacity : Nat}
    {s : System Id Record} {certificate : Stamp} {generation : Generation}
    (reached : Reach System.step Promised (System.initial records capacity) s)
    (served : (certificate, generation) ∈ s.served)
    (current : s.source.certificate = some certificate) :
    s.graphs generation.graph = s.source.records := by
  have inv : s.Inv := reached.invariant (System.inv_initial records capacity) System.inv_step
  obtain ⟨root, collection⟩ := inv.served certificate generation served
  obtain ⟨-, isRoot, isCollection⟩ := Source.certificate_eq_some current
  exact (inv.faithful generation (.inr ⟨certificate, served⟩)).same
    ⟨root.symm.trans isRoot, collection.symm.trans isCollection⟩

/-- A build of one record, an edit, a round of maintenance and a reader. -/
def servedEvents : List (Event Bool Nat) :=
  [.anchor, .enqueue true, .build, .work, .emit false, .work, .work, .enable ⟨1, 0⟩ 8 true, .work,
    .source (.begin false), .source (.edit 0 true (some 20)), .source (.append 0 true 0 true),
    .source (.finish 0), .maintain, .work, .work, .work, .work, .work, .work, .work, .work, .work,
    .work, .acquire ⟨0, 2, 0, 0⟩]

def servedStart : System Bool Nat := System.initial (fun id => bif id then none else some 10) 4

theorem edited_generation_served : ∃ s, Reach System.step Promised servedStart s ∧
    s.served = [(⟨0, 2, 0, 0⟩, ⟨2, ⟨0, 2, 0, 0⟩, 0, true⟩)] ∧ s.source.records true = some 20 ∧
      s.graphs 0 = s.source.records := by
  have summary : (run System.step servedStart servedEvents).map (fun s =>
      (s.served, s.source.certificate, s.source.records true)) =
        some ([(⟨0, 2, 0, 0⟩, ⟨2, ⟨0, 2, 0, 0⟩, 0, true⟩)], some ⟨0, 2, 0, 0⟩, some 20) := rfl
  obtain ⟨s, runs, found⟩ := Option.map_eq_some_iff.mp summary
  simp only [Prod.mk.injEq] at found
  obtain ⟨served, certificate, edited⟩ := found
  have reached : Reach System.step Promised servedStart s := .of_runAllowed .refl (by decide) runs
  have member : (⟨0, 2, 0, 0⟩, ⟨2, ⟨0, 2, 0, 0⟩, 0, true⟩) ∈ s.served := by
    rw [served]
    exact List.mem_singleton_self _
  exact ⟨s, reached, served, edited, served_generation_current reached member certificate⟩

end PacificDb.Vector
