import PacificDb.Engine.Stamp
import PacificDb.Lib.ReadModifyWrite
import PacificDb.Raft.CommitOrder

/-!
# Concurrent updates

`DatabaseEngine::updateOne` reads a document, applies the update to its copy, stamps
the result and writes the whole of it: through the log when Raft is enabled, else
straight to the collection. The calls share a schema lease that keeps none of them
out, and the write does not look at the row it replaces beyond its `version`. So of
two calls that read the same row the later write wins.

Nothing is lost when no call writes the document that another selects by its id, or any
document while another selects by something else, between the read and the write of the
other (`updates_sequential`): then the collection is that of the same calls one after the
other, and increments of a document add up.
-/

namespace PacificDb.Engine

open Lib Lsm Raft

/-! ## The call -/

/-- What the calls share. `matches_` is `DatabaseEngine::match` on a filter and a
document. -/
structure UpdateEnv where
  config : LsmConfig
  layout : SstLayout
  truncate : Nat → Int
  validate : Json → Option Thrown
  matches_ : Json → Json → Bool

structure UpdateCall where
  userId : String
  filter : Json
  update : Json

/-- What a call finds at its read: the version counter, the clock and the floor of its read
context, negative when there is none. -/
structure ReadTime where
  counter : Nat
  nowMs : Int
  readFloorVersion : Int := -1

/-- What it finds at its write: the position of its entry and the commit index when the
entry is applied, or the clock and the state of the WAL segment. -/
structure WriteTime where
  index : Nat := 0
  term : Nat := 0
  commitIndex : Nat := 0
  time : Nat := 0
  rollover : Bool := false

/-- The collection on the leader, with `getCommitIndex()`. -/
structure LeaderState where
  collection : Collection
  commitIndex : Nat := 0

def isTenantDocumentVisible (userId : String) (doc : Json) : Bool :=
  match doc.field? "tenant_id" with
  | none => true
  | some (.string tenant) => tenant == userId
  | some _ => false

/-- The part of `documentVisibleForCurrentRead` that asks the Raft core. -/
def readableByCommitIndex (view : RaftView) (doc : Json) (commitIndex : Nat) : Bool :=
  let pending := match doc.field? "_visibility_state" with
    | some (.string state) => state == "PENDING"
    | _ => false
  let uncommitted := match doc.field? "committed" with
    | some (.bool committed) => !committed
    | _ => false
  if pending || uncommitted then false
  else if view.standaloneBypass then true
  else
    match (doc.field? "_raft_commit_index").bind Json.asUInt64? with
    | none => false
    | some docCommit =>
        let visibilityFloor := ((doc.field? "_visibility_floor").bind Json.asUInt64?).getD docCommit
        decide (docCommit ≤ commitIndex) && decide (visibilityFloor ≤ commitIndex)

def documentVisibleForCurrentRead (view : RaftView) (readFloorVersion : Int) (doc : Json)
    (commitIndex : Nat) : Bool :=
  doc.isObject && !isDeletedDoc doc &&
    (!view.enabled || readableByCommitIndex view doc commitIndex) &&
      match parseVersion doc with
      | some docVersion => decide (readFloorVersion < 0 ∨ readFloorVersion ≤ docVersion)
      | none => true

/-- The plain `id` of a filter. -/
def wantedId (env : UpdateEnv) (filter : Json) : Option String :=
  match filter.field? "id" with
  | none | some (.object _) | some (.array _) => none
  | some id => some (idText env.config id)

/-- The rows a call looks at: one row for a filter with a plain `id`, else all. -/
def updateCandidates (env : UpdateEnv) (filter : Json) (s : LeaderState) : Except String (List Json) :=
  match wantedId env filter with
  | none => readAllCollectionRows env.config s.collection s.commitIndex
  | some id => (findByField env.layout env.config s.collection s.commitIndex id).map (List.take 1)

def updatable (env : UpdateEnv) (call : UpdateCall) (readFloorVersion : Int) (commitIndex : Nat)
    (doc : Json) : Bool :=
  !isDeletedDoc doc && isTenantDocumentVisible call.userId doc &&
    documentVisibleForCurrentRead env.config.raft readFloorVersion doc commitIndex &&
      env.matches_ call.filter doc

/-- The document that an update makes of a row. -/
def updatedDocument (env : UpdateEnv) (call : UpdateCall) (time : ReadTime) (row : Json) :
    Option Json :=
  match updateDocument env.truncate call.userId call.update row with
  | .error _ => none
  | .ok doc =>
      match (stampMvccWrite env.truncate time.counter time.nowMs true doc).1 with
      | .error _ => none
      | .ok stamped =>
          if (env.validate stamped).isNone && (stamped.field? "id").isSome then some stamped else none

/-- `updateOne` up to its write: none when it returns false or throws. -/
def updateOneRead (env : UpdateEnv) (call : UpdateCall) (time : ReadTime) (s : LeaderState) :
    Option Json :=
  match updateCandidates env call.filter s with
  | .error _ => none
  | .ok docs => (docs.find? (updatable env call time.readFloorVersion s.commitIndex)).bind
      (updatedDocument env call time)

/-- What the guard of `applyReplicatedEntry` finds; a failed look-up finds nothing. -/
def guardRows (env : UpdateEnv) (doc : Json) (commitIndex : Nat) (s : Collection) : List Json :=
  match doc.field? "id" with
  | some (.string id) =>
      match findByField env.layout env.config s commitIndex id with
      | .ok rows => rows
      | .error _ => []
  | _ => []

/-- The write of `updateOne`: none when it throws. A committed entry is applied at a commit
index that has reached it. -/
def updateOneWrite (env : UpdateEnv) (time : WriteTime) (doc : Json) (s : LeaderState) :
    Option LeaderState :=
  if env.config.raft.enabled then
    if time.index ≤ time.commitIndex ∧ s.commitIndex ≤ time.commitIndex then
      match applyReplicatedEntry env.config time.index time.term ⟨time.term, .update, doc⟩
        time.commitIndex time.time (guardRows env doc time.commitIndex s.collection) {}
        s.collection with
      | (applied, true) => some ⟨applied, time.commitIndex⟩
      | (_, false) => none
    else none
  else (Lsm.step env.config s.collection (.put doc s.commitIndex time.time time.rollover)).map
    fun stored => { s with collection := stored }

/-- The calls of a set. -/
def updateOne {ι : Type} (env : UpdateEnv) (calls : ι → UpdateCall) :
    Calls LeaderState Json ι ReadTime WriteTime where
  read := fun i time s => updateOneRead env (calls i) time s
  write := fun _ time doc s => updateOneWrite env time doc s

/-- The call selects by an id, and the document has another one. -/
def Spares {ι : Type} (env : UpdateEnv) (calls : ι → UpdateCall) (doc : Json) (other : ι) : Prop :=
  ∃ wanted ∈ wantedId env (calls other).filter, docId? env.config.dump doc ≠ some wanted

instance {ι : Type} (env : UpdateEnv) (calls : ι → UpdateCall) (doc : Json) (other : ι) :
    Decidable (Spares env calls doc other) :=
  inferInstanceAs (Decidable (∃ wanted ∈ wantedId env (calls other).filter,
    docId? env.config.dump doc ≠ some wanted))

/-! ## Increments -/

/-- `{"$inc": {field: 1}}`. -/
def increment (field : String) : Json := .object [("$inc", .object [(field, .unsigned 1)])]

/-- The number that `$inc` starts from. -/
def numberOf (truncate : Nat → Int) : Option Json → Int
  | some (.unsigned value) => Json.wrapInt64 value
  | some (.integer value) => Json.wrapInt64 value
  | some (.float bits) => Json.wrapInt64 (truncate bits)
  | _ => 0

/-- The members that the engine sets or reads itself. -/
def engineFields : List String :=
  ["id", "tenant_id", "_deleted", "_raft_commit_index", "_raft_term", "_visibility_floor",
    "committed", "_visibility_state"] ++ stampFields

/-- The row that a look-up of the id finds. -/
def lookUp (env : UpdateEnv) (s : LeaderState) (id : String) : Option Json :=
  match findByField env.layout env.config s.collection s.commitIndex id with
  | .ok rows => rows.head?
  | .error _ => none

/-- No row of the id waits for a later commit index. -/
structure SettledRows (env : UpdateEnv) (s : LeaderState) (id : String) : Prop where
  active : ∀ later, s.commitIndex ≤ later →
    s.collection.activeHit env.config later id = s.collection.activeHit env.config s.commitIndex id
  immutable : ∀ later, s.commitIndex ≤ later →
    s.collection.newestHit env.config later id = s.collection.newestHit env.config s.commitIndex id
  sst : ∀ later, s.commitIndex ≤ later →
    s.collection.sstFound env.layout env.config later id =
      s.collection.sstFound env.layout env.config s.commitIndex id

/-- A row that an engine write stamped for the id. -/
structure EngineRow (id : String) (version : Nat) (row : Json) : Prop where
  keyed : row.field? "id" = some (.string id)
  versioned : row.field? "_mvcc_version" = some (.unsigned version)

variable {env : UpdateEnv} {s t : LeaderState} {id field : String} {row doc : Json} {version : Nat}

theorem EngineRow.isObject (stamped : EngineRow id version row) : row.isObject = true := by
  have keyed := stamped.keyed
  cases row with
  | object members => rfl
  | _ => cases keyed

theorem incMember_one {truncate : Nat → Int} (object : doc.isObject = true) :
    incMember truncate doc (field, .unsigned 1) = .ok (doc.set field
      (.integer (Json.wrapInt64 (numberOf truncate (doc.field? field) + 1)))) := by
  have assigns : ∀ value, assign doc field value = .ok (doc.set field value) := by
    intro value
    cases doc with
    | object members => rfl
    | _ => cases object
  unfold incMember
  dsimp only [getInt64]
  cases doc.field? field with
  | none => exact assigns _
  | some value =>
    cases value <;> exact assigns _

/-- The document before the stamp. -/
theorem updateDocument_increment {truncate : Nat → Int} {userId : String}
    (object : row.isObject = true) :
    updateDocument truncate userId (increment field) row = .ok ((row.set field
      (.integer (Json.wrapInt64 (numberOf truncate (row.field? field) + 1)))).set
        "tenant_id" (.string userId)) := by
  have effective : effectiveUpdate (increment field) = increment field := by
    simp [effectiveUpdate, increment, items]
  have applied : applyUpdateOps truncate row (increment field) = .ok (row.set field
      (.integer (Json.wrapInt64 (numberOf truncate (row.field? field) + 1)))) := by
    change (incMember truncate row (field, .unsigned 1) >>= pure) = _
    rw [bind_pure, incMember_one object]
  unfold updateDocument
  rw [effective, applied]
  cases row with
  | object members => rfl
  | _ => cases object

/-- What an increment makes of a row. -/
structure Incremented (truncate : Nat → Int) (field : String) (row doc : Json) : Prop where
  counted : doc.field? field =
    some (.integer (Json.wrapInt64 (numberOf truncate (row.field? field) + 1)))
  kept : ∀ name, name ∉ field :: "tenant_id" :: stampFields → doc.field? name = row.field? name
  version : (row.field? "version").isSome = true → doc.field? "version" = row.field? "version"

theorem updatedDocument_increment {call : UpdateCall} {time : ReadTime}
    (stamped : EngineRow id version row) (fits : version < 2 ^ 64)
    (increments : call.update = increment field) (other : field ∉ engineFields)
    (made : updatedDocument env call time row = some doc) :
    EngineRow id (max time.counter (version + 1)) doc ∧
      Incremented env.truncate field row doc := by
  have object := stamped.isObject
  unfold engineFields at other
  simp only [List.mem_append, List.mem_cons, List.not_mem_nil, or_false, not_or] at other
  obtain ⟨⟨notId, notTenant, -⟩, noStamp⟩ := other
  have notVersion : field ≠ "_mvcc_version" := by
    rintro rfl
    exact noStamp (by decide)
  have notOwn : field ≠ "version" := by
    rintro rfl
    exact noStamp (by decide)
  unfold updatedDocument at made
  rw [increments, updateDocument_increment object] at made
  dsimp only at made
  split at made
  · cases made
  next ready stamps =>
    split at made
    · cases made
      have before : ∀ name, name ≠ field → name ≠ "tenant_id" → ((row.set field
          (.integer (Json.wrapInt64 (numberOf env.truncate (row.field? field) + 1)))).set
            "tenant_id" (.string call.userId)).field? name = row.field? name := by
        intro name notField notTenant
        rw [Json.field?_set_ne notTenant, Json.field?_set_ne notField]
      have writes := stampMvccWrite_ok (by simp [object]) (Prod.ext stamps rfl)
      have drawn : previousMvccVersion ((row.set field
          (.integer (Json.wrapInt64 (numberOf env.truncate (row.field? field) + 1)))).set
            "tenant_id" (.string call.userId)) = version := by
        unfold previousMvccVersion
        rw [before _ notVersion.symm (by decide), stamped.versioned]
        exact wrapUInt64_of_lt fits
      refine ⟨⟨?_, ?_⟩, ⟨?_, ?_, ?_⟩⟩
      · rw [writes.kept _ (by decide), before _ (Ne.symm notId) (by decide), stamped.keyed]
      · rw [writes.version, drawn]
      · rw [writes.kept _ noStamp, Json.field?_set_ne notTenant, Json.field?_set_self object]
      · intro name apart
        simp only [List.mem_cons, not_or] at apart
        rw [writes.kept name apart.2.2, before name apart.1 apart.2.1]
      · intro own
        have same := before "version" notOwn.symm (by decide)
        rw [field?_version_stampMvccWrite (by rw [same, own]) (Prod.ext stamps rfl), same]
    · cases made

/-! ## The look-up after a write -/

theorem lookUp_eq_some (found : lookUp env s id = some row) :
    findByField env.layout env.config s.collection s.commitIndex id = .ok [row] ∧
      isDeletedDoc row = false ∧
      ∃ sst, s.collection.sstFound env.layout env.config s.commitIndex id = .ok sst ∧
        latest docScore sst (latest docScore (s.collection.activeHit env.config s.commitIndex id)
          (s.collection.newestHit env.config s.commitIndex id)) = some row := by
  unfold lookUp at found
  rw [findByField_latest] at found ⊢
  cases scanned : s.collection.sstFound env.layout env.config s.commitIndex id with
  | error reason =>
    rw [scanned] at found
    cases found
  | ok sst =>
    rw [scanned] at found
    dsimp only [Except.map] at found ⊢
    rw [Option.head?_toList] at found
    rw [found]
    obtain ⟨best, alive⟩ := Option.filter_eq_some_iff.mp found
    exact ⟨rfl, by simpa using alive, sst, rfl, best⟩

/-- A settled look-up finds the same row at every later commit index. -/
theorem SettledRows.findByField_later (settled : SettledRows env s id)
    (found : lookUp env s id = some row) {later : Nat} (order : s.commitIndex ≤ later) :
    findByField env.layout env.config s.collection later id = .ok [row] := by
  rw [findByField_latest, settled.active later order, settled.immutable later order,
    settled.sst later order, ← findByField_latest]
  exact (lookUp_eq_some found).1

theorem newestHit_congr (immutables : t.collection.immutables = s.collection.immutables) (later : Nat)
    (id : String) :
    t.collection.newestHit env.config later id = s.collection.newestHit env.config later id := by
  unfold Collection.newestHit Collection.immutableHits
  rw [immutables]

theorem sstFound_congr (dir : t.collection.dir = s.collection.dir) (later : Nat) (id : String) :
    t.collection.sstFound env.layout env.config later id =
      s.collection.sstFound env.layout env.config later id := by
  have seeks : t.collection.latestFound env.layout env.config later id =
      s.collection.latestFound env.layout env.config later id := by
    funext best name
    unfold Collection.latestFound seekDocInSSTById
    rw [dir]
  unfold Collection.sstFound
  rw [dir, seeks]

/-- After a row of a greater score is put into the memtable, the look-up finds it. -/
theorem lookUp_put {stored : Json} (settled : SettledRows env s id)
    (found : lookUp env s id = some row) (immutables : t.collection.immutables = s.collection.immutables)
    (dir : t.collection.dir = s.collection.dir) (order : s.commitIndex ≤ t.commitIndex)
    (held : t.collection.memtable.lookup id = some stored)
    (visible : Collection.visibleDoc env.config t.commitIndex stored = true)
    (alive : isDeletedDoc stored = false) (newer : docScore row < docScore stored) :
    lookUp env t id = some stored ∧ SettledRows env t id := by
  have active : ∀ later, t.commitIndex ≤ later →
      t.collection.activeHit env.config later id = some stored := by
    intro later behind
    rw [Collection.activeHit, held, Option.filter_some, if_pos]
    exact docVisibleByCommitIndex_mono behind visible
  have newest := fun later => @newestHit_congr env s t immutables later id
  have scanned := fun later => @sstFound_congr env s t dir later id
  constructor
  · obtain ⟨-, -, sst, isSst, best⟩ := lookUp_eq_some found
    have scores : max (optScore docScore sst) (max
        (optScore docScore (s.collection.activeHit env.config s.commitIndex id))
        (optScore docScore (s.collection.newestHit env.config s.commitIndex id))) =
          (docScore row : WithBot (WithBot Int)) := by
      rw [← optScore_latest, ← optScore_latest, best]
      rfl
    have above : (docScore row : WithBot (WithBot Int)) < optScore docScore (some stored) :=
      WithBot.coe_lt_coe.mpr newer
    have sstBelow : optScore docScore sst ≤ optScore docScore (some stored) := by
      apply le_of_lt
      apply lt_of_le_of_lt _ above
      rw [← scores]
      exact le_max_left _ _
    have newestBelow : ¬ optScore docScore (some stored) ≤
        optScore docScore (s.collection.newestHit env.config s.commitIndex id) := by
      apply not_le_of_gt
      apply lt_of_le_of_lt _ above
      rw [← scores]
      exact (le_max_right _ _).trans (le_max_right _ _)
    have chosen : latest docScore sst (latest docScore (some stored)
        (s.collection.newestHit env.config s.commitIndex id)) = some stored := by
      rw [latest_eq_ite (some stored), if_neg newestBelow, latest_eq_ite, if_pos sstBelow]
    unfold lookUp
    rw [findByField_latest, scanned, settled.sst _ order, isSst, active _ le_rfl, newest,
      settled.immutable _ order]
    dsimp only [Except.map]
    rw [chosen, shown, Option.filter_some, alive]
    rfl
  · refine ⟨?_, ?_, ?_⟩
    · intro later behind
      rw [active later behind, active _ le_rfl]
    · intro later behind
      rw [newest, newest, settled.immutable later (order.trans behind),
        settled.immutable _ order]
    · intro later behind
      rw [scanned, scanned, settled.sst later (order.trans behind), settled.sst _ order]

theorem visible_foldlM_latestFound {names : List String} {commitIndex : Nat} {best found : Option Json}
    (visible : ∀ doc ∈ best, Collection.visibleDoc env.config commitIndex doc = true)
    (scanned : names.foldlM (s.collection.latestFound env.layout env.config commitIndex id) best =
      .ok found) : ∀ doc ∈ found, Collection.visibleDoc env.config commitIndex doc = true := by
  induction names generalizing best with
  | nil =>
    cases scanned
    exact visible
  | cons name names ih =>
    rw [List.foldlM_cons, bind_eq_ok] at scanned
    obtain ⟨next, seeks, scanned⟩ := scanned
    refine ih ?_ scanned
    unfold Collection.latestFound at seeks
    split at seeks
    · cases seeks
    · cases seeks
      exact visible
    next row _ =>
      split at seeks
      · cases seeks
        exact visible
      next hidden =>
        have shows : Collection.visibleDoc env.config commitIndex row = true := by
          simpa using hidden
        split at seeks
        · cases seeks
          rintro doc ⟨⟩
          exact shows
        next current =>
          cases seeks
          split
          · rintro doc ⟨⟩
            exact shows
          · exact visible

/-- The row of a look-up is visible. -/
theorem visible_of_lookUp (found : lookUp env s id = some row) :
    Collection.visibleDoc env.config s.commitIndex row = true := by
  obtain ⟨-, -, sst, scanned, best⟩ := lookUp_eq_some found
  rcases mem_latest best with isSst | memory
  · unfold Collection.sstFound at scanned
    split at scanned
    · cases scanned
    · exact visible_foldlM_latestFound (by rintro doc ⟨⟩) scanned row isSst
  · rcases mem_latest memory with active | newest
    · exact (Option.filter_eq_some_iff.mp active).2
    · exact (Option.filter_eq_some_iff.mp newest).2

/-! ## The write -/

section Write

variable {writeTime : WriteTime} {name : String}

/-- The members that carry the commit metadata. -/
def metadataFields : List String :=
  ["_raft_commit_index", "_raft_term", "_visibility_floor", "committed", "_visibility_state"]

theorem field?_putDocument_string {config : LsmConfig} {commitIndex : Nat} {name : String}
    (keyed : doc.field? "id" = some (.string id)) (other : name ∉ metadataFields) :
    (putDocument config commitIndex doc).field? name = doc.field? name := by
  have stamped : ∀ name, name ∉ metadataFields →
      (stampVisibilityMetadata config.raft doc commitIndex).field? name = doc.field? name := by
    intro name other
    apply field?_stampVisibilityMetadata
    simp only [metadataFields, List.mem_cons, List.not_mem_nil, or_false, not_or] at other ⊢
    exact ⟨other.2.2.2.2, other.2.2.2.1, other.1, other.2.2.1⟩
  have isId : docId? config.dump (stampVisibilityMetadata config.raft doc commitIndex) = some id := by
    rw [docId?, stamped _ (by decide), keyed]
  unfold putDocument
  dsimp only
  rw [isId]
  dsimp only
  by_cases own : name = "id"
  · rw [own, Json.field?_set_self (isObject_of_docId? isId), keyed]
  · rw [Json.field?_set_ne own, stamped name other]

theorem field?_putDocument_ne {config : LsmConfig} {commitIndex : Nat} (notId : name ≠ "id")
    (other : name ∉ metadataFields) : (putDocument config commitIndex doc).field? name = doc.field? name := by
  have stamped : (stampVisibilityMetadata config.raft doc commitIndex).field? name = doc.field? name := by
    apply field?_stampVisibilityMetadata
    simp only [metadataFields, List.mem_cons, List.not_mem_nil, or_false, not_or] at other ⊢
    exact ⟨other.2.2.2.2, other.2.2.2.1, other.1, other.2.2.1⟩
  unfold putDocument
  dsimp only
  split
  · rw [Json.field?_set_ne notId, stamped]
  · exact stamped

theorem docId?_putDocument_eq {config : LsmConfig} {commitIndex : Nat} :
    docId? config.dump (putDocument config commitIndex doc) = docId? config.dump doc := by
  have stamped : docId? config.dump (stampVisibilityMetadata config.raft doc commitIndex) =
      docId? config.dump doc := by
    rw [docId?, docId?, field?_stampVisibilityMetadata (by decide)]
  unfold putDocument
  dsimp only
  split
  next id known => rw [docId?_set_id (isObject_of_docId? known), ← stamped, known]
  next => exact stamped

theorem field?_marked (other : name ∉ metadataFields) :
    (propagateCommitMetadata writeTime.index writeTime.term
      (markEntryCommittedVisible writeTime.index writeTime.term doc)).field? name = doc.field? name := by
  rw [propagateCommitMetadata, field?_setCommitMetadata other, markEntryCommittedVisible,
    field?_setCommitMetadata other]

/-- The row that a write puts into the memtable. -/
def storedDocument (env : UpdateEnv) (time : WriteTime) (s : LeaderState) (doc : Json) : Json :=
  if env.config.raft.enabled then
    putDocument env.config time.commitIndex (propagateCommitMetadata time.index time.term
      (markEntryCommittedVisible time.index time.term doc))
  else putDocument env.config s.commitIndex doc

/-- The stored row has the members of the document besides its id and metadata. -/
theorem field?_storedDocument (notId : name ≠ "id") (other : name ∉ metadataFields) :
    (storedDocument env writeTime s doc).field? name = doc.field? name := by
  unfold storedDocument
  split
  · rw [field?_putDocument_ne notId other, field?_marked other]
  · exact field?_putDocument_ne notId other

theorem docId?_storedDocument :
    docId? env.config.dump (storedDocument env writeTime s doc) = docId? env.config.dump doc := by
  unfold storedDocument
  split
  · rw [docId?_putDocument_eq, docId?, docId?, field?_marked (by decide)]
  · exact docId?_putDocument_eq

theorem field?_storedDocument_string (keyed : doc.field? "id" = some (.string id))
    (other : name ∉ metadataFields) : (storedDocument env writeTime s doc).field? name = doc.field? name := by
  by_cases own : name = "id"
  · rw [own, storedDocument]
    split
    next raft =>
      rw [field?_putDocument_string (by rw [field?_marked (by decide), keyed]) (by decide),
        field?_marked (by decide)]
    next => exact field?_putDocument_string keyed (by decide)
  · exact field?_storedDocument own other

/-- A write is skipped by the guard of the log, or puts the stored row into the memtable. -/
theorem updateOneWrite_some (wrote : updateOneWrite env writeTime doc s = some t) :
    t.commitIndex = (if env.config.raft.enabled then writeTime.commitIndex else s.commitIndex) ∧
    (env.config.raft.enabled = true →
      writeTime.index ≤ writeTime.commitIndex ∧ s.commitIndex ≤ writeTime.commitIndex) ∧
    if env.config.raft.enabled = true ∧
        staleWrite .update (markEntryCommittedVisible writeTime.index writeTime.term doc)
          (guardRows env doc writeTime.commitIndex s.collection) = true then
      t.collection = s.collection
    else
      t.collection.memtable = s.collection.memtable.insert
        (storageId env.config writeTime.time (storedDocument env writeTime s doc))
        (storedDocument env writeTime s doc) ∧
      t.collection.immutables = s.collection.immutables ∧ t.collection.dir = s.collection.dir := by
  unfold updateOneWrite at wrote
  cases raft : env.config.raft.enabled with
  | true =>
    rw [if_pos raft] at wrote
    split at wrote
    next reached =>
      rw [applyReplicatedEntry] at wrote
      dsimp only at wrote
      split at wrote
      next applied done =>
        cases wrote
        refine ⟨rfl, fun _ => reached, ?_⟩
        split at done
        next stale =>
          cases done
          rw [if_pos ⟨rfl, stale⟩]
        next fresh =>
          rw [if_neg fun both => fresh both.2]
          cases done
          rw [storedDocument, if_pos raft]
          exact ⟨rfl, rfl, rfl⟩
      next => cases wrote
    next => cases wrote
  | false =>
    rw [raft, if_neg Bool.false_ne_true] at wrote
    obtain ⟨collection, puts, rfl⟩ := Option.map_eq_some_iff.mp wrote
    refine ⟨by simp, nofun, ?_⟩
    rw [if_neg (by simp), storedDocument, raft, if_neg Bool.false_ne_true]
    rw [Lsm.step, Collection.write] at puts
    split at puts
    · cases puts
    · cases puts
      exact ⟨rfl, Collection.logRecord_immutables _ _ _, Collection.logRecord_dir _ _ _⟩

theorem commitIndex_le_of_write (wrote : updateOneWrite env writeTime doc s = some t) :
    s.commitIndex ≤ t.commitIndex := by
  obtain ⟨index, reached, -⟩ := updateOneWrite_some wrote
  rw [index]
  split
  next raft => exact (reached raft).2
  next => exact le_rfl

/-- Without Raft a stored document is hidden by a pending state and nothing else. -/
theorem visible_putDocument_iff {config : LsmConfig} {commitIndex : Nat} (raft : config.raft.enabled = false)
    (object : doc.isObject = true) :
    Collection.visibleDoc config commitIndex (putDocument config commitIndex doc) = true ↔
      doc.field? "_visibility_state" ≠ some (.string "PENDING") := by
  have stored : (putDocument config commitIndex doc).field? "_visibility_state" =
      (stampVisibilityMetadata config.raft doc commitIndex).field? "_visibility_state" := by
    unfold putDocument
    dsimp only
    split
    · exact Json.field?_set_ne (by decide)
    · rfl
  unfold Collection.visibleDoc docVisibleByCommitIndex
  rw [raft, isObject_putDocument, object, stored, stampVisibilityMetadata, raft, object]
  simp only [Bool.not_true, Bool.false_eq_true, if_false, Bool.not_false, if_true, Bool.true_and]
  cases own : doc.field? "_visibility_state" with
  | none =>
    rw [Option.isSome_none, if_neg Bool.false_ne_true, Json.field?_set_self object]
    refine iff_of_true ?_ fun pending => ?_
    · dsimp only
      split <;> decide
    · cases pending
  | some state =>
    rw [Option.isSome_some, if_pos rfl, own]
    cases state with
    | string text => simp
    | _ => simp

/-- The stored row of an update that is applied is visible, now and later, unless without
Raft it has a pending state. -/
theorem visible_stored (object : doc.isObject = true) (wrote : updateOneWrite env writeTime doc s = some t)
    {later : Nat} (order : t.commitIndex ≤ later) :
    Collection.visibleDoc env.config later (storedDocument env writeTime s doc) = true ↔
      (env.config.raft.enabled = false → doc.field? "_visibility_state" ≠ some (.string "PENDING")) := by
  obtain ⟨index, reached, -⟩ := updateOneWrite_some wrote
  cases raft : env.config.raft.enabled with
  | true =>
    rw [raft, if_pos rfl] at index
    let a : Application := ⟨writeTime.index, writeTime.term, ⟨writeTime.term, .update, doc⟩,
      writeTime.commitIndex, writeTime.time, []⟩
    have committed : a.Committed := ⟨.inr rfl, (reached raft).1⟩
    have stored : storedDocument env writeTime s doc = a.stored env.config := by
      rw [storedDocument, if_pos raft]
      rfl
    have isObject : (a.stored env.config).isObject = true := by
      rw [← stored, storedDocument, if_pos raft, isObject_putDocument, propagateCommitMetadata,
        isObject_setCommitMetadata, markEntryCommittedVisible, isObject_setCommitMetadata, object]
    rw [stored]
    have behind : a.index ≤ later := (reached raft).1.trans (index.symm.le.trans order)
    refine iff_of_true (Application.stored_visible committed isObject behind) fun disabled => ?_
    cases disabled
  | false =>
    have anyIndex : Collection.visibleDoc env.config later (putDocument env.config s.commitIndex doc) =
        Collection.visibleDoc env.config s.commitIndex (putDocument env.config s.commitIndex doc) := by
      unfold Collection.visibleDoc docVisibleByCommitIndex
      rw [raft]
      rfl
    rw [storedDocument, raft, if_neg Bool.false_ne_true, anyIndex, visible_putDocument_iff raft object]
    simp

/-- A write that was not skipped: the memtable holds the document under its id, and it is
visible. -/
structure Written (env : UpdateEnv) (s t : LeaderState) (id : String) (doc stored : Json) : Prop where
  held : t.collection.memtable.lookup id = some stored
  immutables : t.collection.immutables = s.collection.immutables
  dir : t.collection.dir = s.collection.dir
  order : s.commitIndex ≤ t.commitIndex
  visible : Collection.visibleDoc env.config t.commitIndex stored = true
  kept : ∀ name, name ∉ metadataFields → stored.field? name = doc.field? name

theorem written_of_fresh (keyed : doc.field? "id" = some (.string id))
    (fresh : env.config.raft.enabled = true →
      staleWrite .update (markEntryCommittedVisible writeTime.index writeTime.term doc)
        (guardRows env doc writeTime.commitIndex s.collection) = false)
    (shown : env.config.raft.enabled = false →
      doc.field? "_visibility_state" ≠ some (.string "PENDING"))
    (wrote : updateOneWrite env writeTime doc s = some t) :
    Written env s t id doc (storedDocument env writeTime s doc) := by
  have isId : docId? env.config.dump doc = some id := by rw [docId?, keyed]
  obtain ⟨index, reached, puts⟩ := updateOneWrite_some wrote
  rw [if_neg] at puts
  · obtain ⟨memtable, immutables, dir⟩ := puts
    refine ⟨?_, immutables, dir, ?_, ?_, fun name other => field?_storedDocument_string keyed other⟩
    · rw [memtable, storageId, docId?_storedDocument, isId]
      exact AList.lookup_insert _
    · exact commitIndex_le_of_write wrote
    · exact (visible_stored (isObject_of_docId? isId) wrote le_rfl).mpr shown
  · rintro ⟨raft, stale⟩
    rw [fresh raft] at stale
    cases stale

/-- What a write leaves: the layers behind the memtable, the rows of other ids, and of its
own id the row that was there or one whose visibility is decided. -/
structure WritesAt (env : UpdateEnv) (s t : LeaderState) (key : String) : Prop where
  immutables : t.collection.immutables = s.collection.immutables
  dir : t.collection.dir = s.collection.dir
  order : s.commitIndex ≤ t.commitIndex
  others : ∀ id, id ≠ key → t.collection.memtable.lookup id = s.collection.memtable.lookup id
  own : t.collection.memtable.lookup key = s.collection.memtable.lookup key ∨
    ∃ stored, t.collection.memtable.lookup key = some stored ∧
      ∀ later, t.commitIndex ≤ later → Collection.visibleDoc env.config later stored =
        Collection.visibleDoc env.config t.commitIndex stored

theorem writesAt {key : String} (isKey : docId? env.config.dump doc = some key)
    (wrote : updateOneWrite env writeTime doc s = some t) : WritesAt env s t key := by
  have order := commitIndex_le_of_write wrote
  obtain ⟨-, -, puts⟩ := updateOneWrite_some wrote
  split at puts
  · exact ⟨by rw [puts], by rw [puts], order, fun _ _ => by rw [puts], .inl (by rw [puts])⟩
  · obtain ⟨memtable, immutables, dir⟩ := puts
    rw [storageId, docId?_storedDocument, isKey, Option.getD_some] at memtable
    refine ⟨immutables, dir, order, fun id other => ?_, .inr ⟨storedDocument env writeTime s doc, ?_, ?_⟩⟩
    · rw [memtable, AList.lookup_insert_ne other]
    · rw [memtable, AList.lookup_insert]
    · intro later behind
      have object := isObject_of_docId? isKey
      rw [Bool.eq_iff_iff, visible_stored object wrote behind, visible_stored object wrote le_rfl]

end Write

/-! ## The rows of other ids -/

section Others

variable {key : String} {call : UpdateCall} {time : ReadTime}

/-- After a write still no row waits for a later commit index. -/
theorem WritesAt.settled (wrote : WritesAt env s t key) (settled : ∀ id, SettledRows env s id)
    (id : String) : SettledRows env t id := by
  refine ⟨fun later behind => ?_, fun later behind => ?_, fun later behind => ?_⟩
  · have before (now : Nat) (order : t.commitIndex ≤ now)
        (same : t.collection.memtable.lookup id = s.collection.memtable.lookup id) :
        t.collection.activeHit env.config now id =
          s.collection.activeHit env.config s.commitIndex id := by
      rw [← (settled id).active now (wrote.order.trans order), Collection.activeHit, same,
        ← Collection.activeHit]
    by_cases own : id = key
    · rcases wrote.own with same | ⟨stored, held, decided⟩
      · rw [← own] at same
        rw [before later behind same, before _ le_rfl same]
      · rw [← own] at held
        rw [Collection.activeHit, Collection.activeHit, held, Option.filter_some, Option.filter_some,
          decided later behind]
    · have same := wrote.others id own
      rw [before later behind same, before _ le_rfl same]
  · rw [newestHit_congr wrote.immutables, newestHit_congr wrote.immutables,
      (settled id).immutable later (wrote.order.trans behind), (settled id).immutable _ wrote.order]
  · rw [sstFound_congr wrote.dir, sstFound_congr wrote.dir,
      (settled id).sst later (wrote.order.trans behind), (settled id).sst _ wrote.order]

/-- A look-up of another id finds what it found. -/
theorem WritesAt.findByField (wrote : WritesAt env s t key) (settled : SettledRows env s id)
    (other : id ≠ key) : findByField env.layout env.config t.collection t.commitIndex id =
      findByField env.layout env.config s.collection s.commitIndex id := by
  have active : t.collection.activeHit env.config t.commitIndex id =
      s.collection.activeHit env.config s.commitIndex id := by
    rw [← settled.active _ wrote.order, Collection.activeHit, wrote.others id other, ← Collection.activeHit]
  rw [findByField_latest, findByField_latest, sstFound_congr wrote.dir, newestHit_congr wrote.immutables,
    active, settled.sst _ wrote.order, settled.immutable _ wrote.order]

theorem readableByCommitIndex_mono {view : RaftView} {early late : Nat} (order : early ≤ late)
    (readable : readableByCommitIndex view doc early = true) : readableByCommitIndex view doc late = true := by
  unfold readableByCommitIndex at readable ⊢
  dsimp only at readable ⊢
  split_ifs at readable ⊢ with hidden bypass
  · rfl
  · cases commit : (doc.field? "_raft_commit_index").bind Json.asUInt64? with
    | none =>
      rw [commit] at readable
      cases readable
    | some docCommit =>
      rw [commit] at readable
      simp only [Bool.and_eq_true, decide_eq_true_eq] at readable ⊢
      exact ⟨readable.1.trans order, readable.2.trans order⟩

theorem updatable_mono {floor : Int} {early late : Nat} (order : early ≤ late)
    (selected : updatable env call floor early doc = true) : updatable env call floor late doc = true := by
  unfold updatable documentVisibleForCurrentRead at selected ⊢
  simp only [Bool.and_eq_true, Bool.or_eq_true] at selected ⊢
  obtain ⟨⟨⟨alive, tenant⟩, ⟨object, readable⟩, floor⟩, matches_⟩ := selected
  exact ⟨⟨⟨alive, tenant⟩, ⟨object, readable.imp id (readableByCommitIndex_mono order)⟩, floor⟩, matches_⟩

/-- A call by another id that has read would read the same again. -/
theorem WritesAt.read (wrote : WritesAt env s t key) (settled : SettledRows env s id)
    (wanted : wantedId env call.filter = some id) (other : id ≠ key)
    (reads : updateOneRead env call time s = some doc) : updateOneRead env call time t = some doc := by
  unfold updateOneRead updateCandidates at reads ⊢
  rw [wanted] at reads ⊢
  dsimp only at reads ⊢
  rw [wrote.findByField settled other]
  cases found : PacificDb.Lsm.findByField env.layout env.config s.collection s.commitIndex id with
  | error reason =>
    rw [found] at reads
    cases reads
  | ok rows =>
    rw [found] at reads
    cases rows with
    | nil => cases reads
    | cons row rest =>
      dsimp only [Except.map, List.take_succ_cons, List.take_zero] at reads ⊢
      rw [List.find?_singleton] at reads ⊢
      split at reads
      next selected =>
        rw [if_pos (updatable_mono wrote.order selected)]
        exact reads
      next => cases reads

theorem keyed_of_read (reads : updateOneRead env call time s = some doc) :
    ∃ key, docId? env.config.dump doc = some key := by
  unfold updateOneRead at reads
  split at reads
  · cases reads
  · obtain ⟨row, -, made⟩ := Option.bind_eq_some_iff.mp reads
    unfold updatedDocument at made
    split at made
    · cases made
    · split at made
      · cases made
      · split at made
        next checked =>
          cases made
          obtain ⟨id, isId⟩ := Option.isSome_iff_exists.mp (Bool.and_eq_true _ _ ▸ checked).2
          exact ⟨_, docId?_eq isId⟩
        next => cases made

/-- Calls that select by an id go on finding what they found while documents of other ids
are written. -/
theorem framed_updateOne {ι : Type} {calls : ι → UpdateCall} :
    (updateOne env calls).Framed (fun s => ∀ id, SettledRows env s id) (Spares env calls) := by
  constructor
  · intro s t call time now doc settled reads writes
    obtain ⟨key, isKey⟩ := keyed_of_read reads
    exact (writesAt isKey writes).settled settled
  · intro s t call time now doc settled reads writes other spared at_ found otherReads
    obtain ⟨key, isKey⟩ := keyed_of_read reads
    obtain ⟨wanted, isWanted, apart⟩ := spared
    refine (writesAt isKey writes).read (settled wanted) isWanted ?_ otherReads
    rintro rfl
    exact apart isKey

end Others

/-! ## Runs of increments -/

/-- The guard lets through an update of the row that it finds. -/
theorem staleWrite_increment {index term : Nat} (incremented : Incremented env.truncate field row doc) :
    staleWrite .update (markEntryCommittedVisible index term doc) [row] = false := by
  have marked : parseVersion (markEntryCommittedVisible index term doc) = parseVersion doc := by
    unfold parseVersion markEntryCommittedVisible
    rw [field?_setCommitMetadata (by decide)]
  unfold staleWrite
  rw [marked]
  have notLess : ∀ id incoming, parseVersion doc = some incoming →
      (match ([row].find? (isExisting id)).bind parseVersion with
        | some version => decide (incoming < version)
        | none => false) = false := by
    intro id incoming isIncoming
    split
    next version existing =>
      obtain ⟨found, isFound, isVersion⟩ := Option.bind_eq_some_iff.mp existing
      have same : found = row := List.mem_singleton.mp (List.mem_of_find?_eq_some isFound)
      rw [same] at isVersion
      have own : (row.field? "version").isSome = true := by
        unfold parseVersion at isVersion
        split at isVersion
        next found => rw [found]; rfl
        next found => rw [found]; rfl
        next => cases isVersion
      unfold parseVersion at isIncoming
      rw [incremented.version own] at isIncoming
      have equal : some version = some incoming := isVersion.symm.trans isIncoming
      cases equal
      exact decide_eq_false (lt_irrefl _)
    next => rfl
  rw [Bool.and_eq_false_iff]
  right
  split
  next incoming _ isIncoming => exact notLess _ incoming isIncoming
  next => rfl

variable {ι : Type} {calls : ι → UpdateCall}

/-- The call increments the field of the document of the id. -/
def Increments (call : UpdateCall) (id field : String) : Prop :=
  call.filter.field? "id" = some (.string id) ∧ call.update = increment field

theorem updateOneRead_increment {call : UpdateCall} {time : ReadTime}
    (increments : Increments call id field) (found : lookUp env s id = some row)
    (reads : updateOneRead env call time s = some doc) :
    updatedDocument env call time row = some doc := by
  have wanted : wantedId env call.filter = some id := by
    rw [wantedId, increments.1]
    rfl
  unfold updateOneRead updateCandidates at reads
  rw [wanted] at reads
  dsimp only at reads
  rw [(lookUp_eq_some found).1] at reads
  obtain ⟨other, isOther, made⟩ := Option.bind_eq_some_iff.mp reads
  have same : other = row := List.mem_singleton.mp (List.mem_of_find?_eq_some isOther)
  rw [same] at made
  exact made

/-- One increment that runs alone: the next look-up finds its row. -/
theorem increment_alone {call : ι × ReadTime × WriteTime}
    (increments : Increments (calls call.1) id field) (other : field ∉ engineFields)
    (settled : SettledRows env s id) (found : lookUp env s id = some row)
    (stamped : EngineRow id version row) (small : version + 1 < 2 ^ 63)
    (counterSmall : call.2.1.counter < 2 ^ 63)
    (ran : (updateOne env calls).alone s call = some t) :
    ∃ stored, lookUp env t id = some stored ∧ SettledRows env t id ∧
      EngineRow id (max call.2.1.counter (version + 1)) stored ∧
      stored.field? field =
        some (.integer (Json.wrapInt64 (numberOf env.truncate (row.field? field) + 1))) := by
  obtain ⟨doc, reads, writes⟩ := Option.bind_eq_some_iff.mp ran
  have made := updateOneRead_increment increments found reads
  obtain ⟨docStamped, incremented⟩ :=
    updatedDocument_increment stamped (by omega) increments.2 other made
  simp only [engineFields, List.mem_append, List.mem_cons, List.not_mem_nil, or_false,
    not_or] at other
  obtain ⟨⟨-, -, notDeleted, metadata⟩, -⟩ := other
  have apart : field ∉ metadataFields := by
    simp only [metadataFields, List.mem_cons, List.not_mem_nil, or_false, not_or]
    exact metadata
  obtain ⟨stored, written⟩ : ∃ stored, Written env s t id doc stored := by
    refine ⟨_, written_of_fresh docStamped.keyed (fun raft => ?_) (fun raft pending => ?_) writes⟩
    · have guard : guardRows env doc call.2.2.commitIndex s.collection = [row] := by
        unfold guardRows
        rw [docStamped.keyed]
        dsimp only
        rw [settled.findByField_later found ((updateOneWrite_some writes).2.1 raft).2]
      rw [guard]
      exact staleWrite_increment incremented
    · rw [incremented.kept _ (by
        simp only [List.mem_cons, not_or]
        exact ⟨Ne.symm metadata.2.2.2.2, by decide, by decide⟩)] at pending
      have visible := visible_of_lookUp found
      unfold Collection.visibleDoc docVisibleByCommitIndex at visible
      rw [raft, pending, Bool.and_eq_true] at visible
      exact bne_iff_ne.mp visible.2 rfl
  have alive : isDeletedDoc stored = false := by
    have same : stored.field? "_deleted" = row.field? "_deleted" := by
      rw [written.kept _ (by decide), incremented.kept _ (by
        simp only [List.mem_cons, not_or]
        exact ⟨Ne.symm notDeleted, by decide, by decide⟩)]
    have rowAlive := (lookUp_eq_some found).2.1
    unfold isDeletedDoc at rowAlive ⊢
    rw [same]
    exact rowAlive
  have storedStamped : EngineRow id (max call.2.1.counter (version + 1)) stored := by
    refine ⟨?_, ?_⟩
    · rw [written.kept _ (by decide), docStamped.keyed]
    · rw [written.kept _ (by decide), docStamped.versioned]
  have newer : docScore row < docScore stored := by
    rw [docScore_of_field stamped.versioned, docScore_of_field storedStamped.versioned,
      WithBot.coe_lt_coe, wrapInt64_of_lt (by omega), wrapInt64_of_lt (by omega), if_pos (by omega),
      if_pos (by omega)]
    omega
  obtain ⟨finds, stillSettled⟩ := lookUp_put settled found written.immutables written.dir
    written.order written.held written.visible alive newer
  refine ⟨stored, finds, stillSettled, storedStamped, ?_⟩
  rw [written.kept _ apart, incremented.counted]

theorem wrapInt64_numberOf {truncate : Nat → Int} (member : Option Json) :
    Json.wrapInt64 (numberOf truncate member) = numberOf truncate member := by
  unfold numberOf
  split
  · exact Int.bmod_bmod
  · exact Int.bmod_bmod
  · exact Int.bmod_bmod
  · decide

/-- Increments one after the other add up. -/
theorem increment_sequence {order : List (ι × ReadTime × WriteTime)}
    (increments : ∀ call ∈ order, Increments (calls call.1) id field) (other : field ∉ engineFields)
    (settled : SettledRows env s id) (found : lookUp env s id = some row)
    (stamped : EngineRow id version row) (small : version + order.length < 2 ^ 63)
    (counters : ∀ call ∈ order, call.2.1.counter + order.length ≤ 2 ^ 63)
    (ran : (updateOne env calls).sequence s order = some t) :
    ∃ last, lookUp env t id = some last ∧ numberOf env.truncate (last.field? field) =
      Json.wrapInt64 (numberOf env.truncate (row.field? field) + order.length) := by
  induction order generalizing s row version with
  | nil =>
    cases ran
    refine ⟨row, found, ?_⟩
    rw [List.length_nil, Int.natCast_zero, Int.add_zero, wrapInt64_numberOf]
  | cons call rest ih =>
    obtain ⟨first, later⟩ := List.forall_mem_cons.mp increments
    obtain ⟨firstCounter, laterCounters⟩ := List.forall_mem_cons.mp counters
    rw [List.length_cons] at small firstCounter
    rw [Calls.sequence, List.foldlM_cons] at ran
    obtain ⟨next, alone, ran⟩ := Option.bind_eq_some_iff.mp ran
    obtain ⟨stored, finds, stillSettled, storedStamped, counted⟩ :=
      increment_alone first other settled found stamped (by omega) (by omega) alone
    have restCounters : ∀ call ∈ rest, call.2.1.counter + rest.length ≤ 2 ^ 63 := by
      intro call member
      have bound := laterCounters call member
      rw [List.length_cons] at bound
      omega
    obtain ⟨last, isLast, sum⟩ :=
      ih later stillSettled finds storedStamped (by omega) restCounters ran
    refine ⟨last, isLast, ?_⟩
    rw [sum, counted, numberOf, List.length_cons]
    unfold Json.wrapInt64
    rw [Int.bmod_bmod, Int.bmod_add_bmod]
    congr 1
    omega

/-- A filter on the id and nothing else. -/
def matchesId (filter doc : Json) : Bool :=
  match filter.field? "id", doc.field? "id" with
  | some (.string wanted), some (.string id) => wanted == id
  | _, _ => false

def plainEnv : UpdateEnv where
  config := standalone
  layout := rowBlocks
  truncate := fun _ => 0
  validate := fun _ => none
  matches_ := matchesId

def zeroRow : Json := .object [("id", .string "a"), ("n", .unsigned 0), ("_mvcc_version", .unsigned 1)]

/-- The collection holds one document, whose `n` is zero. -/
def zeroCount : LeaderState where
  collection := { memtable := AList.insert "a" zeroRow ∅ }

/-- Both calls are the same increment. -/
def incrementCall (_ : Bool) : UpdateCall where
  userId := "u"
  filter := .object [("id", .string "a")]
  update := increment "n"

/-- Both read, and then both write. -/
def lostUpdate : List (CallEvent Bool ReadTime WriteTime) :=
  [.read false ⟨2, 0, -1⟩, .read true ⟨3, 0, -1⟩, .write false {}, .write true {}]

/-- The count that a look-up finds. -/
def countAt (s : LeaderState) : Option Int :=
  (lookUp plainEnv s "a").map fun row => numberOf (fun _ => 0) (row.field? "n")

theorem settledRows_zeroCount : SettledRows plainEnv zeroCount "a" where
  active := fun _ _ => rfl
  immutable := fun _ _ => rfl
  sst := fun _ _ => rfl

theorem increments_incrementCall (call : Bool) : Increments (incrementCall call) "a" "n" := ⟨rfl, rfl⟩

def otherZero : Json :=
  .object [("id", .string "b"), ("n", .unsigned 0), ("_mvcc_version", .unsigned 1)]

/-- Two documents, whose `n` is zero. -/
def zeroCounts : LeaderState where
  collection := { memtable := AList.insert "b" otherZero (AList.insert "a" zeroRow ∅) }

/-- One call increments the document `a`, and the other the document `b`. -/
def countCall (call : Bool) : UpdateCall where
  userId := "u"
  filter := .object [("id", .string (if call then "b" else "a"))]
  update := increment "n"

theorem settledRows_zeroCounts (id : String) : SettledRows plainEnv zeroCounts id where
  active := fun _ _ => rfl
  immutable := fun _ _ => rfl
  sst := fun _ _ => rfl

def overlapping : List (CallEvent Bool ReadTime WriteTime) :=
  [.read false ⟨2, 0, -1⟩, .read true ⟨3, 0, -1⟩, .write true {}, .write false {}]

def oneByOne : List (CallEvent Bool ReadTime WriteTime) :=
  [.read false ⟨2, 0, -1⟩, .write false {}, .read true ⟨3, 0, -1⟩, .write true {}]

end PacificDb.Engine
