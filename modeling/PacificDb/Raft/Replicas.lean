import PacificDb.Lib.Machine
import PacificDb.Lsm.Layers

/-!
# Replicas of a collection

A committed entry reaches a collection by one of two paths. `applyCommittedEntries`
applies it while the node runs and stamps the node's `currentTerm_` into the stored
documents; `replayRaftLog` applies it again after a restart and stamps the term of
the log record. `LSM::logicalDigest` hashes the whole document, so two replicas that
applied the same entry in different terms disagree.

Here one replica is a machine over a fixed committed log: applications of the next
entry, steps of flushes and compactions, and restarts. Two replicas that have applied
the log up to the same index have the same digest (`Replica.digests_agree`) when every
entry is applied under its own term, the documents of an id come in version order, and
the conditions under which flushes and compactions keep the rows are met.
-/

namespace PacificDb.Raft

open Lib Lsm

/-! ## Applying one entry -/

/-- The operation of an entry for this collection, its name normalized. `put` is a name
without a branch of its own; `elsewhere` is a no-op, a schema or index operation, or an
entry of another collection. -/
inductive ApplyOp where
  | insertMany
  | insert
  | update
  | delete
  | put
  | dropCollection
  | elsewhere
  deriving DecidableEq

structure CommittedEntry where
  term : Nat
  op : ApplyOp
  data : Json

/-- The members that carry the commit metadata. -/
def setCommitMetadata (index term : Nat) (state : String) (doc : Json) : Json :=
  ((((doc.set "_raft_commit_index" (.unsigned index)).set "_raft_term" (.unsigned term)).set
    "_visibility_floor" (.unsigned index)).set "committed" (.bool true)).set
      "_visibility_state" (.string state)

/-- `markEntryCommittedVisible`, on the data of the entry. -/
def markEntryCommittedVisible (index term : Nat) (data : Json) : Json :=
  setCommitMetadata index term (if isDeletedDoc data then "TOMBSTONED" else "COMMITTED_VISIBLE") data

/-- The metadata of the entry, copied into a stored document. -/
def propagateCommitMetadata (index term : Nat) (doc : Json) : Json :=
  setCommitMetadata index term "COMMITTED_VISIBLE" doc

def parseVersion (doc : Json) : Option Int :=
  match doc.field? "version" with
  | some (.integer version) => some (Json.wrapInt64 version)
  | some (.unsigned version) => some (Json.wrapInt64 version)
  | _ => none

/-- A live row that `findByField` found for the id. -/
def isExisting (id : String) (doc : Json) : Bool :=
  doc.isObject && !isDeletedDoc doc &&
    match doc.field? "id" with
    | some (.string other) => other == id
    | _ => false

/-- The monotonic register guard: an insert or update older than the row that is there
is skipped. -/
def staleWrite (op : ApplyOp) (data : Json) (existing : List Json) : Bool :=
  (op == .insert || op == .update) &&
    match data.field? "id", parseVersion data with
    | some (.string id), some incoming =>
        match (existing.find? (isExisting id)).bind parseVersion with
        | some version => decide (incoming < version)
        | none => false
    | _, _ => false

/-- `LSM::put` and `LSM::putMany` without the WAL: memtable entries only. -/
def putDocuments (config : LsmConfig) (time : Nat) (docs : List Json) (s : Collection) : Collection :=
  { s with memtable := applyWrites s.memtable (docs.map fun doc => (storageId config time doc, doc)) }

/-- `LSM::put` refuses a delete whose document is no tombstone with an id. -/
def validTombstone (doc : Json) : Bool :=
  doc.isObject && (doc.field? "id").isSome && isDeletedDoc doc

/-- `DatabaseEngine::applyReplicatedEntry` on the marked entry. `existing` is what the
look-up of the guard finds. A drop removes the files of running compactions, which then
fail. -/
def applyReplicatedEntry (config : LsmConfig) (index term : Nat) (entry : CommittedEntry)
    (committedIndex time : Nat) (existing : List Json) (faults : DropFaults) (s : Collection) :
    Collection × Bool :=
  match entry.op with
  | .elsewhere => (s, true)
  | .dropCollection =>
      match s.dropCollection faults with
      | (dropped, true) => ({ dropped with compactions := ∅ }, true)
      | (left, false) => (left, false)
  | .insertMany =>
      match entry.data with
      | .array items =>
          let docs := (items.filter Json.isObject).map (propagateCommitMetadata index term)
          let stored := docs.map fun doc => stampVisibilityMetadata config.raft doc committedIndex
          (putDocuments config time stored s, true)
      | _ => (s, false)
  | op =>
      let data := markEntryCommittedVisible index term entry.data
      if staleWrite op data existing then (s, true)
      else
        let doc := propagateCommitMetadata index term data
        if op == .delete && !validTombstone doc then (s, false)
        else (putDocuments config time [putDocument config committedIndex doc] s, true)

/-! ## The machine -/

/-- Which of the two paths applies the entry, with the `currentTerm_` of a live one. -/
inductive ApplySource where
  | live (currentTerm : Nat)
  | replay

def ApplySource.stampedTerm (entry : CommittedEntry) : ApplySource → Nat
  | .live currentTerm => currentTerm
  | .replay => entry.term

/-- One node's copy of the collection. `top` is history: the highest index it has ever
applied. -/
structure Replica where
  collection : Collection := {}
  lastApplied : Nat := 0
  top : Nat := 0

inductive ReplicaEvent where
  | apply (source : ApplySource) (committedIndex time : Nat) (existing : List Json)
      (faults : DropFaults)
  | maintain (e : Event)
  | restart (clean : Bool)

/-- A new process: memory is gone. -/
def lostMemory (s : Collection) : Collection :=
  { s with memtable := ∅, immutables := [], poisoned := false, flush := none, compactions := ∅,
           progress := {} }

namespace Replica

/-- Only committed entries are applied, in order. A restart replays from the start; after a
clean shutdown, which has flushed everything, it keeps the applied prefix. -/
def step (config : LsmConfig) (entries : List CommittedEntry) (r : Replica) :
    ReplicaEvent → Option Replica
  | .apply source committedIndex time existing faults =>
      match entries[r.lastApplied]? with
      | none => none
      | some entry =>
          if committedIndex ≤ r.lastApplied then none
          else
            match applyReplicatedEntry config (r.lastApplied + 1) (source.stampedTerm entry) entry
              committedIndex time existing faults r.collection with
            | (applied, true) =>
                some { collection := applied, lastApplied := r.lastApplied + 1
                       top := max r.top (r.lastApplied + 1) }
            | (left, false) => some { r with collection := left }
  | .maintain e =>
      if e.maintains then (Lsm.step config r.collection e).map ({ r with collection := · }) else none
  | .restart clean =>
      if !clean then some { r with collection := lostMemory r.collection, lastApplied := 0 }
      else if r.collection.memtable.keys.isEmpty && r.collection.immutables.isEmpty then
        some { r with collection := lostMemory r.collection }
      else none

end Replica

/-! ## The documents of the log -/

/-- The rows an entry stores when it is applied under its own term. -/
def entryDocs (config : LsmConfig) (index : Nat) (entry : CommittedEntry) : List Json :=
  match entry.op with
  | .elsewhere | .dropCollection => []
  | .insertMany =>
      match entry.data with
      | .array items => ((items.filter Json.isObject).map (propagateCommitMetadata index entry.term)).map
          fun doc => stampVisibilityMetadata config.raft doc index
      | _ => []
  | _ => [putDocument config index (propagateCommitMetadata index entry.term
      (markEntryCommittedVisible index entry.term entry.data))]

/-- The rows stored by the first `n` entries since the last drop among them. -/
def liveDocs (config : LsmConfig) (entries : List CommittedEntry) : Nat → List Json
  | 0 => []
  | n + 1 =>
      match entries[n]? with
      | none => liveDocs config entries n
      | some entry =>
          if entry.op = .dropCollection then []
          else liveDocs config entries n ++ entryDocs config (n + 1) entry

/-- A later row of an id has a greater score and no smaller `version`. -/
def Newer (config : LsmConfig) (earlier later : Json) : Prop :=
  ∀ id, docId? config.dump earlier = some id → docId? config.dump later = some id →
    docScore earlier < docScore later ∧
      ∀ first second, parseVersion earlier = some first → parseVersion later = some second →
        first ≤ second

/-- Every stored document has an id, and the documents of an id come in version order
between two drops of the collection. -/
structure VersionedLog (config : LsmConfig) (entries : List CommittedEntry) : Prop where
  identified : ∀ n, ∀ doc ∈ liveDocs config entries n, ∃ id, rowKey config doc = some id
  versions : ∀ n, (liveDocs config entries n).Pairwise (Newer config)

/-- The condition on a step: an entry that stores documents is applied under its own term,
what its guard finds are rows of the collection, a drop is not left half-way, and
maintenance keeps the rows. -/
def Replica.Clean (config : LsmConfig) (entries : List CommittedEntry) (r : Replica) :
    ReplicaEvent → Prop
  | .apply source _ _ existing faults => ∀ entry, entries[r.lastApplied]? = some entry →
      (entry.op = .dropCollection → (r.collection.dropCollection faults).2 = true ∨
        (r.collection.dropCollection faults).1 = r.collection) ∧
      (entry.op ≠ .dropCollection → entry.op ≠ .elsewhere →
        source.stampedTerm entry = entry.term ∧ ∀ doc ∈ existing, Present config r.collection doc)
  | .maintain e => CleanMaintenance config r.collection e
  | .restart _ => True

variable {config : LsmConfig} {entries : List CommittedEntry}

section Metadata

variable {index term : Nat} {state : String} {doc : Json}

@[simp] theorem isObject_setCommitMetadata :
    (setCommitMetadata index term state doc).isObject = doc.isObject := by
  simp [setCommitMetadata]

theorem field?_setCommitMetadata {name : String}
    (other : name ∉ ["_raft_commit_index", "_raft_term", "_visibility_floor", "committed",
      "_visibility_state"]) :
    (setCommitMetadata index term state doc).field? name = doc.field? name := by
  simp only [List.mem_cons, List.not_mem_nil, or_false, not_or] at other
  obtain ⟨commit, isTerm, floor, committed, visible⟩ := other
  rw [setCommitMetadata, Json.field?_set_ne visible, Json.field?_set_ne committed,
    Json.field?_set_ne floor, Json.field?_set_ne isTerm, Json.field?_set_ne commit]

theorem wrapUInt64_le (value : Nat) : Json.wrapUInt64 value ≤ value := by
  unfold Json.wrapUInt64
  have nonneg : (0 : Int) ≤ (value : Int) % 2 ^ 64 := by omega
  omega

/-- What a read needs to know of a document with commit metadata. -/
theorem setCommitMetadata_fields (object : doc.isObject = true) :
    (setCommitMetadata index term state doc).field? "_raft_commit_index" = some (.unsigned index) ∧
    (setCommitMetadata index term state doc).field? "_visibility_floor" = some (.unsigned index) ∧
    (setCommitMetadata index term state doc).field? "committed" = some (.bool true) ∧
    (setCommitMetadata index term state doc).field? "_visibility_state" = some (.string state) := by
  unfold setCommitMetadata
  refine ⟨?_, ?_, ?_, ?_⟩
  · rw [Json.field?_set_ne (by decide), Json.field?_set_ne (by decide),
      Json.field?_set_ne (by decide), Json.field?_set_ne (by decide), Json.field?_set_self object]
  · rw [Json.field?_set_ne (by decide), Json.field?_set_ne (by decide),
      Json.field?_set_self (by simp [object])]
  · rw [Json.field?_set_ne (by decide), Json.field?_set_self (by simp [object])]
  · rw [Json.field?_set_self (by simp [object])]

theorem extractRowCommitIndex_of_field {doc : Json}
    (commit : doc.field? "_raft_commit_index" = some (.unsigned index)) :
    extractRowCommitIndex doc = some (Json.wrapUInt64 index) := by
  simp [extractRowCommitIndex, commit, Json.asUInt64?]

/-- Every commit index at or above the entry's stamps the same row. -/
theorem stampVisibilityMetadata_committed {committedIndex : Nat} (committed : index ≤ committedIndex) :
    stampVisibilityMetadata config.raft (propagateCommitMetadata index term doc) committedIndex =
      stampVisibilityMetadata config.raft (propagateCommitMetadata index term doc) index := by
  cases object : doc.isObject with
  | false => simp [stampVisibilityMetadata, propagateCommitMetadata, object]
  | true =>
    have commit : extractRowCommitIndex (propagateCommitMetadata index term doc) =
        some (Json.wrapUInt64 index) :=
      extractRowCommitIndex_of_field (setCommitMetadata_fields object).1
    have low := wrapUInt64_le index
    have high : Json.wrapUInt64 index ≤ committedIndex := low.trans committed
    unfold stampVisibilityMetadata
    simp only [commit, Option.getD_some, low, high]

theorem putDocument_committed {committedIndex : Nat} (committed : index ≤ committedIndex) :
    putDocument config committedIndex (propagateCommitMetadata index term doc) =
      putDocument config index (propagateCommitMetadata index term doc) := by
  unfold putDocument
  rw [stampVisibilityMetadata_committed committed]

/-- What the stamp leaves of the metadata of a committed entry, in each mode of the Raft
core. -/
theorem stamped_fields (object : doc.isObject = true) :
    ∃ shown, (shown = "COMMITTED_VISIBLE" ∨ shown = "TOMBSTONED") ∧
      (stampVisibilityMetadata config.raft (propagateCommitMetadata index term doc) index).field?
        "_visibility_state" = some (.string shown) ∧
      (stampVisibilityMetadata config.raft (propagateCommitMetadata index term doc) index).field?
        "_raft_commit_index" = some (.unsigned index) ∧
      (stampVisibilityMetadata config.raft (propagateCommitMetadata index term doc) index).field?
        "_visibility_floor" = some (.unsigned index) := by
  obtain ⟨commit, floor, isCommitted, visible⟩ := @setCommitMetadata_fields index term
    "COMMITTED_VISIBLE" doc object
  have low := wrapUInt64_le index
  have extracted := extractRowCommitIndex_of_field commit
  unfold propagateCommitMetadata stampVisibilityMetadata
  simp only [isObject_setCommitMetadata, object, Bool.not_true, Bool.false_eq_true, if_false, visible,
    Option.isSome_some, if_true, isCommitted, extracted, Option.getD_some, floor, low, decide_true]
  split
  · exact ⟨_, .inl rfl, visible, commit, floor⟩
  · split
    · exact ⟨_, .inl rfl, visible, commit, floor⟩
    · refine ⟨_, ?_, Json.field?_set_self (by simp [object]), ?_, ?_⟩
      · split
        · exact .inr rfl
        · exact .inl rfl
      · rw [Json.field?_set_ne (by decide), Json.field?_set_ne (by decide), commit]
      · rw [Json.field?_set_ne (by decide), Json.field?_set_ne (by decide), floor]

/-- The stamped row of a committed entry is visible at every fence from its index on. -/
theorem visibleAtFence_stamped {fence : Nat} (object : doc.isObject = true) (reached : index ≤ fence) :
    visibleAtFence fence
      (stampVisibilityMetadata config.raft (propagateCommitMetadata index term doc) index) = true := by
  obtain ⟨shown, states, isState, isCommit, isFloor⟩ :=
    @stamped_fields config index term doc object
  have bound : Json.wrapUInt64 index ≤ fence := (wrapUInt64_le index).trans reached
  have isObject : (stampVisibilityMetadata config.raft (propagateCommitMetadata index term doc)
      index).isObject = true := by
    rw [isObject_stampVisibilityMetadata]
    simp [propagateCommitMetadata, object]
  have state : hasVisibleCommitState (stampVisibilityMetadata config.raft
      (propagateCommitMetadata index term doc) index) = true := by
    rcases states with rfl | rfl <;> simp [hasVisibleCommitState, isState]
  simp [visibleAtFence, isObject, state, extractRowCommitIndex_of_field isCommit, isFloor,
    Json.asUInt64?, bound]

theorem visibleAtFence_set_id {fence : Nat} {row : Json} {value : Json} :
    visibleAtFence fence (row.set "id" value) = visibleAtFence fence row := by
  have keep : ∀ name, name ≠ "id" → (row.set "id" value).field? name = row.field? name :=
    fun name other => Json.field?_set_ne other
  have names : ∀ name ∈ ["_visibility_state", "visibility_state", "committed", "_raft_commit_index",
      "commit_index", "_visibility_floor"], (row.set "id" value).field? name = row.field? name := by
    intro name member
    refine keep name fun same => ?_
    rw [same] at member
    revert member
    decide
  simp only [List.forall_mem_cons] at names
  obtain ⟨state, oldState, committed, commit, oldCommit, floor, -⟩ := names
  simp only [visibleAtFence, hasVisibleCommitState, extractRowCommitIndex, List.findSome?_cons,
    List.findSome?_nil, state, oldState, committed, commit, oldCommit, floor, Json.isObject_set]

end Metadata

/-! ## The rows of an entry -/

theorem isObject_of_rowKey {doc : Json} {id : String} (key : rowKey config doc = some id) :
    docId? config.dump doc = some id ∧ doc.isObject = true := by
  obtain ⟨known, -⟩ := rowKey_eq_some.mp key
  exact ⟨known, isObject_of_docId? known⟩

theorem isObject_putDocument {committedIndex : Nat} {doc : Json} :
    (putDocument config committedIndex doc).isObject = doc.isObject := by
  unfold putDocument
  dsimp only
  split <;> simp [isObject_stampVisibilityMetadata]

/-- The members of the stored row that are no metadata. -/
theorem field?_putDocument {index term : Nat} {doc : Json} {name : String} (notId : name ≠ "id")
    (other : name ∉ ["_raft_commit_index", "_raft_term", "_visibility_floor", "committed",
      "_visibility_state"]) :
    (putDocument config index (propagateCommitMetadata index term
      (markEntryCommittedVisible index term doc))).field? name = doc.field? name := by
  have stamped : (stampVisibilityMetadata config.raft (propagateCommitMetadata index term
      (markEntryCommittedVisible index term doc)) index).field? name = doc.field? name := by
    rw [field?_stampVisibilityMetadata, propagateCommitMetadata, field?_setCommitMetadata other,
      markEntryCommittedVisible, field?_setCommitMetadata other]
    simp only [List.mem_cons, List.not_mem_nil, or_false, not_or] at other ⊢
    exact ⟨other.2.2.2.2, other.2.2.2.1, other.1, other.2.2.1⟩
  unfold putDocument
  dsimp only
  split
  · rw [Json.field?_set_ne notId, stamped]
  · exact stamped

/-- A string id stays. -/
theorem docId?_putDocument {index term : Nat} {doc : Json} {id : String}
    (known : doc.field? "id" = some (.string id)) :
    docId? config.dump (putDocument config index (propagateCommitMetadata index term
      (markEntryCommittedVisible index term doc))) = some id := by
  have stamped : docId? config.dump (stampVisibilityMetadata config.raft
      (propagateCommitMetadata index term (markEntryCommittedVisible index term doc)) index) =
        some id := by
    rw [docId?, field?_stampVisibilityMetadata (by decide), propagateCommitMetadata,
      field?_setCommitMetadata (by decide), markEntryCommittedVisible,
      field?_setCommitMetadata (by decide), known]
  unfold putDocument
  dsimp only
  rw [stamped]
  exact docId?_set_id (isObject_of_docId? stamped)

theorem visibleAtFence_putDocument {index term fence : Nat} {doc : Json} (object : doc.isObject = true)
    (reached : index ≤ fence) :
    visibleAtFence fence (putDocument config index (propagateCommitMetadata index term doc)) = true := by
  unfold putDocument
  dsimp only
  split
  · rw [visibleAtFence_set_id, visibleAtFence_stamped object reached]
  · exact visibleAtFence_stamped object reached

theorem visibleAtFence_entryDocs {index fence : Nat} {entry : CommittedEntry} {row : Json}
    (member : row ∈ entryDocs config index entry) (object : row.isObject = true)
    (reached : index ≤ fence) : visibleAtFence fence row = true := by
  unfold entryDocs at member
  split at member
  · cases member
  · cases member
  · split at member
    · obtain ⟨doc, isDoc, rfl⟩ := List.mem_map.mp member
      obtain ⟨item, isItem, rfl⟩ := List.mem_map.mp isDoc
      exact visibleAtFence_stamped (List.mem_filter.mp isItem).2 reached
    · cases member
  · rw [List.mem_singleton.mp member] at object ⊢
    rw [isObject_putDocument, propagateCommitMetadata, isObject_setCommitMetadata] at object
    exact visibleAtFence_putDocument object reached

section LiveDocs

variable {n m : Nat}

theorem liveDocs_succ {entry : CommittedEntry} (found : entries[n]? = some entry)
    (kept : entry.op ≠ .dropCollection) :
    liveDocs config entries (n + 1) =
      liveDocs config entries n ++ entryDocs config (n + 1) entry := by
  rw [liveDocs, found]
  exact if_neg kept

theorem liveDocs_drop {entry : CommittedEntry} (found : entries[n]? = some entry)
    (drops : entry.op = .dropCollection) : liveDocs config entries (n + 1) = [] := by
  rw [liveDocs, found]
  exact if_pos drops

/-- None of the entries after the first `n`, up to the first `m`, drops the collection. -/
def NoDrop (entries : List CommittedEntry) (n m : Nat) : Prop :=
  ∀ i, n ≤ i → i < m → ∀ entry, entries[i]? = some entry → entry.op ≠ .dropCollection

theorem NoDrop.isPrefix (none : NoDrop entries n m) (order : n ≤ m) :
    liveDocs config entries n <+: liveDocs config entries m := by
  induction m with
  | zero =>
    obtain rfl : n = 0 := by omega
    exact List.prefix_refl _
  | succ m ih =>
    by_cases same : n = m + 1
    · subst same
      exact List.prefix_refl _
    · have before := ih (fun i above below => none i above (by omega)) (by omega)
      cases found : entries[m]? with
      | none => rwa [liveDocs, found]
      | some entry =>
        rw [liveDocs_succ found (none m (by omega) (by omega) entry found)]
        exact before.trans (List.prefix_append _ _)

theorem visibleAtFence_liveDocs {fence : Nat} {row : Json} (member : row ∈ liveDocs config entries n)
    (object : row.isObject = true) (reached : n ≤ fence) : visibleAtFence fence row = true := by
  induction n with
  | zero => cases member
  | succ n ih =>
    cases found : entries[n]? with
    | none =>
      rw [liveDocs, found] at member
      exact ih member (by omega)
    | some entry =>
      by_cases drops : entry.op = .dropCollection
      · rw [liveDocs_drop found drops] at member
        cases member
      · rw [liveDocs_succ found drops] at member
        rcases List.mem_append.mp member with old | new
        · exact ih old (by omega)
        · exact visibleAtFence_entryDocs new object reached

end LiveDocs

/-! ## What an application does -/

/-- The outcomes of an application that returns true. -/
inductive Applied (config : LsmConfig) (index : Nat) (entry : CommittedEntry) (existing : List Json)
    (s : Collection) : Collection → Prop
  | dropped {faults : DropFaults} (drops : entry.op = .dropCollection)
    (done : (s.dropCollection faults).2 = true) :
    Applied config index entry existing s { (s.dropCollection faults).1 with compactions := ∅ }
  | stored {time : Nat} (kept : entry.op ≠ .dropCollection) :
    Applied config index entry existing s (putDocuments config time (entryDocs config index entry) s)
  | skipped {doc row : Json} {id : String} {incoming version : Int} (kept : entry.op ≠ .dropCollection)
    (writes : entryDocs config index entry = [doc]) (known : docId? config.dump doc = some id)
    (parsed : parseVersion doc = some incoming) (found : row ∈ existing) (same : isExisting id row = true)
    (rowVersion : parseVersion row = some version) (older : incoming < version) :
    Applied config index entry existing s s

theorem staleWrite_eq_true {op : ApplyOp} {data : Json} {existing : List Json}
    (stale : staleWrite op data existing = true) : ∃ id incoming row version,
      data.field? "id" = some (.string id) ∧ parseVersion data = some incoming ∧ row ∈ existing ∧
        isExisting id row = true ∧ parseVersion row = some version ∧ incoming < version := by
  rw [staleWrite, Bool.and_eq_true] at stale
  obtain ⟨-, stale⟩ := stale
  split at stale
  next id incoming isId isVersion =>
    split at stale
    next version found =>
      obtain ⟨row, isRow, rowVersion⟩ := Option.bind_eq_some_iff.mp found
      exact ⟨id, incoming, row, version, isId, isVersion, List.mem_of_find?_eq_some isRow,
        List.find?_some isRow, rowVersion, by simpa using stale⟩
    next => cases stale
  next => cases stale

theorem putDocuments_nil (config : LsmConfig) (time : Nat) (s : Collection) :
    putDocuments config time [] s = s := rfl

/-- What a put, insert, update or delete does when the entry is applied under its own term. -/
theorem Applied.of_put {index committedIndex time : Nat} {entry : CommittedEntry}
    {existing : List Json} {s t : Collection} (committed : index ≤ committedIndex)
    (kept : entry.op ≠ .dropCollection)
    (writes : entryDocs config index entry = [putDocument config index (propagateCommitMetadata index
      entry.term (markEntryCommittedVisible index entry.term entry.data))])
    (done : (if staleWrite entry.op (markEntryCommittedVisible index entry.term entry.data) existing
        then (s, true)
      else if entry.op == .delete && !validTombstone (propagateCommitMetadata index entry.term
          (markEntryCommittedVisible index entry.term entry.data)) then (s, false)
      else (putDocuments config time [putDocument config committedIndex (propagateCommitMetadata index
        entry.term (markEntryCommittedVisible index entry.term entry.data))] s, true)) = (t, true)) :
    Applied config index entry existing s t := by
  split at done
  next stale =>
    cases done
    obtain ⟨id, incoming, row, version, isId, isVersion, member, same, rowVersion, older⟩ :=
      staleWrite_eq_true stale
    have plainId : entry.data.field? "id" = some (.string id) := by
      rw [← isId, markEntryCommittedVisible, field?_setCommitMetadata (by decide)]
    have storedVersion : parseVersion (putDocument config index (propagateCommitMetadata index
        entry.term (markEntryCommittedVisible index entry.term entry.data))) = some incoming := by
      rw [← isVersion, parseVersion, field?_putDocument (by decide) (by decide), parseVersion,
        markEntryCommittedVisible, field?_setCommitMetadata (by decide)]
    exact .skipped kept writes (docId?_putDocument plainId) storedVersion member same rowVersion older
  · split at done
    · cases done
    · cases done
      rw [putDocument_committed committed, ← writes]
      exact .stored kept

theorem Applied.of_apply {index term committedIndex time : Nat} {entry : CommittedEntry}
    {existing : List Json} {faults : DropFaults} {s t : Collection} (committed : index ≤ committedIndex)
    (own : entry.op ≠ .dropCollection → entry.op ≠ .elsewhere → term = entry.term)
    (done : applyReplicatedEntry config index term entry committedIndex time existing faults s =
      (t, true)) : Applied config index entry existing s t := by
  unfold applyReplicatedEntry at done
  split at done
  next isOp =>
    cases done
    have stored := @Applied.stored config index entry existing s 0 (by rw [isOp]; decide)
    have empty : entryDocs config index entry = [] := by rw [entryDocs, isOp]
    rwa [empty, putDocuments_nil] at stored
  next isOp =>
    split at done
    next dropped result =>
      cases done
      have shape := @Applied.dropped config index entry existing s faults isOp (by rw [result])
      rwa [result] at shape
    next => cases done
  next isOp =>
    have same : term = entry.term := own (by rw [isOp]; decide) (by rw [isOp]; decide)
    subst same
    split at done
    next items isData =>
      have writes : entryDocs config index entry =
          ((items.filter Json.isObject).map (propagateCommitMetadata index entry.term)).map
            fun doc => stampVisibilityMetadata config.raft doc committedIndex := by
        rw [entryDocs, isOp, isData]
        dsimp only
        rw [List.map_map, List.map_map]
        exact List.map_congr_left fun doc _ => (stampVisibilityMetadata_committed committed).symm
      dsimp only at done
      rw [← writes] at done
      cases done
      exact .stored (by rw [isOp]; decide)
    next => cases done
  next op notElsewhere notDrop notMany =>
    have same : term = entry.term := own notDrop notElsewhere
    subst same
    refine .of_put committed notDrop ?_ done
    unfold entryDocs
    split <;> first | contradiction | rfl

theorem applyReplicatedEntry_failed {index term committedIndex time : Nat} {entry : CommittedEntry}
    {existing : List Json} {faults : DropFaults} {s t : Collection}
    (whole : entry.op = .dropCollection → (s.dropCollection faults).2 = true ∨
      (s.dropCollection faults).1 = s)
    (failed : applyReplicatedEntry config index term entry committedIndex time existing faults s =
      (t, false)) : t = s := by
  unfold applyReplicatedEntry at failed
  split at failed
  · cases failed
  next isOp =>
    split at failed
    · cases failed
    next left result =>
      cases failed
      rcases whole isOp with done | same
      · rw [result] at done
        cases done
      · rw [result] at same
        exact same
  · split at failed
    · cases failed
    · cases failed
      rfl
  · dsimp only at failed
    split at failed
    · cases failed
    · split at failed
      · cases failed
        rfl
      · cases failed

/-! ## The invariant -/

structure ReplicaInv (config : LsmConfig) (entries : List CommittedEntry) (r : Replica) : Prop where
  layers : LayersOk config r.collection
  order : r.lastApplied ≤ r.top
  active : ∀ id row, r.collection.memtable.lookup id = some row →
    row ∈ liveDocs config entries r.lastApplied ∧ docId? config.dump row = some id
  -- Nothing is claimed while a drop is still to be replayed: it will remove every row.
  rows : NoDrop entries r.lastApplied r.top → ∀ row, Present config r.collection row →
    row ∈ liveDocs config entries r.top
  answered : NoDrop entries r.lastApplied r.top → ∀ doc ∈ liveDocs config entries r.lastApplied,
    Answered config (· ∈ liveDocs config entries r.top) (Present config r.collection) doc

theorem Answered.trans {from_ between holds after : Json → Prop} {doc : Json}
    (answered : Answered config from_ holds doc)
    (moves : ∀ row, holds row → Answered config between after row)
    (sub : ∀ row, after row → holds row) (known : ∀ row, between row → from_ row) :
    Answered config from_ after doc := by
  rcases answered with ⟨row, held, covers⟩ | ⟨tomb, isFrom, deleted, covers, least⟩
  · rcases moves row held with ⟨last, stays, newer⟩ | ⟨tomb, isFrom, deleted, newer, least⟩
    · exact .inl ⟨last, stays, newer.trans covers⟩
    · exact .inr ⟨tomb, known tomb isFrom, deleted, newer.trans covers, least⟩
  · exact .inr ⟨tomb, isFrom, deleted, covers, fun other held => least other (sub other held)⟩

theorem Answered.mono {from_ more holds : Json → Prop} {doc : Json}
    (answered : Answered config from_ holds doc) (sub : ∀ row, from_ row → more row) :
    Answered config more holds doc := by
  rcases answered with kept | ⟨tomb, isFrom, rest⟩
  · exact .inl kept
  · exact .inr ⟨tomb, sub tomb isFrom, rest⟩

namespace ReplicaInv

variable {r : Replica} {s : Collection} {entry : CommittedEntry}

theorem init : ReplicaInv config entries {} where
  layers :=
    { files := .init
      handles := .nil
      handed := by rintro immutable ⟨⟩
      readable := ⟨[], rfl, by rintro name ⟨⟩⟩
      mergesClean := by rintro id job merge ⟨⟩ }
  order := le_rfl
  active := by rintro id row ⟨⟩
  rows := by
    rintro - row (⟨id, ⟨⟩⟩ | ⟨immutable, ⟨⟩, -⟩ | ⟨names, published, name, member, isRow⟩)
    cases published
    cases member
  answered := by rintro - doc ⟨⟩

theorem maintained (inv : ReplicaInv config entries r) (moved : Maintains config r.collection s) :
    ReplicaInv config entries { r with collection := s } where
  layers := moved.layers
  order := inv.order
  active := by
    intro id row found
    rcases moved.memtable with same | empty
    · exact inv.active id row (same ▸ found)
    · dsimp only at found
      rw [empty] at found
      cases found
  rows := fun none row present => inv.rows none row (moved.sub row present)
  answered := fun none doc member => Answered.trans (inv.answered none doc member) moved.answered
    moved.sub (inv.rows none)

/-! ### Restarts -/

theorem lost (layers : LayersOk config s) : LayersOk config (lostMemory s) where
  files := layers.files.narrow rfl rfl (by rintro job name ⟨⟩) (by rintro id job ⟨⟩)
  handles := .nil
  handed := by rintro immutable ⟨⟩
  readable := layers.readable
  mergesClean := by rintro id job merge ⟨⟩

theorem present_of_lost {row : Json} (present : Present config (lostMemory s) row) :
    Present config s row := by
  rcases present with ⟨id, ⟨⟩⟩ | ⟨immutable, ⟨⟩, -⟩ | onDisk
  exact .inr (.inr onDisk)

theorem crashed (inv : ReplicaInv config entries r) :
    ReplicaInv config entries { r with collection := lostMemory r.collection, lastApplied := 0 } where
  layers := lost inv.layers
  order := Nat.zero_le _
  active := by rintro id row ⟨⟩
  rows := fun none row present => inv.rows (fun i _ below => none i (Nat.zero_le i) below) row
    (present_of_lost present)
  answered := by rintro - doc ⟨⟩

/-- After a clean shutdown every row is on disk. -/
theorem present_lost {row : Json} (flushed : (s.memtable.keys.isEmpty && s.immutables.isEmpty) = true)
    (present : Present config s row) : Present config (lostMemory s) row := by
  rw [Bool.and_eq_true, List.isEmpty_iff, List.isEmpty_iff] at flushed
  rcases present with ⟨id, found⟩ | ⟨immutable, member, -⟩ | onDisk
  · have key : id ∈ s.memtable.keys := by
      rw [← AList.mem_keys, ← AList.lookup_isSome, found]
      rfl
    rw [flushed.1] at key
    cases key
  · rw [flushed.2] at member
    cases member
  · exact .inr (.inr onDisk)

theorem restarted (inv : ReplicaInv config entries r)
    (flushed : (r.collection.memtable.keys.isEmpty && r.collection.immutables.isEmpty) = true) :
    ReplicaInv config entries { r with collection := lostMemory r.collection } where
  layers := lost inv.layers
  order := inv.order
  active := by rintro id row ⟨⟩
  rows := fun none row present => inv.rows none row (present_of_lost present)
  answered := fun none doc member => Answered.trans (inv.answered none doc member)
    (fun row present => .inl (.of_holds (present_lost flushed present)))
    (fun row present => present_of_lost present) (inv.rows none)

/-! ### Applications -/

theorem noDrop_of_succ (found : entries[r.lastApplied]? = some entry)
    (kept : entry.op ≠ .dropCollection)
    (none : NoDrop entries (r.lastApplied + 1) (max r.top (r.lastApplied + 1))) :
    NoDrop entries r.lastApplied (max r.top (r.lastApplied + 1)) := by
  intro i above below other isOther
  by_cases same : i = r.lastApplied
  · subst same
    cases found.symm.trans isOther
    exact kept
  · exact none i (by omega) below other isOther

theorem noDrop_mono {n m l : Nat} (none : NoDrop entries n m) (order : l ≤ m) : NoDrop entries n l :=
  fun i above below => none i above (by omega)

/-- A later document of the same id is newer. -/
theorem newer_of_append {earlier later : List Json} {doc next : Json}
    (versions : (earlier ++ later).Pairwise (Newer config)) (first : doc ∈ earlier) (second : next ∈ later)
    (same : SameId config doc next) : docScore doc < docScore next := by
  obtain ⟨id, isId, nextId⟩ := same
  exact ((List.pairwise_append.mp versions).2.2 doc first next second id isId nextId).1

/-- Of two documents of one id one is newer. -/
theorem newer_or_newer {docs : List Json} (versions : docs.Pairwise (Newer config)) {doc other : Json}
    (member : doc ∈ docs) (isOther : other ∈ docs) (ne : doc ≠ other) :
    Newer config doc other ∨ Newer config other doc := by
  have either : docs.Pairwise fun doc other => Newer config doc other ∨ Newer config other doc :=
    versions.imp .inl
  have symmetric : Std.Symm fun doc other => Newer config doc other ∨ Newer config other doc :=
    ⟨fun _ _ newer => newer.symm⟩
  exact either.forall member isOther ne

/-- Documents of one id in version order, written after those in the memtable. -/
theorem cleanWrites {time : Nat} {seen docs : List Json} {table : Memtable}
    (rows : ∀ id row, table.lookup id = some row → row ∈ seen ∧ docId? config.dump row = some id)
    (identified : ∀ doc ∈ docs, ∃ id, docId? config.dump doc = some id)
    (versions : (seen ++ docs).Pairwise (Newer config)) :
    CleanWrites config table (docs.map fun doc => (storageId config time doc, doc)) ∧
      ∀ id row, (applyWrites table (docs.map fun doc => (storageId config time doc, doc))).lookup id =
        some row → row ∈ seen ++ docs ∧ docId? config.dump row = some id := by
  induction docs generalizing seen table with
  | nil =>
    refine ⟨trivial, fun id row found => ?_⟩
    rw [List.append_nil]
    exact rows id row found
  | cons doc docs ih =>
    obtain ⟨id, known⟩ := identified doc (.head _)
    have key : storageId config time doc = id := by rw [storageId, known, Option.getD_some]
    have both : seen ++ [doc] ++ docs = seen ++ doc :: docs := List.append_assoc _ _ _
    have next : ∀ other row, (table.insert id doc).lookup other = some row →
        row ∈ seen ++ [doc] ∧ docId? config.dump row = some other := by
      intro other row found
      rcases lookup_insert_eq_some found with ⟨rfl, rfl⟩ | ⟨-, was⟩
      · exact ⟨List.mem_append_right _ (.head _), known⟩
      · exact ⟨List.mem_append_left _ (rows other row was).1, (rows other row was).2⟩
    obtain ⟨clean, after⟩ := ih next (fun doc member => identified doc (.tail _ member))
      (both ▸ versions)
    rw [List.map_cons, key]
    refine ⟨⟨fun old found => .inr ⟨id, known, (rows id old found).2, ?_⟩, clean⟩, ?_⟩
    · rw [isCandidateNewer_iff]
      exact (newer_of_append versions (rows id old found).1 (.head _)
        ⟨id, (rows id old found).2, known⟩).le
    · intro other row found
      rw [← both]
      exact after other row found

/-- A row the writes add is one of their documents. -/
theorem present_of_put {time : Nat} {docs : List Json} {row : Json}
    (present : Present config (putDocuments config time docs s) row) :
    Present config s row ∨ row ∈ docs := by
  rcases present with ⟨id, found⟩ | held
  · suffices all : ∀ table : Memtable, (applyWrites table
        (docs.map fun doc => (storageId config time doc, doc))).lookup id = some row →
          table.lookup id = some row ∨ row ∈ docs by
      exact (all _ found).imp_left fun was => .inl ⟨id, was⟩
    clear found
    induction docs with
    | nil => exact fun table found => .inl found
    | cons doc docs ih =>
      intro table found
      rcases ih _ found with early | later
      · rcases lookup_insert_eq_some early with ⟨-, rfl⟩ | ⟨-, was⟩
        · exact .inr (.head _)
        · exact .inl was
      · exact .inr (.tail _ later)
  · exact .inl (.inr held)

/-- What the log held up to the old top, it holds up to the new one. -/
theorem top_subset (inv : ReplicaInv config entries r)
    (whole : NoDrop entries r.lastApplied (max r.top (r.lastApplied + 1))) {row : Json}
    (member : row ∈ liveDocs config entries r.top) :
    row ∈ liveDocs config entries (max r.top (r.lastApplied + 1)) := by
  by_cases behind : r.lastApplied < r.top
  · rwa [max_eq_left behind]
  · have same : r.top = r.lastApplied := le_antisymm (not_lt.mp behind) inv.order
    refine (whole.isPrefix (inv.order.trans (le_max_left _ _))).subset ?_
    rwa [same] at member

theorem stored (inv : ReplicaInv config entries r) (log : VersionedLog config entries) {time : Nat}
    (found : entries[r.lastApplied]? = some entry) (kept : entry.op ≠ .dropCollection) :
    ReplicaInv config entries
      { collection := putDocuments config time (entryDocs config (r.lastApplied + 1) entry) r.collection
        lastApplied := r.lastApplied + 1, top := max r.top (r.lastApplied + 1) } := by
  have all := @liveDocs_succ config entries r.lastApplied entry found kept
  have versions := log.versions (r.lastApplied + 1)
  rw [all] at versions
  have identified : ∀ doc ∈ entryDocs config (r.lastApplied + 1) entry,
      ∃ id, docId? config.dump doc = some id := by
    intro doc member
    obtain ⟨id, key⟩ := log.identified (r.lastApplied + 1) doc
      (all ▸ List.mem_append_right _ member)
    exact ⟨id, (isObject_of_rowKey key).1⟩
  obtain ⟨clean, active⟩ := @cleanWrites config time _ _ _ inv.active identified versions
  constructor
  case layers =>
    exact ⟨inv.layers.files.narrow rfl rfl (fun job name running _ => ⟨running, rfl⟩)
      fun _ _ running => running, inv.layers.handles, inv.layers.handed, inv.layers.readable,
      inv.layers.mergesClean⟩
  case order => exact le_max_right _ _
  case active =>
    dsimp only
    rw [all]
    exact active
  case rows =>
    intro none row present
    have whole := noDrop_of_succ found kept none
    rcases present_of_put present with old | new
    · exact inv.top_subset whole (inv.rows (noDrop_mono whole (le_max_left _ _)) row old)
    · refine (none.isPrefix (le_max_right _ _)).subset ?_
      rw [all]
      exact List.mem_append_right _ new
  case answered =>
    intro none doc member
    have whole := noDrop_of_succ found kept none
    dsimp only at member
    rw [all] at member
    rcases List.mem_append.mp member with old | new
    · rcases inv.answered (noDrop_mono whole (le_max_left _ _)) doc old with
        ⟨row, held, covers⟩ | ⟨tomb, isTop, deleted, covers, least⟩
      · refine .inl ((show Kept config (Present config r.collection) doc from ⟨row, held, covers⟩).trans
          fun row held => ?_)
        rcases held with held | held
        · exact (clean.kept (.inl held)).mono fun _ held => .inl held
        · exact .of_holds (.inr held)
      · -- Either nothing older than the tombstone is written, or that row is newer than `doc`.
        by_cases still : ∀ other, Present config (putDocuments config time
            (entryDocs config (r.lastApplied + 1) entry) r.collection) other →
              SameId config tomb other → docScore tomb ≤ docScore other
        · exact .inr ⟨tomb, inv.top_subset whole isTop, deleted, covers, still⟩
        · simp only [not_forall, not_le] at still
          obtain ⟨other, present, same, older⟩ := still
          rcases present_of_put present with was | written
          · exact absurd (least other was same) older.not_ge
          · have sameDoc : SameId config doc other := by
              rcases covers with rfl | ⟨id, tombId, docsId, -⟩
              · exact same
              · obtain ⟨otherId, again, isOther⟩ := same
                cases tombId.symm.trans again
                exact ⟨id, docsId, isOther⟩
            have newer := newer_of_append versions old written sameDoc
            obtain ⟨id, docsId, othersId⟩ := sameDoc
            exact .inl ⟨other, present, .inr ⟨id, othersId, docsId,
              isCandidateNewer_iff.mpr newer.le⟩⟩
    · refine .inl ((clean.kept (.inr ⟨storageId config time doc, ?_⟩)).mono fun _ held => .inl held)
      exact List.mem_map.mpr ⟨doc, new, rfl⟩

/-- A write that the guard skips is covered by the row that is there. -/
theorem skipped (inv : ReplicaInv config entries r) (log : VersionedLog config entries)
    (found : entries[r.lastApplied]? = some entry) (kept : entry.op ≠ .dropCollection) {doc row : Json}
    {id : String} {incoming version : Int} (writes : entryDocs config (r.lastApplied + 1) entry = [doc])
    (known : docId? config.dump doc = some id) (parsed : parseVersion doc = some incoming)
    (present : Present config r.collection row) (same : isExisting id row = true)
    (rowVersion : parseVersion row = some version) (older : incoming < version) :
    ReplicaInv config entries
      { collection := r.collection, lastApplied := r.lastApplied + 1
        top := max r.top (r.lastApplied + 1) } := by
  have all := @liveDocs_succ config entries r.lastApplied entry found kept
  rw [writes] at all
  have rowId : docId? config.dump row = some id := by
    rw [isExisting, Bool.and_eq_true] at same
    have isId := same.2
    split at isId
    next other isOther =>
      rw [docId?, isOther, beq_iff_eq.mp isId]
    next => cases isId
  constructor
  case layers => exact inv.layers
  case order => exact le_max_right _ _
  case active =>
    intro id row found
    obtain ⟨member, known⟩ := inv.active id row found
    refine ⟨?_, known⟩
    dsimp only
    rw [all]
    exact List.mem_append_left _ member
  case rows =>
    intro none row present
    have whole := noDrop_of_succ found kept none
    exact inv.top_subset whole (inv.rows (noDrop_mono whole (le_max_left _ _)) row present)
  case answered =>
    intro none other member
    have whole := noDrop_of_succ found kept none
    have before := noDrop_mono whole (le_max_left r.top (r.lastApplied + 1))
    dsimp only at member
    rw [all] at member
    rcases List.mem_append.mp member with old | new
    · exact Answered.mono (inv.answered before other old) fun _ isTop => inv.top_subset whole isTop
    · rw [List.mem_singleton.mp new]
      have isRow := inv.top_subset whole (inv.rows before row present)
      have isDoc : doc ∈ liveDocs config entries (max r.top (r.lastApplied + 1)) := by
        refine (none.isPrefix (le_max_right _ _)).subset ?_
        rw [all]
        exact List.mem_append_right _ (.head _)
      have ne : row ≠ doc := by
        rintro rfl
        rw [parsed] at rowVersion
        cases rowVersion
        exact lt_irrefl _ older
      have newer : docScore doc < docScore row := by
        rcases newer_or_newer (log.versions _) isDoc isRow ne.symm with after | before
        · exact (after id known rowId).1
        · exact absurd ((before id rowId known).2 version incoming rowVersion parsed) older.not_ge
      exact .inl ⟨row, present, .inr ⟨id, rowId, known, isCandidateNewer_iff.mpr newer.le⟩⟩

/-- After a drop there is nothing. -/
theorem dropped (inv : ReplicaInv config entries r) {faults : DropFaults}
    (found : entries[r.lastApplied]? = some entry) (drops : entry.op = .dropCollection)
    (done : (r.collection.dropCollection faults).2 = true) :
    ReplicaInv config entries
      { collection := { (r.collection.dropCollection faults).1 with compactions := ∅ }
        lastApplied := r.lastApplied + 1, top := max r.top (r.lastApplied + 1) } := by
  obtain ⟨idle, result⟩ := Collection.dropCollection_done done
  have none := @liveDocs_drop config entries r.lastApplied entry found drops
  constructor
  case layers =>
    rw [result]
    exact ⟨.emptied inv.layers.files.handedOutSafe rfl idle rfl, .nil, by rintro immutable ⟨⟩,
      ⟨[], rfl, by rintro name ⟨⟩⟩, by rintro id job merge ⟨⟩⟩
  case order => exact le_max_right _ _
  case active =>
    rw [result]
    rintro id row ⟨⟩
  case rows =>
    rw [result]
    rintro - row (⟨id, ⟨⟩⟩ | ⟨immutable, ⟨⟩, -⟩ | ⟨names, published, name, member, isRow⟩)
    cases published
    cases member
  case answered =>
    dsimp only
    rw [none]
    rintro - doc ⟨⟩

theorem step (inv : ReplicaInv config entries r) (log : VersionedLog config entries)
    {event : ReplicaEvent} {after : Replica} (clean : r.Clean config entries event)
    (taken : r.step config entries event = some after) : ReplicaInv config entries after := by
  cases event with
  | apply source committedIndex time existing faults =>
    dsimp only [Replica.step] at taken
    split at taken
    · cases taken
    next entry found =>
      obtain ⟨whole, own⟩ := clean entry found
      split at taken
      · cases taken
      next reached =>
        split at taken
        next applied done =>
          cases taken
          cases Applied.of_apply (not_le.mp reached) (fun kept writes => (own kept writes).1) done with
          | dropped drops removed => exact inv.dropped found drops removed
          | stored kept => exact inv.stored log found kept
          | skipped kept writes known parsed member same rowVersion older =>
            have stores : entry.op ≠ .elsewhere := by
              intro elsewhere
              rw [entryDocs, elsewhere] at writes
              cases writes
            exact inv.skipped log found kept writes known parsed ((own kept stores).2 _ member)
              same rowVersion older
        next left failed =>
          cases taken
          have same : left = r.collection :=
            applyReplicatedEntry_failed (fun drops => whole drops) failed
          rw [same]
          exact inv
  | maintain e =>
    dsimp only [Replica.step] at taken
    split at taken
    next maintenance =>
      obtain ⟨s, moved, rfl⟩ := Option.map_eq_some_iff.mp taken
      exact inv.maintained (inv.layers.maintains maintenance clean moved)
    next => cases taken
  | restart clean =>
    dsimp only [Replica.step] at taken
    split at taken
    · cases taken
      exact inv.crashed
    · split at taken
      next flushed =>
        cases taken
        exact inv.restarted flushed
      next => cases taken

end ReplicaInv

/-! ## Digests -/

theorem mem_scannedRows {s : Collection} {names : List String} {row : Json}
    (published : publishedSsts config.codec s.dir = .ok names) :
    row ∈ s.scannedRows names ↔ Present config s row := by
  rw [Collection.scannedRows, Collection.memoryRows, List.mem_append, List.mem_append,
    List.mem_flatMap, List.mem_flatMap, Memtable.mem_rows]
  constructor
  · rintro (⟨name, member, isRow⟩ | ⟨immutable, member, isRow⟩ | active)
    · exact .inr (.inr ⟨names, published, name, member, isRow⟩)
    · exact .inr (.inl ⟨immutable, List.mem_reverse.mp member, Memtable.mem_rows.mp isRow⟩)
    · exact .inl active
  · rintro (active | ⟨immutable, member, isRow⟩ | ⟨others, isOthers, name, member, isRow⟩)
    · exact .inr (.inr active)
    · exact .inr (.inl ⟨immutable, List.mem_reverse.mpr member, Memtable.mem_rows.mpr isRow⟩)
    · cases published.symm.trans isOthers
      exact .inl ⟨name, member, isRow⟩

/-- The newest of the documents of an id. -/
def IsNewest (config : LsmConfig) (docs : List Json) (id : String) (doc : Json) : Prop :=
  doc ∈ docs ∧ rowKey config doc = some id ∧
    ∀ other ∈ docs, rowKey config other = some id → docScore other ≤ docScore doc

/-- Two newest documents of an id are the same. -/
theorem eq_of_docScore_le {docs : List Json} (versions : docs.Pairwise (Newer config)) {doc other : Json}
    {id : String} (member : doc ∈ docs) (isOther : other ∈ docs)
    (known : docId? config.dump doc = some id) (otherKnown : docId? config.dump other = some id)
    (same : docScore doc = docScore other) : doc = other := by
  by_contra ne
  rcases ReplicaInv.newer_or_newer versions member isOther ne with newer | newer
  · exact (newer id known otherKnown).1.ne same
  · exact (newer id otherKnown known).1.ne same.symm

/-- What a scan of an up-to-date replica finds for an id, unless it is a tombstone: the newest
document of the log. -/
theorem ReplicaInv.lastMax_iff {r : Replica} {n : Nat} (inv : ReplicaInv config entries r)
    (log : VersionedLog config entries) (applied : r.lastApplied = n) (top : r.top = n)
    {rows : List Json} (members : ∀ row, row ∈ rows ↔ Present config r.collection row) {id : String}
    {doc : Json} (alive : isDeletedDoc doc = false) :
    lastMax docScore (rowsOf config id rows) = some doc ↔
      IsNewest config (liveDocs config entries n) id doc := by
  subst top
  have none : NoDrop entries r.lastApplied r.top := by
    intro i above below
    omega
  have fromLog : ∀ row ∈ rowsOf config id rows, row ∈ liveDocs config entries r.top ∧
      rowKey config row = some id := by
    intro row member
    rw [rowsOf, List.mem_filter, decide_eq_true_eq] at member
    exact ⟨inv.rows none row ((members row).mp member.1), member.2⟩
  have ofRow : ∀ row, Present config r.collection row → docId? config.dump row = some id →
      id ≠ "" → row ∈ rowsOf config id rows := by
    intro row present known nonempty
    rw [rowsOf, List.mem_filter, decide_eq_true_eq]
    exact ⟨(members row).mpr present, rowKey_eq_some.mpr ⟨known, nonempty⟩⟩
  constructor
  · intro found
    obtain ⟨isDoc, key⟩ := fromLog doc (mem_of_lastMax found)
    obtain ⟨known, nonempty⟩ := rowKey_eq_some.mp key
    refine ⟨isDoc, key, fun other isOther otherKey => ?_⟩
    obtain ⟨otherKnown, -⟩ := rowKey_eq_some.mp otherKey
    rw [← applied] at isOther
    rcases inv.answered none other isOther with ⟨row, present, covers⟩ | ⟨tomb, -, -, covers, least⟩
    · have rowKnown : docId? config.dump row = some id ∧ docScore other ≤ docScore row := by
        rcases covers with rfl | ⟨otherId, rowId, again, newer⟩
        · exact ⟨otherKnown, le_rfl⟩
        · cases otherKnown.symm.trans again
          exact ⟨rowId, isCandidateNewer_iff.mp newer⟩
      exact rowKnown.2.trans (score_le_lastMax found (ofRow row present rowKnown.1 nonempty))
    · have tombKnown : docId? config.dump tomb = some id ∧ docScore other ≤ docScore tomb := by
        rcases covers with rfl | ⟨otherId, tombId, again, newer⟩
        · exact ⟨otherKnown, le_rfl⟩
        · cases otherKnown.symm.trans again
          exact ⟨tombId, isCandidateNewer_iff.mp newer⟩
      have present : Present config r.collection doc := by
        have member := mem_of_lastMax found
        rw [rowsOf, List.mem_filter] at member
        exact (members doc).mp member.1
      exact tombKnown.2.trans (least doc present ⟨id, tombKnown.1, known⟩)
  · rintro ⟨isDoc, key, most⟩
    obtain ⟨known, nonempty⟩ := rowKey_eq_some.mp key
    have versions := log.versions r.top
    -- A document of the log that is not older is `doc` itself.
    have only : ∀ row, row ∈ liveDocs config entries r.top → docId? config.dump row = some id →
        docScore doc ≤ docScore row → row = doc := by
      intro row isRow rowKnown newer
      have below := most row isRow (rowKey_eq_some.mpr ⟨rowKnown, nonempty⟩)
      exact eq_of_docScore_le versions isRow isDoc rowKnown known (le_antisymm below newer)
    have isApplied : doc ∈ liveDocs config entries r.lastApplied := applied ▸ isDoc
    have present : Present config r.collection doc := by
      rcases inv.answered none doc isApplied with ⟨row, present, covers⟩ | ⟨tomb, isTop, deleted, covers, -⟩
      · rcases covers with rfl | ⟨otherId, rowId, again, newer⟩
        · exact present
        · cases known.symm.trans again
          exact only row (inv.rows none row present) rowId (isCandidateNewer_iff.mp newer) ▸ present
      · have same : tomb = doc := by
          rcases covers with rfl | ⟨otherId, tombId, again, newer⟩
          · rfl
          · cases known.symm.trans again
            exact only tomb isTop tombId (isCandidateNewer_iff.mp newer)
        rw [same, alive] at deleted
        cases deleted
    have member := ofRow doc present known nonempty
    cases found : lastMax docScore (rowsOf config id rows) with
    | none =>
      rw [lastMax_eq_none_iff.mp found] at member
      cases member
    | some best =>
      obtain ⟨isBest, bestKey⟩ := fromLog best (mem_of_lastMax found)
      rw [only best isBest (rowKey_eq_some.mp bestKey).1 (score_le_lastMax found member)]

/-- The ids of the documents. -/
def idsOf (config : LsmConfig) (docs : List Json) : List String :=
  (docs.filterMap (rowKey config)).dedup

theorem ReplicaInv.takenRow {r : Replica} {n fence : Nat} (inv : ReplicaInv config entries r)
    (log : VersionedLog config entries) (applied : r.lastApplied = n) (top : r.top = n)
    (reached : n ≤ fence) {row : Json} (present : Present config r.collection row) :
    TakenRow config fence (idsOf config (liveDocs config entries n)) row := by
  subst top
  have isRow := inv.rows (by intro i above below; omega) row present
  obtain ⟨id, key⟩ := log.identified r.top row isRow
  refine ⟨visibleAtFence_liveDocs isRow (isObject_of_rowKey key).2 reached, id, ?_, key⟩
  exact List.mem_dedup.mpr (List.mem_filterMap.mpr ⟨row, isRow, key⟩)

/-- Two replicas that have applied the same committed log up to the same index, and never
beyond it, have the same digest at every fence from there on, as long as the ids fit the
limit: whatever flushes, compactions and restarts either has been through. -/
theorem Replica.digests_agree (config : LsmConfig) (codec : DigestCodec)
    (entries : List CommittedEntry) (log : VersionedLog config entries) (r q : Replica) (n fence : Nat)
    (maxDocs : Nat) (first : Reach (step config entries) (Clean config entries) {} r)
    (second : Reach (step config entries) (Clean config entries) {} q)
    (applied : r.lastApplied = n ∧ r.top = n) (otherApplied : q.lastApplied = n ∧ q.top = n)
    (reached : n ≤ fence) (fits : (idsOf config (liveDocs config entries n)).length ≤ maxDocs) :
    logicalDigest config codec r.collection fence maxDocs =
      logicalDigest config codec q.collection fence maxDocs := by
  by_cases limit : maxDocs = 0
  · rw [logicalDigest, if_pos limit, logicalDigest, if_pos limit]
  have inv : ReplicaInv config entries r := first.invariant .init fun inv clean taken =>
    inv.step log clean taken
  have otherInv : ReplicaInv config entries q := second.invariant .init fun inv clean taken =>
    inv.step log clean taken
  obtain ⟨names, published, bodies⟩ := inv.layers.readable
  obtain ⟨others, otherPublished, otherBodies⟩ := otherInv.layers.readable
  refine logicalDigest_congr published bodies (fun row member => ?_) otherPublished otherBodies
    (fun row member => ?_) fits limit
    (fun id doc alive => inv.lastMax_iff log applied.1 applied.2 (fun _ => mem_scannedRows published) alive)
    fun id doc alive => otherInv.lastMax_iff log otherApplied.1 otherApplied.2
      (fun _ => mem_scannedRows otherPublished) alive
  · exact inv.takenRow log applied.1 applied.2 reached ((mem_scannedRows published).mp member)
  · exact otherInv.takenRow log otherApplied.1 otherApplied.2 reached
      ((mem_scannedRows otherPublished).mp member)

/-! ## One insert on two nodes -/

/-- An engine with peers. -/
def replicated : LsmConfig := { standalone with raft := { enabled := true, standaloneBypass := false } }

/-- A log of one insert of term 1. -/
def oneInsert : List CommittedEntry := [{ term := 1, op := .insert, data := versionOne "a" }]

/-- The row of that insert, stamped with a term. -/
def insertedRow (term : Nat) : Json :=
  putDocument replicated 1 (propagateCommitMetadata 1 term
    (markEntryCommittedVisible 1 term (versionOne "a")))

/-- A node that has applied it under a term. -/
def appliedUnder (term : Nat) : Replica where
  collection := putDocuments replicated 0 [insertedRow term] {}
  lastApplied := 1
  top := 1

theorem liveDocs_oneInsert (n : Nat) :
    liveDocs replicated oneInsert n = if n = 0 then [] else [insertedRow 1] := by
  induction n with
  | zero => rfl
  | succ n ih =>
    cases n with
    | zero => rfl
    | succ n =>
      have none : oneInsert[n + 1]? = none := rfl
      rw [liveDocs, none]
      exact ih

theorem versionedLog_oneInsert : VersionedLog replicated oneInsert where
  identified := by
    intro n doc member
    rw [liveDocs_oneInsert] at member
    split at member
    · cases member
    · rw [List.mem_singleton.mp member]
      exact ⟨"a", by decide⟩
  versions := by
    intro n
    rw [liveDocs_oneInsert]
    split
    · exact .nil
    · exact List.pairwise_singleton _ _

theorem reach_appliedUnder (source : ApplySource) (own : ∀ entry ∈ oneInsert,
      source.stampedTerm entry = entry.term) {r : Replica}
    (reached : Reach (Replica.step replicated oneInsert) (Replica.Clean replicated oneInsert) {} r)
    (fresh : r.lastApplied = 0)
    (taken : r.step replicated oneInsert (.apply source 1 0 [] {}) = some (appliedUnder 1)) :
    Reach (Replica.step replicated oneInsert) (Replica.Clean replicated oneInsert) {}
      (appliedUnder 1) := by
  refine reached.tail (e := .apply source 1 0 [] {}) ?_ taken
  intro entry found
  rw [fresh] at found
  refine ⟨?_, fun _ _ => ⟨own entry (List.mem_of_getElem? found), ?_⟩⟩
  · cases found
    rintro ⟨⟩
  · rintro doc ⟨⟩

/-- Applied live in its own term on one node, and again after a crash on the other. -/
theorem Replica.digests_agree_oneInsert :
    ∃ r q, run (step replicated oneInsert) {} [.apply (.live 1) 1 0 [] {}] = some r ∧
      run (step replicated oneInsert) {}
        [.apply (.live 1) 1 0 [] {}, .restart false, .apply .replay 1 0 [] {}] = some q ∧
      logicalDigest replicated msgpackSha256 r.collection 1 1 =
        logicalDigest replicated msgpackSha256 q.collection 1 1 := by
  have live : Reach (step replicated oneInsert) (Clean replicated oneInsert) {} (appliedUnder 1) :=
    reach_appliedUnder (.live 1) (by simp [oneInsert, ApplySource.stampedTerm]) .refl rfl rfl
  have replayed : Reach (step replicated oneInsert) (Clean replicated oneInsert) {} (appliedUnder 1) :=
    reach_appliedUnder .replay (by simp [ApplySource.stampedTerm])
      (live.tail (e := .restart false) trivial rfl) rfl rfl
  exact ⟨appliedUnder 1, appliedUnder 1, rfl, rfl,
    digests_agree replicated msgpackSha256 oneInsert versionedLog_oneInsert _ _ 1 1 1 live replayed
      ⟨rfl, rfl⟩ ⟨rfl, rfl⟩ le_rfl (by rw [liveDocs_oneInsert]; decide)⟩

/-- The follower that applies the insert after its term has advanced stores another row than
the one that replays it. -/
theorem Replica.digests_differ :
    ∃ r q, run (step replicated oneInsert) {} [.apply (.live 2) 1 0 [] {}] = some r ∧
      run (step replicated oneInsert) {}
        [.apply (.live 1) 1 0 [] {}, .restart false, .apply .replay 1 0 [] {}] = some q ∧
      r.lastApplied = q.lastApplied ∧
      logicalDigest replicated msgpackSha256 r.collection 1 1 ≠
        logicalDigest replicated msgpackSha256 q.collection 1 1 := by
  refine ⟨appliedUnder 2, appliedUnder 1, rfl, rfl, rfl, ?_⟩
  have first : (logicalDigest replicated msgpackSha256 (appliedUnder 2).collection 1 1).toOption ≠
      (logicalDigest replicated msgpackSha256 (appliedUnder 1).collection 1 1).toOption := by
    decide +kernel
  exact fun same => first (congrArg Except.toOption same)

end PacificDb.Raft
