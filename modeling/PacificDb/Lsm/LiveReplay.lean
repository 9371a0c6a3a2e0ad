import PacificDb.Engine.Stamp
import PacificDb.Lsm.Collection
import Mathlib.Data.List.Induction

/-!
# Replay of live writes

A write without Raft appends a record to the collection's WAL and then changes the
memtable. After a crash `restoreFromWal` reads the records again. Each of the four has
its own code for ids: `put` stores the text of an id and logs the document so,
`putMany` files a document under the text of its id and keeps the id as it is, `del`
only knows texts, and the replay turns every id into text.

So a replay rebuilds what the memtable held (`restores_iff`), unless the last write of
an id was a document of `putMany` whose id is not a string.

A record is the JSON value that was logged. The members that the WAL adds for its own
checks are not read by the replay and left out.
-/

namespace PacificDb.Lsm

open Lib

/-! ## Records -/

structure Namespace where
  userId : String
  database : String
  collection : String
  deriving DecidableEq

/-- The check of `VectorSchemaRegistry::validateRecord`: it looks at the members `vector`
and `vectors` of an object. -/
structure RecordSchema where
  check : Bool → Option Json → Option Json → Except String Unit

def validateRecord (schema : RecordSchema) (doc : Json) : Except String Unit :=
  schema.check doc.isObject (doc.field? "vector") (doc.field? "vectors")

def walEntry (ns : Namespace) (op : String) (rest : List (String × Json)) : Json :=
  .object ([("op", .string op), ("userId", .string ns.userId), ("db", .string ns.database),
    ("collection", .string ns.collection)] ++ rest)

/-- The entry that a write logs. -/
def Event.walEntry (ns : Namespace) (e : Event) (docs : List Json) : Json :=
  match e with
  | .putMany .. => Lsm.walEntry ns "PUT_BATCH" [("data", .array docs), ("_wal_batch_format", .integer 1)]
  | .del id .. => Lsm.walEntry ns "DELETE" (("id", .string id) :: (docs.map fun tomb => ("data", tomb)))
  | _ => Lsm.walEntry ns "PUT" (docs.map fun stored => ("data", stored))

/-- The documents of a put are checked first; a tombstone is not. -/
def Event.validates (schema : RecordSchema) : Event → Bool
  | .put doc .. => (validateRecord schema doc).isOk
  | .putMany docs .. => docs.all fun doc => (validateRecord schema doc).isOk
  | _ => true

/-- A collection with the records that its WAL holds. -/
structure Journal where
  collection : Collection := {}
  records : List (Nat × Json) := []

/-- An acknowledged write: none when it throws. A batch without documents returns at
once. -/
def Journal.write (config : LsmConfig) (ns : Namespace) (schema : RecordSchema) (j : Journal)
    (e : Event) : Option Journal :=
  match e with
  | .putMany [] _ _ _ => some j
  | e =>
      if !e.validates schema then none
      else
        match e.writes config j.collection, step config j.collection e with
        | some (docs, _), some t =>
            some ⟨t, j.records ++ [(j.collection.nextLsn, e.walEntry ns docs)]⟩
        | _, _ => none

/-! ## Replay -/

/-- `value(name, default)` for a text. -/
def stringOr (doc : Json) (name default : String) : Except String String :=
  match doc.field? name with
  | none => .ok default
  | some (.string text) => .ok text
  | some _ => .error "type must be string"

/-- The mutations of an entry. -/
def entryMutations (op : String) (entry : Json) : Except String (List Json) :=
  if op = "PUT_BATCH" then
    match entry.field? "data" with
    | some (.array (first :: rest)) => .ok ((first :: rest).map fun document =>
        .object [("op", .string "PUT"), ("data", document)])
    | _ => .error "PUT_BATCH WAL entry has no documents"
  else if op = "WAL_BATCH" then
    match entry.field? "mutations" with
    | some (.array (first :: rest)) => .ok (first :: rest)
    | _ => .error "WAL_BATCH entry has no mutations"
  else .ok [entry]

/-- The document of a mutation. -/
def mutationDocument (op : String) (mutation : Json) : Except String Json :=
  if op = "DELETE" then do
    let id ← stringOr mutation "id" ""
    ensure (!id.isEmpty) "DELETE WAL entry has no id"
    match mutation.field? "data" with
    | some (.object members) => .ok (.object members)
    | _ => .ok (.object [("id", .string id), ("_deleted", .bool true)])
  else
    match mutation.field? "data" with
    | some (.object members) => .ok (.object members)
    | _ => .error "mutation WAL entry has no object data"

/-- The document under the text of its id. -/
def normalizeDocument (config : LsmConfig) (document : Json) : Except String (String × Json) :=
  match docId? config.dump document with
  | none => .error "mutation WAL document has no id"
  | some id => .ok (id, document.set "id" (.string id))

def replayMutation (config : LsmConfig) (schema : RecordSchema) (ns : Namespace) (mutation : Json) :
    Except String (String × Json) := do
  ensure mutation.isObject "WAL batch mutation is not an object"
  let userId ← stringOr mutation "userId" ns.userId
  let database ← stringOr mutation "db" ns.database
  let collection ← stringOr mutation "collection" ns.collection
  ensure (⟨userId, database, collection⟩ == ns) "WAL batch namespace identity changed"
  let op ← stringOr mutation "op" "PUT"
  let document ← mutationDocument op mutation
  let normalized ← normalizeDocument config document
  if op = "DELETE" then return normalized
  else do
    validateRecord schema normalized.2
    return normalized

/-- What the replay has built: the memtable, and the memtables it has flushed on the way,
newest first. -/
structure Replayed where
  expected : Option Namespace := none
  memtable : Memtable := ∅
  flushed : List Memtable := []

/-- The document of an id in the newest layer that holds it. -/
def Replayed.lookup (r : Replayed) (id : String) : Option Json :=
  (r.memtable :: r.flushed).findSome? (·.lookup id)

def Replayed.flush (r : Replayed) : Replayed :=
  if r.memtable.keys.isEmpty then r
  else { r with memtable := ∅, flushed := r.memtable :: r.flushed }

/-- The writes of a record, with a flush when the memtable is full. -/
def Replayed.apply (limit : Nat) (r : Replayed) (documents : List (String × Json)) : Replayed :=
  let applied := { r with memtable := applyWrites r.memtable documents }
  if limit ≤ applied.memtable.keys.length then applied.flush else applied

/-- The callback of `replayCollectionWal`. -/
def replayEntry (config : LsmConfig) (schema : RecordSchema) (limit coveredLsn : Nat) (r : Replayed)
    (record : Nat × Json) : Except String Replayed := do
  ensure record.2.isObject "WAL entry is not an object"
  let userId ← stringOr record.2 "userId" ""
  let database ← stringOr record.2 "db" ""
  let collection ← stringOr record.2 "collection" ""
  ensure (!userId.isEmpty && !database.isEmpty && !collection.isEmpty)
    "WAL entry has no namespace identity"
  let ns : Namespace := ⟨userId, database, collection⟩
  ensure (r.expected.all (· == ns)) "collection WAL namespace identity changed"
  let known := { r with expected := some ns }
  if record.1 ≤ coveredLsn then return known
  else do
    let op ← stringOr record.2 "op" "PUT"
    let mutations ← entryMutations op record.2
    let documents ← mutations.mapM (replayMutation config schema ns)
    return known.apply limit documents

/-- `restoreFromWal` on the collection: what is left in the memtable is flushed at the end. -/
def restoreFromWal (config : LsmConfig) (schema : RecordSchema) (limit : Nat) (j : Journal) :
    Except String Replayed :=
  match j.records, load config.codec j.collection.dir with
  | [], _ => .ok {}
  | _ :: _, .error reason =>
      .error ("collection WAL replay failed: invalid recovery manifest: " ++ reason)
  | records, loaded => do
      let coveredLsn := (loaded.manifest?.map LsmManifest.coveredWalLsn).getD 0
      let replayed ← records.foldlM (replayEntry config schema limit coveredLsn) {}
      return replayed.flush

/-! ## The last write of an id -/

section LastOf

variable {β γ : Type} {id : String}

/-- What the last of the pairs of an id holds. -/
def lastOf (id : String) (pairs : List (String × β)) : Option β :=
  (pairs.filter fun pair => pair.1 == id).getLast?.map Prod.snd

theorem lastOf_append (pairs more : List (String × β)) :
    lastOf id (pairs ++ more) = (lastOf id more).or (lastOf id pairs) := by
  unfold lastOf
  rw [List.filter_append, List.getLast?_append]
  cases (more.filter fun pair => pair.1 == id).getLast? <;> rfl

theorem lastOf_singleton (pair : String × β) :
    lastOf id [pair] = if pair.1 = id then some pair.2 else none := by
  unfold lastOf
  rw [List.filter_cons]
  by_cases own : pair.1 = id
  · rw [if_pos (beq_iff_eq.mpr own), if_pos own]
    rfl
  · rw [if_neg (by simpa using own), if_neg own]
    rfl

theorem lastOf_map (f : String → β → γ) (pairs : List (String × β)) :
    lastOf id (pairs.map fun pair => (pair.1, f pair.1 pair.2)) = (lastOf id pairs).map (f id) := by
  induction pairs using List.reverseRecOn with
  | nil => rfl
  | append_singleton pairs pair ih =>
    rw [List.map_append, lastOf_append, ih, lastOf_append, List.map_singleton, lastOf_singleton,
      lastOf_singleton]
    by_cases own : pair.1 = id
    · rw [if_pos own, if_pos own, own]
      rfl
    · rw [if_neg own, if_neg own]
      rfl

theorem lookup_applyWrites (table : Memtable) (writes : List (String × Json)) :
    (applyWrites table writes).lookup id = (lastOf id writes).or (table.lookup id) := by
  induction writes using List.reverseRecOn with
  | nil => rfl
  | append_singleton writes write ih =>
    have applied : applyWrites table (writes ++ [write]) =
        (applyWrites table writes).insert write.1 write.2 := by
      rw [applyWrites, List.foldl_append]
      rfl
    rw [applied, lastOf_append, lastOf_singleton]
    by_cases own : write.1 = id
    · rw [if_pos own, own, AList.lookup_insert]
      rfl
    · rw [if_neg own, AList.lookup_insert_ne (Ne.symm own), ih]
      rfl

end LastOf

namespace Replayed

variable {r : Replayed} {id : String} {documents : List (String × Json)} {limit : Nat}

theorem lookup_eq : r.lookup id = (r.memtable.lookup id).or (r.flushed.findSome? (·.lookup id)) := by
  rw [lookup, List.findSome?_cons]
  cases r.memtable.lookup id <;> rfl

/-- A flush moves documents and changes none. -/
theorem lookup_flush : r.flush.lookup id = r.lookup id := by
  unfold flush
  split
  · rfl
  · rw [lookup, List.findSome?_cons, AList.lookup_empty]
    rfl

theorem lookup_apply :
    (r.apply limit documents).lookup id = (lastOf id documents).or (r.lookup id) := by
  have applied : ({ r with memtable := applyWrites r.memtable documents } : Replayed).lookup id =
      (lastOf id documents).or (r.lookup id) := by
    rw [lookup_eq, lookup_eq, lookup_applyWrites, Option.or_assoc]
  unfold apply
  dsimp only
  split
  · rw [lookup_flush, applied]
  · exact applied

theorem expected_apply : (r.apply limit documents).expected = r.expected := by
  unfold apply flush
  dsimp only
  split
  · split <;> rfl
  · rfl

end Replayed

/-! ## Records read back -/

section ReadBack

variable {config : LsmConfig} {schema : RecordSchema} {ns : Namespace} {limit coveredLsn lsn : Nat}
  {r : Replayed} {id : String} {doc : Json}

/-- The parts of the namespace are storage identifiers, which are not empty. -/
def Namespace.Named (ns : Namespace) : Prop :=
  (!ns.userId.isEmpty && !ns.database.isEmpty && !ns.collection.isEmpty) = true

theorem validateRecord_congr {other : Json} (object : doc.isObject = other.isObject)
    (vector : doc.field? "vector" = other.field? "vector")
    (vectors : doc.field? "vectors" = other.field? "vectors") :
    validateRecord schema doc = validateRecord schema other := by
  unfold validateRecord
  rw [object, vector, vectors]

theorem validateRecord_set_id (text : String) :
    validateRecord schema (doc.set "id" (.string text)) = validateRecord schema doc :=
  validateRecord_congr (Json.isObject_set _ _ _) (Json.field?_set_ne (by decide))
    (Json.field?_set_ne (by decide))

theorem validateRecord_stamped {commitIndex : Nat} :
    validateRecord schema (stampVisibilityMetadata config.raft doc commitIndex) =
      validateRecord schema doc :=
  validateRecord_congr isObject_stampVisibilityMetadata (field?_stampVisibilityMetadata (by decide))
    (field?_stampVisibilityMetadata (by decide))

theorem normalizeDocument_ok (known : docId? config.dump doc = some id) :
    normalizeDocument config doc = .ok (id, doc.set "id" (.string id)) := by
  rw [normalizeDocument, known]

/-- A record of the namespace behind the boundary is applied. -/
theorem replayEntry_walEntry {op : String} {rest : List (String × Json)} {mutations : List Json}
    {documents : List (String × Json)} (named : ns.Named)
    (expected : r.expected.all (· == ns) = true) (behind : coveredLsn < lsn)
    (isMutations : entryMutations op (walEntry ns op rest) = .ok mutations)
    (isDocuments : mutations.mapM (replayMutation config schema ns) = .ok documents) :
    replayEntry config schema limit coveredLsn r (lsn, walEntry ns op rest) =
      .ok (({ r with expected := some ns } : Replayed).apply limit documents) := by
  unfold replayEntry
  refine bind_eq_ok.mpr ⟨(), rfl, bind_eq_ok.mpr ⟨ns.userId, rfl, bind_eq_ok.mpr ⟨ns.database, rfl,
    bind_eq_ok.mpr ⟨ns.collection, rfl, ?_⟩⟩⟩⟩
  refine bind_eq_ok.mpr ⟨(), ensure_eq_ok.mpr named, bind_eq_ok.mpr ⟨(), ensure_eq_ok.mpr expected, ?_⟩⟩
  rw [if_neg (not_le_of_gt behind)]
  exact bind_eq_ok.mpr ⟨op, rfl, bind_eq_ok.mpr ⟨mutations, isMutations,
    bind_eq_ok.mpr ⟨documents, isDocuments, rfl⟩⟩⟩

/-- A put of an identified object that passes the schema. -/
theorem replayMutation_put {mutation : Json} (object : mutation.isObject = true)
    (userId : stringOr mutation "userId" ns.userId = .ok ns.userId)
    (database : stringOr mutation "db" ns.database = .ok ns.database)
    (collection : stringOr mutation "collection" ns.collection = .ok ns.collection)
    (op : stringOr mutation "op" "PUT" = .ok "PUT") (data : mutation.field? "data" = some doc)
    (known : docId? config.dump doc = some id) (valid : validateRecord schema doc = .ok ()) :
    replayMutation config schema ns mutation = .ok (id, doc.set "id" (.string id)) := by
  have document : mutationDocument "PUT" mutation = .ok doc := by
    have isObject := isObject_of_docId? known
    unfold mutationDocument
    rw [if_neg (by decide), data]
    cases doc with
    | object members => rfl
    | _ => cases isObject
  unfold replayMutation
  refine bind_eq_ok.mpr ⟨(), ensure_eq_ok.mpr object, bind_eq_ok.mpr ⟨_, userId,
    bind_eq_ok.mpr ⟨_, database, bind_eq_ok.mpr ⟨_, collection, ?_⟩⟩⟩⟩
  refine bind_eq_ok.mpr ⟨(), ensure_eq_ok.mpr (beq_self_eq_true ns), bind_eq_ok.mpr ⟨_, op,
    bind_eq_ok.mpr ⟨doc, document, bind_eq_ok.mpr ⟨_, normalizeDocument_ok known, ?_⟩⟩⟩⟩
  rw [if_neg (by decide)]
  refine bind_eq_ok.mpr ⟨(), ?_, rfl⟩
  rw [validateRecord_set_id, valid]

/-- A tombstone of an id that is not empty. -/
theorem replayMutation_delete (named : id ≠ "") (known : docId? config.dump doc = some id) :
    replayMutation config schema ns (walEntry ns "DELETE" [("id", .string id), ("data", doc)]) =
      .ok (id, doc.set "id" (.string id)) := by
  have document : mutationDocument "DELETE"
      (walEntry ns "DELETE" [("id", .string id), ("data", doc)]) = .ok doc := by
    have isObject := isObject_of_docId? known
    unfold mutationDocument
    rw [if_pos rfl]
    refine bind_eq_ok.mpr ⟨id, rfl, bind_eq_ok.mpr ⟨(), ensure_eq_ok.mpr ?_, ?_⟩⟩
    · rw [Bool.not_eq_true', ← Bool.not_eq_true, String.isEmpty_iff]
      exact named
    · cases doc with
      | object members => rfl
      | _ => cases isObject
  unfold replayMutation
  refine bind_eq_ok.mpr ⟨(), rfl, bind_eq_ok.mpr ⟨_, rfl, bind_eq_ok.mpr ⟨_, rfl,
    bind_eq_ok.mpr ⟨_, rfl, ?_⟩⟩⟩⟩
  refine bind_eq_ok.mpr ⟨(), ensure_eq_ok.mpr (beq_self_eq_true ns), bind_eq_ok.mpr ⟨_, rfl,
    bind_eq_ok.mpr ⟨doc, document, bind_eq_ok.mpr ⟨_, normalizeDocument_ok known, ?_⟩⟩⟩⟩
  rw [if_pos rfl]
  rfl

/-- The mutations of a batch. -/
theorem mapM_replayMutation {docs : List Json} {key : Json → String}
    (known : ∀ doc ∈ docs, docId? config.dump doc = some (key doc))
    (valid : ∀ doc ∈ docs, validateRecord schema doc = .ok ()) :
    (docs.map fun document => Json.object [("op", .string "PUT"), ("data", document)]).mapM
      (replayMutation config schema ns) =
        .ok (docs.map fun doc => (key doc, doc.set "id" (.string (key doc)))) := by
  induction docs with
  | nil => rfl
  | cons doc docs ih =>
    obtain ⟨first, rest⟩ := List.forall_mem_cons.mp known
    obtain ⟨firstValid, restValid⟩ := List.forall_mem_cons.mp valid
    have one : replayMutation config schema ns
        (Json.object [("op", .string "PUT"), ("data", doc)]) =
          .ok (key doc, doc.set "id" (.string (key doc))) :=
      replayMutation_put rfl rfl rfl rfl rfl rfl first firstValid
    rw [List.map_cons, List.mapM_cons, one, ih rest restValid]
    rfl

end ReadBack

/-! ## One write -/

section OneWrite

variable {config : LsmConfig} {schema : RecordSchema} {ns : Namespace} {limit coveredLsn lsn : Nat}
  {r : Replayed} {e : Event} {s : Collection} {docs : List Json} {writes : List (String × Json)}
  {applied rollover : Bool}

/-- A document that `insert` and `insertMany` take as it is. -/
def AcceptedDoc (doc : Json) : Prop := doc.isObject = true ∧ Engine.needsId doc = false

/-- The writes of accepted documents and the deletes of their ids. -/
def Event.Accepted : Event → Prop
  | .put doc .. => AcceptedDoc doc
  | .putMany docs .. => ∀ doc ∈ docs, AcceptedDoc doc
  | .del id .. => id ≠ ""
  | _ => False

def hasStringId (doc : Json) : Bool :=
  match doc.field? "id" with
  | some (.string _) => true
  | _ => false

/-- The ids that a write stores, as text, and whether the stored document has that text:
`putMany` keeps an id that is no string. -/
def Event.storedIds (config : LsmConfig) : Event → List (String × Bool)
  | .put doc .. => ((docId? config.dump doc).map fun id => (id, true)).toList
  | .putMany docs .. => docs.filterMap fun doc =>
      (docId? config.dump doc).map fun id => (id, hasStringId doc)
  | .del id .. => [(id, true)]
  | _ => []

theorem AcceptedDoc.docId? {doc : Json} (accepted : AcceptedDoc doc) :
    ∃ id, docId? config.dump doc = some id := by
  have needed := accepted.2
  unfold Engine.needsId at needed
  unfold PacificDb.docId?
  cases found : doc.field? "id" with
  | none =>
    rw [found] at needed
    cases needed
  | some value =>
    cases value with
    | string id => exact ⟨id, rfl⟩
    | _ => exact ⟨_, rfl⟩

theorem docId?_stamped {doc : Json} {commitIndex : Nat} :
    docId? config.dump (stampVisibilityMetadata config.raft doc commitIndex) =
      docId? config.dump doc := by
  unfold docId?
  rw [field?_stampVisibilityMetadata (by decide)]

theorem hasStringId_stamped {doc : Json} {commitIndex : Nat} :
    hasStringId (stampVisibilityMetadata config.raft doc commitIndex) = hasStringId doc := by
  unfold hasStringId
  rw [field?_stampVisibilityMetadata (by decide)]

theorem hasStringId_iff {doc : Json} {id : String} (known : docId? config.dump doc = some id) :
    hasStringId doc = true ↔ doc.field? "id" = some (.string id) := by
  unfold docId? at known
  unfold hasStringId
  split at known
  next text found =>
    cases known
    rw [found]
    exact iff_of_true rfl rfl
  next value isValue found =>
    rw [found]
    constructor
    · intro text
      cases value with
      | string other => exact absurd rfl (isValue other)
      | _ => cases text
    · intro same
      cases same
      exact absurd rfl (isValue id)
  next => cases known

/-- What a write does to the memtable, and what its record does at the replay. -/
structure Logged (config : LsmConfig) (schema : RecordSchema) (ns : Namespace) (e : Event)
    (docs : List Json) (writes : List (String × Json)) : Prop where
  keyed : ∀ write ∈ writes, docId? config.dump write.2 = some write.1
  ids : (writes.map fun write => (write.1, hasStringId write.2)) = e.storedIds config
  replays : ∀ {limit coveredLsn lsn : Nat} {r : Replayed}, r.expected.all (· == ns) = true →
    coveredLsn < lsn → replayEntry config schema limit coveredLsn r (lsn, e.walEntry ns docs) =
      .ok (({ r with expected := some ns } : Replayed).apply limit
        (writes.map fun write => (write.1, write.2.set "id" (.string write.1))))

theorem logged_put {doc : Json} {commitIndex time : Nat} {roll : Bool} (named : ns.Named)
    (accepted : AcceptedDoc doc) (valid : validateRecord schema doc = .ok ()) :
    Logged config schema ns (.put doc commitIndex time roll) [putDocument config commitIndex doc]
      [(storageId config time (putDocument config commitIndex doc),
        putDocument config commitIndex doc)] := by
  obtain ⟨id, known⟩ := @AcceptedDoc.docId? config doc accepted
  have stampedKnown : docId? config.dump (stampVisibilityMetadata config.raft doc commitIndex) =
      some id := docId?_stamped.trans known
  have stored : putDocument config commitIndex doc =
      (stampVisibilityMetadata config.raft doc commitIndex).set "id" (.string id) := by
    rw [putDocument, stampedKnown]
  have storedKnown : docId? config.dump (putDocument config commitIndex doc) = some id := by
    rw [stored, docId?_set_id (isObject_of_docId? stampedKnown)]
  have isKey : storageId config time (putDocument config commitIndex doc) = id := by
    rw [storageId, storedKnown]
    rfl
  have storedValid : validateRecord schema (putDocument config commitIndex doc) = .ok () := by
    rw [stored, validateRecord_set_id, validateRecord_stamped, valid]
  rw [isKey]
  refine ⟨?_, ?_, ?_⟩
  · intro write member
    rw [List.mem_singleton] at member
    rw [member]
    exact storedKnown
  · rw [List.map_singleton, Event.storedIds, known]
    have text : hasStringId (putDocument config commitIndex doc) = true := by
      rw [hasStringId_iff storedKnown, stored, Json.field?_set_self (isObject_of_docId? stampedKnown)]
    rw [text]
    rfl
  · intro limit coveredLsn lsn r expected behind
    refine replayEntry_walEntry named expected behind rfl ?_
    rw [List.mapM_cons, replayMutation_put rfl rfl rfl rfl rfl rfl storedKnown storedValid]
    rfl

theorem logged_del {id : String} {previousVersion : Nat} {nowNs nowMs : Int} {commitIndex version : Nat}
    {roll : Bool} (named : ns.Named) (nonempty : id ≠ "") :
    Logged config schema ns (.del id previousVersion nowNs nowMs commitIndex roll)
      [tombstone config commitIndex id version nowMs]
      [(id, tombstone config commitIndex id version nowMs)] := by
  have known : docId? config.dump (tombstone config commitIndex id version nowMs) = some id := by
    unfold tombstone
    rw [docId?_stamped]
    rfl
  have text : hasStringId (tombstone config commitIndex id version nowMs) = true := by
    unfold tombstone
    rw [hasStringId_stamped]
    rfl
  refine ⟨?_, ?_, ?_⟩
  · intro write member
    rw [List.mem_singleton] at member
    rw [member]
    exact known
  · rw [List.map_singleton, Event.storedIds, text]
  · intro limit coveredLsn lsn r expected behind
    refine replayEntry_walEntry named expected behind rfl ?_
    have one : replayMutation config schema ns (Event.walEntry ns
        (.del id previousVersion nowNs nowMs commitIndex roll)
          [tombstone config commitIndex id version nowMs]) =
            .ok (id, (tombstone config commitIndex id version nowMs).set "id" (.string id)) :=
      replayMutation_delete nonempty known
    exact List.mapM_cons.trans (bind_eq_ok.mpr ⟨_, one, rfl⟩)

theorem logged_putMany {batch : List Json} {commitIndex time : Nat} {roll : Bool} (named : ns.Named)
    (nonempty : batch ≠ []) (accepted : ∀ doc ∈ batch, AcceptedDoc doc)
    (valid : ∀ doc ∈ batch, validateRecord schema doc = .ok ()) :
    Logged config schema ns (.putMany batch commitIndex time roll)
      (batch.map fun doc => stampVisibilityMetadata config.raft doc commitIndex)
      (((batch.map fun doc => stampVisibilityMetadata config.raft doc commitIndex).filter
        Json.isObject).map fun doc => (storageId config time doc, doc)) := by
  have objects : (batch.map fun doc => stampVisibilityMetadata config.raft doc commitIndex).filter
      Json.isObject = batch.map fun doc => stampVisibilityMetadata config.raft doc commitIndex := by
    apply List.filter_eq_self.mpr
    intro stored member
    obtain ⟨doc, isDoc, rfl⟩ := List.mem_map.mp member
    rw [isObject_stampVisibilityMetadata]
    exact (accepted doc isDoc).1
  have known : ∀ stored ∈ batch.map fun doc => stampVisibilityMetadata config.raft doc commitIndex,
      docId? config.dump stored = some (storageId config time stored) := by
    intro stored member
    obtain ⟨doc, isDoc, rfl⟩ := List.mem_map.mp member
    obtain ⟨id, isId⟩ := @AcceptedDoc.docId? config doc (accepted doc isDoc)
    rw [storageId, docId?_stamped, isId]
    rfl
  have storedValid : ∀ stored ∈ batch.map fun doc =>
      stampVisibilityMetadata config.raft doc commitIndex, validateRecord schema stored = .ok () := by
    intro stored member
    obtain ⟨doc, isDoc, rfl⟩ := List.mem_map.mp member
    rw [validateRecord_stamped, valid doc isDoc]
  rw [objects]
  refine ⟨?_, ?_, ?_⟩
  · intro write member
    obtain ⟨stored, isStored, rfl⟩ := List.mem_map.mp member
    exact known stored isStored
  · clear valid storedValid objects nonempty
    rw [Event.storedIds]
    induction batch with
    | nil => rfl
    | cons doc batch ih =>
      obtain ⟨-, rest⟩ := List.forall_mem_cons.mp accepted
      obtain ⟨id, isId⟩ := @AcceptedDoc.docId? config doc (accepted doc (.head _))
      have first : docId? config.dump (stampVisibilityMetadata config.raft doc commitIndex) =
          some id := docId?_stamped.trans isId
      rw [List.map_cons, List.map_cons, List.map_cons,
        ih rest fun stored member => known stored (.tail _ member), List.filterMap_cons, isId,
        storageId, first, hasStringId_stamped]
      rfl
  · intro limit coveredLsn lsn r expected behind
    refine replayEntry_walEntry named expected behind ?_ ((mapM_replayMutation known storedValid).trans ?_)
    · rw [entryMutations, if_pos rfl]
      cases batch with
      | nil => exact absurd rfl nonempty
      | cons doc batch => rfl
    · simp only [List.map_map, Function.comp_def]

/-- Every acknowledged write that logs a record. -/
theorem logged_of_writes (named : ns.Named) (accepted : e.Accepted)
    (valid : e.validates schema = true) (nonempty : ∀ commitIndex time roll,
      e ≠ .putMany [] commitIndex time roll)
    (made : e.writes config s = some (docs, writes, applied, rollover)) :
    Logged config schema ns e docs writes := by
  have isOk : ∀ {doc}, (validateRecord schema doc).isOk = true →
      validateRecord schema doc = .ok () := by
    intro doc passes
    cases result : validateRecord schema doc with
    | error reason =>
      rw [result] at passes
      cases passes
    | ok done => rfl
  cases e with
  | put doc commitIndex time roll =>
    cases made
    exact logged_put named accepted (isOk valid)
  | putMany batch commitIndex time roll =>
    cases made
    refine logged_putMany named ?_ accepted ?_
    · rintro rfl
      exact nonempty _ _ _ rfl
    · intro doc member
      exact isOk (List.all_eq_true.mp valid doc member)
  | del id previousVersion nowNs nowMs commitIndex roll =>
    obtain ⟨version, -, made⟩ := Option.bind_eq_some_iff.mp made
    cases made
    exact logged_del named accepted
  | _ => cases made

end OneWrite

/-! ## A run of writes -/

section Writes

variable {config : LsmConfig} {schema : RecordSchema} {ns : Namespace} {limit : Nat}
  {init j next : Journal} {e : Event} {events : List Event}

/-- What an acknowledged write does. -/
theorem write_cases (wrote : j.write config ns schema e = some next) :
    (next = j ∧ e.storedIds config = []) ∨
      ∃ docs writes applied rollover, e.validates schema = true ∧
        (∀ commitIndex time roll, e ≠ .putMany [] commitIndex time roll) ∧
        e.writes config j.collection = some (docs, writes, applied, rollover) ∧
        j.collection.write docs writes applied rollover = some next.collection ∧
        next.records = j.records ++ [(j.collection.nextLsn, e.walEntry ns docs)] := by
  unfold Journal.write at wrote
  split at wrote
  · cases wrote
    exact .inl ⟨rfl, rfl⟩
  next e other =>
    split at wrote
    · cases wrote
    next valid =>
      split at wrote
      next docs rest t made taken =>
        cases wrote
        obtain ⟨writes, applied, rollover⟩ := rest
        exact .inr ⟨docs, writes, applied, rollover, by simpa using valid,
          fun commitIndex time roll same => other commitIndex time roll same, made,
          step_write made taken, rfl⟩
      next => cases wrote

/-- The boundary that the restart starts from. -/
def boundary (config : LsmConfig) (dir : LsmDir) : Nat :=
  ((load config.codec dir).manifest?.map LsmManifest.coveredWalLsn).getD 0

/-- A collection whose memtable and WAL are empty and whose manifest, if it has one, can be
read and covers what the WAL has handed out. -/
structure Opened (config : LsmConfig) (j : Journal) : Prop where
  empty : j.collection.memtable = ∅
  records : j.records = []
  readable : ∀ reason, load config.codec j.collection.dir ≠ .error reason
  covered : boundary config j.collection.dir < j.collection.nextLsn

/-- The replay of the records so far has every document of the memtable, with its id as
text. -/
structure Mirrors (config : LsmConfig) (schema : RecordSchema) (ns : Namespace) (limit : Nat)
    (init j : Journal) (events : List Event) : Prop where
  dir : j.collection.dir = init.collection.dir
  covered : boundary config init.collection.dir < j.collection.nextLsn
  keyed : ∀ id row, j.collection.memtable.lookup id = some row → docId? config.dump row = some id
  ids : ∀ id, (j.collection.memtable.lookup id).map hasStringId =
    lastOf id (events.flatMap (Event.storedIds config))
  replays : ∃ r : Replayed, j.records.foldlM
      (replayEntry config schema limit (boundary config init.collection.dir)) {} = .ok r ∧
    r.expected.all (· == ns) = true ∧
    ∀ id, r.lookup id =
      (j.collection.memtable.lookup id).map fun row => row.set "id" (.string id)

theorem mirrors_init (opened : Opened config init) : Mirrors config schema ns limit init init [] where
  dir := rfl
  covered := opened.covered
  keyed := by
    intro id row found
    rw [opened.empty, AList.lookup_empty] at found
    cases found
  ids := by
    intro id
    rw [opened.empty, AList.lookup_empty]
    rfl
  replays := by
    refine ⟨{}, ?_, rfl, fun id => ?_⟩
    · rw [opened.records]
      rfl
    · rw [opened.empty, AList.lookup_empty]
      rfl

theorem mirrors_write (named : ns.Named) (accepted : e.Accepted)
    (before : Mirrors config schema ns limit init j events)
    (wrote : j.write config ns schema e = some next) :
    Mirrors config schema ns limit init next (events ++ [e]) := by
  rcases write_cases wrote with ⟨rfl, none⟩ | ⟨docs, writes, applied, rollover, valid, nonempty, made,
    taken, records⟩
  · refine ⟨before.dir, before.covered, before.keyed, ?_, before.replays⟩
    intro id
    rw [List.flatMap_append, List.flatMap_singleton, none, List.append_nil]
    exact before.ids id
  · have logged := @logged_of_writes config schema ns e _ _ _ _ _ named accepted valid nonempty made
    obtain ⟨-, after⟩ := Collection.write_some taken
    have memtable : next.collection.memtable = applyWrites j.collection.memtable writes := by
      rw [after]
    have nextLsn : next.collection.nextLsn = j.collection.nextLsn + 1 := by
      rw [after]
      exact Collection.logRecord_nextLsn _ _ _
    have dir : next.collection.dir = j.collection.dir := by
      rw [after]
      exact Collection.logRecord_dir _ _ _
    refine ⟨dir.trans before.dir, ?_, ?_, ?_, ?_⟩
    · rw [nextLsn]
      exact before.covered.trans (Nat.lt_succ_self _)
    · intro id row found
      rw [memtable, lookup_applyWrites, Option.or_eq_some_iff] at found
      rcases found with written | ⟨-, kept⟩
      · obtain ⟨write, last, rfl⟩ := Option.map_eq_some_iff.mp written
        have member := List.mem_filter.mp (List.mem_of_getLast? last)
        rw [← beq_iff_eq.mp member.2]
        exact logged.keyed write member.1
      · exact before.keyed id row kept
    · intro id
      have flags : lastOf id (e.storedIds config) = (lastOf id writes).map hasStringId := by
        rw [← logged.ids, lastOf_map fun _ row => hasStringId row]
      rw [memtable, lookup_applyWrites, List.flatMap_append, List.flatMap_singleton, lastOf_append,
        flags, ← before.ids id]
      cases lastOf id writes <;> rfl
    · obtain ⟨r, replayed, expected, lookups⟩ := before.replays
      refine ⟨({ r with expected := some ns } : Replayed).apply limit
        (writes.map fun write => (write.1, write.2.set "id" (.string write.1))), ?_, ?_, fun id => ?_⟩
      · rw [records, List.foldlM_append, replayed]
        change (replayEntry config schema limit _ r _ >>= pure) = _
        rw [bind_pure]
        exact logged.replays expected before.covered
      · rw [Replayed.expected_apply]
        exact beq_self_eq_true ns
      · have texts : lastOf id (writes.map fun write => (write.1, write.2.set "id" (.string write.1))) =
            (lastOf id writes).map fun row => row.set "id" (.string id) :=
          lastOf_map (fun key row => row.set "id" (.string key)) writes
        rw [Replayed.lookup_apply, texts, memtable, lookup_applyWrites]
        have same : ({ r with expected := some ns } : Replayed).lookup id = r.lookup id := rfl
        rw [same, lookups id]
        cases lastOf id writes <;> rfl

theorem mirrors_run (named : ns.Named) (opened : Opened config init)
    (accepted : ∀ e ∈ events, e.Accepted)
    (runs : events.foldlM (Journal.write config ns schema) init = some j) :
    Mirrors config schema ns limit init j events := by
  induction events using List.reverseRecOn generalizing j with
  | nil =>
    cases runs
    exact mirrors_init opened
  | append_singleton events e ih =>
    rw [List.foldlM_append] at runs
    obtain ⟨before, ran, wrote⟩ := Option.bind_eq_some_iff.mp runs
    change (before.write config ns schema e >>= pure) = some j at wrote
    rw [bind_pure] at wrote
    have earlier := ih (fun e member => accepted e (List.mem_append_left _ member)) ran
    exact mirrors_write named (accepted e (List.mem_append_right _ (.head _))) earlier wrote

/-! ## The restart -/

/-- Two documents with the same members. -/
def SameDoc (doc other : Json) : Prop := ∀ name, doc.field? name = other.field? name

/-- The restart succeeds and has the documents of the memtable, under the same ids. -/
def RestoresLive (config : LsmConfig) (schema : RecordSchema) (limit : Nat) (j : Journal) : Prop :=
  ∃ r, restoreFromWal config schema limit j = .ok r ∧
    ∀ id, Option.Rel SameDoc (j.collection.memtable.lookup id) (r.lookup id)

/-- The last write of every id stored a document whose id is a string. -/
def IdsKept (config : LsmConfig) (events : List Event) : Prop :=
  ∀ id, lastOf id (events.flatMap (Event.storedIds config)) ≠ some false

theorem sameDoc_set_id_iff {row : Json} {id : String} (known : docId? config.dump row = some id) :
    SameDoc row (row.set "id" (.string id)) ↔ hasStringId row = true := by
  have object := isObject_of_docId? known
  rw [hasStringId_iff known]
  constructor
  · intro same
    rw [same "id", Json.field?_set_self object]
  · intro isText name
    by_cases own : name = "id"
    · rw [own, isText, Json.field?_set_self object]
    · rw [Json.field?_set_ne own]

/-- The replay that the writes were prepared for. -/
theorem restoreFromWal_ok (opened : Opened config init)
    (mirrors : Mirrors config schema ns limit init j events) :
    ∃ r, restoreFromWal config schema limit j = .ok r ∧
      ∀ id, r.lookup id =
        (j.collection.memtable.lookup id).map fun row => row.set "id" (.string id) := by
  obtain ⟨r, replayed, -, lookups⟩ := mirrors.replays
  unfold restoreFromWal
  rw [mirrors.dir]
  split
  next empty =>
    rw [empty] at replayed
    cases replayed
    exact ⟨_, rfl, lookups⟩
  next failed => exact absurd failed (opened.readable _)
  next =>
    refine ⟨r.flush, bind_eq_ok.mpr ⟨r, replayed, rfl⟩, fun id => ?_⟩
    rw [Replayed.lookup_flush, lookups]

/-- After every sequence of acknowledged writes, and before any flush, a restart rebuilds
the memtable exactly when no id was last written by `putMany` with an id that is not a
string. -/
theorem restores_iff (named : ns.Named) (opened : Opened config init)
    (accepted : ∀ e ∈ events, e.Accepted)
    (runs : events.foldlM (Journal.write config ns schema) init = some j) :
    RestoresLive config schema limit j ↔ IdsKept config events := by
  have mirrors : Mirrors config schema ns limit init j events :=
    mirrors_run named opened accepted runs
  obtain ⟨r, restored, lookups⟩ := restoreFromWal_ok opened mirrors
  have rel : ∀ id, (Option.Rel SameDoc (j.collection.memtable.lookup id) (r.lookup id) ↔
      lastOf id (events.flatMap (Event.storedIds config)) ≠ some false) := by
    intro id
    rw [lookups id, ← mirrors.ids id]
    cases found : j.collection.memtable.lookup id with
    | none => exact iff_of_true .none nofun
    | some row =>
      rw [Option.map_some, Option.map_some]
      constructor
      · rintro (same | -) false
        rw [(sameDoc_set_id_iff (mirrors.keyed id row found)).mp same] at false
        cases false
      · intro kept
        refine .some ((sameDoc_set_id_iff (mirrors.keyed id row found)).mpr ?_)
        cases text : hasStringId row with
        | true => rfl
        | false => exact absurd (congrArg some text) kept
  constructor
  · rintro ⟨other, again, same⟩ id
    cases restored.symm.trans again
    exact (rel id).mp (same id)
  · intro kept
    exact ⟨r, restored, fun id => (rel id).mpr (kept id)⟩

end Writes

/-! ## A number as an id -/

/-- Documents of ids 42 and "a". -/
def numbered : Json := .object [("id", .unsigned 42)]

def lettered : Json := .object [("id", .string "a")]

def plainNamespace : Namespace := ⟨"u", "d", "c"⟩

def noSchema : RecordSchema := ⟨fun _ _ _ => .ok ()⟩

/-- The library's text of the number. -/
def numberText : LsmConfig := { standalone with dump := fun _ => "42" }

theorem opened_empty : Opened numberText {} where
  empty := rfl
  records := rfl
  readable := nofun
  covered := by decide

theorem putMany_number_not_restored :
    ∃ j, [Event.putMany [numbered] 0 0 false].foldlM (Journal.write numberText plainNamespace noSchema)
        {} = some j ∧ ¬ RestoresLive numberText noSchema 10000 j := by
  refine ⟨_, rfl, ?_⟩
  rintro ⟨r, restored, same⟩
  cases restored
  have text := same "42"
  cases text with
  | some same => cases same "id"

theorem put_number_restored :
    ∃ j, [Event.putMany [lettered] 0 0 false, .put numbered 0 0 false,
        .del "a" 0 0 0 0 false].foldlM (Journal.write numberText plainNamespace noSchema) {} = some j ∧
      RestoresLive numberText noSchema 10000 j := by
  have accepted : ∀ e ∈ [Event.putMany [lettered] 0 0 false, .put numbered 0 0 false,
      .del "a" 0 0 0 0 false], e.Accepted := by
    simp [Event.Accepted, AcceptedDoc, lettered, numbered, Engine.needsId, Json.isObject, Json.field?]
  have kept : IdsKept numberText [Event.putMany [lettered] 0 0 false, .put numbered 0 0 false,
      .del "a" 0 0 0 0 false] := by
    intro id last
    obtain ⟨pair, found, isFalse⟩ := Option.map_eq_some_iff.mp last
    have member := (List.mem_filter.mp (List.mem_of_getLast? found)).1
    change pair ∈ [("a", true), ("42", true), ("a", true)] at member
    simp only [List.mem_cons, List.not_mem_nil, or_false] at member
    rcases member with rfl | rfl | rfl <;> cases isFalse
  have named : plainNamespace.Named := by
    unfold Namespace.Named
    decide
  exact ⟨_, rfl, (restores_iff named opened_empty accepted rfl).mpr kept⟩

end PacificDb.Lsm
