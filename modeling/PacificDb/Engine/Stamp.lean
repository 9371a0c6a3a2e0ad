import PacificDb.Json
import PacificDb.Lib.Checks

/-!
# Stamping writes

Every write of `DatabaseEngine` gives its document a version of its own before it
leaves the node: `_mvcc_version`, drawn from a counter of the process that starts
at the wall clock. This module has the stamps, the documents that an insert, an
update and a delete make, and what their stamps say of them.

A call that throws may have moved the counter already, so a stamp returns the
counter beside its result. Conversions of floating-point members to integers are
those of the compiler, here the parameter `truncate`.
-/

namespace PacificDb.Engine

open Lib

/-- What a call throws: an error of its own, or a type error of the JSON library. -/
inductive Thrown where
  | runtimeError (message : String)
  | typeError (id : Nat)
  deriving Repr, DecidableEq

/-! ## Members -/

/-- `doc[name] = value` on any value. -/
def assign (doc : Json) (name : String) (value : Json) : Except Thrown Json :=
  match doc with
  | .null => .ok (.object [(name, value)])
  | .object _ => .ok (doc.set name value)
  | _ => .error (.typeError 305)

/-- `get<uint64_t>()`. -/
def getUInt64 (truncate : Nat → Int) : Json → Except Thrown Nat
  | .unsigned value => .ok (Json.wrapUInt64 value)
  | .integer value => .ok (Json.wrapUInt64 value)
  | .float bits => .ok (Json.wrapUInt64 (truncate bits))
  | _ => .error (.typeError 302)

/-- `get<long long>()`: not the integer type of the library, so that a truth value
converts as well. -/
def getInt64 (truncate : Nat → Int) : Json → Except Thrown Int
  | .unsigned value => .ok (Json.wrapInt64 value)
  | .integer value => .ok (Json.wrapInt64 value)
  | .float bits => .ok (Json.wrapInt64 (truncate bits))
  | .bool value => .ok (if value then 1 else 0)
  | _ => .error (.typeError 302)

/-- `doc.value(name, default)`. -/
def valueOr {α : Type} (doc : Json) (name : String) (get : Json → Except Thrown α) (default : α) :
    Except Thrown α :=
  match doc.field? name with
  | some value => get value
  | none => .ok default

/-! ## Versions -/

/-- `std::numeric_limits<uint64_t>::max()`. -/
def uint64Max : Nat := 2 ^ 64 - 1

/-- The counter of a new process: the clock in nanoseconds, at least one. -/
def seedMvccVersionCounter (nanos : Int64) : Nat := (max 1 nanos.toInt).toNat

/-- `nextMvccVersion`, with the counter after it. -/
def nextMvccVersion (counter previous : Nat) : Except Thrown Nat × Nat :=
  if previous = uint64Max then (.error (.runtimeError "mvcc_version_exhausted"), counter)
  else
    let next := max counter (previous + 1)
    if next = uint64Max then (.error (.runtimeError "mvcc_version_exhausted"), counter)
    else (.ok next, next + 1)

def previousMvccVersion (doc : Json) : Nat :=
  match doc.field? "_mvcc_version" with
  | some (.unsigned value) => Json.wrapUInt64 value
  | some (.integer value) =>
      if 0 < Json.wrapInt64 value then (Json.wrapInt64 value).toNat else 0
  | _ => 0

/-! ## Stamps -/

/-- `doc[name] = value`, unless the member is there and is to be kept. -/
def setUnless (keep : Bool) (doc : Json) (name : String) (value : Json) : Json :=
  if keep && (doc.field? name).isSome then doc else doc.set name value

/-- The members that `stampMvccWrite` sets once it has a version. -/
def writeStamp (truncate : Nat → Int) (mvccVersion : Nat) (tsMs : Int) (preserveCreate : Bool)
    (doc : Json) : Except Thrown Json := do
  let created := setUnless preserveCreate doc "created_txn" (.unsigned mvccVersion)
  let dated := setUnless preserveCreate created "created_at_ms" (.integer tsMs)
  let versioned := setUnless true dated "version" (.unsigned mvccVersion)
  let stamped := (versioned.set "_mvcc_version" (.unsigned mvccVersion)).set
    "_mvcc_commit_ms" (.integer tsMs)
  let deletedTxn ← valueOr stamped "deleted_txn" (getUInt64 truncate) 0
  let marked := stamped.set "deleted_txn" (.unsigned deletedTxn)
  let deletedAtMs ← valueOr marked "deleted_at_ms" (getInt64 truncate) 0
  return marked.set "deleted_at_ms" (.integer deletedAtMs)

/-- `stampMvccWrite` on an object. -/
def stampMvccWrite (truncate : Nat → Int) (counter : Nat) (tsMs : Int) (preserveCreate : Bool)
    (doc : Json) : Except Thrown Json × Nat :=
  match nextMvccVersion counter (previousMvccVersion doc) with
  | (.ok mvccVersion, moved) => (writeStamp truncate mvccVersion tsMs preserveCreate doc, moved)
  | (.error thrown, left) => (.error thrown, left)

/-- The members that `stampMvccDelete` sets once it has a version. -/
def deleteStamp (version : Nat) (tsMs : Int) (doc : Json) : Json :=
  let created := setUnless true doc "created_txn" (.unsigned version)
  let dated := setUnless true created "created_at_ms" (.integer tsMs)
  ((((dated.set "deleted_txn" (.unsigned version)).set "deleted_at_ms" (.integer tsMs)).set
    "version" (.unsigned version)).set "_mvcc_version" (.unsigned version)).set
      "_mvcc_commit_ms" (.integer tsMs)

/-- `stampMvccDelete` on an object. -/
def stampMvccDelete (counter : Nat) (tsMs : Int) (doc : Json) : Except Thrown Json × Nat :=
  match nextMvccVersion counter (previousMvccVersion doc) with
  | (.ok version, moved) => (.ok (deleteStamp version tsMs doc), moved)
  | (.error thrown, left) => (.error thrown, left)

/-! ## The documents of the three writes -/

def enforceTenantOnWrite (userId : String) (doc : Json) : Except Thrown Json :=
  match doc.field? "tenant_id" with
  | some (.string requestedTenant) =>
      if requestedTenant ≠ userId then .error (.runtimeError
        "tenant_mismatch_write: request tenant does not match authenticated user")
      else assign doc "tenant_id" (.string userId)
  | _ => assign doc "tenant_id" (.string userId)

/-- An insert gives a document without an id a new one. -/
def needsId (doc : Json) : Bool :=
  match doc.field? "id" with
  | none => true
  | some .null => true
  | some (.string id) => id.isEmpty
  | some _ => false

def withId (generatedId : String) (doc : Json) : Except Thrown Json :=
  if needsId doc then assign doc "id" (.string generatedId) else .ok doc

/-- The document of an insert up to the stamp. `validate` is what
`VectorSchemaRegistry::validateRecord` throws on it. -/
def insertDocument (validate : Json → Option Thrown) (userId generatedId : String) (doc : Json) :
    Except Thrown Json := do
  let identified ← withId generatedId doc
  let owned ← enforceTenantOnWrite userId identified
  match validate owned with
  | some thrown => .error thrown
  | none => return owned

/-- `items()`: an array has its indices as keys, and a value that is no container is its
own only item. -/
def items : Json → List (String × Json)
  | .null => []
  | .object members => members
  | .array values => values.zipIdx.map fun entry => (toString entry.2, entry.1)
  | value => [("", value)]

/-- The values a loop over a JSON value visits. -/
def elements (value : Json) : List Json := (items value).map Prod.snd

def unsetMember (doc key : Json) : Except Thrown Json :=
  match key with
  | .string name => .ok (doc.erase name)
  | _ => .error (.typeError 302)

def isNumber : Json → Bool
  | .integer _ | .unsigned _ | .float _ => true
  | _ => false

/-- One member of `$inc`: a member that is no number counts as zero. -/
def incMember (truncate : Nat → Int) (doc : Json) (entry : String × Json) : Except Thrown Json := do
  let current := match doc.field? entry.1 with
    | some value => if isNumber value then value else .integer 0
    | none => .integer 0
  let old ← getInt64 truncate current
  let amount ← getInt64 truncate entry.2
  assign doc entry.1 (.integer (Json.wrapInt64 (old + amount)))

def applySet (update doc : Json) : Except Thrown Json :=
  match update.field? "$set" with
  | some members => (items members).foldlM (fun doc entry => assign doc entry.1 entry.2) doc
  | none => .ok doc

def applyUnset (update doc : Json) : Except Thrown Json :=
  match update.field? "$unset" with
  | some names => (elements names).foldlM unsetMember doc
  | none => .ok doc

def applyInc (truncate : Nat → Int) (update doc : Json) : Except Thrown Json :=
  match update.field? "$inc" with
  | some amounts => (items amounts).foldlM (incMember truncate) doc
  | none => .ok doc

/-- `applyUpdateOps`. -/
def applyUpdateOps (truncate : Nat → Int) (doc update : Json) : Except Thrown Json := do
  let set ← applySet update doc
  let unset ← applyUnset update set
  applyInc truncate update unset

/-- An update without an operator is a `$set`. -/
def effectiveUpdate (update : Json) : Json :=
  if (items update).any fun entry => entry.1.toList.head? == some '$' then update
  else .object [("$set", update)]

/-- The document of an update up to the stamp. -/
def updateDocument (truncate : Nat → Int) (userId : String) (update doc : Json) :
    Except Thrown Json := do
  let updated ← applyUpdateOps truncate doc (effectiveUpdate update)
  assign updated "tenant_id" (.string userId)

/-- The document of a delete up to the stamp. -/
def deleteDocument (userId targetId : String) (targetVersion : Nat) (time : Int) : Json :=
  .object [("id", .string targetId), ("_deleted", .bool true), ("tenant_id", .string userId),
    ("_mvcc_version", .unsigned targetVersion), ("_timestamp", .integer time)]

/-! ## What the stamps say -/

variable {truncate : Nat → Int} {counter previous version : Nat} {doc stamped : Json}

theorem wrapUInt64_lt (value : Int) : Json.wrapUInt64 value < 2 ^ 64 := by
  unfold Json.wrapUInt64
  omega

theorem wrapUInt64_of_lt {value : Nat} (fits : value < 2 ^ 64) : Json.wrapUInt64 value = value := by
  unfold Json.wrapUInt64
  omega

theorem wrapInt64_of_lt {value : Nat} (fits : value < 2 ^ 64) :
    Json.wrapInt64 value = if value < 2 ^ 63 then (value : Int) else value - 2 ^ 64 := by
  unfold Json.wrapInt64 Int.bmod
  dsimp only
  split <;> split <;> omega

theorem previousMvccVersion_lt (doc : Json) : previousMvccVersion doc < 2 ^ 64 := by
  unfold previousMvccVersion
  split
  next => exact wrapUInt64_lt _
  next value _ =>
    have below : value.bmod (2 ^ 64) < (2 ^ 64 + 1) / 2 := Int.bmod_lt (by decide)
    unfold Json.wrapInt64
    split
    · omega
    · decide
  next => decide

/-- A version is drawn above the counter's last and above the previous one, and the
counter moves on. -/
theorem nextMvccVersion_ok {moved : Nat} :
    nextMvccVersion counter previous = (.ok version, moved) ↔
      previous ≠ uint64Max ∧ max counter (previous + 1) ≠ uint64Max ∧
        version = max counter (previous + 1) ∧ moved = version + 1 := by
  unfold nextMvccVersion
  split
  next exhausted => simp [exhausted]
  next =>
    dsimp only
    split
    next exhausted => simp [exhausted]
    next left =>
      simp only [Prod.mk.injEq, Except.ok.injEq]
      constructor
      · rintro ⟨rfl, rfl⟩
        exact ⟨by assumption, left, rfl, rfl⟩
      · rintro ⟨-, -, rfl, rfl⟩
        exact ⟨rfl, rfl⟩

theorem nextMvccVersion_counter_lt (fits : counter < 2 ^ 64) (previousFits : previous < 2 ^ 64) :
    (nextMvccVersion counter previous).2 < 2 ^ 64 := by
  unfold nextMvccVersion uint64Max
  split
  · exact fits
  · dsimp only
    split
    · exact fits
    · dsimp only
      omega

@[simp] theorem isObject_setUnless {keep : Bool} {name : String} {value : Json} :
    (setUnless keep doc name value).isObject = doc.isObject := by
  unfold setUnless
  split <;> simp

theorem field?_setUnless_ne {keep : Bool} {name other : String} {value : Json}
    (differ : other ≠ name) : (setUnless keep doc name value).field? other = doc.field? other := by
  unfold setUnless
  split
  · rfl
  · exact Json.field?_set_ne differ

/-- The members a stamp may set. -/
def stampFields : List String :=
  ["created_txn", "created_at_ms", "version", "_mvcc_version", "_mvcc_commit_ms", "deleted_txn",
    "deleted_at_ms"]

/-- A document that a stamp made of another: it has the version that was drawn, and the
members that are no part of the stamp. -/
structure Stamped (counter : Nat) (doc stamped : Json) : Prop where
  version : stamped.field? "_mvcc_version" =
    some (.unsigned (max counter (previousMvccVersion doc + 1)))
  left : previousMvccVersion doc ≠ uint64Max ∧ max counter (previousMvccVersion doc + 1) ≠ uint64Max
  kept : ∀ name, name ∉ stampFields → stamped.field? name = doc.field? name

theorem field?_writeStamp {tsMs : Int} {preserveCreate : Bool} (object : doc.isObject = true)
    (wrote : writeStamp truncate version tsMs preserveCreate doc = .ok stamped) :
    stamped.field? "_mvcc_version" = some (.unsigned version) ∧
      ∀ name, name ∉ stampFields → stamped.field? name = doc.field? name := by
  unfold writeStamp at wrote
  dsimp only at wrote
  obtain ⟨deletedTxn, -, wrote⟩ := bind_eq_ok.mp wrote
  obtain ⟨deletedAtMs, -, wrote⟩ := bind_eq_ok.mp wrote
  cases wrote
  constructor
  · rw [Json.field?_set_ne (by decide), Json.field?_set_ne (by decide),
      Json.field?_set_ne (by decide), Json.field?_set_self (by simp [object])]
  · intro name other
    simp only [stampFields, List.mem_cons, List.not_mem_nil, or_false, not_or] at other
    obtain ⟨createdTxn, createdAt, isVersion, mvccVersion, commitMs, txn, at_⟩ := other
    rw [Json.field?_set_ne at_, Json.field?_set_ne txn, Json.field?_set_ne commitMs,
      Json.field?_set_ne mvccVersion, field?_setUnless_ne isVersion, field?_setUnless_ne createdAt,
      field?_setUnless_ne createdTxn]

/-- A `version` of the document's own stays. -/
theorem field?_version_stampMvccWrite {tsMs : Int} {preserveCreate : Bool} {moved : Nat}
    (own : (doc.field? "version").isSome = true)
    (stamps : stampMvccWrite truncate counter tsMs preserveCreate doc = (.ok stamped, moved)) :
    stamped.field? "version" = doc.field? "version" := by
  unfold stampMvccWrite at stamps
  split at stamps
  next mvccVersion moved drawn =>
    obtain ⟨wrote, -⟩ := Prod.mk.inj stamps
    unfold writeStamp at wrote
    dsimp only at wrote
    obtain ⟨deletedTxn, -, wrote⟩ := bind_eq_ok.mp wrote
    obtain ⟨deletedAtMs, -, wrote⟩ := bind_eq_ok.mp wrote
    cases wrote
    rw [Json.field?_set_ne (by decide), Json.field?_set_ne (by decide),
      Json.field?_set_ne (by decide), Json.field?_set_ne (by decide), setUnless,
      field?_setUnless_ne (by decide), field?_setUnless_ne (by decide), own]
    rw [Bool.true_and, if_pos rfl, field?_setUnless_ne (by decide), field?_setUnless_ne (by decide)]
  next => cases stamps

theorem field?_deleteStamp {tsMs : Int} (object : doc.isObject = true) :
    (deleteStamp version tsMs doc).field? "_mvcc_version" = some (.unsigned version) ∧
      ∀ name, name ∉ stampFields → (deleteStamp version tsMs doc).field? name = doc.field? name := by
  unfold deleteStamp
  dsimp only
  constructor
  · rw [Json.field?_set_ne (by decide), Json.field?_set_self (by simp [object])]
  · intro name other
    simp only [stampFields, List.mem_cons, List.not_mem_nil, or_false, not_or] at other
    obtain ⟨createdTxn, createdAt, isVersion, mvccVersion, commitMs, txn, at_⟩ := other
    rw [Json.field?_set_ne commitMs, Json.field?_set_ne mvccVersion, Json.field?_set_ne isVersion,
      Json.field?_set_ne at_, Json.field?_set_ne txn, field?_setUnless_ne createdAt,
      field?_setUnless_ne createdTxn]

theorem stampMvccWrite_ok {tsMs : Int} {preserveCreate : Bool} {moved : Nat}
    (object : doc.isObject = true)
    (stamps : stampMvccWrite truncate counter tsMs preserveCreate doc = (.ok stamped, moved)) :
    Stamped counter doc stamped := by
  unfold stampMvccWrite at stamps
  split at stamps
  next mvccVersion moved drawn =>
    obtain ⟨previousLeft, left, rfl, -⟩ := nextMvccVersion_ok.mp drawn
    obtain ⟨wrote, -⟩ := Prod.mk.inj stamps
    obtain ⟨isVersion, kept⟩ := field?_writeStamp object wrote
    exact ⟨isVersion, ⟨previousLeft, left⟩, kept⟩
  next => cases stamps

theorem stampMvccDelete_ok {tsMs : Int} {moved : Nat} (object : doc.isObject = true)
    (stamps : stampMvccDelete counter tsMs doc = (.ok stamped, moved)) :
    Stamped counter doc stamped := by
  unfold stampMvccDelete at stamps
  split at stamps
  next version moved drawn =>
    obtain ⟨previousLeft, left, rfl, -⟩ := nextMvccVersion_ok.mp drawn
    cases stamps
    obtain ⟨isVersion, kept⟩ := field?_deleteStamp object
    exact ⟨isVersion, ⟨previousLeft, left⟩, kept⟩
  next => cases stamps

/-- A stamp draws from the counter once, whether it returns or throws. -/
theorem stampMvccWrite_counter {tsMs : Int} {preserveCreate : Bool} :
    (stampMvccWrite truncate counter tsMs preserveCreate doc).2 =
      (nextMvccVersion counter (previousMvccVersion doc)).2 := by
  unfold stampMvccWrite
  split
  next drawn => rw [drawn]
  next drawn => rw [drawn]

theorem stampMvccDelete_counter {tsMs : Int} :
    (stampMvccDelete counter tsMs doc).2 =
      (nextMvccVersion counter (previousMvccVersion doc)).2 := by
  unfold stampMvccDelete
  split
  next drawn => rw [drawn]
  next drawn => rw [drawn]

theorem isObject_assign {name : String} {value : Json} (assigned : assign doc name value = .ok stamped) :
    stamped.isObject = true := by
  unfold assign at assigned
  split at assigned
  · cases assigned
    rfl
  · cases assigned
    rfl
  · cases assigned

theorem isObject_insertDocument {validate : Json → Option Thrown} {userId generatedId : String}
    (made : insertDocument validate userId generatedId doc = .ok stamped) :
    stamped.isObject = true := by
  unfold insertDocument at made
  obtain ⟨identified, -, made⟩ := bind_eq_ok.mp made
  obtain ⟨owned, enforced, made⟩ := bind_eq_ok.mp made
  split at made
  · cases made
  · cases made
    unfold enforceTenantOnWrite at enforced
    split at enforced
    · split at enforced
      · cases enforced
      · exact isObject_assign enforced
    · exact isObject_assign enforced

theorem isObject_updateDocument {userId : String} {update : Json}
    (made : updateDocument truncate userId update doc = .ok stamped) : stamped.isObject = true := by
  unfold updateDocument at made
  obtain ⟨updated, -, made⟩ := bind_eq_ok.mp made
  exact isObject_assign made

/-! ## Scores -/

/-- A row with this member has the version as its score. -/
theorem extractDocVersionScore_of_field {row : Json} {version : Nat}
    (isVersion : row.field? "_mvcc_version" = some (.unsigned version)) :
    extractDocVersionScore row = some (Json.wrapInt64 version) := by
  unfold extractDocVersionScore versionFields
  rw [List.findSome?_cons, isVersion]
  rfl

theorem docScore_of_field (isVersion : doc.field? "_mvcc_version" = some (.unsigned version)) :
    docScore doc = (Json.wrapInt64 version : WithBot Int) := by
  unfold docScore
  rw [extractDocVersionScore_of_field isVersion]

end PacificDb.Engine
