import Mathlib.Algebra.Order.Ring.Int
import Mathlib.Data.Int.ConditionallyCompleteOrder
import Mathlib.Data.Int.DivMod
import Mathlib.Data.List.Infix
import Mathlib.Order.ConditionallyCompleteLattice.Basic
import Mathlib.Order.WithBot

/-!
# Documents

The engine stores every document as a JSON value. This module has the value
type, the member access the storage code uses, and the three pure predicates
that decide what a stored row means: its version score, whether it is a
tombstone, and whether it is visible at a commit index.

The JSON library is outside this development. The only part of it that the
storage code observes beyond the value itself is the text of `dump`, which is
used as the key of a document whose `id` is not a string; it is a parameter
where it occurs.
-/

namespace PacificDb

/-- A JSON value. Numbers keep the three storage classes of the library; a
float is its bit pattern, which nothing here inspects. -/
inductive Json where
  | null
  | bool (value : Bool)
  | integer (value : Int)
  | unsigned (value : Nat)
  | float (bits : Nat)
  | string (value : String)
  | array (items : List Json)
  | object (members : List (String × Json))
  deriving Repr

namespace Json

def isObject : Json → Bool
  | object _ => true
  | _ => false

/-- `doc.find(name)`: the member of an object, none on any other value. -/
def field? : Json → String → Option Json
  | object members, name => members.lookup name
  | _, _ => none

/-- `doc[name] = value` on an object. -/
def set : Json → String → Json → Json
  | object members, name, value =>
      object ((name, value) :: members.filter fun member => member.1 != name)
  | other, _, _ => other

@[simp] theorem isObject_set (doc : Json) (name : String) (value : Json) :
    (doc.set name value).isObject = doc.isObject := by
  cases doc <;> rfl

theorem field?_set_self {doc : Json} {name : String} {value : Json}
    (object : doc.isObject = true) : (doc.set name value).field? name = some value := by
  cases doc with
  | object members =>
    rw [set, field?, List.lookup_cons, beq_self_eq_true]
  | _ => cases object

theorem field?_set_ne {doc : Json} {name other : String} {value : Json} (differ : other ≠ name) :
    (doc.set name value).field? other = doc.field? other := by
  cases doc with
  | object members =>
    have kept : (members.filter fun member => member.1 != name).lookup other =
        members.lookup other := by
      induction members with
      | nil => rfl
      | cons member rest ih =>
        rw [List.filter_cons, List.lookup_cons]
        by_cases own : member.1 = name
        · have apart : (other == member.1) = false := by
            rw [own]
            exact beq_eq_false_iff_ne.mpr differ
          have dropped : (member.1 != name) = false := by
            rw [own, bne_self_eq_false]
          rw [dropped, if_neg Bool.false_ne_true, apart]
          exact ih
        · rw [if_pos (bne_iff_ne.mpr own), List.lookup_cons, ih]
    rw [set, field?, List.lookup_cons, beq_eq_false_iff_ne.mpr differ, kept, field?]
  | _ => rfl

/-- `doc.erase(name)` on an object. -/
def erase : Json → String → Json
  | object members, name => object (members.filter fun member => member.1 != name)
  | other, _ => other

/-- `get<long long>()`: an unsigned value above `2^63` wraps. -/
def wrapInt64 (value : Int) : Int := Int.bmod value (2 ^ 64)

/-- `get<uint64_t>()`: a negative integer wraps. -/
def wrapUInt64 (value : Int) : Nat := (value % 2 ^ 64).toNat

/-- The number of an integer or unsigned member, as `uint64_t`. -/
def asUInt64? : Json → Option Nat
  | integer value => some (wrapUInt64 value)
  | unsigned value => some (wrapUInt64 value)
  | _ => none

end Json

/-! ## Version scores -/

/-- The value of a run of decimal digits, with the digits it consumed. -/
def readDigits : List Char → Nat → Nat → Nat × Nat
  | [], value, count => (value, count)
  | c :: rest, value, count =>
      if c.isDigit then readDigits rest (value * 10 + (c.toNat - '0'.toNat)) (count + 1)
      else (value, count)

/-- `std::stoll`: leading blanks, an optional sign, at least one digit, and a
value in range; anything after the digits is ignored. -/
def stoll (text : String) : Option Int :=
  let body := text.toList.dropWhile fun c => c.isWhitespace || c == '\x0b' || c == '\x0c'
  let (negative, digits) := match body with
    | '-' :: rest => (true, rest)
    | '+' :: rest => (false, rest)
    | other => (false, other)
  let (value, count) := readDigits digits 0 0
  let signed : Int := if negative then -(value : Int) else value
  if count = 0 then none
  else if signed < -2 ^ 63 ∨ 2 ^ 63 ≤ signed then none
  else some signed

/-- One candidate member of `extractDocVersionScore`. -/
def versionOf? : Json → Option Int
  | .integer value => some (Json.wrapInt64 value)
  | .unsigned value => some (Json.wrapInt64 value)
  | .string text => stoll text
  | _ => none

/-- The members that can hold the version, the engine-owned one first. -/
def versionFields : List String :=
  ["_mvcc_version", "version", "deleted_txn", "created_txn", "_timestamp"]

def extractDocVersionScore (doc : Json) : Option Int :=
  versionFields.findSome? fun field => doc.field? field >>= versionOf?

/-- A later row replaces an earlier one unless its version is smaller, or only
the earlier one has a version. Equal or missing versions: later scan order wins. -/
def isCandidateNewer (candidate current : Json) : Bool :=
  match extractDocVersionScore candidate, extractDocVersionScore current with
  | some candidateVersion, some currentVersion =>
      if candidateVersion ≠ currentVersion then decide (candidateVersion > currentVersion) else true
  | some _, none => true
  | none, some _ => false
  | none, none => true

/-- The version score as a total preorder: a document without a version is
below every document with one. -/
def docScore (doc : Json) : WithBot Int :=
  match extractDocVersionScore doc with
  | some version => (version : WithBot Int)
  | none => ⊥

/-- `isCandidateNewer` is the comparison of scores: it only refuses a strictly
smaller score. -/
theorem isCandidateNewer_iff {candidate current : Json} :
    isCandidateNewer candidate current = true ↔ docScore current ≤ docScore candidate := by
  unfold isCandidateNewer docScore
  cases extractDocVersionScore candidate with
  | none =>
    cases extractDocVersionScore current with
    | none => exact iff_of_true rfl le_rfl
    | some currentVersion =>
      exact iff_of_false Bool.false_ne_true (WithBot.not_coe_le_bot currentVersion)
  | some candidateVersion =>
    cases extractDocVersionScore current with
    | none => exact iff_of_true rfl bot_le
    | some currentVersion =>
      rw [WithBot.coe_le_coe]
      by_cases same : candidateVersion = currentVersion
      · simp [same]
      · simp only [ne_eq, same, not_false_eq_true, if_true, decide_eq_true_eq]
        omega

/-- `isDeletedDoc`: the row is a tombstone. -/
def isDeletedDoc (doc : Json) : Bool :=
  match doc.field? "_deleted" with
  | some (.bool deleted) => deleted
  | _ => false

/-! ## Visibility -/

/-- What the storage code asks the Raft core besides the commit index:
`isEnabled()`, and whether the single-node bypass is in force. -/
structure RaftView where
  enabled : Bool
  standaloneBypass : Bool
  deriving Repr, DecidableEq

/-- `fieldsHaveVisibleCommitState`: the first string-valued state member
decides; without one, only `committed = false` hides the row. -/
def hasVisibleCommitState (doc : Json) : Bool :=
  let state := ["_visibility_state", "visibility_state"].findSome? fun name =>
    match doc.field? name with
    | some (.string state) => some state
    | _ => none
  match state with
  | some state => state == "COMMITTED_VISIBLE" || state == "TOMBSTONED"
  | none =>
      match doc.field? "committed" with
      | some (.bool committed) => committed
      | _ => true

/-- `fieldsRowCommitIndex`. -/
def extractRowCommitIndex (doc : Json) : Option Nat :=
  ["_raft_commit_index", "commit_index"].findSome? fun name =>
    doc.field? name >>= Json.asUInt64?

/-- `docVisibleByCommitIndex`: every read path and the compaction merge keep a
row only under this test. -/
def docVisibleByCommitIndex (view : RaftView) (doc : Json) (committedIndex : Nat) : Bool :=
  doc.isObject &&
    if !view.enabled then
      match doc.field? "_visibility_state" with
      | some (.string state) => state != "PENDING"
      | _ => true
    else if !hasVisibleCommitState doc then false
    else if view.standaloneBypass then true
    else
      match extractRowCommitIndex doc with
      | none => false
      | some rowCommit =>
          let floor := ((doc.field? "_visibility_floor").bind Json.asUInt64?).getD rowCommit
          decide (rowCommit ≤ committedIndex) && decide (floor ≤ committedIndex)

/-- A row that is visible stays visible when the commit index grows. -/
theorem docVisibleByCommitIndex_mono {view : RaftView} {doc : Json} {early late : Nat}
    (order : early ≤ late) (visible : docVisibleByCommitIndex view doc early = true) :
    docVisibleByCommitIndex view doc late = true := by
  unfold docVisibleByCommitIndex at visible ⊢
  rw [Bool.and_eq_true] at visible ⊢
  refine ⟨visible.1, ?_⟩
  have rest := visible.2
  split_ifs at rest ⊢ with disabled hidden bypass
  · exact rest
  · rfl
  · cases row : extractRowCommitIndex doc with
    | none => rw [row] at rest; cases rest
    | some rowCommit =>
      rw [row] at rest
      simp only [Bool.and_eq_true, decide_eq_true_eq] at rest ⊢
      omega

/-- `stampVisibilityMetadata`: the metadata a write adds to the stored row. -/
def stampVisibilityMetadata (view : RaftView) (doc : Json) (committedIndex : Nat) : Json :=
  if !doc.isObject then doc
  else
    let state := Json.string (if isDeletedDoc doc then "TOMBSTONED" else "COMMITTED_VISIBLE")
    let withState :=
      if (doc.field? "_visibility_state").isSome then doc else doc.set "_visibility_state" state
    if !view.enabled then withState
    else if view.standaloneBypass then
      if (withState.field? "committed").isSome then withState
      else
        let pending := match withState.field? "_visibility_state" with
          | some (.string state) => state == "PENDING"
          | _ => false
        withState.set "committed" (.bool !pending)
    else
      let rowCommit := (extractRowCommitIndex doc).getD committedIndex
      let indexed :=
        if (extractRowCommitIndex doc).isSome then doc
        else doc.set "_raft_commit_index" (.unsigned rowCommit)
      let floored :=
        if (indexed.field? "_visibility_floor").isSome then indexed
        else indexed.set "_visibility_floor" (.unsigned rowCommit)
      let committed := decide (rowCommit ≤ committedIndex)
      (floored.set "committed" (.bool committed)).set "_visibility_state"
        (if committed then state else .string "PENDING")

theorem isObject_stampVisibilityMetadata {view : RaftView} {doc : Json} {committedIndex : Nat} :
    (stampVisibilityMetadata view doc committedIndex).isObject = doc.isObject := by
  unfold stampVisibilityMetadata
  dsimp only
  split_ifs <;> simp

/-- The stamp changes no member but its own. -/
theorem field?_stampVisibilityMetadata {view : RaftView} {doc : Json} {committedIndex : Nat}
    {name : String} (other : name ∉ ["_visibility_state", "committed", "_raft_commit_index",
      "_visibility_floor"]) :
    (stampVisibilityMetadata view doc committedIndex).field? name = doc.field? name := by
  simp only [List.mem_cons, List.not_mem_nil, or_false, not_or] at other
  obtain ⟨state, committed, commitIndex, floor⟩ := other
  unfold stampVisibilityMetadata
  dsimp only
  split_ifs <;> simp only [Json.field?_set_ne state, Json.field?_set_ne committed,
    Json.field?_set_ne commitIndex, Json.field?_set_ne floor]

/-! ## Row keys -/

/-- The key under which a row is stored and merged: the `id` text, or the dump
of an `id` that is not a string. -/
def docId? (dump : Json → String) (doc : Json) : Option String :=
  match doc.field? "id" with
  | some (.string id) => some id
  | some other => some (dump other)
  | none => none

theorem isObject_of_docId? {dump : Json → String} {doc : Json} {id : String}
    (known : docId? dump doc = some id) : doc.isObject = true := by
  cases doc with
  | object members => rfl
  | _ => cases known

theorem docId?_set_id {dump : Json → String} {doc : Json} {id : String}
    (object : doc.isObject = true) : docId? dump (doc.set "id" (.string id)) = some id := by
  rw [docId?, Json.field?_set_self object]

end PacificDb
