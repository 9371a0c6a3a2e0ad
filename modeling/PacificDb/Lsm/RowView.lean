import PacificDb.Lsm.Collection
import PacificDb.Lsm.Visibility
import Mathlib.Data.List.Sort

/-!
# Rows of an SST, read in place

Scans that merge SSTs and point reads do not decode a row. They look members up
in its MessagePack bytes through `MsgpackRowView`, which walks the members in
key order and skips the values in between. `skipMsgpack` gives up below 64
levels, and so a view of a row with a deeper member finds nothing from that
member on, or nothing at all when the view builds its field index first.

This module says what such a view finds, in terms of the row. The SST is the
list of its rows; `verifySst` reads it with views that have no field index.
-/

namespace PacificDb.Lsm

/-! ## Nesting -/

mutual

/-- The levels below a value, as `skipMsgpack` counts them. -/
def nesting : Json → Nat
  | .array items => nestingItems items
  | .object members => nestingMembers members
  | _ => 0

def nestingItems : List Json → Nat
  | [] => 0
  | item :: items => max (nesting item + 1) (nestingItems items)

def nestingMembers : List (String × Json) → Nat
  | [] => 0
  | (_, value) :: members => max (nesting value + 1) (nestingMembers members)

end

def kMaxDepth : Nat := 64

def skippable (value : Json) : Bool := decide (nesting value ≤ kMaxDepth)

/-! ## Views -/

/-- The members of an object in the order in which they are stored. -/
def sortMembers (members : List (String × Json)) : List (String × Json) :=
  members.insertionSort fun member next => member.1 ≤ next.1

/-- The fields a view can index. -/
def kIndexedFields : Nat := 32

/-- `MsgpackRowView`, with or without its field index. -/
structure MsgpackRowView where
  row : Json
  indexed : Bool

/-- The walk over the members up to the one that is asked for. -/
def walkFields (name : String) : List (String × Json) → Option Json
  | [] => none
  | (key, value) :: rest =>
      if !skippable value then none
      else if key = name then some value
      else walkFields name rest

namespace MsgpackRowView

/-- `buildFieldIndex` reached the end of the row. -/
def indexValid (view : MsgpackRowView) : Bool :=
  match view.row with
  | .object members => (sortMembers members).all fun member => skippable member.2
  | _ => false

def field (view : MsgpackRowView) (name : String) : Option Json :=
  match view.row with
  | .object members =>
      let stored := sortMembers members
      if view.indexed then
        if !view.indexValid then none
        else
          match (stored.take kIndexedFields).lookup name with
          | some value => some value
          | none => if stored.length < kIndexedFields then none else walkFields name stored
      else walkFields name stored
  | _ => none

/-- `project` on an indexed view: none is the exception on a row without a valid
index. -/
def project (view : MsgpackRowView) (names : List String) : Option Json :=
  if !view.indexValid then none
  else some (.object (names.filterMap fun name => (view.field name).map fun value => (name, value)))

/-- `rowVersion`. -/
def rowVersion (view : MsgpackRowView) : Option Int :=
  versionFields.findSome? fun name => view.field name >>= versionOf?

end MsgpackRowView

/-! ## What a view finds -/

theorem lookup_member_cons (name : String) (member : String × Json)
    (members : List (String × Json)) :
    (member :: members).lookup name =
      if name = member.1 then some member.2 else members.lookup name := by
  rw [List.lookup_cons]
  by_cases own : name = member.1
  · rw [if_pos own, beq_iff_eq.mpr own]
  · rw [if_neg own, beq_eq_false_iff_ne.mpr own]

theorem lookup_orderedInsert (name : String) (member : String × Json)
    (members : List (String × Json)) :
    (members.orderedInsert (fun member next => member.1 ≤ next.1) member).lookup name =
      if name = member.1 then some member.2 else members.lookup name := by
  induction members with
  | nil => exact lookup_member_cons name member []
  | cons next rest ih =>
    rw [List.orderedInsert_cons]
    by_cases before : member.1 ≤ next.1
    · rw [if_pos before, lookup_member_cons]
    · rw [if_neg before, lookup_member_cons, ih, lookup_member_cons]
      by_cases own : name = member.1
      · have apart : name ≠ next.1 := by
          intro same
          exact before (own.symm.trans same).le
        rw [if_neg apart, if_pos own, if_pos own]
      · rw [if_neg own, if_neg own]

/-- Sorting keeps the first member of every name. -/
theorem lookup_sortMembers (name : String) (members : List (String × Json)) :
    (sortMembers members).lookup name = members.lookup name := by
  induction members with
  | nil => rfl
  | cons member rest ih =>
    rw [sortMembers, List.insertionSort_cons, lookup_orderedInsert, ← sortMembers, ih,
      lookup_member_cons]

theorem walkFields_eq_lookup {name : String} {members : List (String × Json)}
    (flat : members.all (fun member => skippable member.2) = true) :
    walkFields name members = members.lookup name := by
  induction members with
  | nil => rfl
  | cons member rest ih =>
    obtain ⟨key, value⟩ := member
    rw [List.all_cons, Bool.and_eq_true] at flat
    rw [walkFields, flat.1, List.lookup_cons, ih flat.2]
    by_cases own : key = name
    · simp [own]
    · have apart : (name == key) = false := beq_eq_false_iff_ne.mpr (Ne.symm own)
      simp [own, apart]

theorem walkFields_some {name : String} {members : List (String × Json)} {value : Json}
    (found : walkFields name members = some value) : members.lookup name = some value := by
  induction members with
  | nil => cases found
  | cons member rest ih =>
    obtain ⟨key, first⟩ := member
    rw [walkFields] at found
    split at found
    · cases found
    · split at found
      next own =>
        rw [List.lookup_cons, own, beq_self_eq_true]
        exact found
      next other =>
        have apart : (name == key) = false := beq_eq_false_iff_ne.mpr (Ne.symm other)
        rw [List.lookup_cons, apart]
        exact ih found

theorem lookup_of_lookup_take {α β : Type} [BEq α] {name : α} {members : List (α × β)} {count : Nat}
    {value : β} (found : (members.take count).lookup name = some value) :
    members.lookup name = some value := by
  induction members generalizing count with
  | nil =>
    rw [List.take_nil] at found
    cases found
  | cons member rest ih =>
    cases count with
    | zero => cases found
    | succ count =>
      rw [List.take_succ_cons, List.lookup_cons] at found
      rw [List.lookup_cons]
      cases same : name == member.1 with
      | true =>
        rw [same] at found
        exact found
      | false =>
        rw [same] at found
        exact ih found

namespace MsgpackRowView

variable {row : Json} {name : String}

/-- What any view finds is a member of the row. -/
theorem field_some {indexed : Bool} {value : Json}
    (found : (MsgpackRowView.mk row indexed).field name = some value) :
    row.field? name = some value := by
  unfold field at found
  cases row with
  | object members =>
    dsimp only at found
    rw [Json.field?, ← lookup_sortMembers]
    split at found
    · split at found
      · cases found
      · split at found
        next value' inIndex =>
          cases found
          exact lookup_of_lookup_take inIndex
        next =>
          split at found
          · cases found
          · exact walkFields_some found
    · exact walkFields_some found
  | _ => cases found

/-- With a valid index a view finds what the row has. -/
theorem field_of_valid {indexed : Bool} (valid : (MsgpackRowView.mk row true).indexValid = true) :
    (MsgpackRowView.mk row indexed).field name = row.field? name := by
  cases row with
  | object members =>
    have flat : (sortMembers members).all (fun member => skippable member.2) = true := valid
    have walked : walkFields name (sortMembers members) = members.lookup name := by
      rw [walkFields_eq_lookup flat, lookup_sortMembers]
    unfold field
    dsimp only
    have again : (MsgpackRowView.mk (.object members) indexed).indexValid = true := valid
    rw [again, walked]
    split
    · simp only [Bool.not_true, Bool.false_eq_true, if_false]
      split
      next value found =>
        rw [Json.field?, ← lookup_sortMembers]
        exact (lookup_of_lookup_take found).symm
      next missing =>
        split
        next short =>
          have all : (sortMembers members).take kIndexedFields = sortMembers members :=
            List.take_of_length_le short.le
          rw [all, lookup_sortMembers] at missing
          rw [Json.field?, missing]
        next => rfl
    · rfl
  | _ => cases valid

/-- Without one an indexed view finds nothing. -/
theorem field_of_invalid (invalid : (MsgpackRowView.mk row true).indexValid = false) :
    (MsgpackRowView.mk row true).field name = none := by
  unfold field
  cases row with
  | object members =>
    dsimp only
    rw [invalid]
    rfl
  | _ => rfl

theorem rowVersion_of_valid (valid : (MsgpackRowView.mk row true).indexValid = true) :
    (MsgpackRowView.mk row true).rowVersion = extractDocVersionScore row := by
  unfold rowVersion extractDocVersionScore
  simp only [field_of_valid valid]

theorem isObject_of_valid (valid : (MsgpackRowView.mk row true).indexValid = true) :
    row.isObject = true := by
  cases row with
  | object members => rfl
  | _ => cases valid

/-- The members that decide about visibility. -/
def visibilityFields : List String :=
  ["_visibility_state", "visibility_state", "committed", "_raft_commit_index", "commit_index",
    "_visibility_floor"]

theorem field?_projected {names : List String} (member : name ∈ names) :
    (Json.object (names.filterMap fun name => (row.field? name).map fun value => (name, value))).field?
      name = row.field? name := by
  rw [Json.field?]
  induction names with
  | nil => cases member
  | cons first rest ih =>
    by_cases own : name = first
    · subst own
      cases found : row.field? name with
      | none =>
        rw [List.filterMap_cons, found, Option.map_none]
        dsimp only
        by_cases again : name ∈ rest
        · rw [ih again, found]
        · rw [List.lookup_eq_none_iff]
          rintro ⟨key, value⟩ held
          obtain ⟨other, isOther, isValue⟩ := List.mem_filterMap.mp held
          obtain ⟨_, -, same⟩ := Option.map_eq_some_iff.mp isValue
          cases same
          rw [bne_iff_ne]
          rintro rfl
          exact again isOther
      | some value =>
        rw [List.filterMap_cons, found, Option.map_some]
        dsimp only
        rw [lookup_member_cons, if_pos rfl]
    · have later : name ∈ rest := (List.mem_cons.mp member).resolve_left own
      rw [List.filterMap_cons]
      cases row.field? first with
      | none => exact ih later
      | some value =>
        rw [Option.map_some]
        dsimp only
        rw [lookup_member_cons, if_neg own, ih later]

/-- The visibility test reads no other member. -/
theorem docVisibleByCommitIndex_congr {view : RaftView} {doc other : Json} {committedIndex : Nat}
    (object : doc.isObject = other.isObject)
    (same : ∀ name ∈ visibilityFields, doc.field? name = other.field? name) :
    docVisibleByCommitIndex view doc committedIndex =
      docVisibleByCommitIndex view other committedIndex := by
  simp only [visibilityFields, List.forall_mem_cons] at same
  obtain ⟨state, oldState, committed, commit, oldCommit, floor, -⟩ := same
  have shown : hasVisibleCommitState doc = hasVisibleCommitState other := by
    unfold hasVisibleCommitState
    simp only [List.findSome?_cons, List.findSome?_nil, state, oldState, committed]
  have index : extractRowCommitIndex doc = extractRowCommitIndex other :=
    extractRowCommitIndex_congr commit oldCommit
  unfold docVisibleByCommitIndex
  rw [object, state, shown, index, floor]

/-- Visibility of the projected members is visibility of the row. -/
theorem project_visible {config : LsmConfig} {committedIndex : Nat}
    (valid : (MsgpackRowView.mk row true).indexValid = true) :
    ∃ projected, (MsgpackRowView.mk row true).project visibilityFields = some projected ∧
      docVisibleByCommitIndex config.raft projected committedIndex =
        docVisibleByCommitIndex config.raft row committedIndex := by
  refine ⟨_, by rw [project, valid]; rfl, ?_⟩
  simp only [field_of_valid valid]
  apply docVisibleByCommitIndex_congr
  · rw [isObject_of_valid valid]
    rfl
  · intro name member
    exact field?_projected member

end MsgpackRowView

/-! ## Verified SSTs -/

/-- The text of an id: its own, or its dump. -/
def idText (config : LsmConfig) : Json → String
  | .string id => id
  | other => config.dump other

theorem docId?_eq {config : LsmConfig} {row id : Json} (found : row.field? "id" = some id) :
    docId? config.dump row = some (idText config id) := by
  rw [docId?, found]
  cases id <;> rfl

/-- `verifySst` on the rows of a file: every row shows an id, no id is empty, and
the ids do not fall. -/
def verifyRows (config : LsmConfig) : String → List Json → Bool
  | _, [] => true
  | previousId, row :: rest =>
      match (MsgpackRowView.mk row false).field "id" with
      | none => false
      | some id =>
          let currentId := idText config id
          if currentId = "" ∨ (previousId ≠ "" ∧ currentId < previousId) then false
          else verifyRows config currentId rest

def verifySst (config : LsmConfig) (rows : List Json) : Bool := verifyRows config "" rows

/-- The key of a row as the SST code takes it. -/
def sstKey (config : LsmConfig) (row : Json) : String := (docId? config.dump row).getD ""

theorem verifyRows_keys {config : LsmConfig} {rows : List Json} {previousId : String}
    (verified : verifyRows config previousId rows = true) :
    (∀ row ∈ rows, (docId? config.dump row).isSome = true ∧ sstKey config row ≠ "" ∧
      (previousId ≠ "" → previousId ≤ sstKey config row)) ∧
      rows.Pairwise fun row next => sstKey config row ≤ sstKey config next := by
  induction rows generalizing previousId with
  | nil => exact ⟨fun row member => (by cases member), List.Pairwise.nil⟩
  | cons row rest ih =>
    rw [verifyRows] at verified
    split at verified
    · cases verified
    next id found =>
      dsimp only at verified
      split at verified
      · cases verified
      next good =>
        rw [not_or, not_and, not_lt] at good
        have known := @docId?_eq config _ _ (MsgpackRowView.field_some found)
        have key : sstKey config row = idText config id := by rw [sstKey, known]; rfl
        obtain ⟨later, sorted⟩ := ih verified
        rw [← key] at good later
        constructor
        · intro other member
          rcases List.mem_cons.mp member with rfl | old
          · exact ⟨by rw [known]; rfl, good.1, good.2⟩
          · obtain ⟨has, nonempty, above⟩ := later other old
            exact ⟨has, nonempty, fun named => (good.2 named).trans (above good.1)⟩
        · rw [List.pairwise_cons]
          exact ⟨fun other member => (later other member).2.2 good.1, sorted⟩

end PacificDb.Lsm
