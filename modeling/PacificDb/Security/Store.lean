import PacificDb.Security.Records

/-!
# The files of users and API keys

`users.json` and `api_keys.json` as `SecurityManager` writes and loads them. What does not parse as
users counts as no users, so that a part of `users.json` is loaded as an empty table
(`loadUsers_torn`); API keys that do not parse are an exception.
-/

namespace PacificDb.Security

open Lib JsonText
open Sst (Bytes Value utf8)

/-- The conversions of the JSON library. -/
structure Library where
  text : FloatText
  truncate : UInt64 → Int64

/-! ## Tables -/

/-- Records under their own key. -/
structure Table {κ ν : Type} [LinearOrder κ] (key : ν → κ) where
  records : SortedMap κ ν
  keyed : ∀ entry ∈ records.entries, entry.1 = key entry.2

namespace Table

variable {κ ν : Type} [LinearOrder κ] {key : ν → κ}

def empty : Table key := ⟨.empty, fun _ member => absurd member List.not_mem_nil⟩

def find? (table : Table key) (k : κ) : Option ν := table.records.find? k

def put (table : Table key) (record : ν) : Table key where
  records := table.records.assign (key record) record
  keyed entry member := by
    rcases SortedMap.mem_assign.mp member with rfl | ⟨old, -⟩
    · rfl
    · exact table.keyed entry old

def erase (table : Table key) (k : κ) : Table key where
  records := table.records.erase k
  keyed entry member := table.keyed entry (SortedMap.mem_erase.mp member).1

def values (table : Table key) : List ν := table.records.entries.map Prod.snd

/-- The records changed, each under its key. -/
def mapValues (table : Table key) (change : ν → ν) (same : ∀ record, key (change record) = key record) :
    Table key where
  records := table.records.mapValues fun _ => change
  keyed entry member := by
    obtain ⟨old, isOld, changed⟩ := SortedMap.mem_mapValues.mp member
    rw [changed, same]
    exact table.keyed _ isOld

theorem ext_entries {first second : Table key} (same : first.records.entries = second.records.entries) :
    first = second := by
  cases first
  cases second
  congr 1
  exact SortedMap.ext_entries same

theorem eq_empty {table : Table key} (none : table.values = []) : table = empty :=
  ext_entries (List.map_eq_nil_iff.mp none)

/-- A table is made of its values again. -/
theorem foldl_put (table : Table key) (change : ν → ν) (same : ∀ record, key (change record) = key record) :
    (table.values.map change).foldl put empty = table.mapValues change same := by
  have entries : ∀ (records : List ν) (start : Table key), (records.foldl put start).records.entries =
      (records.map fun record => (key record, record)).foldl
        (fun map entry => SortedMap.put map entry.1 entry.2) start.records.entries := by
    intro records
    induction records with
    | nil => exact fun _ => rfl
    | cons record records ih => exact fun start => ih _
  have named : (table.values.map change).map (fun record => (key record, record)) =
      table.records.entries.map fun entry => (entry.1, change entry.2) := by
    rw [values, List.map_map, List.map_map]
    apply List.map_congr_left
    intro entry member
    change (key (change entry.2), change entry.2) = _
    rw [same, table.keyed entry member]
  apply ext_entries
  rw [entries, named]
  exact SortedMap.foldl_put [] (List.pairwise_map.mpr table.records.sorted)

end Table

abbrev UserTable := Table User.username

abbrev ApiKeyTable := Table ApiKeyRecord.id

theorem User.rounded_username (user : User) : user.rounded.username = user.username := by
  rw [User.rounded]

/-- The users as the file keeps them. -/
def UserTable.rounded (table : UserTable) : UserTable :=
  table.mapValues User.rounded User.rounded_username

/-! ## The files -/

def usersDoc (table : UserTable) : Value :=
  .object [(utf8 "users", .array (table.values.map User.toJson))]

def apiKeysDoc (table : ApiKeyTable) : Value :=
  .object [(utf8 "api_keys", .array (table.values.map ApiKeyRecord.toJson))]

/-- `dump(2)`, which does not throw on these (`dumps_usersDoc`). -/
def fileText (lib : Library) (doc : Value) : Bytes := (dump lib.text ⟨some 2⟩ 0 doc).getD []

/-- `j[name]`; none is an exception. -/
def index (doc : Value) (name : Bytes) : Option Value :=
  match doc with
  | .object members => some ((members.lookup name).getD .null)
  | .null => some .null
  | _ => none

/-- What a range loop goes through. -/
def elements : Value → List Value
  | .array items => items
  | .object members => members.map Prod.snd
  | .null => []
  | other => [other]

/-- The loop of `loadUsers`. An exception ends it. -/
def loadItems (lib : Library) : UserTable → List Value → UserTable
  | table, [] => table
  | table, item :: items =>
      match User.fromJson lib.truncate item with
      | some user => loadItems lib (table.put user) items
      | none => table

def loadUsers (lib : Library) : Option Bytes → UserTable
  | none => .empty
  | some text =>
      match (parse lib.text text).bind fun j => index j (utf8 "users") with
      | some users => loadItems lib .empty (elements users)
      | none => .empty

def loadRecords (lib : Library) : ApiKeyTable → List Value → Option ApiKeyTable
  | table, [] => some table
  | table, item :: items =>
      match ApiKeyRecord.fromJson lib.truncate item with
      | some (some record) => loadRecords lib (table.put record) items
      | some none => loadRecords lib table items
      | none => none

/-- None is an exception: the store is not valid. -/
def loadApiKeys (lib : Library) : Option Bytes → Option ApiKeyTable
  | none => some .empty
  | some text =>
      match parse lib.text text with
      | some (.object members) =>
          match members.lookup (utf8 "api_keys") with
          | some (.array items) => loadRecords lib .empty items
          | _ => none
      | _ => none

section Files

variable {lib : Library}

theorem dumps_usersDoc (table : UserTable) : Dumps lib.text ⟨some 2⟩ (usersDoc table) := by
  have named : (escape [] (utf8 "users")).isSome = true := by decide
  apply dumps_object
  intro member isMember
  obtain rfl := List.mem_singleton.mp isMember
  refine ⟨named, dumps_array fun item isItem => ?_⟩
  obtain ⟨user, -, rfl⟩ := List.mem_map.mp isItem
  exact user.dumps

theorem dumps_apiKeysDoc (table : ApiKeyTable) : Dumps lib.text ⟨some 2⟩ (apiKeysDoc table) := by
  have named : (escape [] (utf8 "api_keys")).isSome = true := by decide
  apply dumps_object
  intro member isMember
  obtain rfl := List.mem_singleton.mp isMember
  refine ⟨named, dumps_array fun item isItem => ?_⟩
  obtain ⟨record, -, rfl⟩ := List.mem_map.mp isItem
  exact record.dumps

theorem fileText_eq {doc : Value} (dumps : Dumps lib.text ⟨some 2⟩ doc) :
    dump lib.text ⟨some 2⟩ 0 doc = some (fileText lib doc) := by
  obtain ⟨text, isText⟩ := Option.isSome_iff_exists.mp (dumps 0)
  rw [fileText, isText]
  rfl

/-- The one member of a store. -/
theorem reread_store {name : Bytes} {items : List Value} :
    reread (.object [(name, .array items)]) = .object [(name, .array (items.map reread))] := by
  have single : ([name] : List Bytes).Pairwise (· < ·) := List.pairwise_singleton _ _
  rw [@reread_object [(name, .array items)] [name] rfl single, List.map_singleton, reread, itemsReread_eq]

theorem loadItems_written (users : List User) (table : UserTable) :
    loadItems lib table ((users.map User.toJson).map reread) =
      (users.map User.rounded).foldl Table.put table := by
  induction users generalizing table with
  | nil => rfl
  | cons user users ih =>
    rw [List.map_cons, List.map_cons, loadItems, User.fromJson_toJson]
    exact ih _

theorem loadRecords_written (records : List ApiKeyRecord) (table : ApiKeyTable) :
    loadRecords lib table ((records.map ApiKeyRecord.toJson).map reread) =
      some (records.foldl Table.put table) := by
  induction records generalizing table with
  | nil => rfl
  | cons record records ih =>
    rw [List.map_cons, List.map_cons, loadRecords, ApiKeyRecord.fromJson_toJson]
    exact ih _

theorem index_store {name : Bytes} {value : Value} : index (.object [(name, value)]) name = some value := by
  rw [index, List.lookup_cons_self]
  rfl

/-- Users that were saved are loaded. -/
theorem loadUsers_saved (table : UserTable) :
    loadUsers lib (some (fileText lib (usersDoc table))) = table.rounded := by
  have read : parse lib.text (fileText lib (usersDoc table)) =
      some (.object [(utf8 "users", .array ((table.values.map User.toJson).map reread))]) := by
    rw [parse_dump (fileText_eq (dumps_usersDoc table)), usersDoc, reread_store]
  rw [loadUsers, read, Option.bind_some, index_store]
  change loadItems lib .empty ((table.values.map User.toJson).map reread) = _
  rw [loadItems_written]
  exact table.foldl_put User.rounded User.rounded_username

theorem loadApiKeys_saved (table : ApiKeyTable) :
    loadApiKeys lib (some (fileText lib (apiKeysDoc table))) = some table := by
  have read : parse lib.text (fileText lib (apiKeysDoc table)) =
      some (.object [(utf8 "api_keys", .array ((table.values.map ApiKeyRecord.toJson).map reread))]) := by
    rw [parse_dump (fileText_eq (dumps_apiKeysDoc table)), apiKeysDoc, reread_store]
  have whole : table.values.foldl Table.put .empty = table := by
    have back := table.foldl_put id fun _ => rfl
    rw [List.map_id] at back
    rw [back]
    apply Table.ext_entries
    exact List.map_id _
  rw [loadApiKeys, read]
  simp only [List.lookup_cons_self]
  rw [loadRecords_written, whole]

/-- Users whose save was interrupted are lost. -/
theorem loadUsers_torn {table : UserTable} {written : Nat}
    (torn : written < (fileText lib (usersDoc table)).length) :
    loadUsers lib (some ((fileText lib (usersDoc table)).take written)) = .empty := by
  have fails : parse lib.text ((fileText lib (usersDoc table)).take written) = none :=
    parse_torn (fileText_eq (dumps_usersDoc table)) torn
  rw [loadUsers, fails]
  rfl

end Files

end PacificDb.Security
