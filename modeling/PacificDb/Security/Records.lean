import PacificDb.JsonText.Prefix

/-!
# Users and API keys as JSON

`SecurityManager` keeps its users and its API keys in two JSON files. A record that was written is
read back as it was, but for the fractions of a second of its times.
-/

namespace PacificDb.Security

open Lib JsonText
open Sst (Bytes Value utf8)

/-- A string in UTF-8, as every string of a request is. -/
abbrev Text := { bytes : Bytes // (escape [] bytes).isSome = true }

namespace Text

def of? (bytes : Bytes) : Option Text :=
  if valid : (escape [] bytes).isSome = true then some ⟨bytes, valid⟩ else none

theorem of?_bytes (text : Text) : of? text.1 = some text := dif_pos text.2

def empty : Text := ⟨[], rfl⟩

end Text

/-! ## Reading members -/

/-- `j.value(name, fallback)`; none is an exception. -/
def valueOr {α : Type} (read : Value → Option α) (doc : Value) (name : Bytes) (fallback : α) : Option α :=
  match doc with
  | .object members =>
      match members.lookup name with
      | some value => read value
      | none => some fallback
  | _ => none

def asText : Value → Option Text
  | .string bytes => Text.of? bytes
  | _ => none

def asTexts : Value → Option (List Text)
  | .array items => items.mapM asText
  | _ => none

def asBool : Value → Option Bool
  | .boolean value => some value
  | _ => none

/-- `get<long long>()`. The conversion of a double is the parameter. -/
def asInt64 (truncate : UInt64 → Int64) : Value → Option Int64
  | .integer value => some value
  | .unsigned value => some value.toInt64
  | .float bits => some (truncate bits)
  | .boolean value => some (if value then 1 else 0)
  | _ => none

/-! ## Users -/

inductive Role where
  | SUPERADMIN
  | ADMIN
  | WRITE
  | READ_ONLY
  | BACKUP_OPERATOR
  | METRICS_VIEWER
  deriving DecidableEq

def roleToString : Role → Bytes
  | .SUPERADMIN => utf8 "superadmin"
  | .ADMIN => utf8 "admin"
  | .WRITE => utf8 "write"
  | .READ_ONLY => utf8 "read_only"
  | .BACKUP_OPERATOR => utf8 "backup_operator"
  | .METRICS_VIEWER => utf8 "metrics_viewer"

def stringToRole (text : Bytes) : Role :=
  if text = utf8 "superadmin" then .SUPERADMIN
  else if text = utf8 "admin" then .ADMIN
  else if text = utf8 "write" then .WRITE
  else if text = utf8 "read_only" then .READ_ONLY
  else if text = utf8 "backup_operator" then .BACKUP_OPERATOR
  else if text = utf8 "metrics_viewer" then .METRICS_VIEWER
  else .READ_ONLY

/-- Times count nanoseconds. -/
structure User where
  username : Text
  passwordHash : Text
  salt : Text
  role : Role
  allowedDatabases : List Text
  isActive : Bool
  createdAt : Int64
  lastLogin : Int64
  failedLoginAttempts : Int32
  isLocked : Bool
  lockedUntil : Int64

/-- `duration_cast<seconds>`. -/
def seconds (time : Int64) : Int64 := time / 1000000000

/-- `time_point(seconds(count))`. -/
def ofSeconds (count : Int64) : Int64 := count * 1000000000

namespace User

/-- The members are in the order of their names, as the library keeps them. -/
def members (user : User) : List (Bytes × Value) :=
  [
    (utf8 "allowedDatabases", .array (user.allowedDatabases.map fun name => .string name.1)),
    (utf8 "createdAt", .integer (seconds user.createdAt)),
    (utf8 "failedLoginAttempts", .integer user.failedLoginAttempts.toInt64),
    (utf8 "isActive", .boolean user.isActive),
    (utf8 "isLocked", .boolean user.isLocked),
    (utf8 "lastLogin", .integer (seconds user.lastLogin)),
    (utf8 "lockedUntil", .integer user.lockedUntil),
    (utf8 "passwordHash", .string user.passwordHash.1),
    (utf8 "role", .string (roleToString user.role)),
    (utf8 "salt", .string user.salt.1),
    (utf8 "username", .string user.username.1)]

def toJson (user : User) : Value := .object user.members

def fromJson (truncate : UInt64 → Int64) (j : Value) : Option User := do
  let username ← valueOr asText j (utf8 "username") .empty
  let passwordHash ← valueOr asText j (utf8 "passwordHash") .empty
  let salt ← valueOr asText j (utf8 "salt") .empty
  let role ← valueOr asText j (utf8 "role") ⟨utf8 "read_only", rfl⟩
  let allowedDatabases ← valueOr asTexts j (utf8 "allowedDatabases") []
  let isActive ← valueOr asBool j (utf8 "isActive") true
  let createdAt ← valueOr (asInt64 truncate) j (utf8 "createdAt") 0
  let lastLogin ← valueOr (asInt64 truncate) j (utf8 "lastLogin") 0
  let failedLoginAttempts ← valueOr (asInt64 truncate) j (utf8 "failedLoginAttempts") 0
  let isLocked ← valueOr asBool j (utf8 "isLocked") false
  let lockedUntil ← valueOr (asInt64 truncate) j (utf8 "lockedUntil") 0
  return {
    username, passwordHash, salt, role := stringToRole role.1, allowedDatabases, isActive
    createdAt := ofSeconds createdAt
    lastLogin := ofSeconds lastLogin
    failedLoginAttempts := failedLoginAttempts.toInt32
    isLocked, lockedUntil }

/-- What the file keeps of a user: whole seconds. -/
def rounded (user : User) : User :=
  { user with
    createdAt := ofSeconds (seconds user.createdAt)
    lastLogin := ofSeconds (seconds user.lastLogin) }

end User

/-! ## API keys -/

/-- The roles that an API key can have. -/
inductive ApiRole where
  | READ_ONLY
  | WRITE
  | ADMIN
  | METRICS_VIEWER
  deriving DecidableEq

structure ApiKeyRecord where
  id : { id : Text // id.1 ≠ [] }
  name : Text
  role : ApiRole
  secretHash : { hash : Text // hash.1.length = 64 }
  createdBy : Text
  createdAt : Int64
  lastUsedAt : Int64
  revokedAt : Int64

namespace ApiKeyRecord

def roleText : ApiRole → Bytes
  | .ADMIN => utf8 "admin"
  | .METRICS_VIEWER => utf8 "metrics"
  | .WRITE => utf8 "readwrite"
  | .READ_ONLY => utf8 "read"

def roleOf (text : Bytes) : ApiRole :=
  if text = utf8 "admin" then .ADMIN
  else if text = utf8 "metrics" ∨ text = utf8 "metrics_viewer" then .METRICS_VIEWER
  else if text = utf8 "readwrite" ∨ text = utf8 "write" then .WRITE
  else .READ_ONLY

def members (record : ApiKeyRecord) : List (Bytes × Value) :=
  [
    (utf8 "created_at", .integer record.createdAt),
    (utf8 "created_by", .string record.createdBy.1),
    (utf8 "id", .string record.id.1.1),
    (utf8 "last_used_at", .integer record.lastUsedAt),
    (utf8 "name", .string record.name.1),
    (utf8 "revoked_at", .integer record.revokedAt),
    (utf8 "role", .string (roleText record.role)),
    (utf8 "secret_hash", .string record.secretHash.1.1)]

def toJson (record : ApiKeyRecord) : Value := .object record.members

/-- The record of an item. The inner none is a record that is passed over. -/
def fromJson (truncate : UInt64 → Int64) (item : Value) : Option (Option ApiKeyRecord) := do
  let id ← valueOr asText item (utf8 "id") .empty
  let name ← valueOr asText item (utf8 "name") .empty
  let role ← valueOr asText item (utf8 "role") ⟨utf8 "read", rfl⟩
  let secretHash ← valueOr asText item (utf8 "secret_hash") .empty
  let createdBy ← valueOr asText item (utf8 "created_by") .empty
  let createdAt ← valueOr (asInt64 truncate) item (utf8 "created_at") 0
  let lastUsedAt ← valueOr (asInt64 truncate) item (utf8 "last_used_at") 0
  let revokedAt ← valueOr (asInt64 truncate) item (utf8 "revoked_at") 0
  return if valid : id.1 ≠ [] ∧ secretHash.1.length = 64 then
    some {
      id := ⟨id, valid.1⟩, name, role := roleOf role.1, secretHash := ⟨secretHash, valid.2⟩, createdBy
      createdAt, lastUsedAt, revokedAt }
  else none

end ApiKeyRecord

/-! ## What is written is read -/

theorem reread_object {members : List (Bytes × Value)} {names : List Bytes}
    (isNames : members.map Prod.fst = names) (sorted : names.Pairwise (· < ·)) :
    reread (.object members) = .object (members.map fun member => (member.1, reread member.2)) := by
  rw [reread, membersReread_eq, Value.ofMembers]
  congr 1
  apply SortedMap.foldl_put []
  rw [List.nil_append, List.pairwise_map]
  rw [← isNames] at sorted
  exact List.pairwise_map.mp sorted

/-- A number comes back in another storage class, and is the same. -/
theorem asInt64_reread (truncate : UInt64 → Int64) (value : Int64) :
    asInt64 truncate (reread (.integer value)) = some value := by
  rw [reread]
  split
  next positive =>
    rw [asInt64]
    rw [UInt64.toInt64_ofNat', ← Int64.ofInt_eq_ofNat, Int.toNat_of_nonneg positive, Int64.ofInt_toInt]
  · rfl

theorem asTexts_reread (names : List Text) :
    asTexts (reread (.array (names.map fun name => .string name.1))) = some names := by
  rw [reread, itemsReread_eq, asTexts, List.map_map]
  induction names with
  | nil => rfl
  | cons name names ih =>
    rw [List.map_cons, List.mapM_cons, ih]
    change (Text.of? name.1).bind _ = _
    rw [Text.of?_bytes]
    rfl

theorem stringToRole_roleToString (role : Role) : stringToRole (roleToString role) = role := by
  cases role <;> rfl

theorem roleOf_roleText (role : ApiRole) : ApiKeyRecord.roleOf (ApiKeyRecord.roleText role) = role := by
  cases role <;> rfl

theorem valueOr_field {α : Type} {read : Value → Option α} {members : List (Bytes × Value)} {name : Bytes}
    {value : Value} (fallback : α) (found : members.lookup name = some value) :
    valueOr read (.object members) name fallback = read value := by
  rw [valueOr, found]

theorem asText_reread (text : Text) : asText (reread (.string text.1)) = some text := Text.of?_bytes text

theorem asBool_reread (value : Bool) : asBool (reread (.boolean value)) = some value := rfl

def userNames : List Bytes :=
  [utf8 "allowedDatabases", utf8 "createdAt", utf8 "failedLoginAttempts", utf8 "isActive",
    utf8 "isLocked", utf8 "lastLogin", utf8 "lockedUntil", utf8 "passwordHash", utf8 "role", utf8 "salt",
    utf8 "username"]

theorem roleToString_valid (role : Role) : (escape [] (roleToString role)).isSome = true := by
  cases role <;> rfl

theorem User.fromJson_toJson (truncate : UInt64 → Int64) (user : User) :
    fromJson truncate (reread user.toJson) = some user.rounded := by
  have sorted : userNames.Pairwise (· < ·) := by decide
  have role := asText_reread ⟨roleToString user.role, roleToString_valid user.role⟩
  rw [toJson, @reread_object user.members userNames rfl sorted]
  simp only [members, List.map_cons, List.map_nil]
  rw [fromJson, valueOr_field _ rfl, asText_reread, valueOr_field _ rfl, asText_reread,
    valueOr_field _ rfl, asText_reread, valueOr_field _ rfl, role, valueOr_field _ rfl, asTexts_reread,
    valueOr_field _ rfl, asBool_reread, valueOr_field _ rfl, asInt64_reread, valueOr_field _ rfl,
    asInt64_reread, valueOr_field _ rfl, asInt64_reread, valueOr_field _ rfl, asBool_reread,
    valueOr_field _ rfl, asInt64_reread]
  simp only [bind, Option.bind_some, pure, stringToRole_roleToString, Int32.toInt32_toInt64]
  rfl

def apiKeyNames : List Bytes :=
  [utf8 "created_at", utf8 "created_by", utf8 "id", utf8 "last_used_at", utf8 "name", utf8 "revoked_at",
    utf8 "role", utf8 "secret_hash"]

theorem roleText_valid (role : ApiRole) : (escape [] (ApiKeyRecord.roleText role)).isSome = true := by
  cases role <;> rfl

theorem ApiKeyRecord.fromJson_toJson (truncate : UInt64 → Int64) (record : ApiKeyRecord) :
    fromJson truncate (reread record.toJson) = some (some record) := by
  have sorted : apiKeyNames.Pairwise (· < ·) := by decide
  have role := asText_reread ⟨roleText record.role, roleText_valid record.role⟩
  rw [toJson, @reread_object record.members apiKeyNames rfl sorted]
  simp only [members, List.map_cons, List.map_nil]
  rw [fromJson, valueOr_field _ rfl, asText_reread, valueOr_field _ rfl, asText_reread,
    valueOr_field _ rfl, role, valueOr_field _ rfl, asText_reread, valueOr_field _ rfl, asText_reread,
    valueOr_field _ rfl, asInt64_reread, valueOr_field _ rfl, asInt64_reread, valueOr_field _ rfl,
    asInt64_reread]
  simp only [bind, Option.bind_some, pure, roleOf_roleText]
  rw [dif_pos ⟨record.id.2, record.secretHash.2⟩]

/-! ## Every record can be written -/

section Dumps

variable {lib : FloatText} {style : Style}

/-- `dump` does not throw. -/
def Dumps (lib : FloatText) (style : Style) (value : Value) : Prop :=
  ∀ depth, (dump lib style depth value).isSome = true

theorem dumps_string (text : Text) : Dumps lib style (.string text.1) := by
  intro depth
  rw [dump, Option.isSome_map]
  exact text.2

theorem dumps_array {items : List Value} (each : ∀ item ∈ items, Dumps lib style item) :
    Dumps lib style (.array items) := by
  intro depth
  rw [dump, Option.isSome_map]
  induction items with
  | nil => rfl
  | cons item items ih =>
    obtain ⟨text, isText⟩ := Option.isSome_iff_exists.mp (each item (.head _) (depth + 1))
    rw [dumpItems, isText, Option.bind_some, Option.isSome_map]
    exact ih fun item member => each item (.tail _ member)

theorem dumps_object {members : List (Bytes × Value)}
    (each : ∀ member ∈ members, (escape [] member.1).isSome = true ∧ Dumps lib style member.2) :
    Dumps lib style (.object members) := by
  intro depth
  rw [dump, Option.isSome_map]
  induction members with
  | nil => rfl
  | cons member members ih =>
    obtain ⟨name, value⟩ := member
    obtain ⟨isName, isValue⟩ := each _ (.head _)
    obtain ⟨nameText, isName⟩ := Option.isSome_iff_exists.mp isName
    obtain ⟨text, isText⟩ := Option.isSome_iff_exists.mp (isValue (depth + 1))
    rw [dumpMembers, isName, Option.bind_some, isText, Option.bind_some, Option.isSome_map]
    exact ih fun member isMember => each member (.tail _ isMember)

theorem User.dumps (user : User) : Dumps lib style user.toJson := by
  have names : ∀ name ∈ userNames, (escape [] name).isSome = true := by decide
  have texts : Dumps lib style (.array (user.allowedDatabases.map fun name => .string name.1)) := by
    apply dumps_array
    intro item member
    obtain ⟨name, -, rfl⟩ := List.mem_map.mp member
    exact dumps_string name
  apply dumps_object
  intro member isMember
  refine ⟨names member.1 (List.mem_map_of_mem isMember), ?_⟩
  simp only [members, List.mem_cons, List.not_mem_nil, or_false] at isMember
  rcases isMember with rfl | rfl | rfl | rfl | rfl | rfl | rfl | rfl | rfl | rfl | rfl
  · exact texts
  · exact fun _ => rfl
  · exact fun _ => rfl
  · exact fun _ => rfl
  · exact fun _ => rfl
  · exact fun _ => rfl
  · exact fun _ => rfl
  · exact dumps_string _
  · exact dumps_string ⟨_, roleToString_valid _⟩
  · exact dumps_string _
  · exact dumps_string _

theorem ApiKeyRecord.dumps (record : ApiKeyRecord) : Dumps lib style record.toJson := by
  have names : ∀ name ∈ apiKeyNames, (escape [] name).isSome = true := by decide
  apply dumps_object
  intro member isMember
  refine ⟨names member.1 (List.mem_map_of_mem isMember), ?_⟩
  simp only [members, List.mem_cons, List.not_mem_nil, or_false] at isMember
  rcases isMember with rfl | rfl | rfl | rfl | rfl | rfl | rfl | rfl
  · exact fun _ => rfl
  · exact dumps_string _
  · exact dumps_string _
  · exact fun _ => rfl
  · exact dumps_string _
  · exact fun _ => rfl
  · exact dumps_string ⟨_, roleText_valid _⟩
  · exact dumps_string _

end Dumps

end PacificDb.Security
