import PacificDb.Security.Store

/-!
# Operations on users and API keys

The operations of `SecurityManager` that change a table. Each says which tables it saves, in their
order. Times and random bytes are arguments.
-/

namespace PacificDb.Security

open Lib
open Sst (Bytes utf8)

/-- The cryptography and the settings of the manager. -/
structure Settings where
  hashPassword : Text → Text → Text
  verifyPassword : Text → Text → Text → Bool
  sha256 : Bytes → { hash : Text // hash.1.length = 64 }
  maxLoginAttempts : Int32
  lockoutDurationMinutes : Int32

/-- What an operation returns, and the tables it saves. The last one stays in memory. -/
structure Outcome (α τ : Type) where
  result : α
  saves : List τ

/-! ## Operations on users -/

section UserOperations

variable (settings : Settings)

def newUser (username password : Text) (role : Role) (salt : Text) (now : Int64) : User where
  username := username
  passwordHash := settings.hashPassword password salt
  salt := salt
  role := role
  allowedDatabases := []
  isActive := true
  createdAt := now
  lastLogin := 0
  failedLoginAttempts := 0
  isLocked := false
  lockedUntil := 0

def createUser (users : UserTable) (username password : Text) (role : Role) (salt : Text) (now : Int64) :
    Outcome Bool UserTable :=
  if (users.find? username).isSome then ⟨false, []⟩
  else ⟨true, [users.put (newUser settings username password role salt now)]⟩

def deleteUser (users : UserTable) (username : Text) : Outcome Bool UserTable :=
  if username.1 = utf8 "admin" then ⟨false, []⟩
  else if (users.find? username).isSome then ⟨true, [users.erase username]⟩
  else ⟨false, []⟩

/-- The operations that change a user who is there. -/
def updateUser (users : UserTable) (username : Text) (change : User → User) : Outcome Bool UserTable :=
  match users.find? username with
  | some user => ⟨true, [users.put (change user)]⟩
  | none => ⟨false, []⟩

def updateUserRole (users : UserTable) (username : Text) (newRole : Role) : Outcome Bool UserTable :=
  updateUser users username fun user => { user with role := newRole }

def updateUserPassword (users : UserTable) (username newPassword salt : Text) : Outcome Bool UserTable :=
  updateUser users username fun user =>
    { user with
      salt
      passwordHash := settings.hashPassword newPassword salt
      failedLoginAttempts := 0
      isLocked := false
      lockedUntil := 0 }

def setUserDatabaseAccess (users : UserTable) (username : Text) (databases : List Text) :
    Outcome Bool UserTable :=
  updateUser users username fun user => { user with allowedDatabases := databases }

def unlockAccountIfExpired (user : User) (now : Int64) : Option User :=
  if !user.isLocked || user.lockedUntil ≤ 0 then none
  else if seconds now < user.lockedUntil then none
  else some { user with isLocked := false, failedLoginAttempts := 0, lockedUntil := 0 }

def lockedUntil (now : Int64) : Int64 :=
  let duration := max 0 settings.lockoutDurationMinutes.toInt64 * 60
  if duration > Int64.maxValue - now then Int64.maxValue else now + duration

def failedLogin (user : User) (now : Int64) : User :=
  let counted := { user with failedLoginAttempts := user.failedLoginAttempts + 1 }
  if counted.failedLoginAttempts ≥ settings.maxLoginAttempts ∧ counted.isLocked = false then
    { counted with isLocked := true, lockedUntil := lockedUntil settings (seconds now) }
  else counted

def succeededLogin (user : User) (password : Text) (now : Int64) : User :=
  let kept := utf8 "pbkdf2-sha256$" <+: user.passwordHash.1
  { user with
    passwordHash := if kept then user.passwordHash else settings.hashPassword password user.salt
    failedLoginAttempts := 0
    isLocked := false
    lockedUntil := 0
    lastLogin := now }

/-- The part of `authenticate` after the lock. -/
def checkPassword (users : UserTable) (user : User) (password : Text) (now : Int64) :
    Outcome Bool UserTable :=
  if !user.isActive then ⟨false, []⟩
  else if settings.verifyPassword password user.salt user.passwordHash then
    ⟨true, [users.put (succeededLogin settings user password now)]⟩
  else ⟨false, [users.put (failedLogin settings user now)]⟩

/-- A lock that has run out is saved before the password is checked. -/
def authenticate (users : UserTable) (username password : Text) (now : Int64) : Outcome Bool UserTable :=
  match users.find? username with
  | none => ⟨false, []⟩
  | some user =>
      if user.isLocked then
        match unlockAccountIfExpired user now with
        | none => ⟨false, []⟩
        | some unlocked =>
            let checked := checkPassword settings (users.put unlocked) unlocked password now
            ⟨checked.result, users.put unlocked :: checked.saves⟩
      else checkPassword settings users user password now

inductive UserOp where
  | createUser (username password : Text) (role : Role) (salt : Text) (now : Int64)
  | deleteUser (username : Text)
  | updateUserRole (username : Text) (newRole : Role)
  | updateUserPassword (username newPassword salt : Text)
  | setUserDatabaseAccess (username : Text) (databases : List Text)

def UserOp.outcome (users : UserTable) : UserOp → Outcome Bool UserTable
  | .createUser username password role salt now =>
      Security.createUser settings users username password role salt now
  | .deleteUser username => Security.deleteUser users username
  | .updateUserRole username newRole => Security.updateUserRole users username newRole
  | .updateUserPassword username newPassword salt =>
      Security.updateUserPassword settings users username newPassword salt
  | .setUserDatabaseAccess username databases =>
      Security.setUserDatabaseAccess users username databases

/-- The operator's user of the environment. -/
structure Bootstrap where
  username : { name : Text // name.1 ≠ [] }
  password : { password : Text // password.1 ≠ [] }
  salt : Text
  now : Int64

def initializeDefaultAdmin (users : UserTable) : Option Bootstrap → List UserTable
  | some boot =>
      if users.values.isEmpty then
        [users.put (newUser settings boot.username.1 boot.password.1 .SUPERADMIN boot.salt boot.now)]
      else []
  | none => []

end UserOperations

/-! ## Operations on API keys -/

section KeyOperations

variable (settings : Settings)

def apiRole? (roleName : Bytes) : Option ApiRole :=
  if roleName = utf8 "read" then some .READ_ONLY
  else if roleName = utf8 "metrics" then some .METRICS_VIEWER
  else if roleName = utf8 "readwrite" then some .WRITE
  else if roleName = utf8 "admin" then some .ADMIN
  else none

/-- None is an exception. -/
def createApiKey (keys : ApiKeyTable) (name : Text) (roleName : Bytes) (createdBy : Text)
    (id : { id : Text // id.1 ≠ [] }) (secret : Bytes) (now : Int64) :
    Outcome (Option ApiKeyRecord) ApiKeyTable :=
  if name.1 = [] ∨ 128 < name.1.length then ⟨none, []⟩
  else
    match apiRole? roleName with
    | none => ⟨none, []⟩
    | some role =>
        let record : ApiKeyRecord :=
          ⟨id, name, role, settings.sha256 secret, createdBy, seconds now, 0, 0⟩
        ⟨some record, [keys.put record]⟩

def findKey (keys : ApiKeyTable) (id : Text) : Option ApiKeyRecord :=
  if nonempty : id.1 ≠ [] then keys.find? ⟨id, nonempty⟩ else none

def revokeApiKey (keys : ApiKeyTable) (id : Text) (now : Int64) : Outcome Bool ApiKeyTable :=
  match findKey keys id with
  | none => ⟨false, []⟩
  | some record =>
      if record.revokedAt ≠ 0 then ⟨false, []⟩
      else ⟨true, [keys.put { record with revokedAt := seconds now }]⟩

/-- The identifier and the secret of `pdb_<id>_<secret>`. -/
def splitKey (key : Bytes) : Option (Bytes × Bytes) :=
  if utf8 "pdb_" <+: key then
    let rest := key.drop 4
    let id := rest.takeWhile (· ≠ 0x5f)
    let secret := rest.drop (id.length + 1)
    if id.length < rest.length ∧ id.length = 12 ∧ secret ≠ [] then some (id, secret) else none
  else none

/-- The use of a key is noted once a minute. -/
def validateApiKey (users : UserTable) (keys : ApiKeyTable) (key : Bytes) (now : Int64) :
    Outcome (Option ApiKeyRecord) ApiKeyTable :=
  let record := do
    let (id, secret) ← splitKey key
    let found ← findKey keys (← Text.of? id)
    if found.revokedAt ≠ 0 ∨ settings.sha256 secret ≠ found.secretHash then none else some found
  match record with
  | none => ⟨none, []⟩
  | some found =>
      let used := decide (60 ≤ seconds now - found.lastUsedAt)
      let noted := if used then { found with lastUsedAt := seconds now } else found
      let owned := (users.find? noted.createdBy).any User.isActive
      ⟨if owned then some noted else none, if used then [keys.put noted] else []⟩

inductive KeyOp where
  | createApiKey (name : Text) (roleName : Bytes) (createdBy : Text) (id : { id : Text // id.1 ≠ [] })
    (secret : Bytes) (now : Int64)
  | revokeApiKey (id : Text) (now : Int64)
  | validateApiKey (key : Bytes) (now : Int64)

def KeyOp.saves (users : UserTable) (keys : ApiKeyTable) : KeyOp → List ApiKeyTable
  | .createApiKey name roleName createdBy id secret now =>
      (Security.createApiKey settings keys name roleName createdBy id secret now).saves
  | .revokeApiKey id now => (Security.revokeApiKey keys id now).saves
  | .validateApiKey key now => (Security.validateApiKey settings users keys key now).saves

end KeyOperations

section Saves

variable {settings : Settings}

theorem updateUser_saves {users : UserTable} {username : Text} {change : User → User} :
    (updateUser users username change).saves.length ≤ 1 := by
  rw [updateUser]
  split
  · exact Nat.le_refl 1
  · exact Nat.zero_le 1

theorem UserOp.length_saves (users : UserTable) (op : UserOp) :
    (op.outcome settings users).saves.length ≤ 1 := by
  cases op with
  | createUser username password role salt now =>
    rw [outcome, Security.createUser]
    split
    · exact Nat.zero_le 1
    · exact Nat.le_refl 1
  | deleteUser username =>
    rw [outcome, Security.deleteUser]
    split
    · exact Nat.zero_le 1
    split
    · exact Nat.le_refl 1
    · exact Nat.zero_le 1
  | updateUserRole => exact updateUser_saves
  | updateUserPassword => exact updateUser_saves
  | setUserDatabaseAccess => exact updateUser_saves

theorem length_initializeDefaultAdmin (users : UserTable) (bootstrap : Option Bootstrap) :
    (initializeDefaultAdmin settings users bootstrap).length ≤ 1 := by
  cases bootstrap with
  | none => exact Nat.zero_le 1
  | some boot =>
    rw [initializeDefaultAdmin]
    split
    · exact Nat.le_refl 1
    · exact Nat.zero_le 1

/-- The administrator is made only where there are no users. -/
theorem initializeDefaultAdmin_saves {users table : UserTable} {bootstrap : Option Bootstrap}
    (saved : table ∈ initializeDefaultAdmin settings users bootstrap) : users.values = [] := by
  cases bootstrap with
  | none => cases saved
  | some boot =>
    rw [initializeDefaultAdmin] at saved
    split at saved
    next none => exact List.isEmpty_iff.mp none
    · cases saved

theorem KeyOp.length_saves (users : UserTable) (keys : ApiKeyTable) (op : KeyOp) :
    (op.saves settings users keys).length ≤ 1 := by
  cases op with
  | createApiKey name roleName createdBy id secret now =>
    rw [saves, Security.createApiKey]
    split
    · exact Nat.zero_le 1
    split
    · exact Nat.zero_le 1
    · exact Nat.le_refl 1
  | revokeApiKey id now =>
    rw [saves, Security.revokeApiKey]
    split
    · exact Nat.zero_le 1
    split
    · exact Nat.zero_le 1
    · exact Nat.le_refl 1
  | validateApiKey key now =>
    rw [saves, Security.validateApiKey]
    split
    · exact Nat.zero_le 1
    · dsimp only
      split
      · exact Nat.le_refl 1
      · exact Nat.zero_le 1

/-- A table without other users than the one to be deleted is saved empty. -/
theorem deleteUser_saves {users : UserTable} {username : Text}
    (only : ∀ user ∈ users.values, user.username = username) {table : UserTable}
    (saved : table ∈ (deleteUser users username).saves) : table = .empty := by
  rw [deleteUser] at saved
  split at saved
  · cases saved
  split at saved
  · obtain rfl := List.mem_singleton.mp saved
    apply Table.eq_empty
    apply List.eq_nil_iff_forall_not_mem.mpr
    intro user member
    obtain ⟨entry, isEntry, rfl⟩ := List.mem_map.mp member
    obtain ⟨old, other⟩ := SortedMap.mem_erase.mp isEntry
    apply other
    rw [users.keyed entry old]
    exact only entry.2 (List.mem_map_of_mem old)
  · cases saved

end Saves

end PacificDb.Security
