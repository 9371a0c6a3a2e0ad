import PacificDb.Lib.Machine
import PacificDb.Security.Operations

/-!
# Credentials over crashes

`SecurityManager` writes `users.json` in place: the file is truncated first and then written.
`api_keys.json` is written beside its place and renamed.

API keys survive a crash anywhere. Users survive one unless it leaves a part of `users.json`
(`starts_survive`); then the next start has no users, and creates the bootstrap administrator
(`torn_save_loses_users`).
-/

namespace PacificDb.Security

open Lib JsonText
open Sst (Bytes Value utf8)

/-! ## Files and crashes -/

structure Disk where
  users : Option Bytes
  keys : Option Bytes
  keysTemporary : Option Bytes

/-- How far a save comes. -/
inductive Extent where
  | before
  | writing (written : Nat)
  | after

section Saves

variable (lib : Library)

def saveUsersLocked (disk : Disk) (users : UserTable) : Extent → Disk
  | .before => disk
  | .writing written => { disk with users := some ((fileText lib (usersDoc users)).take written) }
  | .after => { disk with users := some (fileText lib (usersDoc users)) }

def saveApiKeysLocked (disk : Disk) (keys : ApiKeyTable) : Extent → Disk
  | .before => disk
  | .writing written => { disk with keysTemporary := some ((fileText lib (apiKeysDoc keys)).take written) }
  | .after => { disk with keys := some (fileText lib (apiKeysDoc keys)), keysTemporary := none }

/-- A crash in one of the saves of an operation. -/
structure Crash where
  save : Nat
  extent : Extent

/-- The saves of an operation, all of them or up to a crash. -/
def runSaves {τ : Type} (write : Disk → τ → Extent → Disk) (disk : Disk) (saves : List τ) :
    Option Crash → Option Disk
  | none => some (saves.foldl (fun disk table => write disk table .after) disk)
  | some crash =>
      saves[crash.save]?.map fun table =>
        write ((saves.take crash.save).foldl (fun disk table => write disk table .after) disk) table
          crash.extent

end Saves

/-! ## Runs -/

structure Memory where
  users : UserTable
  keys : ApiKeyTable

/-- What a start loaded, and what it may load. -/
structure Start where
  users : UserTable
  keys : Option ApiKeyTable
  usersBefore : List UserTable
  keysBefore : List ApiKeyTable

structure Process where
  disk : Disk
  memory : Option Memory
  /-- What the next start may load: the table in memory, or the tables before and after the
  operation that a crash interrupted. -/
  users : List UserTable
  keys : List ApiKeyTable
  starts : List Start

def Process.init : Process := ⟨⟨none, none, none⟩, none, [.empty], [.empty], []⟩

inductive Event where
  | start (bootstrap : Option Bootstrap) (crash : Option Crash)
  | user (op : UserOp) (crash : Option Crash)
  | login (username password : Text) (now : Int64) (crash : Option Crash)
  | key (op : KeyOp) (crash : Option Crash)
  | crash

section Machine

variable (lib : Library) (settings : Settings)

/-- Tables of users are saved. A crash ends the process, and the next start may load what is
`allowed`. -/
def Process.saveUsers (s : Process) (memory : Memory) (saves allowed : List UserTable)
    (crash : Option Crash) : Option Process :=
  (runSaves (saveUsersLocked lib) s.disk saves crash).map fun disk =>
    match crash with
    | none =>
        let users := saves.getLastD memory.users
        { s with disk, memory := some { memory with users }, users := [users.rounded], keys := [memory.keys] }
    | some _ =>
        { s with disk, memory := none, users := allowed.map UserTable.rounded, keys := [memory.keys] }

def Process.saveKeys (s : Process) (memory : Memory) (saves : List ApiKeyTable) (crash : Option Crash) :
    Option Process :=
  (runSaves (saveApiKeysLocked lib) s.disk saves crash).map fun disk =>
    let keys := saves.getLastD memory.keys
    match crash with
    | none =>
        { s with disk, memory := some { memory with keys }, users := [memory.users.rounded], keys := [keys] }
    | some _ =>
        { s with disk, memory := none, users := [memory.users.rounded], keys := [memory.keys, keys] }

/-- The tables before an operation and after it. -/
def beforeAfter (users : UserTable) (saves : List UserTable) : List UserTable :=
  [users, saves.getLastD users]

/-- `initialize`. An invalid store of API keys is an exception. -/
def Process.initializeStores (s : Process) (bootstrap : Option Bootstrap) (crash : Option Crash) :
    Option Process :=
  let users := loadUsers lib s.disk.users
  let started := { s with starts := s.starts ++ [⟨users, loadApiKeys lib s.disk.keys, s.users, s.keys⟩] }
  match loadApiKeys lib s.disk.keys with
  | none => some started
  | some keys =>
      let saves := initializeDefaultAdmin settings users bootstrap
      started.saveUsers lib ⟨users, keys⟩ saves (beforeAfter users saves) crash

def step (s : Process) : Event → Option Process
  | .start bootstrap crash =>
      match s.memory with
      | none => s.initializeStores lib settings bootstrap crash
      | some _ => none
  | .user op crash => s.memory.bind fun memory =>
      let saves := (op.outcome settings memory.users).saves
      s.saveUsers lib memory saves (beforeAfter memory.users saves) crash
  | .login username password now crash => s.memory.bind fun memory =>
      let saves := (authenticate settings memory.users username password now).saves
      s.saveUsers lib memory saves (memory.users :: saves) crash
  | .key op crash => s.memory.bind fun memory =>
      s.saveKeys lib memory (op.saves settings memory.users memory.keys) crash
  | .crash => s.memory.map fun _ => { s with memory := none }

/-- A start loads the tables before the operation that was interrupted, or after it. -/
def Start.Survives (start : Start) : Prop :=
  start.users ∈ start.usersBefore ∧ ∃ keys ∈ start.keysBefore, start.keys = some keys

/-- A crash leaves a part of `users.json`. -/
def Torn (saves : List UserTable) : Option Crash → Prop
  | some ⟨save, .writing written⟩ => ∃ table, saves[save]? = some table ∧
      written < (fileText lib (usersDoc table)).length
  | _ => False

/-- There are no users, or only the one to be deleted. -/
def Dispensable (users : UserTable) (op : UserOp) : Prop :=
  users.values = [] ∨ ∃ username, op = .deleteUser username ∧ ∀ user ∈ users.values, user.username = username

/-- A crash leaves a part of `users.json` at most where no users are to be lost. -/
def KeepsUsers (s : Process) : Event → Prop
  | .user op crash => ∀ memory, s.memory = some memory →
      Torn lib (op.outcome settings memory.users).saves crash → Dispensable memory.users op
  | .login username password now crash => ∀ memory, s.memory = some memory →
      ¬Torn lib (authenticate settings memory.users username password now).saves crash
  | _ => True

end Machine

/-! ## What the file keeps of a table -/

theorem natAbs_tdiv_mul_le (value unit : Int) : (value.tdiv unit * unit).natAbs ≤ value.natAbs := by
  rw [Int.natAbs_mul, Int.natAbs_tdiv]
  exact Nat.div_mul_le_self _ _

theorem seconds_ofSeconds (time : Int64) : seconds (ofSeconds (seconds time)) = seconds time := by
  have unit : (1000000000 : Int64).toInt = 1000000000 := rfl
  have low : -2 ^ 63 ≤ time.toInt := Int64.minValue_le_toInt time
  have high : time.toInt < 2 ^ 63 := Int64.toInt_lt time
  have count : ∀ value : Int64, (seconds value).toInt = value.toInt.tdiv 1000000000 := by
    intro value
    rw [seconds, Int64.toInt_div_of_ne_right _ _ (by decide), unit]
  have whole : (ofSeconds (seconds time)).toInt = time.toInt.tdiv 1000000000 * 1000000000 := by
    rw [ofSeconds, Int64.toInt_mul, count, unit]
    have bound := natAbs_tdiv_mul_le time.toInt 1000000000
    apply Int.bmod_eq_of_le_mul_two
    · omega
    · omega
  apply Int64.toInt.inj
  rw [count, count, whole]
  exact Int.mul_tdiv_cancel _ (by decide)

theorem User.rounded_rounded (user : User) : user.rounded.rounded = user.rounded := by
  rcases user with
    ⟨username, hash, salt, role, databases, active, createdAt, lastLogin, failed, locked, lockedUntil⟩
  simp only [User.rounded]
  rw [seconds_ofSeconds, seconds_ofSeconds]

theorem UserTable.entries_rounded (table : UserTable) : table.rounded.records.entries =
    table.records.entries.map fun entry => (entry.1, entry.2.rounded) := rfl

theorem UserTable.rounded_rounded (table : UserTable) : table.rounded.rounded = table.rounded := by
  apply Table.ext_entries
  rw [entries_rounded, entries_rounded, List.map_map]
  apply List.map_congr_left
  intro entry _
  rw [Function.comp, User.rounded_rounded]

theorem UserTable.rounded_empty : UserTable.rounded .empty = .empty := Table.ext_entries rfl

/-! ## What saves leave -/

section Saved

variable {lib : Library} {settings : Settings}

theorem loadUsers_foldl {saves : List UserTable} {disk : Disk} {users : UserTable}
    (loaded : loadUsers lib disk.users = users.rounded) :
    loadUsers lib (saves.foldl (fun disk table => saveUsersLocked lib disk table .after) disk).users =
      (saves.getLastD users).rounded := by
  induction saves generalizing disk users with
  | nil => exact loaded
  | cons table saves ih =>
    rw [List.foldl_cons, List.getLastD_cons]
    exact ih (loadUsers_saved table)

theorem foldl_saveUsers_keys {saves : List UserTable} {disk : Disk} :
    (saves.foldl (fun disk table => saveUsersLocked lib disk table .after) disk).keys = disk.keys := by
  induction saves generalizing disk with
  | nil => rfl
  | cons table saves ih => exact ih

theorem saveUsersLocked_keys {disk : Disk} {table : UserTable} {extent : Extent} :
    (saveUsersLocked lib disk table extent).keys = disk.keys := by
  cases extent <;> rfl

theorem runSaves_users_keys {saves : List UserTable} {crash : Option Crash} {disk after : Disk}
    (ran : runSaves (saveUsersLocked lib) disk saves crash = some after) : after.keys = disk.keys := by
  cases crash with
  | none =>
    cases ran
    exact foldl_saveUsers_keys
  | some crash =>
    obtain ⟨table, -, rfl⟩ := Option.map_eq_some_iff.mp ran
    exact saveUsersLocked_keys.trans foldl_saveUsers_keys

/-- After a crash that leaves no part of `users.json`, a table is loaded that was there before or was
saved. -/
theorem loadUsers_crashed {saves : List UserTable} {crash : Crash} {disk after : Disk} {users : UserTable}
    (loaded : loadUsers lib disk.users = users.rounded)
    (ran : runSaves (saveUsersLocked lib) disk saves (some crash) = some after)
    (untorn : Torn lib saves (some crash) → .empty ∈ users :: saves) :
    ∃ table ∈ users :: saves, loadUsers lib after.users = table.rounded := by
  obtain ⟨table, isTable, rfl⟩ := Option.map_eq_some_iff.mp ran
  rcases crash with ⟨save, extent⟩
  cases extent with
  | before =>
    refine ⟨(saves.take save).getLastD users, ?_, loadUsers_foldl loaded⟩
    exact (List.take_sublist save saves).cons_cons users |>.mem List.getLastD_mem_cons
  | writing written =>
    by_cases torn : written < (fileText lib (usersDoc table)).length
    · refine ⟨.empty, untorn ⟨table, isTable, torn⟩, ?_⟩
      rw [UserTable.rounded_empty]
      exact loadUsers_torn torn
    · refine ⟨table, .tail _ (List.mem_of_getElem? isTable), ?_⟩
      rw [saveUsersLocked, List.take_of_length_le (not_lt.mp torn)]
      exact loadUsers_saved table
  | after => exact ⟨table, .tail _ (List.mem_of_getElem? isTable), loadUsers_saved table⟩

theorem loadApiKeys_foldl {saves : List ApiKeyTable} {disk : Disk} {keys : ApiKeyTable}
    (loaded : loadApiKeys lib disk.keys = some keys) :
    loadApiKeys lib (saves.foldl (fun disk table => saveApiKeysLocked lib disk table .after) disk).keys =
      some (saves.getLastD keys) := by
  induction saves generalizing disk keys with
  | nil => exact loaded
  | cons table saves ih =>
    rw [List.foldl_cons, List.getLastD_cons]
    exact ih (loadApiKeys_saved table)

theorem foldl_saveApiKeys_users {saves : List ApiKeyTable} {disk : Disk} :
    (saves.foldl (fun disk table => saveApiKeysLocked lib disk table .after) disk).users = disk.users := by
  induction saves generalizing disk with
  | nil => rfl
  | cons table saves ih => exact ih

theorem runSaves_keys_users {saves : List ApiKeyTable} {crash : Option Crash} {disk after : Disk}
    (ran : runSaves (saveApiKeysLocked lib) disk saves crash = some after) : after.users = disk.users := by
  have one : ∀ (disk : Disk) (table : ApiKeyTable) (extent : Extent),
      (saveApiKeysLocked lib disk table extent).users = disk.users := by
    intro disk table extent
    cases extent <;> rfl
  cases crash with
  | none =>
    cases ran
    exact foldl_saveApiKeys_users
  | some crash =>
    obtain ⟨table, -, rfl⟩ := Option.map_eq_some_iff.mp ran
    exact (one _ _ _).trans foldl_saveApiKeys_users

/-- The API keys survive a crash anywhere. -/
theorem loadApiKeys_crashed {saves : List ApiKeyTable} {crash : Crash} {disk after : Disk}
    {keys : ApiKeyTable} (loaded : loadApiKeys lib disk.keys = some keys)
    (ran : runSaves (saveApiKeysLocked lib) disk saves (some crash) = some after) :
    ∃ table ∈ keys :: saves, loadApiKeys lib after.keys = some table := by
  have earlier : (saves.take crash.save).getLastD keys ∈ keys :: saves :=
    (List.take_sublist crash.save saves).cons_cons keys |>.mem List.getLastD_mem_cons
  obtain ⟨table, isTable, rfl⟩ := Option.map_eq_some_iff.mp ran
  rcases crash with ⟨save, extent⟩
  cases extent with
  | before => exact ⟨_, earlier, loadApiKeys_foldl loaded⟩
  | writing written => exact ⟨_, earlier, loadApiKeys_foldl loaded⟩
  | after => exact ⟨table, .tail _ (List.mem_of_getElem? isTable), loadApiKeys_saved table⟩

theorem mem_beforeAfter {τ : Type} {table before : τ} {saves : List τ} (single : saves.length ≤ 1)
    (member : table ∈ before :: saves) : table ∈ [before, saves.getLastD before] := by
  match saves, single with
  | [], _ =>
    rw [List.mem_singleton.mp member]
    exact .head _
  | [saved], _ => exact member

theorem Torn.saved {saves : List UserTable} {crash : Option Crash} (torn : Torn lib saves crash) :
    ∃ table, table ∈ saves := by
  rcases crash with _ | ⟨save, _ | written | _⟩
  · cases torn
  · cases torn
  · obtain ⟨table, isTable, -⟩ := torn
    exact ⟨table, List.mem_of_getElem? isTable⟩
  · cases torn

/-- An operation on a dispensable table leaves or finds no users. -/
theorem Dispensable.empty_mem {users table : UserTable} {op : UserOp} (dispensable : Dispensable users op)
    (saved : table ∈ (op.outcome settings users).saves) :
    .empty ∈ users :: (op.outcome settings users).saves := by
  rcases dispensable with none | ⟨username, rfl, only⟩
  · rw [Table.eq_empty none]
    exact .head _
  · rw [← deleteUser_saves only saved]
    exact .tail _ saved

end Saved

/-! ## Runs keep the credentials -/

section Runs

variable {lib : Library} {settings : Settings} {s t : Process}

/-- What the files hold in every state. -/
structure Sound (lib : Library) (s : Process) : Prop where
  users : loadUsers lib s.disk.users ∈ s.users
  rounded : ∀ table ∈ s.users, table.rounded = table
  keys : ∃ keys ∈ s.keys, loadApiKeys lib s.disk.keys = some keys
  live : ∀ memory, s.memory = some memory → s.users = [memory.users.rounded] ∧ s.keys = [memory.keys]
  starts : ∀ start ∈ s.starts, start.Survives

theorem Sound.init : Sound lib Process.init where
  users := .head _
  rounded table member := by
    rw [List.mem_singleton.mp member]
    exact UserTable.rounded_empty
  keys := ⟨.empty, .head _, rfl⟩
  live _ absurd := by cases absurd
  starts _ absurd := by cases absurd

theorem saveUsers_sound {memory : Memory} {saves allowed : List UserTable} {crash : Option Crash}
    (users : loadUsers lib s.disk.users = memory.users.rounded)
    (keys : loadApiKeys lib s.disk.keys = some memory.keys) (starts : ∀ start ∈ s.starts, start.Survives)
    (untorn : Torn lib saves crash → .empty ∈ memory.users :: saves)
    (allows : ∀ table ∈ memory.users :: saves, table ∈ allowed)
    (taken : s.saveUsers lib memory saves allowed crash = some t) : Sound lib t := by
  obtain ⟨disk, ran, rfl⟩ := Option.map_eq_some_iff.mp taken
  have same := runSaves_users_keys ran
  cases crash with
  | none =>
    have written := @loadUsers_foldl lib saves s.disk memory.users users
    rw [Option.some.inj ran] at written
    refine ⟨List.mem_singleton.mpr written, ?_, ⟨memory.keys, .head _, ?_⟩, ?_, starts⟩
    · intro table member
      rw [List.mem_singleton.mp member]
      exact UserTable.rounded_rounded _
    · change loadApiKeys lib disk.keys = _
      rw [same]
      exact keys
    · intro memory' isMemory
      cases isMemory
      exact ⟨rfl, rfl⟩
  | some crash =>
    obtain ⟨table, member, loaded⟩ := loadUsers_crashed users ran untorn
    refine ⟨?_, ?_, ⟨memory.keys, .head _, ?_⟩, ?_, starts⟩
    · exact List.mem_map.mpr ⟨table, allows table member, loaded.symm⟩
    · intro table member
      obtain ⟨full, -, rfl⟩ := List.mem_map.mp member
      exact full.rounded_rounded
    · change loadApiKeys lib disk.keys = _
      rw [same]
      exact keys
    · exact fun _ absurd => by cases absurd

theorem saveKeys_sound {memory : Memory} {saves : List ApiKeyTable} {crash : Option Crash}
    (users : loadUsers lib s.disk.users = memory.users.rounded)
    (keys : loadApiKeys lib s.disk.keys = some memory.keys) (starts : ∀ start ∈ s.starts, start.Survives)
    (single : saves.length ≤ 1) (taken : s.saveKeys lib memory saves crash = some t) : Sound lib t := by
  obtain ⟨disk, ran, rfl⟩ := Option.map_eq_some_iff.mp taken
  have same := runSaves_keys_users ran
  have kept : ∀ table ∈ [memory.users.rounded], UserTable.rounded table = table := by
    intro table member
    rw [List.mem_singleton.mp member]
    exact UserTable.rounded_rounded _
  cases crash with
  | none =>
    have written := @loadApiKeys_foldl lib saves s.disk memory.keys keys
    rw [Option.some.inj ran] at written
    refine ⟨?_, kept, ⟨_, .head _, written⟩, ?_, starts⟩
    · change loadUsers lib disk.users ∈ _
      rw [same]
      exact List.mem_singleton.mpr users
    · intro memory' isMemory
      cases isMemory
      exact ⟨rfl, rfl⟩
  | some crash =>
    obtain ⟨table, member, loaded⟩ := loadApiKeys_crashed keys ran
    refine ⟨?_, kept, ⟨table, mem_beforeAfter single member, loaded⟩, ?_, starts⟩
    · change loadUsers lib disk.users ∈ _
      rw [same]
      exact List.mem_singleton.mpr users
    · exact fun _ absurd => by cases absurd

/-- What a process in memory has on its disk. -/
theorem Sound.saved {memory : Memory} (sound : Sound lib s) (isMemory : s.memory = some memory) :
    loadUsers lib s.disk.users = memory.users.rounded ∧ loadApiKeys lib s.disk.keys = some memory.keys := by
  obtain ⟨isUsers, isKeys⟩ := sound.live memory isMemory
  obtain ⟨keys, member, loaded⟩ := sound.keys
  have users := sound.users
  rw [isUsers] at users
  rw [isKeys] at member
  rw [List.mem_singleton.mp member] at loaded
  exact ⟨List.mem_singleton.mp users, loaded⟩

theorem initialize_sound {bootstrap : Option Bootstrap} {crash : Option Crash} (sound : Sound lib s)
    (taken : s.initializeStores lib settings bootstrap crash = some t) : Sound lib t := by
  obtain ⟨keys, member, loaded⟩ := sound.keys
  rw [Process.initializeStores, loaded] at taken
  have starts : ∀ start ∈ s.starts ++ [⟨loadUsers lib s.disk.users, some keys, s.users, s.keys⟩],
      start.Survives := by
    intro start isStart
    rcases List.mem_append.mp isStart with old | new
    · exact sound.starts start old
    · rw [List.mem_singleton.mp new]
      exact ⟨sound.users, keys, member, rfl⟩
  apply saveUsers_sound (sound.rounded _ sound.users).symm loaded starts ?_ ?_ taken
  · -- The bootstrap administrator is saved where there are no users.
    intro torn
    obtain ⟨table, saved⟩ := torn.saved
    rw [Table.eq_empty (initializeDefaultAdmin_saves saved)]
    exact .head _
  · exact fun table => mem_beforeAfter (length_initializeDefaultAdmin _ _)

theorem step_sound {event : Event} (sound : Sound lib s) (keeps : KeepsUsers lib settings s event)
    (taken : step lib settings s event = some t) : Sound lib t := by
  cases event with
  | start bootstrap crash =>
    rw [step] at taken
    split at taken
    · exact initialize_sound sound taken
    · cases taken
  | user op crash =>
    obtain ⟨memory, isMemory, taken⟩ := Option.bind_eq_some_iff.mp taken
    obtain ⟨users, keys⟩ := sound.saved isMemory
    apply saveUsers_sound users keys sound.starts ?_ ?_ taken
    · intro torn
      obtain ⟨table, saved⟩ := torn.saved
      exact (keeps memory isMemory torn).empty_mem saved
    · exact fun table => mem_beforeAfter (op.length_saves memory.users)
  | login username password now crash =>
    obtain ⟨memory, isMemory, taken⟩ := Option.bind_eq_some_iff.mp taken
    obtain ⟨users, keys⟩ := sound.saved isMemory
    apply saveUsers_sound users keys sound.starts ?_ (fun _ => id) taken
    exact fun torn => absurd torn (keeps memory isMemory)
  | key op crash =>
    obtain ⟨memory, isMemory, taken⟩ := Option.bind_eq_some_iff.mp taken
    obtain ⟨users, keys⟩ := sound.saved isMemory
    exact saveKeys_sound users keys sound.starts (op.length_saves memory.users memory.keys) taken
  | crash =>
    obtain ⟨memory, -, rfl⟩ := Option.map_eq_some_iff.mp taken
    refine ⟨sound.users, sound.rounded, sound.keys, ?_, sound.starts⟩
    exact fun _ absurd => by cases absurd

/-- Users and API keys survive every crash, unless one leaves a part of `users.json`. -/
theorem starts_survive
    (reached : Reach (step lib settings) (KeepsUsers lib settings) Process.init s) :
    ∀ start ∈ s.starts, start.Survives :=
  (reached.invariant Sound.init step_sound).starts

end Runs

/-! ## A run on fixed inputs -/

theorem isDigit_digits {value : Nat} {byte : UInt8} (member : byte ∈ digits value) :
    JsonText.isDigit byte = true := decide_eq_true ((isDigits_digits value).2 byte member)

/-- Doubles as their bits in decimal, with a fraction. -/
def bitsText : FloatText where
  toChars bits := digits bits.toNat ++ [0x2e, 0x30]
  strtod text := UInt64.ofNat (JsonText.readDigits (text.takeWhile JsonText.isDigit))
  strtod_toChars := by
    intro bits _
    rw [List.takeWhile_append_of_pos fun _ => isDigit_digits]
    change UInt64.ofNat (JsonText.readDigits (digits bits.toNat ++ [])) = bits
    rw [List.append_nil, readDigits_digits, UInt64.ofNat_toNat]
  toChars_number := by
    intro bits _
    refine ⟨[], digits bits.toNat, [0x2e, 0x30], [], .inl rfl, isInt_digits _, .inr ⟨[0x30], ?_, rfl⟩,
      .inl rfl, ?_, rfl⟩
    · refine ⟨List.cons_ne_nil _ _, fun byte member => ?_⟩
      rw [List.mem_singleton.mp member]
      exact ⟨by decide, by decide⟩
    · exact fun both => List.cons_ne_nil _ _ both.1

def plainLibrary : Library := ⟨bitsText, fun _ => 0⟩

def plainSettings : Settings where
  hashPassword password _ := password
  verifyPassword password _ hash := password = hash
  sha256 _ := ⟨⟨List.replicate 64 0x30, rfl⟩, rfl⟩
  maxLoginAttempts := 5
  lockoutDurationMinutes := 30

def alice : Text := ⟨utf8 "alice", rfl⟩

def secret : Text := ⟨utf8 "secret", rfl⟩

def salt : Text := ⟨utf8 "salt", rfl⟩

def operator : Bootstrap := ⟨⟨⟨utf8 "operator", rfl⟩, by decide⟩, ⟨secret, by decide⟩, salt, 0⟩

def aliceCreated : Event := .user (.createUser alice secret .ADMIN salt 1500000000) none

/-- Crashes in saves: a torn first user, a role before and after its save, and an API key. -/
def calmRun : List Event :=
  [
    .start none none, .user (.createUser alice secret .ADMIN salt 1500000000) (some ⟨0, .writing 3⟩),
    .start none none, aliceCreated, .user (.updateUserRole alice .WRITE) (some ⟨0, .before⟩),
    .start none none, .user (.updateUserRole alice .WRITE) (some ⟨0, .after⟩),
    .start none none, .key (.createApiKey alice (utf8 "read") alice ⟨salt, by decide⟩ [] 0)
      (some ⟨0, .writing 3⟩), .start (some operator) none]

def tornRun : List Event :=
  [
    .start none none, aliceCreated,
    .user (.updateUserRole alice .WRITE) (some ⟨0, .writing 0⟩), .start (some operator) none]

set_option maxRecDepth 4000 in
theorem starts_survive_calm : ∃ s, run (step plainLibrary plainSettings) Process.init calmRun = some s ∧
    s.starts.length = 5 ∧ ∀ start ∈ s.starts, start.Survives := by
  obtain ⟨s, runs, five⟩ := Option.map_eq_some_iff.mp
    (show (run (step plainLibrary plainSettings) Process.init calmRun).map (fun s => s.starts.length) =
      some 5 from rfl)
  have untorn : ∀ {memory : Memory} {op : UserOp}, False → Dispensable memory.users op := False.elim
  refine ⟨s, runs, five, starts_survive (Reach.refl.of_runAllowed ?_ runs)⟩
  refine ⟨trivial, fun s started => ⟨?_, fun _ _ => ⟨trivial, fun _ _ => ⟨fun _ _ => untorn, fun _ _ =>
    ⟨fun _ _ => untorn, fun _ _ => ⟨trivial, fun _ _ => ⟨fun _ _ => untorn, fun _ _ =>
      ⟨trivial, fun _ _ => ⟨trivial, fun _ _ => ⟨trivial, fun _ _ => trivial⟩⟩⟩⟩⟩⟩⟩⟩⟩⟩
  -- The only part of a file that is left is that of the first user.
  intro memory isMemory torn
  cases started
  cases isMemory
  exact .inl rfl

/-- The bootstrap administrator takes the place of a user whose role was about to change. -/
theorem torn_save_loses_users :
    (¬∀ s, Reach (step plainLibrary plainSettings) (fun _ _ => True) Process.init s →
      ∀ start ∈ s.starts, start.Survives) ∧
    ((run (step plainLibrary plainSettings) Process.init tornRun).bind Process.memory).map
      (fun memory => memory.users.values.map fun user => (user.username.1, user.role)) =
        some [(utf8 "operator", .SUPERADMIN)] := by
  refine ⟨fun survives => ?_, rfl⟩
  obtain ⟨s, runs⟩ := Option.isSome_iff_exists.mp
    (show (run (step plainLibrary plainSettings) Process.init tornRun).isSome = true from rfl)
  have sizes : (run (step plainLibrary plainSettings) Process.init tornRun).map (fun s => s.starts.map
      fun start => (start.users.values.length, start.usersBefore.map fun users => users.values.length)) =
        some [(0, [0]), (0, [1, 1])] := rfl
  rw [runs, Option.map_some] at sizes
  have lost : (0, [1, 1]) ∈ s.starts.map fun start =>
      (start.users.values.length, start.usersBefore.map fun users => users.values.length) := by
    rw [Option.some.inj sizes]
    exact .tail _ (.head _)
  obtain ⟨start, member, isLost⟩ := List.mem_map.mp lost
  obtain ⟨none, before⟩ := Prod.mk.inj isLost
  have reached : Reach (step plainLibrary plainSettings) (fun _ _ => True) Process.init s :=
    Reach.refl.of_run (fun _ _ _ => trivial) runs
  have found := List.mem_map_of_mem (f := fun users : UserTable => users.values.length)
    (survives s reached start member).1
  rw [before, none] at found
  exact absurd found (by decide)

end PacificDb.Security
