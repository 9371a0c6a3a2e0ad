import PacificDb.Lib.Bytes
import PacificDb.Lib.Machine
import PacificDb.Lib.Ranges
import PacificDb.Lib.SortedMap

/-!
# The shard map

`ShardManager` keeps the shards of the key space in a map by start key, edits it when
shards are created, split, merged, moved or updated, and writes it to a file after
each edit. A restart reads the file back, and makes a first map if there is none.

The empty key is the lower end of the first range, and stands for no upper end in
the last one. The nodes of the cluster only matter for the host a shard is put on:
what they give is an argument of the events.
-/

namespace PacificDb.Shard

open Lib

/-- `std::string`, ordered by its bytes. -/
abbrev Key := List UInt8

theorem nil_le (key : Key) : [] ≤ key := by
  cases key with
  | nil => exact le_rfl
  | cons byte rest =>
    have below : ([] : Key) < byte :: rest := List.Lex.nil
    exact below.le

instance : OrderBot Key where
  bot := []
  bot_le := nil_le

inductive ShardStatus where
  | active
  | migrating
  | splitting
  | draining
  | offline
  | initializing
  deriving Repr, DecidableEq

/-- `ShardInfo`, without the counters that are not read back. The load is the bits of
a `double`. -/
structure ShardInfo where
  shardId : Key := []
  startKey : Key := []
  endKey : Key := []
  primaryHost : Key := []
  replicas : List Key := []
  status : ShardStatus := .active
  documentCount : Nat := 0
  sizeBytes : Nat := 0
  loadFactor : Nat := 0
  deriving DecidableEq

def ShardInfo.range (info : ShardInfo) : KeyRange Key := ⟨info.startKey, info.endKey⟩

def ShardInfo.containsKey (info : ShardInfo) (key : Key) : Bool :=
  decide (info.startKey ≤ key) && (info.endKey.isEmpty || decide (key < info.endKey))

/-- The exponent of a `double` that is infinite or no number is all ones. -/
def isFinite (bits : Nat) : Bool := bits / 2 ^ 52 % 2 ^ 11 != 2 ^ 11 - 1

/-- The file of the map: `dump` throws on a text that is not UTF-8, after the file was
opened and with that emptied. -/
inductive MapFile where
  | absent
  | unreadable
  | shards (infos : List ShardInfo)

abbrev ShardMap := SortedMap Key ShardInfo

structure ShardManager where
  shardMap : ShardMap := .empty
  file : MapFile := .absent

variable (utf8 : Key → Bool)

/-! ## Lookups -/

def ShardMap.infos (map : ShardMap) : List ShardInfo := map.entries.map Prod.snd

def getShardForKey (map : ShardMap) (key : Key) : Key :=
  match map.infos.find? fun info => info.containsKey key with
  | some info => info.shardId
  | none => (map.infos.head?.map ShardInfo.shardId).getD []

/-- The test of `getShardsForRange` and `createShard`. -/
def ShardInfo.overlaps (info : ShardInfo) (startKey endKey : Key) : Bool :=
  (info.endKey.isEmpty || decide (startKey < info.endKey)) &&
    (endKey.isEmpty || decide (info.startKey < endKey))

def getShardsForRange (map : ShardMap) (startKey endKey : Key) : List Key :=
  (map.infos.filter fun info => info.overlaps startKey endKey).map ShardInfo.shardId

/-- The first shard with the id, with its key in the map. -/
def findShard (map : ShardMap) (shardId : Key) : Option (Key × ShardInfo) :=
  map.entries.find? fun entry => entry.2.shardId == shardId

/-- The last shard with the id. -/
def findLastShard (map : ShardMap) (shardId : Key) : Option (Key × ShardInfo) :=
  map.entries.reverse.find? fun entry => entry.2.shardId == shardId

/-! ## The file -/

def ShardInfo.isUtf8 (info : ShardInfo) : Bool :=
  utf8 info.shardId && utf8 info.startKey && utf8 info.endKey && utf8 info.primaryHost &&
    info.replicas.all utf8

def persistShardMap (manager : ShardManager) : ShardManager :=
  { manager with file :=
      if manager.shardMap.infos.all (ShardInfo.isUtf8 utf8) then .shards manager.shardMap.infos
      else .unreadable }

/-- The loop of `loadShardMap`: a load that was written as `null` throws, and what was
read before it stays. -/
def loadShards : ShardMap → List ShardInfo → ShardMap
  | map, [] => map
  | map, info :: rest =>
      if isFinite info.loadFactor then loadShards (map.assign info.startKey info) rest else map

def loadShardMap (file : MapFile) : ShardMap :=
  match file with
  | .shards infos => loadShards .empty infos
  | _ => .empty

/-! ## The first map -/

/-- The settings of a start: `SHARD_COUNT`, `SHARD_REPLICA_COUNT` and the hosts. Above the
limit `i * 16` is out of the range of an `int`. -/
structure Boot where
  shardCount : Nat
  replicaCount : Nat
  engineHosts : List Key
  counts : 1 ≤ shardCount
  fits : shardCount ≤ 2 ^ 27
  hosts : engineHosts ≠ []

def hexBounds : Key := "0123456789abcdef".toUTF8.data.toList

/-- `std::string(1, hexBounds[index])`. -/
def hexBound (index : Nat) : Key := [hexBounds.getD index 0]

def decimal (number : Nat) : Key := (toString number).toUTF8.data.toList

def shardName (index : Nat) : Key := "shard-".toUTF8.data.toList ++ decimal index

def Boot.host (boot : Boot) (index : Nat) : Key :=
  boot.engineHosts.getD (index % boot.engineHosts.length) []

def Boot.shard (boot : Boot) (index : Nat) : ShardInfo where
  shardId := shardName index
  startKey := if index = 0 then [] else hexBound (index * 16 / boot.shardCount)
  endKey := if index = boot.shardCount - 1 then [] else hexBound ((index + 1) * 16 / boot.shardCount)
  primaryHost := boot.host index
  replicas := ((List.range (min boot.replicaCount boot.engineHosts.length)).drop 1).filterMap
    fun replica =>
      if boot.host (index + replica) = boot.host index then none
      else some (boot.host (index + replica))

def Boot.shardMap (boot : Boot) : ShardMap :=
  (List.range boot.shardCount).foldl
    (fun map index => map.assign (boot.shard index).startKey (boot.shard index)) .empty

/-- `ShardManager::init` of a process that finds this file. -/
def init (boot : Boot) (file : MapFile) : ShardManager :=
  let loaded := loadShardMap file
  { shardMap := if loaded.entries.isEmpty then boot.shardMap else loaded, file }

/-! ## Edits -/

def createShard (manager : ShardManager) (info : ShardInfo) : Bool × ShardManager :=
  if manager.shardMap.infos.any fun existing => existing.overlaps info.startKey info.endKey then
    (false, manager)
  else
    (true, persistShardMap utf8
      { manager with shardMap := manager.shardMap.assign info.startKey info })

def splitSuffix : Key := "-split".toUTF8.data.toList

def splitShard (manager : ShardManager) (shardId splitKey bestNode : Key) : Bool × ShardManager :=
  match findShard manager.shardMap shardId with
  | none => (false, manager)
  | some (originalKey, original) =>
      if !original.containsKey splitKey then (false, manager)
      else
        let newShard : ShardInfo :=
          { shardId := shardId ++ splitSuffix, startKey := splitKey, endKey := original.endKey
            primaryHost := bestNode }
        let shortened := manager.shardMap.modify originalKey fun info =>
          { info with endKey := splitKey, status := .active }
        (true, persistShardMap utf8 { manager with shardMap := shortened.assign splitKey newShard })

/-- The range that the first shard of a merge gets. -/
def mergedShard (shard1 shard2 : ShardInfo) : ShardInfo :=
  if shard1.endKey = shard2.startKey then { shard1 with endKey := shard2.endKey }
  else { shard1 with startKey := shard2.startKey }

def mergeShard (manager : ShardManager) (shardId1 shardId2 : Key) : Bool × ShardManager :=
  match findLastShard manager.shardMap shardId1, findLastShard manager.shardMap shardId2 with
  | some (key1, shard1), some (key2, shard2) =>
      if shard1.endKey ≠ shard2.startKey ∧ shard2.endKey ≠ shard1.startKey then (false, manager)
      else
        let extended := manager.shardMap.modify key1 fun _ => mergedShard shard1 shard2
        (true, persistShardMap utf8 { manager with shardMap := extended.erase key2 })
  | _, _ => (false, manager)

def updateShard (manager : ShardManager) (info : ShardInfo) : Bool × ShardManager :=
  match findShard manager.shardMap info.shardId with
  | none => (false, manager)
  | some (key, _) =>
      (true, persistShardMap utf8
        { manager with shardMap := manager.shardMap.modify key fun _ => info })

/-- The host is that of the target node, if it is there and alive. -/
def migrateShard (manager : ShardManager) (shardId : Key) (targetHost : Option Key) :
    Bool × ShardManager :=
  match targetHost, findShard manager.shardMap shardId with
  | some host, some (key, _) =>
      (true, persistShardMap utf8 { manager with shardMap := manager.shardMap.modify key fun info =>
        { info with primaryHost := host, status := .active } })
  | _, _ => (false, manager)

/-- The shards in the order of their keys go to the hosts of the live nodes in turn. -/
def rebalanceShards (manager : ShardManager) (hosts : List Key) : Bool × ShardManager :=
  if hosts.isEmpty ∨ manager.shardMap.entries.isEmpty then (false, manager)
  else
    let keys := manager.shardMap.entries.map Prod.fst
    (true, persistShardMap utf8 { manager with shardMap := manager.shardMap.mapValues fun key info =>
      { info with primaryHost := hosts.getD (keys.idxOf key % hosts.length) [] } })

/-! ## Runs -/

inductive ShardEvent where
  | create (info : ShardInfo)
  | split (shardId splitKey bestNode : Key)
  | merge (shardId1 shardId2 : Key)
  | update (info : ShardInfo)
  | migrate (shardId : Key) (targetHost : Option Key)
  | rebalance (hosts : List Key)
  | persist
  | restart (boot : Boot)

def shardStep (manager : ShardManager) : ShardEvent → Option ShardManager
  | .create info => some (createShard utf8 manager info).2
  | .split shardId splitKey bestNode => some (splitShard utf8 manager shardId splitKey bestNode).2
  | .merge shardId1 shardId2 => some (mergeShard utf8 manager shardId1 shardId2).2
  | .update info => some (updateShard utf8 manager info).2
  | .migrate shardId targetHost => some (migrateShard utf8 manager shardId targetHost).2
  | .rebalance hosts => some (rebalanceShards utf8 manager hosts).2
  | .persist => some (persistShardMap utf8 manager)
  | .restart boot => some (init boot manager.file)

/-! ## The property -/

/-- Every key is in one shard, ids and map keys fit, and a range query finds the
shard of every key of the range. -/
structure PartitionsKeys (map : ShardMap) : Prop where
  partition : ∀ key, ∃! entry, entry ∈ map.entries ∧ entry.2.containsKey key = true
  distinct : (map.infos.map ShardInfo.shardId).Nodup
  keyed : ∀ entry ∈ map.entries, entry.1 = entry.2.startKey
  queries : ∀ startKey endKey key : Key, startKey ≤ key → (endKey = [] ∨ key < endKey) →
    getShardForKey map key ∈ getShardsForRange map startKey endKey

end PacificDb.Shard
