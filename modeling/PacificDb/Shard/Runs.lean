import PacificDb.Shard.Boot

/-!
# The shards through every run

A run of safe edits and restarts leaves the map tiled, and the file the shards of a
tiled map. Not safe are a range without keys that no shard overlaps, a split whose new
id is taken, a merge that names the upper shard first or joins the two ends of the key
space, and a load that cannot be read back.
-/

namespace PacificDb.Shard

open Lib

variable {utf8 : Key → Bool} {map : ShardMap} {manager next : ShardManager} {boot : Boot}

/-! ## Safe edits -/

/-- What is asked of an update: the shard keeps its range. -/
def ShardEvent.KeepsRange (manager : ShardManager) : ShardEvent → Prop
  | .update info => ∀ found ∈ findShard manager.shardMap info.shardId, info.range = found.2.range
  | _ => True

def ShardEvent.Safe (manager : ShardManager) : ShardEvent → Prop
  | .create info => info.range.Ordered ∨
      ∃ existing ∈ manager.shardMap.infos, existing.overlaps info.startKey info.endKey = true
  | .split shardId splitKey _ => ∀ found ∈ findShard manager.shardMap shardId,
      found.2.containsKey splitKey = true →
        ∀ info ∈ manager.shardMap.infos, info.shardId ≠ shardId ++ splitSuffix
  | .merge shardId1 shardId2 => ∀ first ∈ findLastShard manager.shardMap shardId1,
      ∀ second ∈ findLastShard manager.shardMap shardId2,
        (first.2.endKey = second.2.startKey ∧ first.2.endKey ≠ []) ∨
          (first.2.endKey ≠ second.2.startKey ∧ second.2.endKey ≠ first.2.startKey)
  | .update info => ∀ found ∈ findShard manager.shardMap info.shardId,
      info.range = found.2.range ∧ isFinite info.loadFactor = true
  | _ => True

instance (manager : ShardManager) (event : ShardEvent) : Decidable (event.Safe manager) := by
  cases event <;> unfold ShardEvent.Safe <;> infer_instance

/-- The invariant: the map and the one in the file tile the keys. -/
structure Held (manager : ShardManager) : Prop where
  tiled : Tiled manager.shardMap
  stored : ∀ infos, manager.file = .shards infos → ∃ map, Tiled map ∧ infos = map.infos

theorem held_persist {file : MapFile} (tiled : Tiled map) :
    Held (persistShardMap utf8 ⟨map, file⟩) where
  tiled := tiled
  stored := by
    intro infos written
    rw [persistShardMap] at written
    split at written
    next =>
      cases written
      exact ⟨map, tiled, rfl⟩
    next => cases written

/-- A start finds the map of the file, or makes the first one. -/
theorem held_init {file : MapFile}
    (stored : ∀ infos, file = .shards infos → ∃ map, Tiled map ∧ infos = map.infos) :
    Held (init boot file) where
  tiled := by
    have fresh : Tiled (if (.empty : ShardMap).entries.isEmpty then boot.shardMap else .empty) := boot.tiled
    cases file with
    | absent => exact fresh
    | unreadable => exact fresh
    | shards infos =>
      obtain ⟨map, tiled, rfl⟩ := stored infos rfl
      have filled : ¬map.entries.isEmpty := by
        rw [List.isEmpty_iff]
        exact tiled.entries_ne_nil
      rw [init, tiled.load, if_neg filled]
      exact tiled
  stored := stored

/-! ## One edit -/

theorem Held.create (held : Held manager) {info : ShardInfo}
    (safe : (ShardEvent.create info).Safe manager) : Held (createShard utf8 manager info).2 := by
  have refused : manager.shardMap.infos.any
      (fun existing => existing.overlaps info.startKey info.endKey) = true := by
    rw [List.any_eq_true]
    rcases safe with ordered | ⟨existing, member, overlaps⟩
    · obtain ⟨entry, member, contains, -, -⟩ := held.tiled.partition.ordered_overlaps ordered
      refine ⟨entry.2, List.mem_map_of_mem member, ?_⟩
      exact overlaps_of_contains contains le_rfl ordered
    · exact ⟨existing, member, overlaps⟩
  rw [createShard, if_pos refused]
  exact held

theorem Held.split (held : Held manager) {shardId splitKey bestNode : Key}
    (safe : (ShardEvent.split shardId splitKey bestNode).Safe manager) :
    Held (splitShard utf8 manager shardId splitKey bestNode).2 := by
  cases found : findShard manager.shardMap shardId with
  | none =>
    rw [splitShard, found]
    exact held
  | some entry =>
    obtain ⟨originalKey, original⟩ := entry
    obtain ⟨member, -⟩ := findShard_mem found
    rw [splitShard, found]
    dsimp only
    split
    next => exact held
    next inside =>
      rw [Bool.not_eq_true', Bool.not_eq_false] at inside
      have fresh := safe _ found inside
      refine held_persist
        (held.tiled.split member (containsKey_iff.mp inside) rfl rfl isFinite_zero ?_)
      exact fun entry isEntry => fresh entry.2 (List.mem_map_of_mem isEntry)

theorem Held.merge (held : Held manager) {shardId1 shardId2 : Key}
    (safe : (ShardEvent.merge shardId1 shardId2).Safe manager) :
    Held (mergeShard utf8 manager shardId1 shardId2).2 := by
  rw [mergeShard]
  split
  next key1 shard1 key2 shard2 found1 found2 =>
    obtain ⟨first, -⟩ := findLastShard_mem found1
    obtain ⟨second, -⟩ := findLastShard_mem found2
    rcases safe _ found1 _ found2 with ⟨adjacent, bounded⟩ | apart
    · rw [if_neg fun apart => apart.1 adjacent]
      exact held_persist (held.tiled.merge first second adjacent bounded)
    · rw [if_pos apart]
      exact held
  next => exact held

theorem Held.update (held : Held manager) {info : ShardInfo}
    (safe : (ShardEvent.update info).Safe manager) : Held (updateShard utf8 manager info).2 := by
  cases found : findShard manager.shardMap info.shardId with
  | none =>
    rw [updateShard, found]
    exact held
  | some entry =>
    obtain ⟨member, id⟩ := findShard_mem found
    obtain ⟨range, finite⟩ := safe entry found
    rw [updateShard, found]
    exact held_persist (held.tiled.modify member id.symm range finite)

theorem Held.migrate (held : Held manager) {shardId : Key} {targetHost : Option Key} :
    Held (migrateShard utf8 manager shardId targetHost).2 := by
  unfold migrateShard
  split
  next host key info found =>
    obtain ⟨member, -⟩ := findShard_mem found
    exact held_persist (held.tiled.modify member rfl rfl (held.tiled.finite _ member))
  next => exact held

theorem Held.rebalance (held : Held manager) {hosts : List Key} :
    Held (rebalanceShards utf8 manager hosts).2 := by
  rw [rebalanceShards]
  split
  next => exact held
  next =>
    exact held_persist (held.tiled.mapValues fun entry member =>
      ⟨rfl, rfl, held.tiled.finite entry member⟩)

/-! ## Every run -/

theorem Held.step (held : Held manager) {event : ShardEvent} (safe : event.Safe manager)
    (taken : shardStep utf8 manager event = some next) : Held next := by
  cases event with
  | create info =>
    cases taken
    exact held.create safe
  | split shardId splitKey bestNode =>
    cases taken
    exact held.split safe
  | merge shardId1 shardId2 =>
    cases taken
    exact held.merge safe
  | update info =>
    cases taken
    exact held.update safe
  | migrate shardId targetHost =>
    cases taken
    exact held.migrate
  | rebalance hosts =>
    cases taken
    exact held.rebalance
  | persist =>
    cases taken
    exact held_persist held.tiled
  | restart boot =>
    cases taken
    exact held_init held.stored

/-- Safe edits and restarts keep the shards a partition of the keys. -/
theorem shards_partition_keys
    (reached : Reach (shardStep utf8) (fun manager event => event.Safe manager) (init boot .absent)
      manager) : PartitionsKeys manager.shardMap := by
  have held : Held manager :=
    reached.invariant (held_init nofun) fun held safe taken => held.step safe taken
  exact held.tiled.partitionsKeys

/-- Two shards on one host. -/
def twoShards : Boot where
  shardCount := 2
  replicaCount := 1
  engineHosts := ["127.0.0.1:9000".toUTF8.data.toList]
  counts := by decide
  fits := by decide
  hosts := List.cons_ne_nil _ _

/-- The lower of two shards split, the pieces joined again, and a restart. -/
def rejoined : List ShardEvent :=
  [.split (shardName 0) (hexBound 4) [], .merge (shardName 0) (shardName 0 ++ splitSuffix),
    .restart twoShards]

theorem rejoined_partitions : ∃ manager,
    run (shardStep fun _ => true) (init twoShards .absent) rejoined = some manager ∧
      PartitionsKeys manager.shardMap := by
  refine ⟨_, rfl, ?_⟩
  apply shards_partition_keys
  refine ((Reach.refl.tail (e := rejoined.get ⟨0, by decide⟩) ?_ rfl).tail
    (e := rejoined.get ⟨1, by decide⟩) ?_ rfl).tail (e := rejoined.get ⟨2, by decide⟩) ?_ rfl
  · decide
  · decide
  · decide

/-- Merged in the other order, two shards leave one that has no keys. -/
theorem merge_loses_keys : ¬∀ manager,
    Reach (shardStep fun _ => true) (fun manager event => event.KeepsRange manager)
      (init twoShards .absent) manager → PartitionsKeys manager.shardMap := by
  intro claim
  let manager := (mergeShard (fun _ => true) (init twoShards .absent) (shardName 1) (shardName 0)).2
  have reached : Reach (shardStep fun _ => true) (fun manager event => event.KeepsRange manager)
      (init twoShards .absent) manager :=
    Reach.refl.tail (e := .merge (shardName 1) (shardName 0)) trivial rfl
  obtain ⟨entry, ⟨member, contains⟩, -⟩ := (claim _ reached).partition []
  have lost : ∀ entry ∈ manager.shardMap.entries, entry.2.containsKey [] = false := by
    decide
  rw [lost entry member] at contains
  cases contains

end PacificDb.Shard
