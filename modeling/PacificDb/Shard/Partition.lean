import Mathlib.Data.List.Nodup
import PacificDb.Shard.Map

/-!
# The shards partition the keys

A map whose ranges partition the keys and are not empty, with distinct ids and with
each shard under its start key (`Tiled`), is what `init` makes, what the file holds,
and what every safe edit leaves.
-/

namespace PacificDb.Shard

open Lib

variable {utf8 : Key → Bool} {map : ShardMap} {manager : ShardManager}

/-! ## Tiled maps -/

def shardRange (entry : Key × ShardInfo) : KeyRange Key := entry.2.range

theorem containsKey_iff {info : ShardInfo} {key : Key} :
    info.containsKey key = true ↔ info.range.Contains key := by
  rw [ShardInfo.containsKey, Bool.and_eq_true, Bool.or_eq_true, decide_eq_true_eq,
    decide_eq_true_eq, List.isEmpty_iff]
  rfl

/-- The shards of the map tile the keys. -/
structure Tiled (map : ShardMap) : Prop where
  partition : Partition {entry | entry ∈ map.entries} shardRange
  ordered : ∀ entry ∈ map.entries, (shardRange entry).Ordered
  distinct : ∀ first ∈ map.entries, ∀ second ∈ map.entries,
    first.2.shardId = second.2.shardId → first = second
  keyed : ∀ entry ∈ map.entries, entry.1 = entry.2.startKey
  finite : ∀ entry ∈ map.entries, isFinite entry.2.loadFactor = true

/-- A shard with a key shares it with every range over that key. -/
theorem overlaps_of_contains {info : ShardInfo} {startKey endKey key : Key}
    (contains : info.range.Contains key) (low : startKey ≤ key) (high : endKey = [] ∨ key < endKey) :
    info.overlaps startKey endKey = true := by
  rw [ShardInfo.overlaps, Bool.and_eq_true, Bool.or_eq_true, Bool.or_eq_true, decide_eq_true_eq,
    decide_eq_true_eq, List.isEmpty_iff, List.isEmpty_iff]
  obtain ⟨starts, ends⟩ := contains
  exact ⟨ends.imp_right fun below => low.trans_lt below,
    high.imp_right fun below => starts.trans_lt below⟩

/-- The lookup of a key finds the shard that contains it. -/
theorem Tiled.getShardForKey (tiled : Tiled map) (key : Key) :
    ∃ info ∈ map.infos, info.range.Contains key ∧ Shard.getShardForKey map key = info.shardId := by
  obtain ⟨entry, ⟨member, contains⟩, -⟩ := tiled.partition key
  cases found : map.infos.find? fun info => info.containsKey key with
  | none =>
    have missing := List.find?_eq_none.mp found entry.2 (List.mem_map_of_mem member)
    exact absurd (containsKey_iff.mpr contains) missing
  | some info =>
    have contains := @List.find?_some _ (fun info : ShardInfo => info.containsKey key) _ _ found
    exact ⟨info, List.mem_of_find?_eq_some found, containsKey_iff.mp contains,
      by rw [Shard.getShardForKey, found]⟩

theorem Tiled.partitionsKeys (tiled : Tiled map) : PartitionsKeys map where
  partition key := by
    obtain ⟨entry, ⟨member, contains⟩, only⟩ := tiled.partition key
    refine ⟨entry, ⟨member, containsKey_iff.mpr contains⟩, ?_⟩
    rintro other ⟨isEntry, holds⟩
    exact only other ⟨isEntry, containsKey_iff.mp holds⟩
  distinct := by
    rw [ShardMap.infos, List.map_map]
    have entries : map.entries.Nodup := map.sorted.imp fun below same =>
      absurd (congrArg Prod.fst same) below.ne
    exact List.Nodup.map_on tiled.distinct entries
  keyed := tiled.keyed
  queries := by
    intro startKey endKey key low high
    obtain ⟨info, member, contains, found⟩ := tiled.getShardForKey key
    rw [found, getShardsForRange]
    exact List.mem_map_of_mem (List.mem_filter.mpr ⟨member, overlaps_of_contains contains low high⟩)

/-! ## Lookups by id -/

theorem findShard_mem {shardId key : Key} {info : ShardInfo}
    (found : findShard map shardId = some (key, info)) :
    (key, info) ∈ map.entries ∧ info.shardId = shardId := by
  have same := @List.find?_some _ (fun entry : Key × ShardInfo => entry.2.shardId == shardId) _ _ found
  exact ⟨List.mem_of_find?_eq_some found, beq_iff_eq.mp same⟩

theorem findLastShard_mem {shardId key : Key} {info : ShardInfo}
    (found : findLastShard map shardId = some (key, info)) :
    (key, info) ∈ map.entries ∧ info.shardId = shardId := by
  have same := @List.find?_some _ (fun entry : Key × ShardInfo => entry.2.shardId == shardId) _ _ found
  exact ⟨List.mem_reverse.mp (List.mem_of_find?_eq_some found), beq_iff_eq.mp same⟩

/-! ## Edits of the shards in place -/

/-- Shards that keep their ids and ranges stay tiled. -/
theorem Tiled.mapValues (tiled : Tiled map) {change : Key → ShardInfo → ShardInfo}
    (keeps : ∀ entry ∈ map.entries, (change entry.1 entry.2).shardId = entry.2.shardId ∧
      (change entry.1 entry.2).range = entry.2.range ∧
      isFinite (change entry.1 entry.2).loadFactor = true) :
    Tiled (map.mapValues change) := by
  have origin : ∀ entry ∈ (map.mapValues change).entries, ∃ old, (entry.1, old) ∈ map.entries ∧
      entry.2.shardId = old.shardId ∧ entry.2.range = old.range ∧
      isFinite entry.2.loadFactor = true ∧ entry.2 = change entry.1 old := by
    intro entry member
    obtain ⟨old, inside, changed⟩ := SortedMap.mem_mapValues.mp member
    obtain ⟨id, range, finite⟩ := keeps _ inside
    rw [← changed] at id range finite
    exact ⟨old, inside, id, range, finite, changed⟩
  have same : ∀ first ∈ (map.mapValues change).entries, ∀ second ∈ (map.mapValues change).entries,
      first.1 = second.1 → first = second :=
    fun first inFirst second inSecond => SortedMap.entry_unique inFirst inSecond
  constructor
  case partition =>
    intro key
    obtain ⟨entry, ⟨member, contains⟩, only⟩ := tiled.partition key
    have inside : (entry.1, entry.2) ∈ map.entries := member
    refine ⟨(entry.1, change entry.1 entry.2),
      ⟨SortedMap.mem_mapValues.mpr ⟨entry.2, inside, rfl⟩, ?_⟩, ?_⟩
    · have range := (keeps entry member).2.1
      rw [shardRange, range]
      exact contains
    · rintro other ⟨isEntry, holds⟩
      obtain ⟨old, isOld, -, range, -, changed⟩ := origin other isEntry
      rw [shardRange, range] at holds
      have isSame := only (other.1, old) ⟨isOld, holds⟩
      rw [← isSame]
      exact Prod.ext rfl changed
  case ordered =>
    intro entry member
    obtain ⟨old, inside, -, range, -, -⟩ := origin entry member
    rw [shardRange, range]
    exact tiled.ordered _ inside
  case distinct =>
    intro first inFirst second inSecond id
    obtain ⟨old, isOld, oldId, -⟩ := origin first inFirst
    obtain ⟨other, isOther, otherId, -⟩ := origin second inSecond
    have isSame := tiled.distinct _ isOld _ isOther (oldId.symm.trans (id.trans otherId))
    have sameKey : first.1 = second.1 := (Prod.mk.inj isSame).1
    exact same first inFirst second inSecond sameKey
  case keyed =>
    intro entry member
    obtain ⟨old, inside, -, range, -, -⟩ := origin entry member
    exact (tiled.keyed _ inside).trans (congrArg KeyRange.lower range).symm
  case finite =>
    intro entry member
    obtain ⟨old, -, -, -, finite, -⟩ := origin entry member
    exact finite

/-- So do shards of which one is changed. -/
theorem Tiled.modify (tiled : Tiled map) {key : Key} {info : ShardInfo}
    {change : ShardInfo → ShardInfo} (member : (key, info) ∈ map.entries)
    (id : (change info).shardId = info.shardId) (range : (change info).range = info.range)
    (finite : isFinite (change info).loadFactor = true) : Tiled (map.modify key change) := by
  refine tiled.mapValues fun entry inside => ?_
  by_cases here : entry.1 = key
  · obtain rfl : entry = (key, info) := SortedMap.entry_unique inside member here
    rw [if_pos rfl]
    exact ⟨id, range, finite⟩
  · rw [if_neg here]
    exact ⟨rfl, rfl, tiled.finite entry inside⟩

/-! ## Splitting -/

/-- A shard cut in two. -/
theorem Tiled.split (tiled : Tiled map) {originalKey splitKey : Key} {original newShard : ShardInfo}
    (member : (originalKey, original) ∈ map.entries) (inside : original.range.Contains splitKey)
    (starts : newShard.startKey = splitKey) (ends : newShard.endKey = original.endKey)
    (finite : isFinite newShard.loadFactor = true)
    (fresh : ∀ entry ∈ map.entries, entry.2.shardId ≠ newShard.shardId) :
    Tiled ((map.modify originalKey fun info =>
      { info with endKey := splitKey, status := .active }).assign splitKey newShard) := by
  have lower : originalKey = original.startKey := tiled.keyed _ member
  have range : newShard.range = ⟨splitKey, original.endKey⟩ := by
    rw [ShardInfo.range, starts, ends]
  have newOrdered : newShard.range.Ordered := by
    rw [range]
    exact inside.2
  let low : ShardInfo := { original with endKey := splitKey, status := .active }
  have lowRange : low.range = ⟨original.startKey, splitKey⟩ := rfl
  -- No other shard is kept under the split key.
  have alone : ∀ entry ∈ map.entries, entry.1 = splitKey → entry = (originalKey, original) := by
    intro entry isEntry here
    have contains : (shardRange entry).Contains splitKey := by
      rw [← here, tiled.keyed entry isEntry]
      exact KeyRange.contains_lower.mpr (tiled.ordered entry isEntry)
    exact tiled.partition.unique isEntry member contains inside
  have left : ∀ entry, entry ∈ ((map.modify originalKey fun info =>
      { info with endKey := splitKey, status := .active }).assign splitKey newShard).entries ↔
        (entry ∈ map.entries ∧ entry ≠ (originalKey, original)) ∨
          entry = (splitKey, newShard) ∨ (splitKey ≠ originalKey ∧ entry = (originalKey, low)) := by
    intro entry
    rw [SortedMap.mem_assign, SortedMap.mem_modify]
    constructor
    · rintro (isNew | ⟨⟨isEntry, other⟩ | ⟨old, isOld, rfl⟩, differs⟩)
      · exact .inr (.inl isNew)
      · exact .inl ⟨isEntry, fun same => other (congrArg Prod.fst same)⟩
      · obtain rfl : old = original :=
          congrArg Prod.snd (SortedMap.entry_unique isOld member rfl)
        exact .inr (.inr ⟨fun same => differs same.symm, rfl⟩)
    · rintro (⟨isEntry, other⟩ | isNew | ⟨differs, rfl⟩)
      · refine .inr ⟨.inl ⟨isEntry, fun same => ?_⟩, fun same => other (alone entry isEntry same)⟩
        exact other (SortedMap.entry_unique isEntry member same)
      · exact .inl isNew
      · exact .inr ⟨.inr ⟨original, member, rfl⟩, fun same => differs same.symm⟩
  have above : splitKey ≠ originalKey → splitKey ≠ [] := by
    rintro differs rfl
    have low : original.startKey ≤ [] := inside.1
    have none : original.startKey = [] := le_antisymm low (nil_le _)
    exact differs (none.symm.trans lower.symm)
  have pieces : ∀ entry, entry = (splitKey, newShard) ∨
      (splitKey ≠ originalKey ∧ entry = (originalKey, low)) →
        (shardRange entry).Ordered ∧ entry.1 = entry.2.startKey ∧
          isFinite entry.2.loadFactor = true := by
    rintro entry (rfl | ⟨differs, rfl⟩)
    · exact ⟨newOrdered, starts.symm, finite⟩
    · refine ⟨.inr ?_, lower, tiled.finite (originalKey, original) member⟩
      refine lt_of_le_of_ne inside.1 fun same => differs ?_
      exact (lower.trans same).symm
  constructor
  case partition =>
    refine @Partition.exchange Key _ _ _ _ _ {(originalKey, original)}
      {entry | entry = (splitKey, newShard) ∨ (splitKey ≠ originalKey ∧ entry = (originalKey, low))}
      _ tiled.partition ?_ ?_ ?_ ?_ ?_
    · rintro entry rfl
      exact member
    · intro entry
      exact left entry
    · rintro key entry rfl contains
      have here : original.range.Contains key := contains
      by_cases same : splitKey = originalKey
      · refine ⟨(splitKey, newShard), .inl rfl, ?_⟩
        rw [shardRange, range, same, lower]
        exact here
      · rcases (KeyRange.contains_cut inside (above same)).mp here with isLow | isHigh
        · exact ⟨(originalKey, low), .inr ⟨same, rfl⟩, isLow⟩
        · refine ⟨(splitKey, newShard), .inl rfl, ?_⟩
          rw [shardRange, range]
          exact isHigh
    · rintro key entry (rfl | ⟨differs, rfl⟩) contains
      · rw [shardRange, range] at contains
        exact ⟨_, rfl, inside.1.trans contains.1, contains.2⟩
      · exact ⟨_, rfl, (KeyRange.contains_cut inside (above differs)).mpr (.inl contains)⟩
    · rintro key first second (rfl | ⟨differs, rfl⟩) (rfl | ⟨other, rfl⟩) inFirst inSecond
      · rfl
      · rw [shardRange, range] at inFirst
        exact absurd inFirst (KeyRange.not_contains_both (above other) inSecond)
      · rw [shardRange, range] at inSecond
        exact absurd inSecond (KeyRange.not_contains_both (above differs) inFirst)
      · rfl
  case ordered =>
    intro entry isEntry
    rcases (left entry).mp isEntry with ⟨old, -⟩ | piece
    · exact tiled.ordered entry old
    · exact (pieces entry piece).1
  case distinct =>
    have shortId : ∀ entry ∈ map.entries, low.shardId = entry.2.shardId →
        entry = (originalKey, original) :=
      fun entry isEntry same => tiled.distinct entry isEntry _ member same.symm
    intro first inFirst second inSecond id
    rcases (left first).mp inFirst with ⟨oldFirst, notFirst⟩ | rfl | ⟨differs, rfl⟩ <;>
      rcases (left second).mp inSecond with ⟨oldSecond, notSecond⟩ | rfl | ⟨other, rfl⟩
    · exact tiled.distinct first oldFirst second oldSecond id
    · exact absurd id (fresh first oldFirst)
    · exact absurd (shortId first oldFirst id.symm) notFirst
    · exact absurd id.symm (fresh second oldSecond)
    · rfl
    · exact absurd id.symm (fresh (originalKey, original) member)
    · exact absurd (shortId second oldSecond id) notSecond
    · exact absurd id (fresh (originalKey, original) member)
    · rfl
  case keyed =>
    intro entry isEntry
    rcases (left entry).mp isEntry with ⟨old, -⟩ | piece
    · exact tiled.keyed entry old
    · exact (pieces entry piece).2.1
  case finite =>
    intro entry isEntry
    rcases (left entry).mp isEntry with ⟨old, -⟩ | piece
    · exact tiled.finite entry old
    · exact (pieces entry piece).2.2

/-! ## Merging -/

/-- Two shards, the second right above the first, made one. -/
theorem Tiled.merge (tiled : Tiled map) {key1 key2 : Key} {shard1 shard2 : ShardInfo}
    (first : (key1, shard1) ∈ map.entries) (second : (key2, shard2) ∈ map.entries)
    (adjacent : shard1.endKey = shard2.startKey) (bounded : shard1.endKey ≠ []) :
    Tiled ((map.modify key1 fun _ => mergedShard shard1 shard2).erase key2) := by
  have merged : mergedShard shard1 shard2 = { shard1 with endKey := shard2.endKey } := if_pos adjacent
  have below : shard1.startKey < shard1.endKey := (tiled.ordered _ first).resolve_left bounded
  have key1Eq : key1 = shard1.startKey := tiled.keyed _ first
  have key2Eq : key2 = shard1.endKey := (tiled.keyed _ second).trans adjacent.symm
  have differ : key1 ≠ key2 := by
    rw [key1Eq, key2Eq]
    exact below.ne
  have inside : (⟨shard1.startKey, shard2.endKey⟩ : KeyRange Key).Contains shard1.endKey := by
    refine ⟨below.le, ?_⟩
    rw [adjacent]
    exact tiled.ordered _ second
  have cut (key : Key) : (mergedShard shard1 shard2).range.Contains key ↔
      shard1.range.Contains key ∨ shard2.range.Contains key := by
    rw [merged]
    refine (KeyRange.contains_cut inside bounded).trans ?_
    rw [ShardInfo.range, ShardInfo.range, adjacent]
  have left : ∀ entry, entry ∈ ((map.modify key1 fun _ => mergedShard shard1 shard2).erase key2).entries
      ↔ (entry ∈ map.entries ∧ ¬(entry = (key1, shard1) ∨ entry = (key2, shard2))) ∨
        entry = (key1, mergedShard shard1 shard2) := by
    intro entry
    rw [SortedMap.mem_erase, SortedMap.mem_modify]
    constructor
    · rintro ⟨⟨isEntry, notFirst⟩ | ⟨-, -, rfl⟩, notSecond⟩
      · refine .inl ⟨isEntry, ?_⟩
        rintro (rfl | rfl)
        · exact notFirst rfl
        · exact notSecond rfl
      · exact .inr rfl
    · rintro (⟨isEntry, neither⟩ | rfl)
      · refine ⟨.inl ⟨isEntry, fun same => neither (.inl ?_)⟩, fun same => neither (.inr ?_)⟩
        · exact SortedMap.entry_unique isEntry first same
        · exact SortedMap.entry_unique isEntry second same
      · exact ⟨.inr ⟨shard1, first, rfl⟩, differ⟩
  have id : (mergedShard shard1 shard2).shardId = shard1.shardId := by rw [merged]
  constructor
  case partition =>
    refine @Partition.exchange Key _ _ _ _ _ {entry | entry = (key1, shard1) ∨ entry = (key2, shard2)}
      {(key1, mergedShard shard1 shard2)} _ tiled.partition ?_ left ?_ ?_ ?_
    · rintro entry (rfl | rfl)
      · exact first
      · exact second
    · rintro key entry (rfl | rfl) contains
      · exact ⟨_, rfl, (cut key).mpr (.inl contains)⟩
      · exact ⟨_, rfl, (cut key).mpr (.inr contains)⟩
    · rintro key entry rfl contains
      rcases (cut key).mp contains with inFirst | inSecond
      · exact ⟨_, .inl rfl, inFirst⟩
      · exact ⟨_, .inr rfl, inSecond⟩
    · rintro key one other rfl rfl - -
      rfl
  case ordered =>
    intro entry isEntry
    rcases (left entry).mp isEntry with ⟨old, -⟩ | rfl
    · exact tiled.ordered entry old
    · exact ((cut shard1.startKey).mpr (.inl ⟨le_rfl, .inr below⟩)).ordered
  case distinct =>
    intro one inOne other inOther same
    rcases (left one).mp inOne with ⟨oldOne, neither⟩ | rfl <;>
      rcases (left other).mp inOther with ⟨oldOther, nor⟩ | rfl
    · exact tiled.distinct one oldOne other oldOther same
    · exact absurd (.inl (tiled.distinct one oldOne _ first (same.trans id))) neither
    · exact absurd (.inl (tiled.distinct other oldOther _ first (same.symm.trans id))) nor
    · rfl
  case keyed =>
    intro entry isEntry
    rcases (left entry).mp isEntry with ⟨old, -⟩ | rfl
    · exact tiled.keyed entry old
    · rw [merged]
      exact key1Eq
  case finite =>
    intro entry isEntry
    rcases (left entry).mp isEntry with ⟨old, -⟩ | rfl
    · exact tiled.finite entry old
    · rw [merged]
      exact tiled.finite (key1, shard1) first

end PacificDb.Shard
