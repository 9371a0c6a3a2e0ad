import Mathlib.Data.Nat.Digits.Defs
import PacificDb.Shard.Partition

/-!
# The first map and the stored map

The bounds of the first shards are digits that never decrease, so the shards tile the
keys for every number of shards: of those with one bound the last stays in the map.
A stored map is read back as it was, entry after entry.
-/

namespace PacificDb.Shard

open Lib

variable {boot : Boot} {map : ShardMap}

/-! ## The names -/

theorem decimal_injective {first second : Nat} (same : decimal first = decimal second) :
    first = second := by
  have bytes : (toString first).toUTF8 = (toString second).toUTF8 :=
    ByteArray.ext (Array.toList_inj.mp same)
  have text : toString first = toString second := String.toByteArray_inj.mp bytes
  have digits : Nat.toDigits 10 first = Nat.toDigits 10 second := String.ofList_injective text
  calc first = Nat.ofDigitChars 10 (Nat.toDigits 10 first) 0 :=
        (Nat.ofDigitChars_toDigits (by omega) (by omega)).symm
    _ = Nat.ofDigitChars 10 (Nat.toDigits 10 second) 0 := by rw [digits]
    _ = second := Nat.ofDigitChars_toDigits (by omega) (by omega)

theorem shardName_injective {first second : Nat} (same : shardName first = shardName second) :
    first = second :=
  decimal_injective (List.append_cancel_left same)

theorem isFinite_zero : isFinite 0 = true := by decide

/-! ## The bounds -/

def Boot.bound (boot : Boot) (index : Nat) : Key :=
  if index = 0 then [] else hexBound (index * 16 / boot.shardCount)

theorem hexBound_le : ∀ high < 16, ∀ low ≤ high, hexBound low ≤ hexBound high := by
  decide

theorem hexBound_ne_nil (index : Nat) : hexBound index ≠ [] := List.cons_ne_nil _ _

theorem Boot.bound_succ (index : Nat) :
    boot.bound (index + 1) = hexBound ((index + 1) * 16 / boot.shardCount) :=
  if_neg (Nat.succ_ne_zero index)

theorem Boot.bound_le {low high : Nat} (le : low ≤ high) (bounded : high < boot.shardCount) :
    boot.bound low ≤ boot.bound high := by
  rcases low with _ | low
  · exact nil_le _
  · obtain ⟨higher, rfl⟩ : ∃ higher, high = higher + 1 := ⟨high - 1, by omega⟩
    rw [bound_succ, bound_succ]
    apply hexBound_le
    · rw [Nat.div_lt_iff_lt_mul (by omega)]
      omega
    · apply Nat.div_le_div_right
      omega

theorem Boot.shard_range {index : Nat} (before : index < boot.shardCount) :
    (boot.shard index).range =
      ⟨boot.bound index, if index + 1 = boot.shardCount then ⊥ else boot.bound (index + 1)⟩ := by
  have end_eq : (boot.shard index).endKey =
      if index + 1 = boot.shardCount then ⊥ else boot.bound (index + 1) := by
    rw [bound_succ]
    by_cases last : index + 1 = boot.shardCount
    · rw [if_pos last]
      exact if_pos (by omega)
    · rw [if_neg last]
      exact if_neg (by omega)
  rw [ShardInfo.range, end_eq]
  rfl

theorem Boot.mem_shardMap {entry : Key × ShardInfo} : entry ∈ boot.shardMap.entries ↔
    ∃ index < boot.shardCount, entry = (boot.bound index, boot.shard index) ∧
      ∀ later < boot.shardCount, index < later → boot.bound later ≠ boot.bound index :=
  SortedMap.mem_foldl_assign

/-- The map of the first start tiles the keys. -/
theorem Boot.tiled (boot : Boot) : Tiled boot.shardMap where
  partition := by
    apply @Partition.of_bounds Key _ _ _ _ _ boot.shardCount boot.bound
      fun index => (boot.bound index, boot.shard index)
    · exact boot.counts
    · rfl
    · exact fun low high le bounded => bound_le le bounded
    · intro index _
      rw [bound_succ]
      exact hexBound_ne_nil _
    · exact fun index before => shard_range before
    · exact fun entry => mem_shardMap
  ordered := by
    intro entry member
    obtain ⟨index, before, rfl, last⟩ := mem_shardMap.mp member
    rw [shardRange, shard_range before]
    dsimp only [KeyRange.Ordered]
    split
    next => exact .inl rfl
    next more =>
      have increases := boot.bound_le (Nat.le_succ index) (by omega)
      have differ := last (index + 1) (by omega) (Nat.lt_succ_self index)
      exact .inr (lt_of_le_of_ne increases differ.symm)
  distinct := by
    intro first inFirst second inSecond same
    obtain ⟨index, -, rfl, -⟩ := mem_shardMap.mp inFirst
    obtain ⟨other, -, rfl, -⟩ := mem_shardMap.mp inSecond
    have equal : index = other := shardName_injective same
    rw [equal]
  keyed := by
    intro entry member
    obtain ⟨index, -, rfl, -⟩ := mem_shardMap.mp member
    rfl
  finite := by
    intro entry member
    obtain ⟨index, -, rfl, -⟩ := mem_shardMap.mp member
    exact isFinite_zero

/-! ## The stored map -/

theorem loadShards_append (suffix : List (Key × ShardInfo)) :
    ∀ {loaded : ShardMap},
      (loaded.entries ++ suffix).Pairwise (fun first second => first.1 < second.1) →
      (∀ entry ∈ suffix, entry.1 = entry.2.startKey) →
      (∀ entry ∈ suffix, isFinite entry.2.loadFactor = true) →
      (loadShards loaded (suffix.map Prod.snd)).entries = loaded.entries ++ suffix := by
  induction suffix with
  | nil =>
    intro loaded _ _ _
    rw [List.append_nil]
    rfl
  | cons entry rest ih =>
    intro loaded sorted keyed finite
    obtain ⟨key, keyeds⟩ := List.forall_mem_cons.mp keyed
    obtain ⟨here, finites⟩ := List.forall_mem_cons.mp finite
    have above : ∀ old ∈ loaded.entries, old.1 < entry.2.startKey := by
      intro old member
      rw [← key]
      exact (List.pairwise_append.mp sorted).2.2 old member entry List.mem_cons_self
    have added : (loaded.assign entry.2.startKey entry.2).entries = loaded.entries ++ [entry] := by
      rw [SortedMap.entries_assign_of_above above, ← key]
    rw [List.map_cons, loadShards, if_pos here, ih ?_ keyeds finites, added, List.append_assoc]
    · rfl
    · rw [added, List.append_assoc]
      exact sorted

theorem Tiled.load (tiled : Tiled map) : loadShardMap (.shards map.infos) = map :=
  SortedMap.ext_entries <|
    @loadShards_append map.entries .empty map.sorted tiled.keyed tiled.finite

theorem Tiled.entries_ne_nil (tiled : Tiled map) : map.entries ≠ [] := by
  obtain ⟨entry, ⟨member, -⟩, -⟩ := tiled.partition []
  exact List.ne_nil_of_mem member

end PacificDb.Shard
