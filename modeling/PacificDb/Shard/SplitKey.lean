import PacificDb.Shard.Partition

/-!
# Suggested split keys

`ShardManager::computeSplitKey` suggests where to split a shard that has grown too large:
between the bounds, behind the start key, before the end key, or at a letter. What it
suggests splits the range in two, unless the shard holds only one of the two letters and
what it begins with zeros (`splitKey_splits_iff`): the letter is suggested without the
test that it is not the start key.
-/

namespace PacificDb.Shard

open Lib

/-! ## The strategies -/

/-- The number of bytes that the keys begin with together. -/
def sharedBytes : Key → Key → Nat
  | a :: first, b :: second => if a = b then sharedBytes first second + 1 else 0
  | _, _ => 0

/-- A byte between the first two that differ. -/
def midpointKey (startKey endKey : Key) : Option Key :=
  if startKey.isEmpty || endKey.isEmpty then none
  else
    let i := sharedBytes startKey endKey
    match startKey[i]?, endKey[i]? with
    | some a, some b =>
        if a.toNat + 1 < b.toNat then some (startKey.take i ++ [((a.toNat + b.toNat) / 2).toUInt8])
        else none
    | _, _ => none

def suffixKey (info : ShardInfo) : Option Key :=
  if info.startKey.isEmpty then none
  else
    let candidate := info.startKey ++ [0x7f]
    if info.containsKey candidate then some candidate else none

/-- The last byte that is not zero is decremented, and those behind it are dropped. -/
def decremented : Key → Option Key
  | [] => none
  | byte :: rest =>
      match decremented rest with
      | some lower => some (byte :: lower)
      | none => if byte = 0 then none else some [byte - 1]

def beforeEndKey (info : ShardInfo) : Option Key :=
  match decremented info.endKey with
  | some candidate =>
      if info.containsKey candidate && candidate != info.startKey then some candidate else none
  | none => none

def lowerM : Key := "m".toUTF8.data.toList

def upperM : Key := "M".toUTF8.data.toList

def letterKey (info : ShardInfo) : Key :=
  if info.containsKey lowerM then lowerM
  else if info.containsKey upperM then upperM
  else []

def computeSplitKey (info : ShardInfo) : Key :=
  match midpointKey info.startKey info.endKey with
  | some key => key
  | none =>
      match suffixKey info with
      | some key => key
      | none =>
          match beforeEndKey info with
          | some key => key
          | none => letterKey info

/-! ## The property -/

variable (utf8 : Key → Bool)

/-- `splitShard` at the key cuts the shard, which the map has under its start key, into
two that have a key each and its keys together. -/
def SplitsInTwo (info : ShardInfo) (splitKey : Key) : Prop :=
  ∀ manager shardId bestNode,
    findShard manager.shardMap shardId = some (info.startKey, info) →
      let after := splitShard utf8 manager shardId splitKey bestNode
      after.1 = true ∧ ∃ low high,
        after.2.shardMap.find? info.startKey = some low ∧
          after.2.shardMap.find? splitKey = some high ∧
            low.range.Ordered ∧ high.range.Ordered ∧
              ∀ key, info.containsKey key = true ↔
                low.containsKey key = true ∨ high.containsKey key = true

/-- The empty key is suggested, or one that splits the shard. -/
def SuggestsSplit (info : ShardInfo) : Prop :=
  computeSplitKey info = [] ∨
    info.containsKey (computeSplitKey info) = true ∧ computeSplitKey info ≠ info.startKey ∧
      SplitsInTwo utf8 info (computeSplitKey info)

/-- The shard starts at a letter and ends at the letter with zeros. -/
def OnlyLetter (info : ShardInfo) : Prop :=
  (info.startKey = lowerM ∨ info.startKey = upperM) ∧
    ∃ zeros, info.endKey = info.startKey ++ List.replicate (zeros + 1) 0

variable {utf8} {info : ShardInfo} {key : Key}

/-! ## Order of keys -/

theorem append_cons_lt {a b : UInt8} (shared : Key) (first second : Key) (below : a < b) :
    shared ++ a :: first < shared ++ b :: second := by
  induction shared with
  | nil => exact List.cons_lt_cons_iff.mpr (.inl below)
  | cons byte shared ih => exact List.cons_lt_cons_iff.mpr (.inr ⟨rfl, ih⟩)

theorem lt_append (key : Key) {suffix : Key} (some : suffix ≠ []) : key < key ++ suffix := by
  induction key with
  | nil =>
    cases suffix with
    | nil => exact absurd rfl some
    | cons byte rest => exact List.nil_lt_cons byte rest
  | cons byte key ih => exact List.cons_lt_cons_iff.mpr (.inr ⟨rfl, ih⟩)

theorem getElem?_sharedBytes {startKey endKey : Key} {a b : UInt8}
    (first : startKey[sharedBytes startKey endKey]? = some a)
    (second : endKey[sharedBytes startKey endKey]? = some b) :
    ∃ later latter, startKey = startKey.take (sharedBytes startKey endKey) ++ a :: later ∧
      endKey = startKey.take (sharedBytes startKey endKey) ++ b :: latter := by
  induction startKey generalizing endKey with
  | nil => cases first
  | cons x startKey ih =>
    cases endKey with
    | nil => cases second
    | cons y endKey =>
      rw [sharedBytes] at first second ⊢
      split at first
      next same =>
        rw [if_pos same] at second ⊢
        obtain ⟨later, latter, isFirst, isSecond⟩ := ih first second
        refine ⟨later, latter, ?_, ?_⟩
        · rw [List.take_succ_cons, List.cons_append, ← isFirst]
        · rw [List.take_succ_cons, List.cons_append, ← isSecond, same]
      next differs =>
        rw [if_neg differs] at second ⊢
        cases first
        cases second
        exact ⟨startKey, endKey, rfl, rfl⟩

/-! ## What each strategy suggests -/

/-- A suggestion that is in the range and not its start. -/
def ShardInfo.Inside (info : ShardInfo) (key : Key) : Prop :=
  info.containsKey key = true ∧ key ≠ info.startKey

theorem inside_of_lt (above : info.startKey < key) (below : info.endKey = [] ∨ key < info.endKey) :
    info.Inside key :=
  ⟨containsKey_iff.mpr ⟨above.le, below⟩, above.ne'⟩

theorem midpointKey_inside (found : midpointKey info.startKey info.endKey = some key) :
    info.Inside key := by
  unfold midpointKey at found
  split at found
  next => cases found
  next =>
    dsimp only at found
    split at found
    next a b first second =>
      split at found
      next gap =>
        cases found
        obtain ⟨later, latter, isStart, isEnd⟩ := getElem?_sharedBytes first second
        generalize info.startKey.take (sharedBytes info.startKey info.endKey) = shared at isStart isEnd
        have small : (a.toNat + b.toNat) / 2 < 256 := by
          have := b.toNat_lt
          omega
        have middle : ((a.toNat + b.toNat) / 2).toUInt8.toNat = (a.toNat + b.toNat) / 2 :=
          Nat.mod_eq_of_lt small
        have above : a < ((a.toNat + b.toNat) / 2).toUInt8 := by
          rw [UInt8.lt_iff_toNat_lt, middle]
          omega
        have below : ((a.toNat + b.toNat) / 2).toUInt8 < b := by
          rw [UInt8.lt_iff_toNat_lt, middle]
          omega
        apply inside_of_lt
        · rw [isStart]
          exact append_cons_lt shared later [] above
        · rw [isEnd]
          exact .inr (append_cons_lt shared [] latter below)
      next => cases found
    next => cases found

theorem suffixKey_inside (found : suffixKey info = some key) : info.Inside key := by
  unfold suffixKey at found
  split at found
  next => cases found
  next =>
    dsimp only at found
    split at found
    next contains =>
      cases found
      refine ⟨contains, (lt_append info.startKey ?_).ne'⟩
      exact List.cons_ne_nil _ _
    next => cases found

theorem beforeEndKey_inside (found : beforeEndKey info = some key) : info.Inside key := by
  unfold beforeEndKey at found
  split at found
  next candidate _ =>
    split at found
    next both =>
      cases found
      rw [Bool.and_eq_true, bne_iff_ne] at both
      exact both
    next => cases found
  next => cases found

/-- Only zeros have no byte to decrement. -/
theorem decremented_eq_none (none : decremented key = none) : ∃ zeros, key = List.replicate zeros 0 := by
  induction key with
  | nil => exact ⟨0, rfl⟩
  | cons byte rest ih =>
    rw [decremented] at none
    split at none
    next => cases none
    next last =>
      split at none
      next zero =>
        obtain ⟨zeros, rfl⟩ := ih last
        exact ⟨zeros + 1, by rw [zero, List.replicate_succ]⟩
      next => cases none

theorem decremented_replicate (zeros : Nat) : decremented (List.replicate zeros 0) = none := by
  induction zeros with
  | zero => rfl
  | succ zeros ih =>
    rw [List.replicate_succ, decremented, ih]
    rfl

theorem decremented_lt {lower : Key} (found : decremented key = some lower) :
    lower ≠ [] ∧ lower < key := by
  induction key generalizing lower with
  | nil => cases found
  | cons byte rest ih =>
    rw [decremented] at found
    split at found
    next last isLast =>
      cases found
      exact ⟨List.cons_ne_nil _ _, List.cons_lt_cons_iff.mpr (.inr ⟨rfl, (ih isLast).2⟩)⟩
    next =>
      split at found
      next => cases found
      next some =>
        cases found
        have positive : 0 < byte.toNat := by
          apply Nat.pos_of_ne_zero
          intro zero
          exact some (UInt8.toNat_inj.mp zero)
        have below : byte - 1 < byte := by
          rw [UInt8.lt_iff_toNat_lt, UInt8.toNat_sub_of_le _ _ (by
            rw [UInt8.le_iff_toNat_le]; exact positive)]
          exact Nat.sub_lt positive Nat.one_pos
        exact ⟨List.cons_ne_nil _ _, List.cons_lt_cons_iff.mpr (.inl below)⟩

/-! ## The letters -/

/-- A shard that starts at a letter and for which nothing before has a suggestion has
only the letter and what it begins with zeros. -/
theorem onlyLetter_of_none {letter : UInt8} (starts : info.startKey = [letter])
    (noSuffix : suffixKey info = none) (noBefore : beforeEndKey info = none)
    (contains : info.containsKey [letter] = true) :
    ∃ zeros, info.endKey = info.startKey ++ List.replicate (zeros + 1) 0 := by
  obtain ⟨-, ends⟩ := containsKey_iff.mp contains
  have beyond : ¬info.containsKey [letter, 0x7f] = true := by
    intro inside
    unfold suffixKey at noSuffix
    rw [starts, if_neg (by exact Bool.false_ne_true)] at noSuffix
    dsimp only [List.singleton_append] at noSuffix
    rw [if_pos inside] at noSuffix
    cases noSuffix
  rw [containsKey_iff] at beyond
  have low : info.startKey ≤ [letter, 0x7f] := by
    rw [starts]
    exact (lt_append [letter] (List.cons_ne_nil _ [])).le
  have bounded : info.endKey ≠ [] := fun unbounded => beyond ⟨low, .inl unbounded⟩
  have high : [letter] < info.endKey := ends.resolve_left bounded
  have reached : ¬[letter, 0x7f] < info.endKey := fun below => beyond ⟨low, .inr below⟩
  cases isEnd : info.endKey with
  | nil => exact absurd isEnd bounded
  | cons byte rest =>
    rw [isEnd, List.cons_lt_cons_iff] at high reached
    obtain ⟨same, more⟩ := high.resolve_left fun below => reached (.inl below)
    subst same
    cases last : decremented rest with
    | none =>
      obtain ⟨zeros, isZeros⟩ := decremented_eq_none last
      cases zeros with
      | zero =>
        rw [isZeros] at more
        exact absurd more (lt_irrefl _)
      | succ zeros => exact ⟨zeros, by rw [starts, isZeros]; rfl⟩
    | some lower =>
      -- Then the end key has a key of the range before it.
      obtain ⟨some, below⟩ := decremented_lt last
      have inside : info.Inside (letter :: lower) := by
        apply inside_of_lt
        · rw [starts]
          exact lt_append [letter] some
        · rw [isEnd]
          exact .inr (List.cons_lt_cons_iff.mpr (.inr ⟨rfl, below⟩))
      have isLower : decremented info.endKey = Option.some (letter :: lower) := by
        rw [isEnd, decremented, last]
      unfold beforeEndKey at noBefore
      rw [isLower] at noBefore
      dsimp only at noBefore
      rw [if_pos (by rw [inside.1, Bool.true_and, bne_iff_ne]; exact inside.2)] at noBefore
      cases noBefore

theorem letterKey_inside (noSuffix : suffixKey info = none) (noBefore : beforeEndKey info = none)
    (free : ¬OnlyLetter info) (some : letterKey info ≠ []) : info.Inside (letterKey info) := by
  unfold letterKey at some ⊢
  split at some
  next contains =>
    rw [if_pos contains]
    refine ⟨contains, fun starts => free ⟨.inl starts.symm, ?_⟩⟩
    exact onlyLetter_of_none starts.symm noSuffix noBefore contains
  next notLower =>
    rw [if_neg notLower]
    split at some
    next contains =>
      rw [if_pos contains]
      refine ⟨contains, fun starts => free ⟨.inr starts.symm, ?_⟩⟩
      exact onlyLetter_of_none starts.symm noSuffix noBefore contains
    next => exact absurd rfl some

/-- Where the shard has only the letter and what it begins with zeros, the letter is
suggested. -/
theorem computeSplitKey_onlyLetter (only : OnlyLetter info) : computeSplitKey info = info.startKey := by
  obtain ⟨starts, zeros, ends⟩ := only
  have isLetter : ∃ letter, info.startKey = [letter] ∧ 0 < letter ∧
      ¬[letter, 0x7f] < letter :: List.replicate (zeros + 1) 0 := by
    have behind : ∀ letter : UInt8, ¬[letter, 0x7f] < letter :: List.replicate (zeros + 1) 0 := by
      intro letter below
      rw [List.replicate_succ, List.cons_lt_cons_iff, List.cons_lt_cons_iff] at below
      rcases below with irreflexive | ⟨-, zero | ⟨zero, -⟩⟩
      · exact absurd irreflexive (lt_irrefl _)
      · exact absurd zero (by decide)
      · exact absurd zero (by decide)
    rcases starts with lower | upper
    · exact ⟨0x6d, lower, by decide, behind _⟩
    · exact ⟨0x4d, upper, by decide, behind _⟩
  obtain ⟨letter, isStart, positive, behind⟩ := isLetter
  rw [isStart, List.singleton_append] at ends
  have noMidpoint : midpointKey info.startKey info.endKey = none := by
    rw [isStart, ends]
    unfold midpointKey
    rw [if_neg (by exact Bool.false_ne_true)]
    have one : sharedBytes [letter] (letter :: List.replicate (zeros + 1) 0) = 1 := by
      rw [sharedBytes, if_pos rfl]
      rfl
    rw [one]
    rfl
  have noSuffix : suffixKey info = none := by
    unfold suffixKey
    rw [isStart, if_neg (by exact Bool.false_ne_true)]
    dsimp only [List.singleton_append]
    rw [if_neg]
    rw [containsKey_iff]
    intro contains
    rcases contains.2 with unbounded | below
    · rw [show info.range.upper = info.endKey from rfl, ends] at unbounded
      cases unbounded
    · rw [show info.range.upper = info.endKey from rfl, ends] at below
      exact behind below
  have noBefore : beforeEndKey info = none := by
    unfold beforeEndKey
    rw [ends, decremented, decremented_replicate]
    dsimp only
    rw [if_neg positive.ne']
    dsimp only
    rw [if_neg]
    rw [Bool.and_eq_true, containsKey_iff]
    rintro ⟨⟨starts, -⟩, -⟩
    rw [show info.range.lower = info.startKey from rfl, isStart] at starts
    have below : [letter - 1] < [letter] := by
      refine List.cons_lt_cons_iff.mpr (.inl ?_)
      have isPositive : 0 < letter.toNat := UInt8.lt_iff_toNat_lt.mp positive
      rw [UInt8.lt_iff_toNat_lt, UInt8.toNat_sub_of_le _ _ (by
        rw [UInt8.le_iff_toNat_le]; exact isPositive)]
      exact Nat.sub_lt isPositive Nat.one_pos
    exact absurd starts (not_le.mpr below)
  have contains : info.containsKey info.startKey = true := by
    refine containsKey_iff.mpr ⟨le_rfl, .inr ?_⟩
    rw [show info.range.upper = info.endKey from rfl, ends, isStart]
    exact lt_append [letter] (List.cons_ne_nil _ _)
  unfold computeSplitKey
  rw [noMidpoint, noSuffix, noBefore]
  dsimp only
  unfold letterKey
  rcases starts with lower | upper
  · rw [lower] at contains
    rw [if_pos contains, lower]
  · rw [upper] at contains
    have notLower : ¬info.containsKey lowerM = true := by
      rw [containsKey_iff]
      intro inside
      have letterIs : letter = 0x4d := by
        rw [upper] at isStart
        exact (List.cons.inj isStart).1.symm
      rcases inside.2 with unbounded | below
      · rw [show info.range.upper = info.endKey from rfl, ends] at unbounded
        cases unbounded
      · rw [show info.range.upper = info.endKey from rfl, ends, letterIs] at below
        rcases List.cons_lt_cons_iff.mp below with less | ⟨same, -⟩
        · exact absurd less (by decide)
        · exact absurd same (by decide)
    rw [if_neg notLower, if_pos contains, upper]

/-! ## The split -/

/-- A key inside the range cuts it in two. -/
theorem ShardInfo.Inside.splits (inside : info.Inside key) : SplitsInTwo utf8 info key := by
  intro manager shardId bestNode found
  have contains := containsKey_iff.mp inside.1
  have positive : key ≠ [] := by
    rintro rfl
    exact inside.2 (le_antisymm (nil_le _) contains.1)
  have above : info.startKey < key := lt_of_le_of_ne contains.1 inside.2.symm
  unfold splitShard
  rw [found]
  dsimp only
  rw [inside.1, Bool.not_true, if_neg Bool.false_ne_true]
  refine ⟨rfl, { info with endKey := key, status := .active },
    { shardId := shardId ++ splitSuffix, startKey := key, endKey := info.endKey
      primaryHost := bestNode }, ?_, ?_, ?_, ?_, fun other => ?_⟩
  · unfold persistShardMap
    rw [SortedMap.find?_assign, if_neg inside.2.symm, SortedMap.find?_eq_some, SortedMap.mem_modify]
    obtain ⟨member, -⟩ := findShard_mem found
    exact .inr ⟨info, member, rfl⟩
  · unfold persistShardMap
    rw [SortedMap.find?_assign, if_pos rfl]
  · exact .inr above
  · exact contains.2
  · rw [containsKey_iff, containsKey_iff, containsKey_iff]
    exact KeyRange.contains_cut contains positive

/-- What is suggested splits the shard, unless it has only a letter and what it begins
with zeros. -/
theorem splitKey_splits_iff (info : ShardInfo) : SuggestsSplit utf8 info ↔ ¬OnlyLetter info := by
  constructor
  · intro suggests only
    have same := computeSplitKey_onlyLetter only
    rcases suggests with none | ⟨-, differs, -⟩
    · rw [same] at none
      rcases only.1 with lower | upper
      · rw [lower] at none
        cases none
      · rw [upper] at none
        cases none
    · exact differs same
  · intro free
    have suggested : computeSplitKey info = [] ∨ info.Inside (computeSplitKey info) := by
      unfold computeSplitKey
      split
      next found => exact .inr (midpointKey_inside found)
      next =>
        split
        next found => exact .inr (suffixKey_inside found)
        next noSuffix =>
          split
          next found => exact .inr (beforeEndKey_inside found)
          next noBefore =>
            by_cases none : letterKey info = []
            · exact .inl none
            · exact .inr (letterKey_inside noSuffix noBefore free none)
    exact suggested.imp_right fun inside => ⟨inside.1, inside.2, inside.splits⟩

/-- The shard with `m` and with `m` before a zero could be split at the latter, and its
start key is suggested. -/
theorem splitKey_startKey :
    computeSplitKey { startKey := lowerM, endKey := lowerM ++ [0, 0] } = lowerM ∧
      (⟨lowerM, lowerM ++ [0, 0]⟩ : KeyRange Key).Contains (lowerM ++ [0]) ∧
        ¬∀ (utf8 : Key → Bool) (info : ShardInfo), SuggestsSplit utf8 info := by
  have only : OnlyLetter { startKey := lowerM, endKey := lowerM ++ [0, 0] } := ⟨.inl rfl, 1, rfl⟩
  refine ⟨computeSplitKey_onlyLetter only, by decide, fun all => ?_⟩
  exact splitKey_splits_iff _ |>.mp (all (fun _ => true) _) only

end PacificDb.Shard
