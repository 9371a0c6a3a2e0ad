import Mathlib.Data.List.Pairwise
import Mathlib.Order.Basic
import Mathlib.Order.Lattice

/-!
# Maps as sorted lists of entries

An ordered map in the order of its keys, with the operations of `std::map` that keep
it sorted, each given by the entries it leaves.
-/

namespace PacificDb.Lib

/-- Entries with increasing keys. -/
structure SortedMap (κ ν : Type) [LinearOrder κ] where
  entries : List (κ × ν)
  sorted : entries.Pairwise fun first second => first.1 < second.1

namespace SortedMap

variable {κ ν : Type} [LinearOrder κ]

def empty : SortedMap κ ν where
  entries := []
  sorted := .nil

theorem ext_entries {first second : SortedMap κ ν} (same : first.entries = second.entries) :
    first = second := by
  cases first
  cases second
  cases same
  rfl

/-- Insert an entry in its place, or replace the value there. -/
def put : List (κ × ν) → κ → ν → List (κ × ν)
  | [], key, value => [(key, value)]
  | entry :: rest, key, value =>
      if key = entry.1 then (key, value) :: rest
      else if key < entry.1 then (key, value) :: entry :: rest
      else entry :: put rest key value

theorem mem_put {entries : List (κ × ν)} {key : κ} {value : ν} {entry : κ × ν}
    (sorted : entries.Pairwise fun first second => first.1 < second.1) :
    entry ∈ put entries key value ↔ entry = (key, value) ∨ entry ∈ entries ∧ entry.1 ≠ key := by
  induction entries with
  | nil => simp [put]
  | cons first rest ih =>
    obtain ⟨above, sorted⟩ := List.pairwise_cons.mp sorted
    have later : entry ∈ rest → first.1 < entry.1 := above entry
    rw [put]
    split
    next same =>
      rw [List.mem_cons, List.mem_cons, same]
      constructor
      · rintro (isNew | member)
        · exact .inl isNew
        · exact .inr ⟨.inr member, (later member).ne'⟩
      · rintro (isNew | ⟨isFirst | member, other⟩)
        · exact .inl isNew
        · exact absurd (congrArg Prod.fst isFirst) other
        · exact .inr member
    next differs =>
      split
      next below =>
        rw [List.mem_cons, List.mem_cons]
        constructor
        · rintro (isNew | isFirst | member)
          · exact .inl isNew
          · exact .inr ⟨.inl isFirst, fun same => differs (isFirst ▸ same).symm⟩
          · exact .inr ⟨.inr member, (below.trans (later member)).ne'⟩
        · rintro (isNew | ⟨old, -⟩)
          · exact .inl isNew
          · exact .inr old
      next =>
        rw [List.mem_cons, List.mem_cons, ih sorted]
        constructor
        · rintro (isFirst | isNew | ⟨member, other⟩)
          · exact .inr ⟨.inl isFirst, fun same => differs (isFirst ▸ same).symm⟩
          · exact .inl isNew
          · exact .inr ⟨.inr member, other⟩
        · rintro (isNew | ⟨isFirst | member, other⟩)
          · exact .inr (.inl isNew)
          · exact .inl isFirst
          · exact .inr (.inr ⟨member, other⟩)

theorem sorted_put {entries : List (κ × ν)} (key : κ) (value : ν)
    (sorted : entries.Pairwise fun first second => first.1 < second.1) :
    (put entries key value).Pairwise fun first second => first.1 < second.1 := by
  induction entries with
  | nil => exact List.pairwise_singleton _ _
  | cons first rest ih =>
    obtain ⟨above, rests⟩ := List.pairwise_cons.mp sorted
    rw [put]
    split
    next same =>
      refine List.pairwise_cons.mpr ⟨fun entry member => ?_, rests⟩
      rw [same]
      exact above entry member
    next differs =>
      split
      next below =>
        refine List.pairwise_cons.mpr ⟨fun entry member => ?_, sorted⟩
        rcases List.mem_cons.mp member with rfl | later
        · exact below
        · exact below.trans (above entry later)
      next notBelow =>
        refine List.pairwise_cons.mpr ⟨fun entry member => ?_, ih rests⟩
        rcases (mem_put rests).mp member with rfl | ⟨later, -⟩
        · exact lt_of_le_of_ne (not_lt.mp notBelow) fun same => differs same.symm
        · exact above entry later

/-- `map[key] = value`. -/
def assign (map : SortedMap κ ν) (key : κ) (value : ν) : SortedMap κ ν :=
  ⟨put map.entries key value, sorted_put key value map.sorted⟩

/-- `map.erase(key)`. -/
def erase (map : SortedMap κ ν) (key : κ) : SortedMap κ ν :=
  ⟨map.entries.filter fun entry => entry.1 ≠ key, map.sorted.filter _⟩

/-- The values changed in place. -/
def mapValues (map : SortedMap κ ν) (change : κ → ν → ν) : SortedMap κ ν :=
  ⟨map.entries.map fun entry => (entry.1, change entry.1 entry.2), List.pairwise_map.mpr map.sorted⟩

/-- The value at one key changed in place. -/
def modify (map : SortedMap κ ν) (key : κ) (change : ν → ν) : SortedMap κ ν :=
  map.mapValues fun other value => if other = key then change value else value

/-- `map.find(key)`. -/
def find? (map : SortedMap κ ν) (key : κ) : Option ν :=
  (map.entries.find? fun entry => entry.1 = key).map Prod.snd

variable {map : SortedMap κ ν} {key : κ} {value : ν} {entry other : κ × ν}

theorem mem_assign : entry ∈ (map.assign key value).entries ↔
    entry = (key, value) ∨ entry ∈ map.entries ∧ entry.1 ≠ key := mem_put map.sorted

theorem mem_erase : entry ∈ (map.erase key).entries ↔ entry ∈ map.entries ∧ entry.1 ≠ key := by
  rw [erase, List.mem_filter, decide_eq_true_eq]

theorem mem_mapValues {change : κ → ν → ν} : entry ∈ (map.mapValues change).entries ↔
    ∃ old, (entry.1, old) ∈ map.entries ∧ entry.2 = change entry.1 old := by
  rw [mapValues, List.mem_map]
  constructor
  · rintro ⟨found, member, rfl⟩
    exact ⟨found.2, member, rfl⟩
  · rintro ⟨old, member, changed⟩
    exact ⟨_, member, Prod.ext rfl changed.symm⟩

/-- A key has one value. -/
theorem entry_unique (first : entry ∈ map.entries) (second : other ∈ map.entries)
    (same : entry.1 = other.1) : entry = other := by
  have distinct : map.entries.Pairwise fun first second => first.1 ≠ second.1 :=
    map.sorted.imp fun below => below.ne
  have symmetric : Std.Symm fun first second : κ × ν => first.1 ≠ second.1 :=
    ⟨fun _ _ ne => ne.symm⟩
  by_contra differ
  exact distinct.forall first second differ same

theorem find?_eq_some : map.find? key = some value ↔ (key, value) ∈ map.entries := by
  rw [find?, Option.map_eq_some_iff]
  constructor
  · rintro ⟨entry, found, rfl⟩
    have same : entry.1 = key := by simpa using List.find?_some found
    rw [← same]
    exact List.mem_of_find?_eq_some found
  · intro member
    cases found : map.entries.find? fun entry => entry.1 = key with
    | none => simpa using List.find?_eq_none.mp found _ member
    | some entry =>
      have same : entry.1 = key := by simpa using List.find?_some found
      exact ⟨entry, rfl, congrArg Prod.snd (entry_unique (List.mem_of_find?_eq_some found) member same)⟩

/-- Maps with the same values at all keys are the same. -/
theorem ext_find? {first second : SortedMap κ ν} (same : ∀ key, first.find? key = second.find? key) :
    first = second := by
  have members : ∀ entry, entry ∈ first.entries ↔ entry ∈ second.entries := by
    rintro ⟨key, value⟩
    rw [← find?_eq_some, ← find?_eq_some, same]
  have nodup : ∀ map : SortedMap κ ν, map.entries.Nodup := fun map =>
    map.sorted.imp fun below same => below.ne (congrArg Prod.fst same)
  have perm : first.entries.Perm second.entries :=
    (List.perm_ext_iff_of_nodup (nodup first) (nodup second)).mpr members
  exact ext_entries (perm.eq_of_pairwise (fun _ _ _ _ less greater => absurd less greater.asymm)
    first.sorted second.sorted)

@[simp]
theorem find?_empty (key : κ) : (empty : SortedMap κ ν).find? key = none := rfl

theorem find?_assign (map : SortedMap κ ν) (key other : κ) (value : ν) :
    (map.assign key value).find? other = if other = key then some value else map.find? other := by
  split
  next same => exact find?_eq_some.mpr (mem_assign.mpr (.inl (Prod.ext same rfl)))
  next differs =>
    apply Option.ext
    intro found
    rw [find?_eq_some, find?_eq_some, mem_assign]
    constructor
    · rintro (isNew | ⟨old, -⟩)
      · exact absurd (congrArg Prod.fst isNew) differs
      · exact old
    · exact fun old => .inr ⟨old, differs⟩

theorem find?_erase (map : SortedMap κ ν) (key other : κ) :
    (map.erase key).find? other = if other = key then none else map.find? other := by
  apply Option.ext
  intro found
  rw [find?_eq_some, mem_erase]
  split
  next same => exact ⟨fun old => absurd same old.2, fun impossible => by cases impossible⟩
  next differs => rw [find?_eq_some, and_iff_left differs]

theorem mem_modify {change : ν → ν} : entry ∈ (map.modify key change).entries ↔
    (entry ∈ map.entries ∧ entry.1 ≠ key) ∨
      ∃ old, (key, old) ∈ map.entries ∧ entry = (key, change old) := by
  rw [modify, mem_mapValues]
  constructor
  · rintro ⟨old, member, changed⟩
    by_cases here : entry.1 = key
    · rw [if_pos here] at changed
      exact .inr ⟨old, here ▸ member, Prod.ext here changed⟩
    · rw [if_neg here] at changed
      refine .inl ⟨?_, here⟩
      rw [← changed] at member
      exact member
  · rintro (⟨member, other⟩ | ⟨old, member, rfl⟩)
    · exact ⟨entry.2, member, (if_neg other).symm⟩
    · exact ⟨old, member, (if_pos rfl).symm⟩

/-- A key above the others goes to the end. -/
theorem put_of_above {entries : List (κ × ν)} (above : ∀ old ∈ entries, old.1 < key) :
    put entries key value = entries ++ [(key, value)] := by
  induction entries with
  | nil => rfl
  | cons first rest ih =>
    have below : first.1 < key := above first List.mem_cons_self
    rw [put, if_neg below.ne', if_neg below.not_gt, List.cons_append,
      ih fun old member => above old (List.mem_cons_of_mem _ member)]

theorem entries_assign_of_above (above : ∀ old ∈ map.entries, old.1 < key) :
    (map.assign key value).entries = map.entries ++ [(key, value)] := put_of_above above

/-- Entries that are put in their order stay as they are. -/
theorem foldl_put {entries : List (κ × ν)} (behind : List (κ × ν))
    (sorted : (behind ++ entries).Pairwise fun first second => first.1 < second.1) :
    entries.foldl (fun map entry => put map entry.1 entry.2) behind = behind ++ entries := by
  induction entries generalizing behind with
  | nil => exact (List.append_nil behind).symm
  | cons entry rest ih =>
    have above := (List.pairwise_append.mp sorted).2.2
    rw [List.append_cons] at sorted
    rw [List.foldl_cons, put_of_above fun old member => above old member entry (.head _), ih _ sorted,
      List.append_assoc]
    rfl

theorem lookup_put [BEq κ] [LawfulBEq κ] (entries : List (κ × ν)) (key other : κ) (value : ν) :
    (put entries key value).lookup other = if other = key then some value else entries.lookup other := by
  have cons : ∀ (entry : κ × ν) (rest : List (κ × ν)), (entry :: rest).lookup other =
      if other = entry.1 then some entry.2 else rest.lookup other := by
    intro entry rest
    rw [List.lookup_cons]
    by_cases own : other = entry.1
    · rw [if_pos own, beq_iff_eq.mpr own]
    · rw [if_neg own, beq_eq_false_iff_ne.mpr own]
  induction entries with
  | nil => exact cons (key, value) []
  | cons first rest ih =>
    rw [put]
    split
    next same =>
      rw [cons, cons, ← same]
      by_cases own : other = key
      · rw [if_pos own, if_pos own]
      · rw [if_neg own, if_neg own, if_neg own]
    next differs =>
      split
      · rw [cons]
      · rw [cons, ih, cons]
        by_cases own : other = key
        · rw [if_neg fun same => differs (own.symm.trans same), if_pos own, if_pos own]
        · rw [if_neg own, if_neg own]

/-- After assignments in turn a key has the last value assigned to it. -/
theorem mem_foldl_assign {keyOf : ℕ → κ} {valueOf : ℕ → ν} {count : ℕ} :
    entry ∈ ((List.range count).foldl
        (fun map index => map.assign (keyOf index) (valueOf index)) (empty : SortedMap κ ν)).entries ↔
      ∃ index < count, entry = (keyOf index, valueOf index) ∧
        ∀ later < count, index < later → keyOf later ≠ keyOf index := by
  induction count with
  | zero =>
    refine ⟨fun member => absurd member List.not_mem_nil, ?_⟩
    rintro ⟨index, impossible, -⟩
    omega
  | succ count ih =>
    rw [List.range_succ, List.foldl_append, List.foldl_cons, List.foldl_nil, mem_assign, ih]
    constructor
    · rintro (isLast | ⟨⟨index, bound, isEntry, last⟩, other⟩)
      · exact ⟨count, Nat.lt_succ_self count, isLast, fun later bound above => by omega⟩
      · refine ⟨index, by omega, isEntry, fun later before above => ?_⟩
        rcases Nat.lt_succ_iff_lt_or_eq.mp before with earlier | isLast
        · exact last later earlier above
        · rw [isEntry] at other
          rw [isLast]
          exact other.symm
    · rintro ⟨index, before, isEntry, last⟩
      rcases Nat.lt_succ_iff_lt_or_eq.mp before with earlier | isLast
      · refine .inr ⟨⟨index, earlier, isEntry, fun later bound => last later (by omega)⟩, ?_⟩
        rw [isEntry]
        exact (last count (Nat.lt_succ_self count) earlier).symm
      · rw [isEntry, isLast]
        exact .inl rfl

/-! ### Entries in any order -/

theorem nodup_entries (map : SortedMap κ ν) : map.entries.Nodup :=
  map.sorted.imp fun below same => below.ne (congrArg Prod.fst same)

/-- An assignment leaves the other entries. -/
theorem perm_assign (map : SortedMap κ ν) :
    (map.assign key value).entries.Perm ((key, value) :: (map.erase key).entries) := by
  refine (List.perm_ext_iff_of_nodup (nodup_entries _) ?_).mpr fun entry => ?_
  · rw [List.nodup_cons, mem_erase]
    exact ⟨fun erased => erased.2 rfl, nodup_entries _⟩
  · rw [mem_assign, List.mem_cons, mem_erase]

/-- An entry and the others. -/
theorem perm_of_find (map : SortedMap κ ν) (found : map.find? key = some value) :
    map.entries.Perm ((key, value) :: (map.erase key).entries) := by
  have member := find?_eq_some.mp found
  refine (List.perm_ext_iff_of_nodup (nodup_entries _) ?_).mpr fun entry => ?_
  · rw [List.nodup_cons, mem_erase]
    exact ⟨fun erased => erased.2 rfl, nodup_entries _⟩
  · rw [List.mem_cons, mem_erase]
    constructor
    · intro old
      by_cases own : entry.1 = key
      · exact .inl (entry_unique old member own)
      · exact .inr ⟨old, own⟩
    · intro either
      rcases either with rfl | ⟨old, -⟩
      · exact member
      · exact old

theorem entries_erase_of_absent (map : SortedMap κ ν) (absent : map.find? key = none) :
    (map.erase key).entries = map.entries := by
  rw [erase, List.filter_eq_self]
  intro entry member
  rw [decide_eq_true_eq]
  intro own
  have found := find?_eq_some.mpr (show (key, entry.2) ∈ map.entries from own ▸ member)
  rw [absent] at found
  cases found

end SortedMap

end PacificDb.Lib
