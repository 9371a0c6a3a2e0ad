import Mathlib.Data.Finset.Max
import Mathlib.Order.BoundedOrder.Basic
import Mathlib.Data.Set.Basic

/-!
# Ranges of keys that partition an order

A half-open range over an order with a least key. The least key as the upper end
stands for no upper end, as no range could end there. A family of ranges partitions
the order if every key is in exactly one of them; some of its parts can be exchanged
for others that contain the same keys.
-/

namespace PacificDb.Lib

variable {α : Type} [LinearOrder α] [OrderBot α]

structure KeyRange (α : Type) where
  lower : α
  upper : α
  deriving DecidableEq

namespace KeyRange

def Contains (range : KeyRange α) (key : α) : Prop :=
  range.lower ≤ key ∧ (range.upper = ⊥ ∨ key < range.upper)

instance [DecidableEq α] (range : KeyRange α) (key : α) : Decidable (range.Contains key) :=
  inferInstanceAs (Decidable (_ ∧ (_ ∨ _)))

/-- The range has a key. -/
def Ordered (range : KeyRange α) : Prop := range.upper = ⊥ ∨ range.lower < range.upper

instance [DecidableEq α] (range : KeyRange α) : Decidable range.Ordered :=
  inferInstanceAs (Decidable (_ ∨ _))

variable {range : KeyRange α} {key : α}

theorem contains_lower : range.Contains range.lower ↔ range.Ordered :=
  and_iff_right le_rfl

theorem Contains.ordered (contains : range.Contains key) : range.Ordered :=
  contains.2.imp_right fun below => contains.1.trans_lt below

/-- Cut at a key of its own other than the first, a range has two parts. -/
theorem contains_cut {cut : α} (inside : range.Contains cut) (above : cut ≠ ⊥) :
    range.Contains key ↔
      (⟨range.lower, cut⟩ : KeyRange α).Contains key ∨ (⟨cut, range.upper⟩ : KeyRange α).Contains key := by
  constructor
  · rintro ⟨low, high⟩
    rcases lt_or_ge key cut with below | reached
    · exact .inl ⟨low, .inr below⟩
    · exact .inr ⟨reached, high⟩
  · rintro (⟨low, high⟩ | ⟨low, high⟩)
    · refine ⟨low, inside.2.imp_right fun below => ?_⟩
      exact (high.resolve_left above).trans below
    · exact ⟨inside.1.trans low, high⟩

/-- The two parts share no key. -/
theorem not_contains_both {lower cut upper : α} (above : cut ≠ ⊥)
    (low : (⟨lower, cut⟩ : KeyRange α).Contains key) :
    ¬(⟨cut, upper⟩ : KeyRange α).Contains key :=
  fun high => absurd high.1 (not_le.mpr (low.2.resolve_left above))

end KeyRange

/-- Every key is in exactly one range of the family. -/
def Partition {ι : Type} (parts : Set ι) (range : ι → KeyRange α) : Prop :=
  ∀ key, ∃! part, part ∈ parts ∧ (range part).Contains key

namespace Partition

variable {ι : Type} {parts after gone fresh : Set ι} {range : ι → KeyRange α}

theorem unique (partition : Partition parts range) {first second : ι} {key : α}
    (inFirst : first ∈ parts) (inSecond : second ∈ parts) (here : (range first).Contains key)
    (there : (range second).Contains key) : first = second :=
  (partition key).unique ⟨inFirst, here⟩ ⟨inSecond, there⟩

/-- Some parts make place for others that contain the same keys, each key once. -/
theorem exchange (partition : Partition parts range) (inside : gone ⊆ parts)
    (left : ∀ part, part ∈ after ↔ (part ∈ parts ∧ part ∉ gone) ∨ part ∈ fresh)
    (covers : ∀ key part, part ∈ gone → (range part).Contains key →
      ∃ other ∈ fresh, (range other).Contains key)
    (within : ∀ key part, part ∈ fresh → (range part).Contains key →
      ∃ other ∈ gone, (range other).Contains key)
    (apart : ∀ key first second, first ∈ fresh → second ∈ fresh → (range first).Contains key →
      (range second).Contains key → first = second) :
    Partition after range := by
  intro key
  obtain ⟨part, ⟨member, contains⟩, only⟩ := partition key
  by_cases isGone : part ∈ gone
  · obtain ⟨other, isFresh, holds⟩ := covers key part isGone contains
    refine ⟨other, ⟨(left other).mpr (.inr isFresh), holds⟩, ?_⟩
    rintro third ⟨inAfter, also⟩
    rcases (left third).mp inAfter with ⟨old, stays⟩ | new
    · rw [only third ⟨old, also⟩] at stays
      exact absurd isGone stays
    · exact apart key third other new isFresh also holds
  · refine ⟨part, ⟨(left part).mpr (.inl ⟨member, isGone⟩), contains⟩, ?_⟩
    rintro third ⟨inAfter, also⟩
    rcases (left third).mp inAfter with ⟨old, -⟩ | new
    · exact only third ⟨old, also⟩
    · obtain ⟨older, wasGone, holds⟩ := within key third new also
      rw [← only older ⟨inside wasGone, holds⟩] at isGone
      exact absurd wasGone isGone

/-- Bounds that never decrease cut the order, at each bound by the last range with it. -/
theorem of_bounds {count : ℕ} {bound : ℕ → α} {part : ℕ → ι} (some : 0 < count)
    (least : bound 0 = ⊥) (increases : ∀ low high, low ≤ high → high < count → bound low ≤ bound high)
    (above : ∀ index, index + 1 < count → bound (index + 1) ≠ ⊥)
    (ranges : ∀ index < count, range (part index) =
      ⟨bound index, if index + 1 = count then ⊥ else bound (index + 1)⟩)
    (members : ∀ one, one ∈ parts ↔ ∃ index < count, one = part index ∧
      ∀ later < count, index < later → bound later ≠ bound index) :
    Partition parts range := by
  intro key
  -- The key belongs to the last range that starts at or before it.
  let starts := (Finset.range count).filter fun index => bound index ≤ key
  have inStarts : ∀ index, index ∈ starts ↔ index < count ∧ bound index ≤ key := by
    intro index
    rw [Finset.mem_filter, Finset.mem_range]
  have nonempty : starts.Nonempty := ⟨0, (inStarts 0).mpr ⟨some, least.trans_le bot_le⟩⟩
  obtain ⟨before, begun⟩ := (inStarts _).mp (starts.max'_mem nonempty)
  have last : ∀ later < count, starts.max' nonempty < later → key < bound later := by
    intro later inside passed
    by_contra notBelow
    have member := (inStarts later).mpr ⟨inside, not_lt.mp notBelow⟩
    exact absurd (starts.le_max' later member) (not_le.mpr passed)
  generalize starts.max' nonempty = index at before begun last
  refine ⟨part index, ⟨(members _).mpr ⟨index, before, rfl, fun later inside passed => ?_⟩, ?_⟩, ?_⟩
  · exact (begun.trans_lt (last later inside passed)).ne'
  · rw [ranges index before]
    refine ⟨begun, ?_⟩
    dsimp only
    split
    next => exact .inl rfl
    next more => exact .inr (last (index + 1) (by omega) (by omega))
  · rintro other ⟨member, contains⟩
    obtain ⟨place, inside, rfl, -⟩ := (members other).mp member
    rw [ranges place inside] at contains
    obtain ⟨low, high⟩ := contains
    rcases Nat.lt_trichotomy place index with earlier | rfl | later
    · dsimp only at high
      rw [if_neg (by omega)] at high
      have below : key < bound (place + 1) := high.resolve_left (above place (by omega))
      exact absurd begun (not_le.mpr (below.trans_le (increases _ _ earlier before)))
    · rfl
    · exact absurd low (not_le.mpr (last place inside later))

/-- A new range of keys that parts of a partition contain already has no keys. -/
theorem ordered_overlaps (partition : Partition parts range) {other : KeyRange α}
    (ordered : other.Ordered) : ∃ part ∈ parts, (range part).Contains other.lower ∧
      ((range part).upper = ⊥ ∨ other.lower < (range part).upper) ∧
      (other.upper = ⊥ ∨ (range part).lower < other.upper) := by
  obtain ⟨part, ⟨member, contains⟩, -⟩ := partition other.lower
  exact ⟨part, member, contains, contains.2,
    ordered.imp_right fun below => contains.1.trans_lt below⟩

end Partition

end PacificDb.Lib
