import Mathlib.Data.List.Pairwise
import Mathlib.Order.Nat

/-!
# Sets of numbers as sorted lists of intervals

A list of closed intervals in which no two touch is a normal form: two such lists
that contain the same numbers are the same list.
-/

namespace PacificDb.Lib

/-- `n` is in one of the intervals. -/
def InSome (intervals : List (Nat × Nat)) (n : Nat) : Prop :=
  ∃ interval ∈ intervals, interval.1 ≤ n ∧ n ≤ interval.2

/-- The intervals have a number each, the first starts at `low` or above, and the
next one leaves at least one number between the two. -/
def Spaced (low : Nat) : List (Nat × Nat) → Prop
  | [] => True
  | interval :: rest =>
      low ≤ interval.1 ∧ interval.1 ≤ interval.2 ∧ Spaced (interval.2 + 2) rest

variable {low n : Nat} {interval : Nat × Nat} {intervals others : List (Nat × Nat)}

@[simp]
theorem not_inSome_nil : ¬InSome [] n := by simp [InSome]

@[simp]
theorem inSome_cons :
    InSome (interval :: intervals) n ↔
      (interval.1 ≤ n ∧ n ≤ interval.2) ∨ InSome intervals n := by
  simp [InSome]

namespace Spaced

theorem weaken {lower : Nat} (spaced : Spaced low intervals) (le : lower ≤ low) :
    Spaced lower intervals := by
  cases intervals with
  | nil => trivial
  | cons => exact ⟨le.trans spaced.1, spaced.2⟩

theorem le_of_mem (spaced : Spaced low intervals) (member : interval ∈ intervals) :
    low ≤ interval.1 ∧ interval.1 ≤ interval.2 := by
  induction intervals generalizing low with
  | nil => cases member
  | cons first rest ih =>
    obtain ⟨above, order, apart⟩ := spaced
    rcases List.mem_cons.mp member with rfl | member
    · exact ⟨above, order⟩
    · exact ih (apart.weaken (by omega)) member

theorem le_of_inSome (spaced : Spaced low intervals) (inside : InSome intervals n) : low ≤ n := by
  obtain ⟨interval, member, above, -⟩ := inside
  exact (spaced.le_of_mem member).1.trans above

theorem pairwise (spaced : Spaced low intervals) :
    intervals.Pairwise fun first second => first.2 + 1 < second.1 := by
  induction intervals generalizing low with
  | nil => exact .nil
  | cons first rest ih =>
    obtain ⟨-, -, apart⟩ := spaced
    refine .cons (fun second member => ?_) (ih apart)
    have above := (apart.le_of_mem member).1
    omega

/-- The first interval ends before the first number that is in none. -/
private theorem head_le {first second : Nat × Nat}
    (spaced : Spaced low (first :: intervals)) (apart : Spaced low (second :: others))
    (same : ∀ n, InSome (first :: intervals) n → InSome (second :: others) n) :
    second.1 ≤ first.1 ∧ (second.1 = first.1 → first.2 ≤ second.2) := by
  obtain ⟨-, firstOrder, -⟩ := spaced
  obtain ⟨-, secondOrder, later⟩ := apart
  constructor
  · rcases inSome_cons.mp (same first.1 (inSome_cons.mpr (.inl ⟨le_rfl, firstOrder⟩))) with
      inside | inside
    · exact inside.1
    · have above := later.le_of_inSome inside
      omega
  · intro equal
    by_contra shorter
    rcases inSome_cons.mp (same (second.2 + 1) (inSome_cons.mpr (.inl ⟨by omega, by omega⟩))) with
      inside | inside
    · omega
    · have above := later.le_of_inSome inside
      omega

/-- The same numbers, the same intervals. -/
theorem eq_of_inSome (spaced : Spaced low intervals) (apart : Spaced low others)
    (same : ∀ n, InSome intervals n ↔ InSome others n) : intervals = others := by
  induction intervals generalizing low others with
  | nil =>
    cases others with
    | nil => rfl
    | cons second rest =>
      exact absurd ((same second.1).mpr (inSome_cons.mpr (.inl ⟨le_rfl, apart.2.1⟩)))
        not_inSome_nil
  | cons first rest ih =>
    cases others with
    | nil =>
      exact absurd ((same first.1).mp (inSome_cons.mpr (.inl ⟨le_rfl, spaced.2.1⟩)))
        not_inSome_nil
    | cons second rest' =>
      have forward := head_le spaced apart fun n => (same n).mp
      have backward := head_le apart spaced fun n => (same n).mpr
      have start : first.1 = second.1 := by omega
      have stop : first.2 = second.2 :=
        le_antisymm (forward.2 start.symm) (backward.2 start)
      obtain rfl : first = second := Prod.ext start stop
      obtain ⟨-, order, later⟩ := spaced
      obtain ⟨-, -, later'⟩ := apart
      congr 1
      apply ih later later'
      intro n
      have whole := same n
      rw [inSome_cons, inSome_cons] at whole
      constructor
      · intro inside
        have above := later.le_of_inSome inside
        exact (whole.mp (.inr inside)).resolve_left (by omega)
      · intro inside
        have above := later'.le_of_inSome inside
        exact (whole.mpr (.inr inside)).resolve_left (by omega)

end Spaced

end PacificDb.Lib
