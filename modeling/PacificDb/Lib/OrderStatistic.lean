import Mathlib.Data.List.Pairwise
import Mathlib.Order.Bounds.Basic
import Mathlib.Order.Nat

/-!
# Elements by rank

A list sorted from the greatest element down: the element of rank `k` is the greatest
value that more than `k` elements reach. So the greatest value that a number of elements
reach can be read off the sorted list.
-/

namespace PacificDb.Lib

variable {α : Type} [LinearOrder α]

/-- How many elements reach a value. -/
def reaching (items : List α) (value : α) : Nat := items.countP fun item => decide (value ≤ item)

theorem reaching_perm {items others : List α} (perm : items.Perm others) (value : α) :
    reaching items value = reaching others value :=
  perm.countP_eq _

theorem reaching_anti (items : List α) {low high : α} (below : low ≤ high) :
    reaching items high ≤ reaching items low := by
  apply List.countP_mono_left
  intro item _ reached
  rw [decide_eq_true_eq] at reached ⊢
  exact below.trans reached

/-- In a descending list more than `rank` elements reach a value if the one of that rank does. -/
theorem lt_reaching_iff {ranked : List α} (sorted : ranked.Pairwise fun first second => second ≤ first)
    {rank : Nat} (inside : rank < ranked.length) (value : α) :
    rank < reaching ranked value ↔ value ≤ ranked[rank] := by
  induction ranked generalizing rank with
  | nil => cases inside
  | cons first rest ih =>
    obtain ⟨above, sorted⟩ := List.pairwise_cons.mp sorted
    have none : ¬value ≤ first → reaching rest value = 0 := by
      intro below
      apply List.countP_eq_zero.mpr
      intro item member
      rw [decide_eq_true_eq]
      exact fun reached => below (reached.trans (above item member))
    cases rank with
    | zero =>
      rw [reaching, List.countP_cons, List.getElem_cons_zero]
      by_cases reached : value ≤ first
      · simp [reached]
      · have rest := none reached
        rw [reaching] at rest
        simp [reached, rest]
    | succ rank =>
      have short : rank < rest.length := Nat.lt_of_succ_lt_succ inside
      rw [List.getElem_cons_succ, ← ih sorted short, reaching, List.countP_cons, ← reaching]
      by_cases reached : value ≤ first
      · rw [if_pos (decide_eq_true reached)]
        omega
      · have rest := none reached
        rw [if_neg (by simpa using reached)]
        omega

/-- The values that more than `rank` elements reach have the element of that rank as their
greatest one. -/
theorem isGreatest_rank {ranked : List α} (sorted : ranked.Pairwise fun first second => second ≤ first)
    {rank : Nat} (inside : rank < ranked.length) :
    IsGreatest {value | rank < reaching ranked value} ranked[rank] := by
  constructor
  · exact (lt_reaching_iff sorted inside _).mpr le_rfl
  · intro value reached
    exact (lt_reaching_iff sorted inside value).mp reached

end PacificDb.Lib
