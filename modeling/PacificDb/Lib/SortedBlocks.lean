import Mathlib.Data.List.Pairwise
import Mathlib.Data.List.TakeWhile
import Mathlib.Order.Basic
import Mathlib.Order.Lattice

/-!
# Seeking in sorted blocks

Rows in the order of their keys are cut into blocks, and every block has a range that
holds its keys. The rows of one key are then in the blocks whose range holds the key,
which stand next to each other.
-/

namespace PacificDb.Lib

variable {α β κ : Type} [LinearOrder κ]

/-- Blocks with a range for the keys of each, in the order of the lower ends. -/
structure Ranged (key : α → κ) (rowsOf : β → List α) (low high : β → κ) (blocks : List β) : Prop where
  inside : ∀ block ∈ blocks, ∀ row ∈ rowsOf block, low block ≤ key row ∧ key row ≤ high block
  ordered : blocks.Pairwise fun block next => low block ≤ low next

/-- From the first block that does not end before the key, the blocks that do not start
behind it. -/
def seekBlocks (low high : β → κ) (wanted : κ) (blocks : List β) : List β :=
  (blocks.dropWhile fun block => high block < wanted).takeWhile fun block => low block ≤ wanted

variable {key : α → κ} {rowsOf : β → List α} {low high : β → κ} {blocks : List β} {wanted : κ}

theorem mem_of_mem_seekBlocks {block : β} (member : block ∈ seekBlocks low high wanted blocks) :
    block ∈ blocks :=
  (List.dropWhile_sublist _).subset ((List.takeWhile_sublist _).subset member)

theorem seekBlocks_map {γ : Type} (place : γ → β) (blocks : List γ) :
    seekBlocks low high wanted (blocks.map place) =
      (seekBlocks (fun block => low (place block)) (fun block => high (place block)) wanted
        blocks).map place := by
  rw [seekBlocks, List.dropWhile_map, List.takeWhile_map]
  rfl

variable {passes : α → Bool}

omit [LinearOrder κ] in
/-- Blocks whose rows all have other keys. -/
theorem filter_flatMap_eq_nil (only : ∀ row, passes row = true → key row = wanted)
    (other : ∀ block ∈ blocks, ∀ row ∈ rowsOf block, key row ≠ wanted) :
    (blocks.flatMap rowsOf).filter passes = [] := by
  rw [List.filter_eq_nil_iff]
  intro row member
  obtain ⟨block, isBlock, isRow⟩ := List.mem_flatMap.mp member
  exact mt (only row) (other block isBlock row isRow)

/-- The blocks that a seek leaves out have no row of the key. -/
theorem filter_seekBlocks (ranged : Ranged key rowsOf low high blocks)
    (only : ∀ row, passes row = true → key row = wanted) :
    ((seekBlocks low high wanted blocks).flatMap rowsOf).filter passes =
      (blocks.flatMap rowsOf).filter passes := by
  -- the blocks in front of the key, those that are read, and those behind it
  have front := @List.takeWhile_append_dropWhile _ (fun block => high block < wanted) blocks
  have read := @List.takeWhile_append_dropWhile _ (fun block => low block ≤ wanted)
    (blocks.dropWhile fun block => high block < wanted)
  have inFront : ∀ block ∈ blocks.takeWhile fun block => high block < wanted, high block < wanted := by
    intro block member
    exact of_decide_eq_true
      (@List.mem_takeWhile_imp _ (fun block => decide (high block < wanted)) _ _ member)
  have behind : ∀ block ∈ ((blocks.dropWhile fun block => high block < wanted).dropWhile
      fun block => low block ≤ wanted).head?, wanted < low block := by
    intro block isHead
    have kept := List.head?_dropWhile_not (fun block => decide (low block ≤ wanted))
      (blocks.dropWhile fun block => high block < wanted)
    rw [Option.mem_def.mp isHead] at kept
    exact not_le.mp (of_decide_eq_false kept)
  unfold seekBlocks
  generalize blocks.takeWhile (fun block => high block < wanted) = skipped at front inFront
  generalize blocks.dropWhile (fun block => high block < wanted) = rest at front read behind ⊢
  generalize rest.takeWhile (fun block => low block ≤ wanted) = middle at read ⊢
  generalize rest.dropWhile (fun block => low block ≤ wanted) = tail at read behind
  subst read
  subst front
  have noFront : (skipped.flatMap rowsOf).filter passes = [] := by
    refine filter_flatMap_eq_nil only fun block isBlock row isRow => ?_
    have within := ranged.inside block (List.mem_append_left _ isBlock) row isRow
    exact (within.2.trans_lt (inFront block isBlock)).ne
  have noTail : (tail.flatMap rowsOf).filter passes = [] := by
    refine filter_flatMap_eq_nil only fun block isBlock row isRow => ?_
    have within := ranged.inside block
      (List.mem_append_right _ (List.mem_append_right _ isBlock)) row isRow
    have ordered := (List.pairwise_append.mp (List.pairwise_append.mp ranged.ordered).2.1).2.1
    have start : wanted < low block := by
      cases tail with
      | nil => cases isBlock
      | cons first others =>
        have lowest : wanted < low first := behind first rfl
        rcases List.mem_cons.mp isBlock with rfl | later
        · exact lowest
        · exact lowest.trans_le ((List.pairwise_cons.mp ordered).1 block later)
    exact (start.trans_le within.1).ne'
  rw [List.flatMap_append, List.flatMap_append, List.filter_append, List.filter_append, noFront, noTail,
    List.nil_append, List.append_nil]

end PacificDb.Lib
