import Mathlib.Data.List.Perm.Basic
import Mathlib.Data.List.Sort

/-!
# Priority queues

A priority queue by what it holds and by what it pops. Which of several elements with
the same priority comes first is up to the queue.
-/

namespace PacificDb.Lib

structure PriorityQueue (α : Type) (before : α → α → Prop) where
  Queue : Type
  elements : Queue → List α
  empty : Queue
  push : α → Queue → Queue
  pop : Queue → Option (α × Queue)
  elements_empty : elements empty = []
  elements_push : ∀ a q, (elements (push a q)).Perm (a :: elements q)
  pop_none : ∀ q, pop q = none → elements q = []
  pop_some : ∀ q a rest, pop q = some (a, rest) → (elements q).Perm (a :: elements rest)
  pop_first : ∀ q a rest, pop q = some (a, rest) → ∀ b ∈ elements rest, before a b

namespace PriorityQueue

variable {α : Type} {before : α → α → Prop} (queue : PriorityQueue α before)

def size (q : queue.Queue) : Nat := (queue.elements q).length

/-- The elements in the order in which they are popped. -/
def drain : Nat → queue.Queue → List α
  | 0, _ => []
  | fuel + 1, q =>
      match queue.pop q with
      | none => []
      | some (a, rest) => a :: drain fuel rest

variable {queue} {q rest : queue.Queue} {a : α}

theorem size_push (q : queue.Queue) (a : α) : queue.size (queue.push a q) = queue.size q + 1 :=
  (queue.elements_push a q).length_eq

theorem size_pop (popped : queue.pop q = some (a, rest)) : queue.size q = queue.size rest + 1 :=
  (queue.pop_some q a rest popped).length_eq

theorem mem_push {b : α} :
    b ∈ queue.elements (queue.push a q) ↔ b = a ∨ b ∈ queue.elements q := by
  rw [(queue.elements_push a q).mem_iff, List.mem_cons]

theorem mem_pop {b : α} (popped : queue.pop q = some (a, rest)) :
    b ∈ queue.elements q ↔ b = a ∨ b ∈ queue.elements rest := by
  rw [(queue.pop_some q a rest popped).mem_iff, List.mem_cons]

theorem drain_perm : ∀ (fuel : Nat) (q : queue.Queue), queue.size q ≤ fuel →
    (queue.drain fuel q).Perm (queue.elements q)
  | 0, q, short => by
      rw [List.length_eq_zero_iff.mp (Nat.le_zero.mp short)]
      exact .refl _
  | fuel + 1, q, short => by
      rw [drain]
      split
      next none =>
        rw [queue.pop_none q none]
      next a rest popped =>
        have smaller := size_pop popped
        have later := drain_perm fuel rest (by omega)
        exact (later.cons a).trans (queue.pop_some q a rest popped).symm

theorem drain_sorted : ∀ (fuel : Nat) (q : queue.Queue), queue.size q ≤ fuel →
    (queue.drain fuel q).Pairwise before
  | 0, _, _ => .nil
  | fuel + 1, q, short => by
      rw [drain]
      split
      next => exact .nil
      next a rest popped =>
        have smaller := size_pop popped
        have inside : queue.size rest ≤ fuel := by omega
        refine List.pairwise_cons.mpr ⟨fun b member => ?_, drain_sorted fuel rest inside⟩
        exact queue.pop_first q a rest popped b ((drain_perm fuel rest inside).mem_iff.mp member)

/-- The queue that keeps its elements in order. -/
def ordered (before : α → α → Prop) [DecidableRel before] [Std.Total before] [IsTrans α before] :
    PriorityQueue α before where
  Queue := { elements : List α // elements.Pairwise before }
  elements := Subtype.val
  empty := ⟨[], .nil⟩
  push a q := ⟨q.1.orderedInsert before a, q.2.orderedInsert a q.1⟩
  pop
    | ⟨[], _⟩ => none
    | ⟨a :: rest, sorted⟩ => some (a, ⟨rest, (List.pairwise_cons.mp sorted).2⟩)
  elements_empty := rfl
  elements_push a q := List.perm_orderedInsert before a q.1
  pop_none := by
    rintro ⟨_ | ⟨a, rest⟩, sorted⟩ none
    · rfl
    · cases none
  pop_some := by
    rintro ⟨_ | ⟨b, others⟩, sorted⟩ a rest popped
    · cases popped
    · cases popped
      exact .refl _
  pop_first := by
    rintro ⟨_ | ⟨b, others⟩, sorted⟩ a rest popped
    · cases popped
    · cases popped
      exact (List.pairwise_cons.mp sorted).1

end PriorityQueue

end PacificDb.Lib
