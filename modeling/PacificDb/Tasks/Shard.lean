import PacificDb.Lib.SortedMap
import Mathlib.Algebra.BigOperators.Group.Multiset.Basic
import Mathlib.Algebra.GroupWithZero.Nat
import Mathlib.Data.List.Perm.Basic
import Mathlib.Data.Multiset.AddSub
import Mathlib.Data.String.Basic

/-!
# One shard of the task queue

A shard keeps its tasks by priority and collection, each queue in the order of cost. Beside
the queues of a priority there is a list of its collections, which the workers go through in
turn, and a budget. An insertion, a batch of a worker and a theft by the worker of another
shard each happen under the lock of the shard.

Two things are said of each of them here: which tasks it adds and takes (`tasks`), and what
it does to the surplus of the lists of collections over the queues (`surplus`).
-/

namespace PacificDb.Tasks

open Lib

variable {τ : Type}

/-! ## The code -/

structure TaskEnvelope (τ : Type) where
  task : τ
  collection : String
  costHint : Nat
  sequence : Nat
  deriving DecidableEq

abbrev CollectionQueue (τ : Type) := List (TaskEnvelope τ)

instance threePriorities : NeZero 3 := ⟨by decide⟩

structure Shard (τ : Type) where
  queuesByPriority : Fin 3 → SortedMap String (CollectionQueue τ)
  collectionOrder : Fin 3 → List String
  rrIndex : Fin 3 → Nat
  priorityCursor : Nat
  priorityBudgetRemaining : Fin 3 → Nat
  totalQueued : Nat
  sequence : Nat

/-- `{{8, 4, 2}}`. -/
def fullBudget (priority : Fin 3) : Nat :=
  match priority with
  | 0 => 8
  | 1 => 4
  | 2 => 2

def Shard.new : Shard τ where
  queuesByPriority := fun _ => .empty
  collectionOrder := fun _ => []
  rrIndex := fun _ => 0
  priorityCursor := 0
  priorityBudgetRemaining := fullBudget
  totalQueued := 0
  sequence := 0

/-- `priorityIndex`, on the number of a priority. -/
def priorityIndex (p : Nat) : Fin 3 :=
  match p with
  | 0 => 0
  | 1 => 1
  | _ => 2

/-- The order of a queue: by cost, and then as the tasks came. -/
def before (lhs rhs : TaskEnvelope τ) : Bool :=
  if lhs.costHint ≠ rhs.costHint then lhs.costHint < rhs.costHint else lhs.sequence < rhs.sequence

/-- An insertion at `std::upper_bound`. -/
def insertOrdered (q : CollectionQueue τ) (envelope : TaskEnvelope τ) : CollectionQueue τ :=
  (q.takeWhile fun queued => !before envelope queued) ++
    envelope :: q.dropWhile fun queued => !before envelope queued

/-- The envelope that an insertion makes. -/
def Shard.envelope (shard : Shard τ) (task : τ) (collection : String) (costHint : Nat) : TaskEnvelope τ where
  task := task
  collection := if collection.isEmpty then "__default__" else collection
  costHint := max 1 costHint
  sequence := shard.sequence + 1

/-- The part of `enqueue` under the lock; none is a shard that is full. -/
def Shard.enqueue (maxQueuePerShard : Nat) (shard : Shard τ) (task : τ) (priority : Nat)
    (collection : String) (costHint : Nat) : Option (Shard τ) :=
  if maxQueuePerShard ≤ shard.totalQueued then none
  else
    let envelope := shard.envelope task collection costHint
    let pIdx := priorityIndex priority
    let buckets := shard.queuesByPriority pIdx
    let order := shard.collectionOrder pIdx
    some { shard with
      sequence := shard.sequence + 1
      queuesByPriority := Function.update shard.queuesByPriority pIdx
        (buckets.assign envelope.collection
          (insertOrdered ((buckets.find? envelope.collection).getD []) envelope))
      collectionOrder := Function.update shard.collectionOrder pIdx
        (if (buckets.find? envelope.collection).isSome then order else order ++ [envelope.collection])
      totalQueued := shard.totalQueued + 1 }

/-- The first task of a queue, and what stays of it. -/
def frontOf (buckets : SortedMap String (CollectionQueue τ)) (coll : String) :
    Option (TaskEnvelope τ × CollectionQueue τ) :=
  match buckets.find? coll with
  | some (first :: rest) => some (first, rest)
  | _ => none

/-- The queues without the first task of one of them: an empty queue goes. -/
def withoutFront (buckets : SortedMap String (CollectionQueue τ)) (coll : String)
    (rest : CollectionQueue τ) : SortedMap String (CollectionQueue τ) :=
  if rest.isEmpty then buckets.erase coll else buckets.assign coll rest

/-- What a worker does at a priority of its own shard: it takes the first task of the
collection whose turn it is, or goes on to the next one. -/
def Shard.visit (shard : Shard τ) (idx : Fin 3) : Shard τ × Option (TaskEnvelope τ) :=
  let buckets := shard.queuesByPriority idx
  let colls := shard.collectionOrder idx
  if shard.priorityBudgetRemaining idx = 0 then (shard, none)
  else if buckets.entries.isEmpty then (shard, none)
  else if colls.isEmpty then (shard, none)
  else
    let collIdx := shard.rrIndex idx % colls.length
    match colls[collIdx]? with
    | none => (shard, none)
    | some coll =>
        match frontOf buckets coll with
        | none => ({ shard with rrIndex := Function.update shard.rrIndex idx (collIdx + 1) }, none)
        | some (first, rest) =>
            let left := if rest.isEmpty then colls.eraseIdx collIdx else colls
            let next := if rest.isEmpty then (if left.isEmpty then 0 else collIdx % left.length)
              else (collIdx + 1) % colls.length
            ({ shard with
              queuesByPriority := Function.update shard.queuesByPriority idx (withoutFront buckets coll rest)
              collectionOrder := Function.update shard.collectionOrder idx left
              rrIndex := Function.update shard.rrIndex idx next
              totalQueued := shard.totalQueued - 1
              priorityBudgetRemaining := Function.update shard.priorityBudgetRemaining idx
                (shard.priorityBudgetRemaining idx - 1) }, some first)

/-- The priorities in the turn of the cursor, until one of them gives a task. -/
def Shard.visits (shard : Shard τ) : List Nat → Shard τ × Option (TaskEnvelope τ)
  | [] => (shard, none)
  | p :: later =>
      let visited := shard.visit ⟨(shard.priorityCursor + p) % 3, Nat.mod_lt _ (by decide)⟩
      match visited.2 with
      | some first => (visited.1, some first)
      | none => visited.1.visits later

/-- A priority has tasks and no budget. -/
def Shard.behindDepletedBudget (shard : Shard τ) : Bool :=
  [0, 1, 2].any fun p =>
    shard.priorityBudgetRemaining p == 0 && !(shard.queuesByPriority p).entries.isEmpty

/-- The loop of a worker over its shard. -/
structure DequeueLoop (τ : Type) where
  shard : Shard τ
  batch : List (TaskEnvelope τ)
  dequeueCount : Nat

def DequeueLoop.goesOn (l : DequeueLoop τ) : Bool :=
  0 < l.shard.totalQueued && l.batch.length < 32 && l.dequeueCount < 8

/-- The end of a pass. -/
def DequeueLoop.nextPass (l : DequeueLoop τ) : DequeueLoop τ :=
  { l with
    shard := { l.shard with priorityCursor := (l.shard.priorityCursor + 1) % 3 }
    dequeueCount := l.dequeueCount + 1 }

/-- A pass: one task at most. A pass without a task may fill the budgets and does not count
then. -/
def DequeueLoop.pass (l : DequeueLoop τ) : DequeueLoop τ :=
  let visited := l.shard.visits [0, 1, 2]
  match visited.2 with
  | some first => nextPass { l with shard := visited.1, batch := l.batch ++ [first] }
  | none =>
      if 0 < visited.1.totalQueued && visited.1.behindDepletedBudget then
        { l with shard := { visited.1 with priorityBudgetRemaining := fullBudget } }
      else nextPass { l with shard := visited.1 }

def DequeueLoop.runLoop : Nat → DequeueLoop τ → DequeueLoop τ
  | 0, l => l
  | passes + 1, l => if l.goesOn then runLoop passes l.pass else l

/-- The passes that the loop can take: eight that count, and as many that do not. -/
def maxPasses : Nat := 17

/-- What a worker does under the lock of its shard: the batch, and the budgets filled when
none of them has anything left. -/
def Shard.dequeue (shard : Shard τ) : Shard τ × List (TaskEnvelope τ) :=
  let l := DequeueLoop.runLoop maxPasses ⟨shard, [], 0⟩
  let refill := [0, 1, 2].all fun p => l.shard.priorityBudgetRemaining p == 0
  (if refill then { l.shard with priorityBudgetRemaining := fullBudget } else l.shard, l.batch)

/-- The first collection of the list that has a task, with the task and what stays. -/
def Shard.firstAvailable (shard : Shard τ) (p : Fin 3) :
    Option (String × TaskEnvelope τ × CollectionQueue τ) :=
  (shard.collectionOrder p).findSome? fun coll =>
    (frontOf (shard.queuesByPriority p) coll).map fun front => (coll, front)

/-- What the worker of another shard takes at one priority. The list of the collections stays
as it is. -/
def Shard.stealOne (shard : Shard τ) (p : Fin 3) : Shard τ × Option (TaskEnvelope τ) :=
  match shard.firstAvailable p with
  | none => (shard, none)
  | some (coll, first, rest) =>
      ({ shard with
        queuesByPriority := Function.update shard.queuesByPriority p
          (withoutFront (shard.queuesByPriority p) coll rest)
        totalQueued := shard.totalQueued - 1 }, some first)

/-- `maxTasks` of a worker's call. -/
def maxTasks : Nat := 4

/-- The priorities of a shard that is stolen from, until the worker has `maxTasks`. -/
def Shard.stealEach (shard : Shard τ) (outTasks : List (TaskEnvelope τ)) :
    List (Fin 3) → Shard τ × List (TaskEnvelope τ)
  | [] => (shard, outTasks)
  | p :: later =>
      if outTasks.length < maxTasks then
        let stolen := shard.stealOne p
        stolen.1.stealEach (outTasks ++ stolen.2.toList) later
      else (shard, outTasks)

/-- What `stealFromNeighbor` does under the lock of one target. -/
def Shard.steal (shard : Shard τ) (outTasks : List (TaskEnvelope τ)) : Shard τ × List (TaskEnvelope τ) :=
  shard.stealEach outTasks [0, 1, 2]

end PacificDb.Tasks
