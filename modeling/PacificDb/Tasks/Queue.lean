import PacificDb.Lib.Machine
import PacificDb.Tasks.Bookkeeping

/-!
# The task queue

The queue has several shards, with workers of their own. A worker takes a batch from its
shard; when there is none it goes around the next three shards and takes what it can get
there; and it runs the tasks of its batch without any lock. Each of these steps is atomic,
and they come in any order.

In every run each task that was accepted is in one place, the counters are right and the
loops end. The lists of the collections are right exactly when no theft has emptied a queue
(`bookkept_iff`).
-/

namespace PacificDb.Tasks

open Lib

/-! ## The code -/

structure QueueConfig where
  shardCount : Nat
  workersPerShard : Nat
  maxQueuePerShard : Nat
  shardCount_pos : 0 < shardCount

inductive WorkerPhase where
  | idle
  | stealing (attempt : Nat)
  | running
  deriving DecidableEq

structure Worker (τ : Type) where
  phase : WorkerPhase
  batch : List (TaskEnvelope τ)
  deriving DecidableEq

/-- The queue, with the tasks that it accepted and those that were run. -/
structure TaskQueue (config : QueueConfig) (τ : Type) where
  shards : Fin config.shardCount → Shard τ
  workers : Fin (config.shardCount * config.workersPerShard) → Worker τ
  accepted : List (TaskEnvelope τ)
  executed : List (TaskEnvelope τ)

variable {config : QueueConfig} {τ : Type}

def TaskQueue.start : TaskQueue config τ where
  shards := fun _ => Shard.new
  workers := fun _ => ⟨.idle, []⟩
  accepted := []
  executed := []

/-- The shard of a number. -/
def shardAt (config : QueueConfig) (number : Nat) : Fin config.shardCount :=
  ⟨number % config.shardCount, Nat.mod_lt _ config.shardCount_pos⟩

def hashCollection (hash : String → Nat) (config : QueueConfig) (collection : String) : Fin config.shardCount :=
  if collection.isEmpty then shardAt config 0 else shardAt config (hash collection)

/-- A call, or a step of a worker; `locked` says whether a theft gets the lock. -/
inductive QueueEvent (config : QueueConfig) (τ : Type) where
  | enqueue (task : τ) (priority : Nat) (collection : String) (costHint : Nat)
  | dequeue (worker : Fin (config.shardCount * config.workersPerShard))
  | steal (worker : Fin (config.shardCount * config.workersPerShard)) (locked : Bool)
  | execute (worker : Fin (config.shardCount * config.workersPerShard))

/-- The shard that a worker tries next, while it looks for tasks elsewhere. -/
def stealTarget (s : TaskQueue config τ) (w : Fin (config.shardCount * config.workersPerShard)) :
    Option (Nat × Fin config.shardCount) :=
  match (s.workers w).phase with
  | .stealing attempt =>
      if 1 < config.shardCount ∧ attempt < 3 ∧ (s.workers w).batch.length < maxTasks then
        some (attempt, shardAt config (w % config.shardCount + attempt + 1))
      else none
  | _ => none

def enqueueStep (hash : String → Nat) (s : TaskQueue config τ) (task : τ) (priority : Nat)
    (collection : String) (costHint : Nat) : TaskQueue config τ :=
  let shardId := hashCollection hash config collection
  match (s.shards shardId).enqueue config.maxQueuePerShard task priority collection costHint with
  | none => s
  | some after => { s with
      shards := Function.update s.shards shardId after
      accepted := s.accepted ++ [(s.shards shardId).envelope task collection costHint] }

/-- A batch of a worker that has none; without tasks it goes on to the other shards. -/
def dequeueStep (s : TaskQueue config τ) (w : Fin (config.shardCount * config.workersPerShard)) :
    TaskQueue config τ :=
  let shardId := shardAt config w
  let dequeued := (s.shards shardId).dequeue
  { s with
    shards := Function.update s.shards shardId dequeued.1
    workers := Function.update s.workers w
      ⟨if dequeued.2.isEmpty then .stealing 0 else .running, dequeued.2⟩ }

/-- One target of `stealFromNeighbor`. -/
def stealStep (s : TaskQueue config τ) (w : Fin (config.shardCount * config.workersPerShard))
    (locked : Bool) : TaskQueue config τ :=
  match stealTarget s w with
  | none => { s with workers := Function.update s.workers w ⟨.running, (s.workers w).batch⟩ }
  | some (attempt, target) =>
      if locked then
        let stolen := (s.shards target).steal (s.workers w).batch
        { s with
          shards := Function.update s.shards target stolen.1
          workers := Function.update s.workers w ⟨.stealing (attempt + 1), stolen.2⟩ }
      else
        { s with
          workers := Function.update s.workers w ⟨.stealing (attempt + 1), (s.workers w).batch⟩ }

/-- A task of the batch, or the end of the batch. -/
def executeStep (s : TaskQueue config τ) (w : Fin (config.shardCount * config.workersPerShard)) :
    TaskQueue config τ :=
  match (s.workers w).batch with
  | [] => { s with workers := Function.update s.workers w ⟨.idle, []⟩ }
  | first :: rest => { s with
      workers := Function.update s.workers w ⟨.running, rest⟩
      executed := s.executed ++ [first] }

/-- The steps of calls and workers, each in its phase. -/
def queueStep (hash : String → Nat) (s : TaskQueue config τ) : QueueEvent config τ → Option (TaskQueue config τ)
  | .enqueue task priority collection costHint => some (enqueueStep hash s task priority collection costHint)
  | .dequeue w => if (s.workers w).phase = .idle then some (dequeueStep s w) else none
  | .steal w locked =>
      match (s.workers w).phase with
      | .stealing _ => some (stealStep s w locked)
      | _ => none
  | .execute w => if (s.workers w).phase = .running then some (executeStep s w) else none

/-! ## What holds in every run -/

/-- The tasks in the queues of all shards. -/
def TaskQueue.stored (s : TaskQueue config τ) : Multiset (TaskEnvelope τ) :=
  Finset.univ.sum fun i => (s.shards i).tasks

/-- The tasks in the batches of all workers. -/
def TaskQueue.batched (s : TaskQueue config τ) : Multiset (TaskEnvelope τ) :=
  Finset.univ.sum fun w => ((s.workers w).batch : Multiset (TaskEnvelope τ))

/-- Each task that was accepted is in one queue or in one batch, or was run once. -/
def TaskQueue.Placed (s : TaskQueue config τ) : Prop :=
  (s.accepted : Multiset (TaskEnvelope τ)) = s.stored + s.batched + s.executed

/-- An idle worker has no batch. -/
structure TaskQueue.Inv (s : TaskQueue config τ) : Prop where
  placed : s.Placed
  sound : ∀ i, (s.shards i).Sound
  idle : ∀ w, (s.workers w).phase = .idle → (s.workers w).batch = []

/-- What the queue keeps in any case: tasks are in one place, the counters are right, and the
loop of a worker over a shard ends. -/
structure TaskQueue.Bookkept (s : TaskQueue config τ) : Prop where
  placed : s.Placed
  counted : ∀ i, (s.shards i).totalQueued = Multiset.card (s.shards i).tasks
  ends : ∀ i, (DequeueLoop.runLoop maxPasses ⟨s.shards i, [], 0⟩).goesOn = false

/-- The lists of the collections are right, and a worker that goes through a shard meets
entries with tasks only. -/
structure TaskQueue.Listed (s : TaskQueue config τ) : Prop where
  orderExact : ∀ i, (s.shards i).OrderExact
  live : ∀ i passes p, ∀ coll ∈ (DequeueLoop.pass^[passes] ⟨s.shards i, [], 0⟩).shard.collectionOrder p,
    (frontOf ((DequeueLoop.pass^[passes] ⟨s.shards i, [], 0⟩).shard.queuesByPriority p) coll).isSome

/-- A theft does not take the last task of a queue. -/
def SparesLast (s : TaskQueue config τ) : QueueEvent config τ → Prop
  | .steal w true => ∀ target ∈ stealTarget s w,
      (s.shards target.2).sparesLast (s.workers w).batch [0, 1, 2] = true
  | _ => True

instance (s : TaskQueue config τ) (event : QueueEvent config τ) : Decidable (SparesLast s event) := by
  unfold SparesLast
  split <;> infer_instance

variable {hash : String → Nat} {s t : TaskQueue config τ} {event : QueueEvent config τ}
  {w : Fin (config.shardCount * config.workersPerShard)}

/-! ## One step -/

section Sums

variable {ι α : Type} [Fintype ι] [DecidableEq ι] (f : ι → Multiset α) (i : ι) {value change : Multiset α}

theorem sum_of_taken (taken : f i = change + value) :
    Finset.univ.sum f = change + Finset.univ.sum (Function.update f i value) := by
  have sums := sum_update_add f i value
  rw [taken, ← add_assoc] at sums
  rw [← add_right_cancel sums, add_comm]

theorem sum_of_added (added : value = f i + change) :
    Finset.univ.sum (Function.update f i value) = Finset.univ.sum f + change := by
  have sums := sum_update_add f i value
  rw [added, add_comm (f i), ← add_assoc] at sums
  rw [← added.trans (add_comm _ _)] at sums
  exact add_right_cancel sums

end Sums

variable {i : Fin config.shardCount} {after : Shard τ} {worker : Worker τ}

/-- A shard that gives tasks away, among the others. -/
theorem stored_taken {taken : List (TaskEnvelope τ)} (own : (s.shards i).tasks = taken + after.tasks) :
    s.stored = taken + Finset.univ.sum fun j => (Function.update s.shards i after j).tasks := by
  rw [TaskQueue.stored, sum_of_taken (fun j => (s.shards j).tasks) i own]
  congr 1
  apply Finset.sum_congr rfl
  intro j _
  exact (Function.apply_update (fun _ => Shard.tasks) s.shards i after j).symm

theorem stored_added {envelope : TaskEnvelope τ} (own : after.tasks = envelope ::ₘ (s.shards i).tasks) :
    (Finset.univ.sum fun j => (Function.update s.shards i after j).tasks) = s.stored + {envelope} := by
  have added : after.tasks = (s.shards i).tasks + {envelope} := by
    rw [own, add_comm, Multiset.singleton_add]
  rw [TaskQueue.stored, ← sum_of_added (fun j => (s.shards j).tasks) i added]
  apply Finset.sum_congr rfl
  intro j _
  exact Function.apply_update (fun _ => Shard.tasks) s.shards i after j

theorem batched_added {taken : List (TaskEnvelope τ)} (own : worker.batch = (s.workers w).batch ++ taken) :
    (Finset.univ.sum fun v => ((Function.update s.workers w worker v).batch : Multiset (TaskEnvelope τ))) =
      s.batched + taken := by
  have coe : (worker.batch : Multiset (TaskEnvelope τ)) = (s.workers w).batch + taken := by
    rw [own, ← Multiset.coe_add]
  rw [TaskQueue.batched,
    ← sum_of_added (fun v => ((s.workers v).batch : Multiset (TaskEnvelope τ))) w coe]
  apply Finset.sum_congr rfl
  intro v _
  exact Function.apply_update (fun _ worker => (worker.batch : Multiset (TaskEnvelope τ))) s.workers w worker v

theorem batched_taken {first : TaskEnvelope τ} (own : (s.workers w).batch = first :: worker.batch) :
    s.batched = {first} +
      Finset.univ.sum fun v => ((Function.update s.workers w worker v).batch : Multiset (TaskEnvelope τ)) := by
  have coe : ((s.workers w).batch : Multiset (TaskEnvelope τ)) = {first} + worker.batch := by
    rw [own, ← Multiset.cons_coe, Multiset.singleton_add]
  rw [TaskQueue.batched,
    sum_of_taken (fun v => ((s.workers v).batch : Multiset (TaskEnvelope τ))) w coe]
  congr 1
  apply Finset.sum_congr rfl
  intro v _
  exact (Function.apply_update (fun _ worker => (worker.batch : Multiset (TaskEnvelope τ)))
    s.workers w worker v).symm

theorem sound_update (inv : s.Inv) (sound : after.Sound) (j : Fin config.shardCount) :
    (Function.update s.shards i after j).Sound := by
  by_cases same : j = i
  · rw [same, Function.update_self]
    exact sound
  · rw [Function.update_of_ne same]
    exact inv.sound j

theorem exact_update {spared : Prop} (own : after.OrderExact ↔ (s.shards i).OrderExact ∧ spared) :
    (∀ j, (Function.update s.shards i after j).OrderExact) ↔ (∀ j, (s.shards j).OrderExact) ∧ spared := by
  have others : ∀ j, j ≠ i → Function.update s.shards i after j = s.shards j :=
    fun j differ => Function.update_of_ne differ _ _
  constructor
  · intro all
    have here := all i
    rw [Function.update_self] at here
    refine ⟨fun j => ?_, (own.mp here).2⟩
    by_cases same : j = i
    · rw [same]
      exact (own.mp here).1
    · rw [← others j same]
      exact all j
  · intro both j
    by_cases same : j = i
    · rw [same, Function.update_self]
      exact own.mpr ⟨both.1 i, both.2⟩
    · rw [others j same]
      exact both.1 j

/-- A worker that keeps its batch, or has none, does not change where tasks are. -/
theorem idle_update (inv : s.Inv) (notIdle : worker.phase = .idle → worker.batch = [])
    (v : Fin (config.shardCount * config.workersPerShard))
    (isIdle : (Function.update s.workers w worker v).phase = .idle) :
    (Function.update s.workers w worker v).batch = [] := by
  by_cases same : v = w
  · rw [same, Function.update_self] at isIdle ⊢
    exact notIdle isIdle
  · rw [Function.update_of_ne same] at isIdle ⊢
    exact inv.idle v isIdle

/-- What a step keeps, and when it keeps the lists. -/
structure Keeps (s t : TaskQueue config τ) (spared : Prop) : Prop where
  inv : t.Inv
  lists : (∀ i, (t.shards i).OrderExact) ↔ (∀ i, (s.shards i).OrderExact) ∧ spared

theorem moved_exact {taken : List (TaskEnvelope τ)} {shard : Shard τ} (sound : shard.Sound)
    (moved : Moved shard after taken noExtra) : after.OrderExact ↔ shard.OrderExact ∧ True := by
  rw [and_true, orderExact_iff moved.sound, orderExact_iff sound]
  exact forall_congr' fun p => forall_congr' fun coll => by rw [moved.surplus, noExtra, add_zero]

theorem TaskQueue.Inv.enqueue (inv : s.Inv) (task : τ) (priority : Nat) (collection : String) (costHint : Nat) :
    Keeps s (enqueueStep hash s task priority collection costHint) True := by
  rw [enqueueStep]
  split
  next => exact ⟨inv, (and_iff_left trivial).symm⟩
  next after accepted =>
    obtain ⟨sound, tasks, surplus⟩ := (inv.sound (hashCollection hash config collection)).enqueue accepted
    refine ⟨⟨?_, sound_update inv sound, inv.idle⟩, exact_update ?_⟩
    · rw [TaskQueue.Placed, TaskQueue.stored, ← Multiset.coe_add, stored_added tasks, inv.placed]
      change _ = s.stored + _ + s.batched + s.executed
      rw [Multiset.coe_singleton]
      abel
    · rw [and_true, orderExact_iff sound, orderExact_iff (inv.sound _)]
      exact forall_congr' fun p => forall_congr' fun coll => by rw [surplus]

theorem TaskQueue.Inv.dequeue (inv : s.Inv) (isIdle : (s.workers w).phase = .idle) :
    Keeps s (dequeueStep s w) True := by
  have moved := (inv.sound (shardAt config w)).dequeue
  refine ⟨⟨?_, sound_update inv moved.sound, idle_update inv ?_⟩,
    exact_update (moved_exact (inv.sound (shardAt config w)) moved)⟩
  · have batched := @batched_added config τ s w ⟨if (s.shards (shardAt config w)).dequeue.2.isEmpty
      then .stealing 0 else .running, (s.shards (shardAt config w)).dequeue.2⟩
      (s.shards (shardAt config w)).dequeue.2 (by rw [inv.idle w isIdle, List.nil_append])
    rw [TaskQueue.Placed, TaskQueue.stored, TaskQueue.batched, dequeueStep]
    dsimp only
    rw [batched, inv.placed, stored_taken moved.tasks]
    abel
  · intro impossible
    dsimp only at impossible
    split at impossible <;> cases impossible

theorem TaskQueue.Inv.steal (inv : s.Inv) (locked : Bool) :
    Keeps s (stealStep s w locked) (SparesLast s (.steal w locked)) := by
  have kept : ∀ phase, phase ≠ .idle →
      ({ s with workers := Function.update s.workers w ⟨phase, (s.workers w).batch⟩ } :
        TaskQueue config τ).Inv := by
    intro phase notIdle
    refine ⟨?_, inv.sound, idle_update inv fun impossible => absurd impossible notIdle⟩
    have batched := @batched_added config τ s w ⟨phase, (s.workers w).batch⟩ [] (List.append_nil _).symm
    rw [Multiset.coe_nil, add_zero] at batched
    rw [TaskQueue.Placed, TaskQueue.batched]
    dsimp only
    rw [batched]
    exact inv.placed
  cases locked with
  | false =>
    rw [stealStep]
    split
    next => exact ⟨kept _ (by simp), (and_iff_left trivial).symm⟩
    next => exact ⟨kept _ (by simp), (and_iff_left trivial).symm⟩
  | true =>
    rw [stealStep, SparesLast]
    cases aimed : stealTarget s w with
    | none => exact ⟨kept _ (by simp), (and_iff_left (by simp)).symm⟩
    | some found =>
      obtain ⟨attempt, target⟩ := found
      obtain ⟨taken, isTaken, sound, tasks, lists⟩ :=
        (inv.sound target).stealEach (s.workers w).batch [0, 1, 2]
      dsimp only
      rw [if_pos rfl]
      refine ⟨⟨?_, sound_update inv sound, idle_update inv fun impossible => by cases impossible⟩,
        exact_update (lists.trans (and_congr_right fun _ => ?_))⟩
      · have batched := @batched_added config τ s w
          ⟨.stealing (attempt + 1), ((s.shards target).steal (s.workers w).batch).2⟩ taken isTaken
        rw [TaskQueue.Placed, TaskQueue.stored, TaskQueue.batched]
        dsimp only
        rw [batched, inv.placed, stored_taken tasks]
        rw [Shard.steal]
        abel
      · simp

theorem TaskQueue.Inv.execute (inv : s.Inv) : Keeps s (executeStep s w) True := by
  rw [executeStep]
  split
  next empty =>
    refine ⟨⟨?_, inv.sound, idle_update inv fun _ => rfl⟩, (and_iff_left trivial).symm⟩
    have batched := @batched_added config τ s w ⟨.idle, []⟩ [] (by rw [empty]; rfl)
    rw [Multiset.coe_nil, add_zero] at batched
    rw [TaskQueue.Placed, TaskQueue.batched]
    dsimp only
    rw [batched]
    exact inv.placed
  next first rest batch =>
    refine ⟨⟨?_, inv.sound, idle_update inv fun impossible => by cases impossible⟩,
      (and_iff_left trivial).symm⟩
    have batched := @batched_taken config τ s w ⟨.running, rest⟩ first batch
    have placed := inv.placed
    rw [TaskQueue.Placed, batched] at placed
    rw [TaskQueue.Placed, TaskQueue.batched, placed, ← Multiset.coe_add, Multiset.coe_singleton]
    change _ = s.stored + _ + _
    abel

theorem keeps_step (inv : s.Inv) (taken : queueStep hash s event = some t) :
    Keeps s t (SparesLast s event) := by
  cases event with
  | enqueue task priority collection costHint =>
    cases taken
    exact inv.enqueue task priority collection costHint
  | dequeue w =>
    rw [queueStep] at taken
    split at taken
    next isIdle =>
      cases taken
      exact inv.dequeue isIdle
    next => cases taken
  | steal w locked =>
    rw [queueStep] at taken
    split at taken
    next =>
      cases taken
      exact inv.steal locked
    next => cases taken
  | execute w =>
    rw [queueStep] at taken
    split at taken
    next =>
      cases taken
      exact inv.execute
    next => cases taken

/-! ## Runs -/

theorem inv_start : (TaskQueue.start : TaskQueue config τ).Inv where
  placed := by
    have stored : (TaskQueue.start : TaskQueue config τ).stored = 0 := Finset.sum_const_zero
    have batched : (TaskQueue.start : TaskQueue config τ).batched = 0 := Finset.sum_const_zero
    rw [TaskQueue.Placed, stored, batched]
    rfl
  sound := fun _ => sound_new.1
  idle := fun _ _ => rfl

theorem TaskQueue.Inv.bookkept (inv : s.Inv) : s.Bookkept where
  placed := inv.placed
  counted := fun i => (inv.sound i).counted
  ends := fun i => dequeue_ends (s.shards i)

theorem TaskQueue.Inv.listed (inv : s.Inv) : s.Listed ↔ ∀ i, (s.shards i).OrderExact := by
  refine ⟨fun listed => listed.orderExact, fun exact_order => ⟨exact_order, ?_⟩⟩
  intro i passes p coll member
  exact live_of_exact (exact_passes (inv.sound i) (exact_order i) passes).2 member

/-- In every run tasks are in one place, the counters are right and the loops end; the lists
are right, and workers meet entries with tasks only, exactly when no theft took the last task
of a queue. -/
theorem bookkept_iff (hash : String → Nat) (events : List (QueueEvent config τ))
    (runs : run (queueStep hash) TaskQueue.start events = some s) :
    s.Bookkept ∧ (s.Listed ↔ RunAllowed (queueStep hash) SparesLast TaskQueue.start events) := by
  have inv : s.Inv := run_invariant (fun before taken => (keeps_step before taken).inv) inv_start runs
  have lists := @run_good_iff _ _ (queueStep hash) SparesLast TaskQueue.start
    (fun s : TaskQueue config τ => ∀ i, (s.shards i).OrderExact) TaskQueue.Inv
    (fun before taken => (keeps_step before taken).inv)
    (fun before taken => (keeps_step before taken).lists) events s inv_start runs
  refine ⟨inv.bookkept, inv.listed.trans (lists.trans (and_iff_right ?_))⟩
  exact fun _ => sound_new.2

/-! ## Runs of two shards -/

/-- Two shards with one worker each. -/
def twoShards : QueueConfig where
  shardCount := 2
  workersPerShard := 1
  maxQueuePerShard := 1000
  shardCount_pos := by decide

def secondWorker : Fin (twoShards.shardCount * twoShards.workersPerShard) := ⟨1, by decide⟩

/-- Two tasks of one collection, and the worker of the other shard takes one of them. -/
def sharedEvents : List (QueueEvent twoShards Nat) :=
  [.enqueue 1 0 "orders" 1, .enqueue 2 0 "orders" 1, .dequeue secondWorker, .steal secondWorker true]

/-- One task of a collection, which the worker of the other shard takes, and a second one. -/
def emptiedEvents : List (QueueEvent twoShards Nat) :=
  [.enqueue 1 0 "orders" 1, .dequeue secondWorker, .steal secondWorker true, .enqueue 2 0 "orders" 1]

theorem bookkept_iff_sharedEvents : ∃ s, run (queueStep fun _ => 0) .start sharedEvents = some s ∧
    s.Bookkept ∧ s.Listed := by
  have defined : (run (queueStep fun _ => 0) .start sharedEvents).isSome = true := by decide
  have spared : RunAllowed (queueStep fun _ => 0) SparesLast .start sharedEvents := by decide
  obtain ⟨s, runs⟩ := Option.isSome_iff_exists.mp defined
  have spec := bookkept_iff (fun _ => 0) sharedEvents runs
  exact ⟨s, runs, spec.1, spec.2.mpr spared⟩

/-- The collection is in its list twice. -/
theorem listed_not_emptiedEvents : ¬∀ s, run (queueStep fun _ => 0) .start emptiedEvents = some s → s.Listed := by
  intro all
  have twice : ((run (queueStep fun _ => 0) .start emptiedEvents).any fun s =>
      (s.shards (shardAt twoShards 0)).collectionOrder 0 == ["orders", "orders"]) = true := by
    decide
  obtain ⟨s, runs, isTwice⟩ := (Option.any_eq_true _ _).mp twice
  have nodup := ((all s runs).orderExact (shardAt twoShards 0) 0).1
  rw [eq_of_beq isTwice] at nodup
  exact absurd nodup (by decide)

end PacificDb.Tasks
