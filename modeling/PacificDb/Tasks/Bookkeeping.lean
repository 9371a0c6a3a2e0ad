import PacificDb.Tasks.Shard
import Mathlib.Algebra.BigOperators.Fin
import Mathlib.Algebra.BigOperators.Group.Finset.Piecewise
import Mathlib.Tactic.Abel

/-!
# What the operations on a shard keep

Tasks go from a shard to the batch that takes them and nowhere else, and the counter of the
shard follows them. The list of the collections of a priority can have entries too many for
its queues, never too few: an insertion and a batch of a worker change nothing in that, and
a theft leaves one entry too many for every queue that it empties.
-/

namespace PacificDb.Tasks

open Lib

variable {τ : Type} {buckets : SortedMap String (CollectionQueue τ)} {shard after : Shard τ}
  {coll : String} {first : TaskEnvelope τ} {rest : CollectionQueue τ} {idx p : Fin 3}

/-! ## Sums -/

/-- A sum with one summand replaced. -/
theorem sum_update_add {ι M : Type} [Fintype ι] [DecidableEq ι] [AddCommMonoid M] (f : ι → M) (i : ι)
    (value : M) :
    Finset.univ.sum (Function.update f i value) + f i = Finset.univ.sum f + value := by
  rw [Finset.sum_update_of_mem (Finset.mem_univ i), ← Finset.add_sum_erase _ f (Finset.mem_univ i),
    Finset.sdiff_singleton_eq_erase]
  abel

/-! ## The tasks of a shard -/

/-- The tasks in the queues of a priority. -/
def queued (buckets : SortedMap String (CollectionQueue τ)) : Multiset (TaskEnvelope τ) :=
  (buckets.entries.flatMap Prod.snd : List (TaskEnvelope τ))

/-- The tasks that a shard has. -/
def Shard.tasks (shard : Shard τ) : Multiset (TaskEnvelope τ) :=
  Finset.univ.sum fun p => queued (shard.queuesByPriority p)

theorem queued_of_perm {entries : List (String × CollectionQueue τ)} (perm : buckets.entries.Perm entries) :
    queued buckets = (entries.flatMap Prod.snd : List (TaskEnvelope τ)) :=
  Multiset.coe_eq_coe.mpr (perm.flatMap_right _)

theorem queued_assign (coll : String) (queue : CollectionQueue τ) :
    queued (buckets.assign coll queue) = queue + queued (buckets.erase coll) := by
  rw [queued_of_perm buckets.perm_assign, List.flatMap_cons, ← Multiset.coe_add]
  rfl

theorem queued_of_find {queue : CollectionQueue τ} (found : buckets.find? coll = some queue) :
    queued buckets = queue + queued (buckets.erase coll) := by
  rw [queued_of_perm (buckets.perm_of_find found), List.flatMap_cons, ← Multiset.coe_add]
  rfl

theorem queued_of_absent (absent : buckets.find? coll = none) : queued (buckets.erase coll) = queued buckets := by
  rw [queued, buckets.entries_erase_of_absent absent]
  rfl

theorem frontOf_eq_some : frontOf buckets coll = some (first, rest) ↔
    buckets.find? coll = some (first :: rest) := by
  rw [frontOf]
  cases buckets.find? coll with
  | none => simp
  | some queue => cases queue <;> simp

theorem queued_withoutFront (front : frontOf buckets coll = some (first, rest)) :
    queued buckets = first ::ₘ queued (withoutFront buckets coll rest) := by
  rw [queued_of_find (frontOf_eq_some.mp front), withoutFront]
  split
  next empty =>
    rw [List.isEmpty_iff.mp empty]
    rfl
  next =>
    rw [queued_assign, ← Multiset.cons_coe, Multiset.cons_add]

theorem coe_insertOrdered (q : CollectionQueue τ) (envelope : TaskEnvelope τ) :
    ((insertOrdered q envelope : List (TaskEnvelope τ)) : Multiset (TaskEnvelope τ)) = envelope ::ₘ q := by
  rw [insertOrdered, Multiset.cons_coe, Multiset.coe_eq_coe]
  refine List.perm_middle.trans ?_
  rw [List.takeWhile_append_dropWhile]

theorem queued_insert (envelope : TaskEnvelope τ) :
    queued (buckets.assign coll (insertOrdered ((buckets.find? coll).getD []) envelope)) =
      envelope ::ₘ queued buckets := by
  rw [queued_assign, coe_insertOrdered, Multiset.cons_add]
  cases found : buckets.find? coll with
  | none => rw [Option.getD_none, queued_of_absent found, Multiset.coe_nil, zero_add]
  | some queue => rw [Option.getD_some, ← queued_of_find found]

/-- The tasks after a change of the queues of one priority. -/
theorem tasks_update {queues : SortedMap String (CollectionQueue τ)}
    (isAfter : after.queuesByPriority = Function.update shard.queuesByPriority p queues) :
    after.tasks + queued (shard.queuesByPriority p) = shard.tasks + queued queues := by
  rw [Shard.tasks, isAfter]
  have sums := sum_update_add (fun p => queued (shard.queuesByPriority p)) p (queued queues)
  rw [Shard.tasks, ← sums]
  congr 1
  apply Finset.sum_congr rfl
  intro other _
  by_cases same : other = p
  · rw [same, Function.update_self, Function.update_self]
  · rw [Function.update_of_ne same, Function.update_of_ne same]

/-! ## The lists of collections -/

/-- How many entries of the list of a priority a collection has beyond the one for its queue. -/
def surplusOf (buckets : SortedMap String (CollectionQueue τ)) (order : List String) (coll : String) : Int :=
  order.count coll - if (buckets.find? coll).isSome then 1 else 0

def Shard.surplus (shard : Shard τ) (p : Fin 3) (coll : String) : Int :=
  surplusOf (shard.queuesByPriority p) (shard.collectionOrder p) coll

/-- For each priority the list of the collections has those with a task in a queue, each
once. -/
def Shard.OrderExact (shard : Shard τ) : Prop :=
  ∀ p, (shard.collectionOrder p).Nodup ∧ ∀ coll, coll ∈ shard.collectionOrder p ↔
    ∃ queue, (shard.queuesByPriority p).find? coll = some queue ∧ queue ≠ []

/-- What holds of a shard in any case. -/
structure Shard.Sound (shard : Shard τ) : Prop where
  counted : shard.totalQueued = Multiset.card shard.tasks
  filled : ∀ p coll queue, (shard.queuesByPriority p).find? coll = some queue → queue ≠ []
  covered : ∀ p coll, 0 ≤ shard.surplus p coll

theorem orderExact_iff (sound : shard.Sound) :
    shard.OrderExact ↔ ∀ p coll, shard.surplus p coll = 0 := by
  have present : ∀ p coll, (∃ queue, (shard.queuesByPriority p).find? coll = some queue ∧ queue ≠ []) ↔
      ((shard.queuesByPriority p).find? coll).isSome := by
    intro p coll
    rw [Option.isSome_iff_exists]
    exact exists_congr fun queue => and_iff_left_of_imp (sound.filled p coll queue)
  constructor
  · intro listed p coll
    obtain ⟨nodup, members⟩ := listed p
    rw [Shard.surplus, surplusOf, nodup.count]
    have member := (members coll).trans (present p coll)
    by_cases here : coll ∈ shard.collectionOrder p
    · simp [here, member.mp here]
    · have absent := Option.not_isSome_iff_eq_none.mp fun found => here (member.mpr found)
      simp [here, absent]
  · intro zero p
    have count : ∀ coll, (shard.collectionOrder p).count coll =
        if ((shard.queuesByPriority p).find? coll).isSome then 1 else 0 := by
      intro coll
      have own := zero p coll
      rw [Shard.surplus, surplusOf] at own
      split at own
      all_goals simp_all
      omega
    refine ⟨List.nodup_iff_count_le_one.mpr fun coll => ?_, fun coll => ?_⟩
    · rw [count]
      split <;> omega
    · rw [present, ← List.count_pos_iff, count]
      split <;> simp_all

/-- What an operation does: the tasks that it takes leave the shard, and the surplus grows by
`extra`. -/
structure Moved (shard after : Shard τ) (taken : List (TaskEnvelope τ)) (extra : Fin 3 → String → Int) :
    Prop where
  sound : after.Sound
  tasks : shard.tasks = taken + after.tasks
  surplus : ∀ p coll, after.surplus p coll = shard.surplus p coll + extra p coll

/-- Nothing extra. -/
def noExtra : Fin 3 → String → Int := fun _ _ => 0

theorem Shard.Sound.same (sound : shard.Sound) (queues : after.queuesByPriority = shard.queuesByPriority)
    (order : after.collectionOrder = shard.collectionOrder) (total : after.totalQueued = shard.totalQueued) :
    Moved shard after [] noExtra := by
  have tasks : after.tasks = shard.tasks := by rw [Shard.tasks, Shard.tasks, queues]
  have surplus : ∀ p coll, after.surplus p coll = shard.surplus p coll := by
    intro p coll
    rw [Shard.surplus, Shard.surplus, queues, order]
  constructor
  · constructor
    · rw [total, tasks, sound.counted]
    · rw [queues]
      exact sound.filled
    · intro p coll
      rw [surplus]
      exact sound.covered p coll
  · rw [tasks, Multiset.coe_nil, zero_add]
  · intro p coll
    rw [surplus, noExtra, add_zero]

theorem Moved.trans {middle : Shard τ} {taken later : List (TaskEnvelope τ)}
    {extra more : Fin 3 → String → Int} (first : Moved shard middle taken extra)
    (second : Moved middle after later more) :
    Moved shard after (taken ++ later) fun p coll => extra p coll + more p coll := by
  refine ⟨second.sound, ?_, fun p coll => ?_⟩
  · rw [first.tasks, second.tasks, ← Multiset.coe_add, add_assoc]
  · rw [second.surplus, first.surplus, add_assoc]

/-- What an operation moved, with a change of the turn and the budgets behind it. -/
theorem Moved.quiet {middle : Shard τ} {taken : List (TaskEnvelope τ)} {extra : Fin 3 → String → Int}
    (moved : Moved shard middle taken extra) (queues : after.queuesByPriority = middle.queuesByPriority)
    (order : after.collectionOrder = middle.collectionOrder) (total : after.totalQueued = middle.totalQueued) :
    Moved shard after taken extra := by
  have same := moved.sound.same queues order total
  refine ⟨same.sound, ?_, fun p coll => ?_⟩
  · rw [moved.tasks, same.tasks, Multiset.coe_nil, zero_add]
  · rw [same.surplus, moved.surplus, noExtra, add_zero]

theorem Moved.both {middle : Shard τ} {taken later : List (TaskEnvelope τ)}
    (first : Moved shard middle taken noExtra) (second : Moved middle after later noExtra) :
    Moved shard after (taken ++ later) noExtra := first.trans second

theorem find_withoutFront (coll : String) (rest : CollectionQueue τ) (other : String) :
    ((withoutFront buckets coll rest).find? other).isSome =
      if other = coll then !rest.isEmpty else (buckets.find? other).isSome := by
  rw [withoutFront]
  split
  next empty =>
    rw [SortedMap.find?_erase, empty]
    split <;> rfl
  next some =>
    rw [SortedMap.find?_assign, Bool.eq_false_iff.mpr some]
    split <;> rfl

theorem withoutFront_filled (filled : ∀ other queue, buckets.find? other = some queue → queue ≠ [])
    (other : String) (queue : CollectionQueue τ)
    (found : (withoutFront buckets coll rest).find? other = some queue) : queue ≠ [] := by
  rw [withoutFront] at found
  split at found
  next =>
    rw [SortedMap.find?_erase] at found
    split at found
    · cases found
    · exact filled other queue found
  next some =>
    rw [SortedMap.find?_assign] at found
    split at found
    · cases found
      exact fun empty => some (List.isEmpty_iff.mpr empty)
    · exact filled other queue found

/-- The first task of a queue leaves a shard. -/
theorem Shard.Sound.takeFront (sound : shard.Sound)
    (front : frontOf (shard.queuesByPriority p) coll = some (first, rest)) {left : List String}
    {more : String → Int} (notNegative : ∀ other, 0 ≤ more other)
    (queues : after.queuesByPriority =
      Function.update shard.queuesByPriority p (withoutFront (shard.queuesByPriority p) coll rest))
    (order : after.collectionOrder = Function.update shard.collectionOrder p left)
    (total : after.totalQueued = shard.totalQueued - 1)
    (lists : ∀ other, surplusOf (withoutFront (shard.queuesByPriority p) coll rest) left other =
      surplusOf (shard.queuesByPriority p) (shard.collectionOrder p) other + more other) :
    Moved shard after [first] fun q other => if q = p then more other else 0 := by
  have tasks : shard.tasks = first ::ₘ after.tasks := by
    have sums := tasks_update queues
    rw [queued_withoutFront front, Multiset.add_cons, ← Multiset.cons_add] at sums
    exact (add_right_cancel sums).symm
  have surplus : ∀ q other, after.surplus q other =
      shard.surplus q other + if q = p then more other else 0 := by
    intro q other
    rw [Shard.surplus, Shard.surplus, queues, order]
    by_cases same : q = p
    · rw [same, Function.update_self, Function.update_self, if_pos rfl, lists]
    · rw [Function.update_of_ne same, Function.update_of_ne same, if_neg same, add_zero]
  refine ⟨⟨?_, ?_, fun q other => ?_⟩, ?_, surplus⟩
  · rw [total, sound.counted, tasks, Multiset.card_cons, Nat.add_sub_cancel]
  · intro q other queue found
    rw [queues] at found
    by_cases same : q = p
    · rw [same, Function.update_self] at found
      exact withoutFront_filled (sound.filled p) other queue found
    · rw [Function.update_of_ne same] at found
      exact sound.filled q other queue found
  · have covered := sound.covered q other
    have extra := notNegative other
    rw [surplus]
    split <;> omega
  · rw [tasks, ← Multiset.cons_coe, Multiset.coe_nil, Multiset.cons_add, zero_add]

/-! ## Insertion -/

theorem Shard.Sound.enqueue (sound : shard.Sound) {maxQueuePerShard priority costHint : Nat} {task : τ}
    {collection : String}
    (accepted : shard.enqueue maxQueuePerShard task priority collection costHint = some after) :
    after.Sound ∧ after.tasks = shard.envelope task collection costHint ::ₘ shard.tasks ∧
      ∀ p coll, after.surplus p coll = shard.surplus p coll := by
  rw [Shard.enqueue] at accepted
  split at accepted
  next => cases accepted
  next =>
    generalize shard.envelope task collection costHint = envelope at accepted ⊢
    generalize priorityIndex priority = pIdx at accepted
    have isAfter := (Option.some.inj accepted).symm
    have tasks : after.tasks = envelope ::ₘ shard.tasks := by
      have sums := @tasks_update τ shard after pIdx _ (congrArg Shard.queuesByPriority isAfter)
      rw [queued_insert, Multiset.add_cons, ← Multiset.cons_add] at sums
      exact add_right_cancel sums
    have surplus : ∀ p coll, after.surplus p coll = shard.surplus p coll := by
      intro p coll
      rw [isAfter, Shard.surplus, Shard.surplus]
      dsimp only
      by_cases same : p = pIdx
      · rw [same, Function.update_self, Function.update_self, surplusOf, surplusOf, SortedMap.find?_assign]
        by_cases here : coll = envelope.collection
        · rw [if_pos here, here]
          split <;> simp_all
        · rw [if_neg here]
          split
          · rfl
          · rw [List.count_append, List.count_singleton, beq_eq_false_iff_ne.mpr (Ne.symm here)]
            rfl
      · rw [Function.update_of_ne same, Function.update_of_ne same]
    refine ⟨⟨?_, ?_, fun p coll => ?_⟩, tasks, surplus⟩
    · rw [tasks, Multiset.card_cons, ← sound.counted, isAfter]
    · intro p coll queue found
      rw [isAfter] at found
      dsimp only at found
      by_cases same : p = pIdx
      · rw [same, Function.update_self, SortedMap.find?_assign] at found
        split at found
        · cases found
          rw [insertOrdered]
          exact List.append_ne_nil_of_right_ne_nil _ (List.cons_ne_nil _ _)
        · exact sound.filled pIdx coll queue found
      · rw [Function.update_of_ne same] at found
        exact sound.filled p coll queue found
    · rw [surplus]
      exact sound.covered p coll

/-! ## The batch of a worker -/

/-- The list of a priority after a worker took a task keeps its surplus. -/
theorem surplus_taken {order : List String} {collIdx : Nat} (place : order[collIdx]? = some coll)
    (front : frontOf buckets coll = some (first, rest)) (other : String) :
    surplusOf (withoutFront buckets coll rest) (if rest.isEmpty then order.eraseIdx collIdx else order)
      other = surplusOf buckets order other := by
  have found := frontOf_eq_some.mp front
  rw [surplusOf, surplusOf, find_withoutFront]
  cases rest with
  | nil =>
    obtain ⟨bound, entry⟩ := List.getElem?_eq_some_iff.mp place
    have count := (List.getElem_cons_eraseIdx_perm bound).count_eq other
    rw [List.count_cons, entry] at count
    by_cases here : other = coll
    · subst here
      rw [beq_self_eq_true, if_pos rfl] at count
      simp [found]
      omega
    · rw [beq_eq_false_iff_ne.mpr (Ne.symm here), if_neg Bool.false_ne_true] at count
      simp [here]
      omega
  | cons second rest =>
    by_cases here : other = coll
    · subst here
      simp [found]
    · simp [here]

theorem extra_zero : (fun q other => if q = p then (fun _ : String => (0 : Int)) other else 0) = noExtra := by
  funext q other
  exact ite_self 0

/-- A visit of a priority takes one task or none, and the lists follow the queues. -/
theorem Shard.Sound.visit (sound : shard.Sound) (idx : Fin 3) :
    Moved shard (shard.visit idx).1 (shard.visit idx).2.toList noExtra := by
  rw [Shard.visit]
  dsimp only
  split
  next => exact sound.same rfl rfl rfl
  next =>
    split
    next => exact sound.same rfl rfl rfl
    next =>
      split
      next => exact sound.same rfl rfl rfl
      next =>
        split
        next => exact sound.same rfl rfl rfl
        next coll place =>
          split
          next => exact sound.same rfl rfl rfl
          next first rest front =>
            rw [← @extra_zero idx]
            exact sound.takeFront front (fun _ => le_rfl) rfl rfl rfl fun other => by
              rw [surplus_taken place front, add_zero]

theorem Shard.Sound.visits (sound : shard.Sound) (turn : List Nat) :
    Moved shard (shard.visits turn).1 (shard.visits turn).2.toList noExtra := by
  induction turn generalizing shard with
  | nil => exact sound.same rfl rfl rfl
  | cons p later ih =>
    have one := sound.visit ⟨(shard.priorityCursor + p) % 3, Nat.mod_lt _ (by decide)⟩
    rw [Shard.visits]
    split
    next first isFirst =>
      rw [isFirst] at one
      exact one
    next isNone =>
      rw [isNone] at one
      exact one.both (ih one.sound)

/-- A pass of the loop moves tasks from the shard to the batch. -/
theorem DequeueLoop.pass_moved {l : DequeueLoop τ} (sound : l.shard.Sound) :
    ∃ taken, l.pass.batch = l.batch ++ taken ∧ Moved l.shard l.pass.shard taken noExtra := by
  have visited := sound.visits [0, 1, 2]
  rw [DequeueLoop.pass]
  split
  next first isFirst =>
    rw [isFirst] at visited
    exact ⟨[first], rfl, visited.quiet rfl rfl rfl⟩
  next isNone =>
    rw [isNone] at visited
    split
    next => exact ⟨[], (List.append_nil _).symm, visited.quiet rfl rfl rfl⟩
    next => exact ⟨[], (List.append_nil _).symm, visited.quiet rfl rfl rfl⟩

theorem DequeueLoop.runLoop_moved {l : DequeueLoop τ} (sound : l.shard.Sound) (passes : Nat) :
    ∃ taken, (runLoop passes l).batch = l.batch ++ taken ∧
      Moved l.shard (runLoop passes l).shard taken noExtra := by
  induction passes generalizing l with
  | zero => exact ⟨[], (List.append_nil _).symm, sound.same rfl rfl rfl⟩
  | succ passes ih =>
    rw [runLoop]
    split
    next =>
      obtain ⟨taken, isTaken, one⟩ := pass_moved sound
      obtain ⟨later, isLater, rests⟩ := ih one.sound
      refine ⟨taken ++ later, ?_, one.both rests⟩
      rw [isLater, isTaken, List.append_assoc]
    next => exact ⟨[], (List.append_nil _).symm, sound.same rfl rfl rfl⟩

theorem Shard.Sound.dequeue (sound : shard.Sound) :
    Moved shard shard.dequeue.1 shard.dequeue.2 noExtra := by
  obtain ⟨taken, isTaken, moved⟩ := @DequeueLoop.runLoop_moved τ ⟨shard, [], 0⟩ sound maxPasses
  rw [Shard.dequeue]
  dsimp only
  rw [isTaken, List.nil_append]
  split
  · exact moved.quiet rfl rfl rfl
  · exact moved

/-- All passes of a loop over an exact shard go through exact shards. -/
theorem exact_passes (sound : shard.Sound) (listed : shard.OrderExact) (passes : Nat) :
    (DequeueLoop.pass^[passes] ⟨shard, [], 0⟩).shard.Sound ∧
      (DequeueLoop.pass^[passes] ⟨shard, [], 0⟩).shard.OrderExact := by
  induction passes with
  | zero => exact ⟨sound, listed⟩
  | succ passes ih =>
    obtain ⟨taken, -, moved⟩ := DequeueLoop.pass_moved ih.1
    rw [Function.iterate_succ_apply']
    refine ⟨moved.sound, (orderExact_iff moved.sound).mpr fun p coll => ?_⟩
    rw [moved.surplus, (orderExact_iff ih.1).mp ih.2, noExtra, add_zero]

/-- In an exact shard every entry of a list has a task. -/
theorem live_of_exact (listed : shard.OrderExact) (member : coll ∈ shard.collectionOrder p) :
    (frontOf (shard.queuesByPriority p) coll).isSome := by
  obtain ⟨queue, found, filled⟩ := ((listed p).2 coll).mp member
  cases queue with
  | nil => exact absurd rfl filled
  | cons first rest =>
    rw [frontOf_eq_some.mpr found]
    rfl

/-! ## The loop ends -/

theorem visit_budget (none_taken : (shard.visit idx).2 = none) :
    (shard.visit idx).1.priorityBudgetRemaining = shard.priorityBudgetRemaining := by
  revert none_taken
  rw [Shard.visit]
  dsimp only
  split
  next => exact fun _ => rfl
  next =>
    split
    next => exact fun _ => rfl
    next =>
      split
      next => exact fun _ => rfl
      next =>
        split
        next => exact fun _ => rfl
        next =>
          split
          next => exact fun _ => rfl
          next => exact fun impossible => by cases impossible

theorem visits_budget {turn : List Nat} (none_taken : (shard.visits turn).2 = none) :
    (shard.visits turn).1.priorityBudgetRemaining = shard.priorityBudgetRemaining := by
  induction turn generalizing shard with
  | nil => rfl
  | cons p later ih =>
    rw [Shard.visits] at none_taken ⊢
    split at none_taken
    next => cases none_taken
    next isNone => exact (ih none_taken).trans (visit_budget isNone)

/-- What a pass counts down: two for each pass that may still count, and one for a budget
that can be filled. -/
def DequeueLoop.measure (l : DequeueLoop τ) : Nat :=
  2 * (8 - l.dequeueCount) + if ∃ p, l.shard.priorityBudgetRemaining p = 0 then 1 else 0

theorem fullBudget_ne_zero (p : Fin 3) : fullBudget p ≠ 0 := by
  revert p
  decide

theorem DequeueLoop.measure_le (l : DequeueLoop τ) : l.measure ≤ 2 * (8 - l.dequeueCount) + 1 := by
  rw [measure]
  split <;> omega

theorem DequeueLoop.measure_of_empty {l : DequeueLoop τ} (empty : l.shard.priorityBudgetRemaining p = 0) :
    l.measure = 2 * (8 - l.dequeueCount) + 1 := by
  rw [measure, if_pos ⟨p, empty⟩]

theorem DequeueLoop.measure_of_full {l : DequeueLoop τ} (full : l.shard.priorityBudgetRemaining = fullBudget) :
    l.measure = 2 * (8 - l.dequeueCount) := by
  have none_empty : ¬∃ p, l.shard.priorityBudgetRemaining p = 0 := by
    rw [full]
    exact fun ⟨p, isZero⟩ => fullBudget_ne_zero p isZero
  rw [measure, if_neg none_empty, Nat.add_zero]

theorem DequeueLoop.measure_pass {l : DequeueLoop τ} (goes : l.goesOn = true) :
    l.pass.measure < l.measure := by
  have counts : l.dequeueCount < 8 := by
    simp only [goesOn, Bool.and_eq_true, decide_eq_true_eq] at goes
    exact goes.2
  have least : 2 * (8 - l.dequeueCount) ≤ l.measure := Nat.le_add_right _ _
  -- A pass that counts can leave a budget empty; one that does not fills an empty budget.
  have counted : ∀ next : DequeueLoop τ, next.dequeueCount = l.dequeueCount → next.nextPass.measure < l.measure := by
    intro next same
    have most := next.nextPass.measure_le
    have count : next.nextPass.dequeueCount = l.dequeueCount + 1 := congrArg Nat.succ same
    rw [count] at most
    omega
  rw [DequeueLoop.pass]
  split
  next => exact counted _ rfl
  next isNone =>
    split
    next fills =>
      obtain ⟨-, depleted⟩ := Bool.and_eq_true_iff.mp fills
      obtain ⟨p, -, isDepleted⟩ := List.any_eq_true.mp depleted
      have empty : (l.shard.visits [0, 1, 2]).1.priorityBudgetRemaining p = 0 :=
        eq_of_beq (Bool.and_eq_true_iff.mp isDepleted).1
      rw [visits_budget isNone] at empty
      rw [measure_of_empty empty, measure_of_full rfl]
      exact Nat.lt_succ_self _
    next => exact counted _ rfl

theorem DequeueLoop.runLoop_ends {l : DequeueLoop τ} {passes : Nat} (enough : l.measure ≤ passes) :
    (runLoop passes l).goesOn = false := by
  induction passes generalizing l with
  | zero =>
    rw [measure] at enough
    have counted : ¬l.dequeueCount < 8 := by omega
    rw [runLoop, goesOn, decide_eq_false counted, Bool.and_false]
  | succ passes ih =>
    rw [runLoop]
    split
    next goes => exact ih (by have less := measure_pass goes; omega)
    next stops => exact Bool.eq_false_iff.mpr stops

/-- The loop of a worker ends, whatever is in the lists of its shard. -/
theorem dequeue_ends (shard : Shard τ) : (DequeueLoop.runLoop maxPasses ⟨shard, [], 0⟩).goesOn = false := by
  apply DequeueLoop.runLoop_ends
  rw [DequeueLoop.measure, maxPasses]
  split <;> omega

/-! ## Theft -/

/-- The theft at a priority takes the last task of a queue. -/
def Shard.takesLast (shard : Shard τ) (p : Fin 3) : Bool :=
  match shard.firstAvailable p with
  | some (_, _, rest) => rest.isEmpty
  | none => false

/-- No theft of the list takes the last task of a queue. -/
def Shard.sparesLast (shard : Shard τ) (outTasks : List (TaskEnvelope τ)) : List (Fin 3) → Bool
  | [] => true
  | p :: later =>
      if outTasks.length < maxTasks then
        !shard.takesLast p && (shard.stealOne p).1.sparesLast (outTasks ++ (shard.stealOne p).2.toList) later
      else true

theorem firstAvailable_front (available : shard.firstAvailable p = some (coll, first, rest)) :
    frontOf (shard.queuesByPriority p) coll = some (first, rest) := by
  obtain ⟨entry, -, isFront⟩ := List.exists_of_findSome?_eq_some available
  obtain ⟨front, isFirst, same⟩ := Option.map_eq_some_iff.mp isFront
  cases same
  exact isFirst

/-- A theft leaves one entry too many for a queue that it empties. -/
theorem Shard.Sound.stealOne (sound : shard.Sound) (p : Fin 3) :
    ∃ extra : Fin 3 → String → Int, Moved shard (shard.stealOne p).1 (shard.stealOne p).2.toList extra ∧
      (∀ q coll, 0 ≤ extra q coll) ∧ ((∀ q coll, extra q coll = 0) ↔ shard.takesLast p = false) := by
  rw [Shard.stealOne, Shard.takesLast]
  cases available : shard.firstAvailable p with
  | none => exact ⟨noExtra, sound.same rfl rfl rfl, fun _ _ => le_rfl, iff_of_true (fun _ _ => rfl) rfl⟩
  | some taken =>
    obtain ⟨coll, first, rest⟩ := taken
    have front := firstAvailable_front available
    have found := frontOf_eq_some.mp front
    have notNegative : ∀ other, (0 : Int) ≤ if other = coll ∧ rest.isEmpty then 1 else 0 := by
      intro other
      split <;> decide
    have kept : shard.collectionOrder =
        Function.update shard.collectionOrder p (shard.collectionOrder p) :=
      (Function.update_eq_self p _).symm
    refine ⟨_, sound.takeFront front notNegative rfl kept rfl fun other => ?_, fun q other => ?_, ?_⟩
    · rw [surplusOf, surplusOf, find_withoutFront]
      by_cases here : other = coll
      · subst here
        rw [found]
        cases rest <;> simp
      · simp [here]
    · split
      · exact notNegative other
      · exact le_rfl
    · change _ ↔ rest.isEmpty = false
      constructor
      · intro zero
        have own := zero p coll
        rw [if_pos rfl] at own
        cases rest with
        | nil => simp at own
        | cons second rest => rfl
      · intro spared q other
        rw [spared]
        simp

/-- The thefts from one shard under one lock: the lists stay as they should be exactly when
none of them empties a queue. -/
theorem Shard.Sound.stealEach (sound : shard.Sound) (outTasks : List (TaskEnvelope τ)) (each : List (Fin 3)) :
    ∃ taken, (shard.stealEach outTasks each).2 = outTasks ++ taken ∧
      (shard.stealEach outTasks each).1.Sound ∧
      shard.tasks = taken + (shard.stealEach outTasks each).1.tasks ∧
      ((shard.stealEach outTasks each).1.OrderExact ↔
        shard.OrderExact ∧ shard.sparesLast outTasks each = true) := by
  induction each generalizing shard outTasks with
  | nil =>
    refine ⟨[], (List.append_nil _).symm, sound, ?_, (and_iff_left rfl).symm⟩
    rw [Shard.stealEach, Multiset.coe_nil, zero_add]
  | cons p later ih =>
    rw [Shard.stealEach, Shard.sparesLast]
    split
    next =>
      obtain ⟨extra, moved, notNegative, zero⟩ := sound.stealOne p
      obtain ⟨rests, isRests, after, tasks, listed⟩ :=
        ih moved.sound (outTasks ++ (shard.stealOne p).2.toList)
      have one : (shard.stealOne p).1.OrderExact ↔ shard.OrderExact ∧ shard.takesLast p = false := by
        rw [orderExact_iff moved.sound, orderExact_iff sound, ← zero]
        constructor
        · intro none_left
          have split : ∀ q coll, shard.surplus q coll = 0 ∧ extra q coll = 0 := by
            intro q coll
            have sum := moved.surplus q coll
            have covered := sound.covered q coll
            have more := notNegative q coll
            rw [none_left] at sum
            omega
          exact ⟨fun q coll => (split q coll).1, fun q coll => (split q coll).2⟩
        · intro both q coll
          rw [moved.surplus, both.1, both.2, add_zero]
      refine ⟨(shard.stealOne p).2.toList ++ rests, ?_, after, ?_, ?_⟩
      · rw [isRests, List.append_assoc]
      · rw [moved.tasks, tasks, ← Multiset.coe_add, add_assoc]
      · rw [listed, one, Bool.and_eq_true, Bool.not_eq_true', and_assoc]
    next =>
      refine ⟨[], (List.append_nil _).symm, sound, ?_, (and_iff_left rfl).symm⟩
      rw [Multiset.coe_nil, zero_add]

theorem sound_new : (Shard.new : Shard τ).Sound ∧ (Shard.new : Shard τ).OrderExact := by
  have tasks : (Shard.new : Shard τ).tasks = 0 := rfl
  refine ⟨⟨?_, ?_, ?_⟩, ?_⟩
  · rw [tasks]
    rfl
  · intro p coll queue found
    cases found
  · exact fun p coll => le_rfl
  · intro p
    refine ⟨.nil, fun coll => iff_of_false List.not_mem_nil fun present => ?_⟩
    obtain ⟨queue, found, -⟩ := present
    cases found

end PacificDb.Tasks
