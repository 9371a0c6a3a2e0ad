import Mathlib.Data.List.Nodup
import Mathlib.Data.List.Perm.Subperm
import Mathlib.Logic.Relation
import Mathlib.Order.Basic
import PacificDb.Lib.PriorityQueue

/-!
# Best-first search with a bounded result

From a start the search follows edges to nodes it has not seen, nearest first, and keeps
the `most` nearest of the nodes that count. A node that is farther than all that are kept
is not followed once the result is full.

What it returns is reached from the start, counts, has its own score, and is in order.
If it returns fewer than `most` nodes, then it has seen everything that can be reached.
-/

namespace PacificDb.Lib

/-- Queues that pop the nearest and the farthest of the nodes with their scores. -/
structure SearchQueues (ν D : Type) [LinearOrder D] where
  near : PriorityQueue (D × ν) fun a b => a.1 ≤ b.1
  far : PriorityQueue (D × ν) fun a b => b.1 ≤ a.1

structure BestFirst (ν D : Type) where
  next : ν → List ν
  score : ν → D
  counts : ν → Bool
  most : Nat

namespace BestFirst

variable {ν D : Type} [LinearOrder D] (queues : SearchQueues ν D)
  (search : BestFirst ν D)

structure Frontier where
  visited : List ν
  candidates : queues.near.Queue
  results : queues.far.Queue

variable {queues}

namespace Frontier

/-- The score of the farthest result; without a result there is no bound. -/
def farthest (frontier : Frontier queues) : Option D :=
  (queues.far.pop frontier.results).map fun popped => popped.1.1

def full (frontier : Frontier queues) : Prop := search.most ≤ queues.far.size frontier.results

instance (frontier : Frontier queues) : Decidable (frontier.full search) :=
  inferInstanceAs (Decidable (_ ≤ _))

end Frontier

def nearerThan (bound : Option D) (score : D) : Bool :=
  match bound with
  | none => true
  | some bound => decide (score < bound)

def fartherThan (bound : Option D) (score : D) : Bool :=
  match bound with
  | none => false
  | some bound => decide (bound < score)

/-- Keep a result, and drop the farthest where there are too many. -/
def keep (results : queues.far.Queue) (node : ν) : queues.far.Queue :=
  if search.counts node then
    let pushed := queues.far.push (search.score node, node) results
    if search.most < queues.far.size pushed then
      match queues.far.pop pushed with
      | none => pushed
      | some (_, rest) => rest
    else pushed
  else results

section

variable {search}

theorem mem_keep {node : ν} {results : queues.far.Queue} {found : D × ν}
    (kept : found ∈ queues.far.elements (search.keep results node)) :
    found = (search.score node, node) ∧ search.counts node = true ∨
      found ∈ queues.far.elements results := by
  unfold keep at kept
  split at kept
  next counts =>
    dsimp only at kept
    have pushed : found ∈ queues.far.elements
        (queues.far.push (search.score node, node) results) := by
      split at kept
      next =>
        split at kept
        next => exact kept
        next popped => exact (PriorityQueue.mem_pop popped).mpr (.inr kept)
      next => exact kept
    exact (PriorityQueue.mem_push.mp pushed).imp_left fun same => ⟨same, counts⟩
  next => exact .inr kept

/-- A result that is not full yet loses nothing. -/
theorem mem_keep_of_not_full {node : ν} {results : queues.far.Queue} {found : D × ν}
    (room : queues.far.size results < search.most) :
    found ∈ queues.far.elements (search.keep results node) ↔
      found = (search.score node, node) ∧ search.counts node = true ∨
        found ∈ queues.far.elements results := by
  unfold keep
  split
  next counts =>
    dsimp only
    rw [PriorityQueue.size_push, if_neg (by omega), PriorityQueue.mem_push]
    simp only [counts, and_true]
  next counts =>
    rw [Bool.not_eq_true] at counts
    simp only [counts, Bool.false_eq_true, and_false, false_or]

theorem size_keep (results : queues.far.Queue) (node : ν)
    (bounded : queues.far.size results ≤ search.most) :
    queues.far.size results ≤ queues.far.size (search.keep results node) ∧
      queues.far.size (search.keep results node) ≤ search.most := by
  unfold keep
  split
  next =>
    dsimp only
    have pushed := PriorityQueue.size_push results (search.score node, node)
    split
    next tooMany =>
      split
      next none =>
        have empty := queues.far.pop_none _ none
        rw [PriorityQueue.size, empty] at pushed
        exact absurd pushed (Nat.succ_ne_zero _).symm
      next popped =>
        have smaller := PriorityQueue.size_pop popped
        omega
    next fits => omega
  next => exact ⟨le_rfl, bounded⟩

theorem nodup_keep {node : ν} {results : queues.far.Queue} (fresh : ∀ score, (score, node) ∉ queues.far.elements results)
    (nodup : ((queues.far.elements results).map Prod.snd).Nodup) :
    ((queues.far.elements (search.keep results node)).map Prod.snd).Nodup := by
  have pushed : ((queues.far.elements (queues.far.push (search.score node, node) results)).map
      Prod.snd).Nodup := by
    rw [((queues.far.elements_push (search.score node, node) results).map Prod.snd).nodup_iff,
      List.map_cons, List.nodup_cons]
    refine ⟨fun member => ?_, nodup⟩
    obtain ⟨⟨score, other⟩, inside, same⟩ := List.mem_map.mp member
    cases same
    exact fresh score inside
  unfold keep
  split
  next =>
    dsimp only
    split
    next =>
      split
      next => exact pushed
      next popped =>
        rw [((queues.far.pop_some _ _ _ popped).map Prod.snd).nodup_iff, List.map_cons,
          List.nodup_cons] at pushed
        exact pushed.2
    next => exact pushed
  next => exact nodup

end

variable [DecidableEq ν]

def visit (frontier : Frontier queues) (node : ν) : Frontier queues :=
  if node ∈ frontier.visited then frontier
  else
    let marked := { frontier with visited := node :: frontier.visited }
    if nearerThan frontier.farthest (search.score node) || !decide (frontier.full search) then
      { marked with
        candidates := queues.near.push (search.score node, node) frontier.candidates
        results := search.keep frontier.results node }
    else marked

def explore : Nat → Frontier queues → Frontier queues
  | 0, frontier => frontier
  | fuel + 1, frontier =>
      match queues.near.pop frontier.candidates with
      | none => frontier
      | some ((score, node), rest) =>
          let popped := { frontier with candidates := rest }
          if decide (frontier.full search) && fartherThan frontier.farthest score then popped
          else explore fuel ((search.next node).foldl search.visit popped)

/-- Results that count, without a bound on their number yet. -/
def start (queues : SearchQueues ν D) (first : ν) : Frontier queues where
  visited := [first]
  candidates := queues.near.push (search.score first, first) queues.near.empty
  results :=
    if search.counts first then queues.far.push (search.score first, first) queues.far.empty
    else queues.far.empty

/-- The search that runs for at most `fuel` candidates. -/
def run (queues : SearchQueues ν D) (fuel : Nat) (first : ν) : List (ν × D) :=
  let frontier := search.explore fuel (search.start queues first)
  (queues.far.drain (queues.far.size frontier.results) frontier.results).reverse.map fun found =>
    (found.2, found.1)

/-! ## Soundness -/

variable {search} {frontier : Frontier queues} {node first : ν}

/-- What holds of the frontier at every moment, for nodes with a property `known`. -/
structure Sound (search : BestFirst ν D) (known : ν → Prop) (frontier : Frontier queues) : Prop where
  known : ∀ node ∈ frontier.visited, known node
  candidates : ∀ found ∈ queues.near.elements frontier.candidates,
    found.1 = search.score found.2 ∧ found.2 ∈ frontier.visited
  results : ∀ found ∈ queues.far.elements frontier.results,
    found.1 = search.score found.2 ∧ found.2 ∈ frontier.visited ∧ search.counts found.2 = true
  nodup : ((queues.far.elements frontier.results).map Prod.snd).Nodup
  bounded : queues.far.size frontier.results ≤ search.most

variable {known : ν → Prop}

theorem Sound.visit (sound : Sound search known frontier) (isKnown : known node) :
    Sound search known (search.visit frontier node) := by
  unfold BestFirst.visit
  split
  next => exact sound
  next fresh =>
    have marked : ∀ other ∈ node :: frontier.visited, known other :=
      List.forall_mem_cons.mpr ⟨isKnown, sound.known⟩
    dsimp only
    split
    next =>
      refine ⟨marked, ?_, ?_, ?_, (size_keep frontier.results node sound.bounded).2⟩
      · intro found member
        rcases PriorityQueue.mem_push.mp member with same | before
        · rw [same]
          exact ⟨rfl, List.mem_cons_self⟩
        · obtain ⟨score, seen⟩ := sound.candidates found before
          exact ⟨score, List.mem_cons_of_mem _ seen⟩
      · intro found member
        rcases mem_keep member with ⟨same, counts⟩ | before
        · rw [same]
          exact ⟨rfl, List.mem_cons_self, counts⟩
        · obtain ⟨score, seen, counts⟩ := sound.results found before
          exact ⟨score, List.mem_cons_of_mem _ seen, counts⟩
      · exact nodup_keep (fun score member => fresh (sound.results _ member).2.1) sound.nodup
    next =>
      refine ⟨marked, fun found member => ?_, fun found member => ?_, sound.nodup, sound.bounded⟩
      · obtain ⟨score, seen⟩ := sound.candidates found member
        exact ⟨score, List.mem_cons_of_mem _ seen⟩
      · obtain ⟨score, seen, counts⟩ := sound.results found member
        exact ⟨score, List.mem_cons_of_mem _ seen, counts⟩

theorem Sound.visitAll {nodes : List ν} (sound : Sound search known frontier)
    (isKnown : ∀ node ∈ nodes, known node) :
    Sound search known (nodes.foldl search.visit frontier) := by
  induction nodes generalizing frontier with
  | nil => exact sound
  | cons node nodes ih =>
    obtain ⟨first, rest⟩ := List.forall_mem_cons.mp isKnown
    exact ih (sound.visit first) rest

omit [DecidableEq ν] in
theorem Sound.pop {found : D × ν} {rest : queues.near.Queue} (sound : Sound search known frontier)
    (popped : queues.near.pop frontier.candidates = some (found, rest)) :
    Sound search known { frontier with candidates := rest } :=
  ⟨sound.known, fun other member =>
    sound.candidates other ((PriorityQueue.mem_pop popped).mpr (.inr member)), sound.results,
    sound.nodup, sound.bounded⟩

theorem Sound.explore {fuel : Nat} (sound : Sound search known frontier)
    (closed : ∀ node, known node → ∀ other ∈ search.next node, known other) :
    Sound search known (search.explore fuel frontier) := by
  induction fuel generalizing frontier with
  | zero => exact sound
  | succ fuel ih =>
    rw [BestFirst.explore]
    split
    next => exact sound
    next score node rest popped =>
      have isKnown : known node := by
        have member := (PriorityQueue.mem_pop popped).mpr (.inl rfl)
        exact sound.known node (sound.candidates _ member).2
      dsimp only
      split
      next => exact sound.pop popped
      next => exact ih ((sound.pop popped).visitAll (closed node isKnown))

omit [DecidableEq ν] in
theorem sound_start (isKnown : known first) (room : 0 < search.most) :
    Sound search known (search.start queues first) := by
  refine ⟨fun node member => ?_, fun found member => ?_, fun found member => ?_, ?_, ?_⟩
  · rw [List.mem_singleton.mp member]
    exact isKnown
  · rcases PriorityQueue.mem_push.mp member with same | none
    · rw [same]
      exact ⟨rfl, List.mem_singleton_self _⟩
    · rw [queues.near.elements_empty] at none
      cases none
  · unfold start at member
    split at member
    next counts =>
      rcases PriorityQueue.mem_push.mp member with same | none
      · rw [same]
        exact ⟨rfl, List.mem_singleton_self _, counts⟩
      · rw [queues.far.elements_empty] at none
        cases none
    next =>
      rw [queues.far.elements_empty] at member
      cases member
  · unfold start
    split
    next =>
      rw [((queues.far.elements_push _ _).map Prod.snd).nodup_iff, queues.far.elements_empty]
      exact List.nodup_singleton _
    next =>
      rw [queues.far.elements_empty]
      exact List.nodup_nil
  · unfold start PriorityQueue.size
    split
    next =>
      rw [(queues.far.elements_push _ _).length_eq, queues.far.elements_empty]
      exact room
    next =>
      rw [queues.far.elements_empty]
      exact Nat.zero_le _

theorem mem_run {fuel : Nat} {found : ν × D} :
    found ∈ search.run queues fuel first ↔ (found.2, found.1) ∈
      queues.far.elements (search.explore fuel (search.start queues first)).results := by
  unfold run
  dsimp only
  rw [List.mem_map]
  constructor
  · rintro ⟨⟨score, node⟩, member, rfl⟩
    exact (PriorityQueue.drain_perm _ _ le_rfl).mem_iff.mp (List.mem_reverse.mp member)
  · intro member
    exact ⟨_, List.mem_reverse.mpr ((PriorityQueue.drain_perm _ _ le_rfl).mem_iff.mpr member), rfl⟩

theorem length_run {fuel : Nat} : (search.run queues fuel first).length =
    queues.far.size (search.explore fuel (search.start queues first)).results := by
  unfold run
  dsimp only
  rw [List.length_map, List.length_reverse, (PriorityQueue.drain_perm _ _ le_rfl).length_eq]
  rfl

/-- What a search returns. -/
structure Returns (search : BestFirst ν D) (known : ν → Prop) (found : List (ν × D)) : Prop where
  each : ∀ pair ∈ found, known pair.1 ∧ pair.2 = search.score pair.1 ∧ search.counts pair.1 = true
  nodup : (found.map Prod.fst).Nodup
  sorted : found.Pairwise fun first second => first.2 ≤ second.2
  bounded : found.length ≤ search.most

theorem run_returns {fuel : Nat} (isKnown : known first)
    (closed : ∀ node, known node → ∀ other ∈ search.next node, known other)
    (room : 0 < search.most) : Returns search known (search.run queues fuel first) := by
  have sound := @Sound.explore ν D _ queues search _ _ known fuel (sound_start isKnown room) closed
  constructor
  · intro pair member
    obtain ⟨score, seen, counts⟩ := sound.results _ (mem_run.mp member)
    exact ⟨sound.known _ seen, score, counts⟩
  · unfold run
    dsimp only
    rw [List.map_map, List.map_reverse, List.nodup_reverse]
    exact ((PriorityQueue.drain_perm _ _ le_rfl).map Prod.snd).nodup_iff.mpr sound.nodup
  · unfold run
    dsimp only
    rw [List.pairwise_map, List.pairwise_reverse]
    exact PriorityQueue.drain_sorted _ _ le_rfl
  · rw [length_run]
    exact sound.bounded

/-! ## Completeness -/

theorem visited_visit (search : BestFirst ν D) (frontier : Frontier queues) (node : ν) :
    node ∈ (search.visit frontier node).visited ∧
      ∀ other ∈ frontier.visited, other ∈ (search.visit frontier node).visited := by
  unfold visit
  split
  next seen => exact ⟨seen, fun _ member => member⟩
  next =>
    dsimp only
    split
    next => exact ⟨List.mem_cons_self, fun _ member => List.mem_cons_of_mem _ member⟩
    next => exact ⟨List.mem_cons_self, fun _ member => List.mem_cons_of_mem _ member⟩

theorem visited_visitAll (search : BestFirst ν D) (nodes : List ν) (frontier : Frontier queues) :
    (∀ node ∈ nodes, node ∈ (nodes.foldl search.visit frontier).visited) ∧
      ∀ other ∈ frontier.visited, other ∈ (nodes.foldl search.visit frontier).visited := by
  induction nodes generalizing frontier with
  | nil => exact ⟨nofun, fun _ member => member⟩
  | cons node nodes ih =>
    obtain ⟨isVisited, keeps⟩ := visited_visit search frontier node
    obtain ⟨rest, later⟩ := ih (search.visit frontier node)
    exact ⟨List.forall_mem_cons.mpr ⟨later node isVisited, rest⟩,
      fun other member => later other (keeps other member)⟩

theorem visited_explore {fuel : Nat} (seen : node ∈ frontier.visited) :
    node ∈ (search.explore fuel frontier).visited := by
  induction fuel generalizing frontier with
  | zero => exact seen
  | succ fuel ih =>
    rw [explore]
    split
    next => exact seen
    next =>
      dsimp only
      split
      next => exact seen
      next => exact ih ((visited_visitAll search _ _).2 node seen)

theorem size_visit (search : BestFirst ν D) (frontier : Frontier queues) (node : ν)
    (bounded : queues.far.size frontier.results ≤ search.most) :
    queues.far.size frontier.results ≤ queues.far.size (search.visit frontier node).results ∧
      queues.far.size (search.visit frontier node).results ≤ search.most := by
  unfold visit
  split
  next => exact ⟨le_rfl, bounded⟩
  next =>
    dsimp only
    split
    next => exact size_keep frontier.results node bounded
    next => exact ⟨le_rfl, bounded⟩

/-- While there is room nothing that was seen is lost, and what is not waiting was
followed, the nodes in `open_` apart. -/
structure Whole (search : BestFirst ν D) (open_ : ν → Prop) (frontier : Frontier queues) : Prop where
  kept : ∀ node ∈ frontier.visited, search.counts node = true →
    (search.score node, node) ∈ queues.far.elements frontier.results
  followed : ∀ node ∈ frontier.visited, open_ node ∨
    (∃ score, (score, node) ∈ queues.near.elements frontier.candidates) ∨
      ∀ other ∈ search.next node, other ∈ frontier.visited

variable {open_ : ν → Prop}

theorem Whole.visit (whole : Whole search open_ frontier) (room : ¬frontier.full search) :
    Whole search open_ (search.visit frontier node) := by
  unfold BestFirst.visit
  split
  next => exact whole
  next fresh =>
    dsimp only
    rw [decide_eq_false room, Bool.not_false, Bool.or_true, if_pos rfl]
    have below : queues.far.size frontier.results < search.most := not_le.mp room
    constructor
    · intro other seen counts
      refine (mem_keep_of_not_full below).mpr ?_
      rcases List.mem_cons.mp seen with same | before
      · rw [same] at counts ⊢
        exact .inl ⟨rfl, counts⟩
      · exact .inr (whole.kept other before counts)
    · intro other seen
      rcases List.mem_cons.mp seen with same | before
      · rw [same]
        exact .inr (.inl ⟨_, PriorityQueue.mem_push.mpr (.inl rfl)⟩)
      · rcases whole.followed other before with isOpen | ⟨score, waiting⟩ | followed
        · exact .inl isOpen
        · exact .inr (.inl ⟨score, PriorityQueue.mem_push.mpr (.inr waiting)⟩)
        · exact .inr (.inr fun target edge => List.mem_cons_of_mem _ (followed target edge))

theorem Whole.visitAll {nodes : List ν}
    (bounded : queues.far.size frontier.results ≤ search.most)
    (whole : ¬frontier.full search → Whole search open_ frontier) :
    ¬(nodes.foldl search.visit frontier).full search →
      Whole search open_ (nodes.foldl search.visit frontier) := by
  induction nodes generalizing frontier with
  | nil => exact whole
  | cons node nodes ih =>
    obtain ⟨grows, fits⟩ := size_visit search frontier node bounded
    refine ih fits fun room => ?_
    have before : ¬frontier.full search := fun full => room (full.trans grows)
    exact (whole before).visit before

theorem bounded_visitAll (search : BestFirst ν D) (nodes : List ν)
    (bounded : queues.far.size frontier.results ≤ search.most) :
    queues.far.size frontier.results ≤
      queues.far.size (nodes.foldl search.visit frontier).results ∧
        queues.far.size (nodes.foldl search.visit frontier).results ≤ search.most := by
  induction nodes generalizing frontier with
  | nil => exact ⟨le_rfl, bounded⟩
  | cons node nodes ih =>
    obtain ⟨grows, fits⟩ := size_visit search frontier node bounded
    exact ⟨grows.trans (ih fits).1, (ih fits).2⟩

theorem Whole.explore {fuel : Nat} (bounded : queues.far.size frontier.results ≤ search.most)
    (whole : ¬frontier.full search → Whole search (fun _ => False) frontier) :
    ¬(search.explore fuel frontier).full search →
      Whole search (fun _ => False) (search.explore fuel frontier) := by
  induction fuel generalizing frontier with
  | zero => exact whole
  | succ fuel ih =>
    rw [BestFirst.explore]
    split
    next => exact whole
    next score node rest popped =>
      dsimp only
      split
      next broke =>
        rw [Bool.and_eq_true, decide_eq_true_eq] at broke
        exact fun room => absurd broke.1 room
      next =>
        have fits := @bounded_visitAll _ _ _ queues _ { frontier with candidates := rest } search
          (search.next node) bounded
        refine ih fits.2 fun room => ?_
        -- The node that was popped is open until all its edges are followed.
        have opened : ¬frontier.full search →
            Whole search (fun other => other = node) { frontier with candidates := rest } := by
          intro before
          refine ⟨(whole before).kept, fun other seen => ?_⟩
          rcases (whole before).followed other seen with none | ⟨score, waiting⟩ | followed
          · cases none
          · rcases (PriorityQueue.mem_pop popped).mp waiting with same | later
            · exact .inl (congrArg Prod.snd same)
            · exact .inr (.inl ⟨score, later⟩)
          · exact .inr (.inr followed)
        have after := @Whole.visitAll _ _ _ queues search _ { frontier with candidates := rest } _
          (search.next node) bounded opened room
        have seen := visited_visitAll search (search.next node) { frontier with candidates := rest }
        refine ⟨after.kept, fun other isSeen => .inr ?_⟩
        rcases after.followed other isSeen with same | rest
        · rw [same]
          exact .inr seen.1
        · exact rest

/-! ## The end of a search -/

/-- Every node that is seen waits at most once. -/
structure Fresh (all : List ν) (fuel : Nat) (frontier : Frontier queues) : Prop where
  nodup : frontier.visited.Nodup
  inside : ∀ node ∈ frontier.visited, node ∈ all
  enough : queues.near.size frontier.candidates + all.length ≤ fuel + frontier.visited.length

variable {all : List ν} {fuel : Nat}

theorem Fresh.visit (fresh : Fresh all fuel frontier) (isNode : node ∈ all) :
    Fresh all fuel (search.visit frontier node) := by
  obtain ⟨nodup, inside, enough⟩ := fresh
  unfold BestFirst.visit
  split
  next => exact ⟨nodup, inside, enough⟩
  next unseen =>
    dsimp only
    split
    next =>
      refine ⟨List.nodup_cons.mpr ⟨unseen, nodup⟩, List.forall_mem_cons.mpr ⟨isNode, inside⟩, ?_⟩
      dsimp only
      rw [PriorityQueue.size_push, List.length_cons]
      omega
    next =>
      refine ⟨List.nodup_cons.mpr ⟨unseen, nodup⟩, List.forall_mem_cons.mpr ⟨isNode, inside⟩, ?_⟩
      dsimp only
      rw [List.length_cons]
      omega

theorem Fresh.visitAll {nodes : List ν} (fresh : Fresh all fuel frontier)
    (areNodes : ∀ node ∈ nodes, node ∈ all) : Fresh all fuel (nodes.foldl search.visit frontier) := by
  induction nodes generalizing frontier with
  | nil => exact fresh
  | cons node nodes ih =>
    obtain ⟨first, rest⟩ := List.forall_mem_cons.mp areNodes
    exact ih (fresh.visit first) rest

/-- With a step for every node the search ends full or with nothing left to follow. -/
theorem explore_ends (fresh : Fresh all fuel frontier)
    (sound : Sound search (· ∈ all) frontier)
    (closed : ∀ node ∈ all, ∀ other ∈ search.next node, other ∈ all) :
    (search.explore fuel frontier).full search ∨
      queues.near.elements (search.explore fuel frontier).candidates = [] := by
  induction fuel generalizing frontier with
  | zero =>
    have visited := (List.subperm_of_subset fresh.nodup fresh.inside).length_le
    have enough := fresh.enough
    refine .inr (List.length_eq_zero_iff.mp ?_)
    change queues.near.size frontier.candidates = 0
    omega
  | succ fuel ih =>
    rw [explore]
    split
    next none => exact .inr (queues.near.pop_none _ none)
    next score node rest popped =>
      dsimp only
      have isNode : node ∈ all := by
        have member := (PriorityQueue.mem_pop popped).mpr (.inl rfl)
        exact sound.known node (sound.candidates _ member).2
      split
      next broke =>
        rw [Bool.and_eq_true, decide_eq_true_eq] at broke
        exact .inl broke.1
      next =>
        have smaller := PriorityQueue.size_pop popped
        have enough := fresh.enough
        have popped' : Fresh all fuel { frontier with candidates := rest } :=
          ⟨fresh.nodup, fresh.inside, by dsimp only; omega⟩
        exact ih (popped'.visitAll (closed node isNode))
          ((sound.pop popped).visitAll (closed node isNode))

/-- A search that is not full returned every node that counts and can be reached. -/
theorem run_complete (isNode : first ∈ all)
    (closed : ∀ node ∈ all, ∀ other ∈ search.next node, other ∈ all) (enough : all.length ≤ fuel)
    (room : 0 < search.most) (short : (search.run queues fuel first).length < search.most)
    (reached : Relation.ReflTransGen (fun node other => other ∈ search.next node) first node)
    (counts : search.counts node = true) :
    ∃ score, (node, score) ∈ search.run queues fuel first := by
  have sound := @sound_start ν D _ queues search first (· ∈ all) isNode room
  have fresh : Fresh all fuel (search.start queues first) := by
    refine ⟨List.nodup_singleton first, fun other member => ?_, ?_⟩
    · rw [List.mem_singleton.mp member]
      exact isNode
    · unfold start
      dsimp only
      rw [PriorityQueue.size_push, PriorityQueue.size, queues.near.elements_empty]
      simp only [List.length_nil, List.length_singleton]
      omega
  have whole : Whole search (fun _ => False) (search.start queues first) := by
    constructor
    · intro other member counts
      rw [List.mem_singleton.mp member] at counts ⊢
      unfold start
      dsimp only
      rw [if_pos counts]
      exact PriorityQueue.mem_push.mpr (.inl rfl)
    · intro other member
      rw [List.mem_singleton.mp member]
      exact .inr (.inl ⟨_, PriorityQueue.mem_push.mpr (.inl rfl)⟩)
  rw [length_run] at short
  have notFull : ¬(search.explore fuel (search.start queues first)).full search := not_le.mpr short
  have ended := (explore_ends fresh sound closed).resolve_left notFull
  have final := Whole.explore sound.bounded (fun _ => whole) notFull
  have seen : node ∈ (search.explore fuel (search.start queues first)).visited := by
    clear counts
    induction reached with
    | refl => exact visited_explore (List.mem_singleton_self _)
    | tail _ edge ih =>
      rcases final.followed _ ih with none | ⟨score, waiting⟩ | followed
      · cases none
      · rw [ended] at waiting
        cases waiting
      · exact followed _ edge
  exact ⟨search.score node, mem_run.mpr (final.kept node seen counts)⟩

end BestFirst

end PacificDb.Lib
