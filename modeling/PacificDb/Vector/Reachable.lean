import Mathlib.Algebra.Order.BigOperators.Group.List
import Mathlib.Algebra.Order.Ring.Nat
import PacificDb.Vector.History

/-!
# How many hits a query has

A query asks for a number of hits, and its caller rejects an answer with fewer while
live nodes are left. A live node is found if it can be reached from where the descent
ends. Links never lose that, except where a list is too long: `prune` may drop the only
link to a node. As long as every node that is dropped from a list of the lowest layer is
linked from a node that the list keeps, the nodes reach each other, and every query has
all the hits it can have.
-/

namespace PacificDb.Vector

open Lib

namespace HNSWIndex

variable {V D : Type} [Inhabited V] [LinearOrder D] {space : Space V D} {std : Standard D}
  {s t u : HNSWIndex V} {i j k l idx entry n neighbor : Nat} {query : V}

/-! ## What pruning may drop -/

/-- What links lead to from `reached`, with nodes of `list` on the way. -/
def covered (s : HNSWIndex V) (list : List Nat) : Nat → List Nat → List Nat
  | 0, reached => reached
  | fuel + 1, reached =>
      covered s list fuel
        (reached ++ list.filter fun y => reached.any fun z => decide (y ∈ s.links z 0))

/-- Links among the nodes of `list` lead from those in the list of `i` to the others. -/
def Retained (s : HNSWIndex V) (i : Nat) (list : List Nat) : Prop :=
  ∀ y ∈ list, y = i ∨ y ∈ s.covered list list.length (s.links i 0)

instance decidableRetained (s : HNSWIndex V) (i : Nat) (list : List Nat) :
    Decidable (s.Retained i list) :=
  inferInstanceAs (Decidable (∀ y ∈ _, _))

variable (space std) in
/-- The lists with all the new links, of which pruning dropped some. -/
def LinksBridged (idx : Nat) (s : HNSWIndex V) (chosen : List Nat) : Prop :=
  let linked := chosen.foldl (link space std 0 idx) s
  linked.Retained idx (s.links idx 0 ++ chosen) ∧
    ∀ c ∈ chosen, linked.Retained c (s.links c 0 ++ [idx])

instance decidableLinksBridged (idx : Nat) (s : HNSWIndex V) (chosen : List Nat) :
    Decidable (LinksBridged space std idx s chosen) :=
  inferInstanceAs (Decidable (_ ∧ ∀ c ∈ _, _))

variable (space std) in
/-- From layer `l` down, with a look at the lowest. -/
def LayersBridged (idx : Nat) (query : V) : Nat → HNSWIndex V → Nat → Prop
  | 0, s, entry => LinksBridged space std idx s (s.chosen space std query 0 entry)
  | l + 1, s, entry =>
      LayersBridged idx query l (s.connectLayer space std idx query (l + 1) entry)
        (nearest (s.searchLayer space std query entry s.config.efConstruction (l + 1) false) entry)

instance decidableLayersBridged : ∀ (idx : Nat) (query : V) (l : Nat) (s : HNSWIndex V) (entry : Nat),
    Decidable (LayersBridged space std idx query l s entry)
  | idx, _, 0, s, _ => decidableLinksBridged idx s _
  | idx, query, l + 1, _, _ => decidableLayersBridged idx query l _ _

variable (space std) in
def ConnectBridged (s : HNSWIndex V) (idx : Nat) : Prop :=
  idx ≠ 0 → LayersBridged space std idx (s.node idx).vector (min (s.layers idx - 1) s.maxLevel) s
    (s.descend space std (s.node idx).vector (s.layers idx - 1) s.maxLevel s.entryPoint)

instance decidableConnectBridged (s : HNSWIndex V) (idx : Nat) :
    Decidable (s.ConnectBridged space std idx) :=
  inferInstanceAs (Decidable (_ → _))

variable (space std) in
/-- Every pruning on the lowest layer in the operation is bridged. -/
def PrunesBridged (s : HNSWIndex V) : Op V → Prop
  | .insert id vector record level =>
      ∀ joined ∈ s.joining space id vector false record level,
        joined.ConnectBridged space std s.nodes.length
  | .upsert id vector record level =>
      ∀ joined ∈ s.joining space id vector true record level,
        joined.ConnectBridged space std s.nodes.length
  | .buildStaged => ∀ n < s.nodes.length,
      ((List.range n).foldl (connectLocked space std) s).ConnectBridged space std n
  | _ => True

instance decidablePrunesBridged (s : HNSWIndex V) : ∀ op, Decidable (s.PrunesBridged space std op)
  | .insert _ _ _ _ | .upsert _ _ _ _ => inferInstanceAs (Decidable (∀ joined ∈ _, _))
  | .buildStaged => inferInstanceAs (Decidable (∀ n < _, _))
  | .remove _ | .stage _ _ _ _ => .isTrue trivial

/-! ## Links keep what is reached -/

/-- The nodes that are reached on the lowest layer. -/
def Reaches (s : HNSWIndex V) : Nat → Nat → Prop :=
  Relation.ReflTransGen fun i x => x ∈ s.links i 0

/-- Every edge of `s` is a path of `t`. -/
def Through (s t : HNSWIndex V) : Prop := ∀ i, ∀ x ∈ s.links i 0, t.Reaches i x

theorem Through.reaches (through : Through s t) (reaches : s.Reaches i j) : t.Reaches i j := by
  induction reaches with
  | refl => exact .refl
  | tail _ edge ih => exact ih.trans (through _ _ edge)

theorem Through.refl (s : HNSWIndex V) : Through s s := fun _ _ edge => .single edge

theorem Through.trans (first : Through s t) (second : Through t u) : Through s u :=
  fun i x edge => second.reaches (first i x edge)

theorem through_of_links (same : ∀ i, t.links i 0 = s.links i 0) : Through s t := by
  intro i x edge
  rw [← same] at edge
  exact .single edge

omit [LinearOrder D] in
theorem reaches_covered {list reached : List Nat} {fuel y : Nat} (start : ∀ z ∈ reached, s.Reaches i z)
    (member : y ∈ s.covered list fuel reached) : s.Reaches i y := by
  induction fuel generalizing reached with
  | zero => exact start y member
  | succ fuel ih =>
    refine ih (fun z inside => ?_) member
    rcases List.mem_append.mp inside with before | isNew
    · exact start z before
    · obtain ⟨-, edge⟩ := List.mem_filter.mp isNew
      obtain ⟨x, known, linked⟩ := List.any_eq_true.mp edge
      exact (start x known).tail (of_decide_eq_true linked)

omit [LinearOrder D] in
theorem Retained.reaches {list : List Nat} {y : Nat} (retained : s.Retained i list)
    (member : y ∈ list) : s.Reaches i y := by
  rcases retained y member with rfl | isCovered
  · exact .refl
  · exact reaches_covered (fun z linked => .single linked) isCovered

theorem links_links_unchosen {chosen : List Nat} (notOwn : j ≠ idx) (unchosen : j ∉ chosen) :
    (chosen.foldl (link space std l idx) s).links j k = s.links j k := by
  induction chosen generalizing s with
  | nil => rfl
  | cons c rest ih =>
    rw [List.mem_cons, not_or] at unchosen
    exact (ih unchosen.2).trans (links_link_other (.inr ⟨notOwn, unchosen.1⟩))

/-- The ends of the links reach each other, and no path is lost. -/
theorem LinksBridged.through {chosen : List Nat} (bridged : LinksBridged space std idx s chosen) :
    Through s (chosen.foldl (link space std 0 idx) s) ∧
      ∀ c ∈ chosen, (chosen.foldl (link space std 0 idx) s).Reaches idx c ∧
        (chosen.foldl (link space std 0 idx) s).Reaches c idx := by
  obtain ⟨own, others⟩ := bridged
  refine ⟨fun i x edge => ?_, fun c member => ?_⟩
  · by_cases isOwn : i = idx
    · rw [isOwn] at edge ⊢
      exact own.reaches (List.mem_append_left _ edge)
    · by_cases isChosen : i ∈ chosen
      · exact (others i isChosen).reaches (List.mem_append_left _ edge)
      · refine .single ?_
        rw [links_links_unchosen isOwn isChosen]
        exact edge
  · exact ⟨own.reaches (List.mem_append_right _ member),
      (others c member).reaches (List.mem_append_right _ List.mem_cons_self)⟩

/-! ## A new node is reached -/

variable {known : Nat → Prop}

/-- A search of all nodes of a layer finds one. -/
theorem searchLayer_ne_nil {ef : Nat} (grounded : s.Grounded) (on : l < s.layers entry)
    (room : 0 < ef) : s.searchLayer space std query entry ef l false ≠ [] := by
  intro none
  have closed : ∀ i ∈ List.range s.nodes.length, ∀ x ∈ s.links i l, x ∈ List.range s.nodes.length :=
    fun i _ x member => List.mem_range.mpr (lt_length_of_layer (grounded i l x member))
  have short : (s.searchLayer space std query entry ef l false).length < ef := by
    rw [none]
    exact room
  obtain ⟨score, found⟩ := @BestFirst.run_complete Nat D _ std.queues
    (s.layerSearch space query ef l false) _ entry entry (List.range s.nodes.length) s.nodes.length
    (List.mem_range.mpr (lt_length_of_layer on)) closed (by rw [List.length_range]) room short .refl rfl
  change (entry, score) ∈ s.searchLayer space std query entry ef l false at found
  rw [none] at found
  cases found

theorem chosen_ne_nil (grounded : s.Grounded) (on : l < s.layers entry) :
    s.chosen space std query l entry ≠ [] := by
  unfold chosen
  cases found : s.searchLayer space std query entry s.config.efConstruction l false with
  | nil => exact absurd found (searchLayer_ne_nil grounded on s.efConstruction_pos)
  | cons first rest => exact List.ne_nil_of_mem (selectNeighbors_cons s _ first rest)

/-- No path is lost, and the new node and a known one reach each other. -/
theorem LayersBridged.through (bridged : LayersBridged space std idx query l s entry)
    (grounded : s.Grounded) (own : l < s.layers idx) (on : l < s.layers entry)
    (closed : ∀ k ≤ l, s.Closed k known) (isKnown : known entry) :
    Through s (connectLayers space std idx query l s entry) ∧ ∃ c, known c ∧
      (connectLayers space std idx query l s entry).Reaches idx c ∧
        (connectLayers space std idx query l s entry).Reaches c idx := by
  induction l generalizing s entry with
  | zero =>
    obtain ⟨through, ends⟩ := LinksBridged.through bridged
    obtain ⟨c, member⟩ := List.exists_mem_of_ne_nil _
      (@chosen_ne_nil V D _ _ space std s 0 entry query grounded on)
    exact ⟨through, c, chosen_known (closed 0 le_rfl) isKnown c member, ends c member⟩
  | succ l ih =>
    have rewired : Rewired s (s.connectLayer space std idx query (l + 1) entry) := rewired_links
    have untouched : ∀ k ≤ l, ∀ i,
        (s.connectLayer space std idx query (l + 1) entry).links i k = s.links i k :=
      fun k below i => links_links_other (Nat.lt_succ_of_le below).ne
    have found := @nearest_known V D _ _ space std s (l + 1) entry query _ _ false
      (grounded.closed (l + 1)) on s.efConstruction_pos
    have first : Through s (s.connectLayer space std idx query (l + 1) entry) :=
      through_of_links (untouched 0 (Nat.zero_le l))
    obtain ⟨through, c, ends⟩ := @ih _ _ bridged
      (grounded.links own (chosen_known (grounded.closed (l + 1)) on))
      ((rewired.layers idx).symm ▸ (Nat.lt_succ_self l).trans own)
      ((rewired.layers _).symm ▸ (Nat.lt_succ_self l).trans found)
      (fun k below i isIn x member => closed k (Nat.le_succ_of_le below) i isIn x
        (untouched k below i ▸ member))
      (nearest_known (closed (l + 1) le_rfl) isKnown s.efConstruction_pos)
    exact ⟨first.trans through, c, ends⟩

theorem ConnectBridged.through (bridged : s.ConnectBridged space std idx) (grounded : s.Grounded)
    (placed : s.Placed idx) (own : 0 < s.layers idx) (closed : ∀ k, s.Closed k known)
    (isKnown : known s.entryPoint) :
    Through s (s.connectLocked space std idx) ∧ (idx ≠ 0 → ∃ c, known c ∧
      (s.connectLocked space std idx).Reaches idx c ∧
        (s.connectLocked space std idx).Reaches c idx) := by
  unfold connectLocked
  dsimp only
  split
  next first => exact ⟨.refl s, fun notFirst => absurd first notFirst⟩
  next notFirst =>
    have linked := LayersBridged.through (bridged notFirst) grounded (by omega)
      (@entry_layer V D _ _ space std s idx grounded placed notFirst _ _) (fun k _ => closed k)
      (descend_known closed isKnown)
    split
    next => exact ⟨linked.1, fun _ => linked.2⟩
    next => exact ⟨linked.1, fun _ => linked.2⟩

/-! ## All nodes reach each other -/

/-- The first `n` nodes reach each other on the lowest layer. -/
def Joined (s : HNSWIndex V) (n : Nat) : Prop := ∀ i < n, ∀ j < n, s.Reaches i j

theorem Joined.through (joined : s.Joined n) (through : Through s t) : t.Joined n :=
  fun i first j second => through.reaches (joined i first j second)

theorem Joined.connectLocked (joined : s.Joined idx) (bridged : s.ConnectBridged space std idx)
    (grounded : s.Grounded) (placed : s.Placed idx) (own : 0 < s.layers idx)
    (within : ∀ k, s.Within idx k) : (s.connectLocked space std idx).Joined (idx + 1) := by
  rcases Nat.eq_zero_or_pos idx with rfl | positive
  · intro i first j second
    rw [Nat.lt_one_iff.mp first, Nat.lt_one_iff.mp second]
    exact .refl
  · obtain ⟨through, ends⟩ := @ConnectBridged.through V D _ _ space std s idx (· < idx) bridged
      grounded placed own (fun k i _ x member => (within k i x member).2)
      (placed.resolve_left positive.ne').1
    obtain ⟨c, before, forth, back⟩ := ends positive.ne'
    have old := joined.through through
    intro i first j second
    rcases Nat.lt_succ_iff_lt_or_eq.mp first with isOld | rfl
    · rcases Nat.lt_succ_iff_lt_or_eq.mp second with also | rfl
      · exact old i isOld j also
      · exact (old i isOld c before).trans back
    · rcases Nat.lt_succ_iff_lt_or_eq.mp second with also | rfl
      · exact forth.trans (old c before j also)
      · exact .refl

/-- An index that is built has all its nodes joined; what is staged has no edges. -/
structure Navigable (s : HNSWIndex V) : Prop where
  healthy : s.Healthy
  unlinked : s.staged = true → ∀ k, s.Within 0 k
  joined : s.staged = false → s.Joined s.nodes.length

theorem SameGraph.through (same : SameGraph s t) : Through s t := through_of_links fun i => same.links i 0

theorem SameGraph.joined (same : SameGraph s t) (joined : s.Joined n) : t.Joined n :=
  joined.through same.through

theorem Appended.joined {new : HNSWNode V} (appended : Appended s t new) (joined : s.Joined n) :
    t.Joined n :=
  joined.through (through_of_links fun i => appended.links i 0)

theorem Navigable.insertLocked {id : String} {vector : V} {replace inserted : Bool}
    {record : List UInt8} {level : Nat} (navigable : s.Navigable)
    (bridged : ∀ joined ∈ s.joining space id vector replace record level,
      joined.ConnectBridged space std s.nodes.length)
    (did : s.insertLocked space std id vector replace record level = .ok (inserted, t)) :
    t.Navigable := by
  have healthy := navigable.healthy
  obtain ⟨built, same | ⟨old, found, same⟩ | ⟨appended, new, grown, isBuilt, joins, same⟩⟩ :=
    insertLocked_cases healthy did
  · refine ⟨healthy.insertLocked did, ?_, ?_⟩
    · rw [same]
      exact navigable.unlinked
    · rw [same]
      exact navigable.joined
  · have graph := sameGraph_setRecord { s with dimensions := t.dimensions } old record
    rw [← same] at graph
    refine ⟨healthy.insertLocked did, fun staged => ?_, fun _ => ?_⟩
    · exact absurd (built.symm.trans (graph.staged ▸ staged)) Bool.false_ne_true
    · rw [graph.length]
      exact graph.joined (navigable.joined built)
  · have kept := @kept_connectLocked V D _ _ space std appended s.nodes.length
    have whole := Joined.connectLocked (grown.joined (navigable.joined built))
      (bridged appended joins) (grown.grounded healthy.grounded)
      (grown.placed (healthy.placed built)) grown.own
      fun k => grown.within (within_length healthy.grounded k)
    rw [← same] at kept whole
    refine ⟨healthy.insertLocked did, fun staged => ?_, fun _ => ?_⟩
    · exact absurd (isBuilt.symm.trans (kept.staged ▸ staged)) Bool.false_ne_true
    · rw [kept.length, grown.length]
      exact whole

omit [LinearOrder D] in
theorem Navigable.stage {id : String} {vector : V} {staged : Bool} {record : List UInt8} {level : Nat}
    (navigable : s.Navigable) (did : s.stage space id vector record level = .ok (staged, t)) :
    t.Navigable := by
  have healthy := navigable.healthy.stage did
  rcases stage_cases did with same | ⟨before, cases_⟩
  · rw [same]
    exact navigable
  · have unlinked : ∀ k, s.Within 0 k := by
      rcases before with isStaged | empty
      · exact navigable.unlinked isStaged
      · intro k
        have within := within_length navigable.healthy.grounded k
        rw [empty] at within
        exact within
    rcases cases_ with same | ⟨new, grown, isStaged⟩
    · refine ⟨healthy, fun _ => ?_, fun built => ?_⟩
      · rw [same]
        exact unlinked
      · rw [same] at built
        cases built
    · exact ⟨healthy, fun _ k => grown.within (unlinked k), fun built =>
        absurd (isStaged.symm.trans built).symm Bool.false_ne_true⟩

theorem Navigable.remove (navigable : s.Navigable) (id : String) : (s.remove id).2.Navigable := by
  have healthy := navigable.healthy.remove id
  unfold HNSWIndex.remove at healthy ⊢
  split at healthy
  next => exact navigable
  next i found =>
    have same := sameGraph_markDeleted s i
    refine ⟨healthy, fun staged k => ?_, fun built => ?_⟩
    · exact same.within (navigable.unlinked staged k)
    · have length : (s.markDeleted i).nodes.length = s.nodes.length := same.length
      change (s.markDeleted i).Joined (s.markDeleted i).nodes.length
      rw [length]
      exact same.joined (navigable.joined built)

/-- The first nodes are connected, in an index whose nodes are joined or have no edges. -/
theorem joined_first (healthy : s.Healthy)
    (bridged : ∀ n < s.nodes.length,
      ((List.range n).foldl (connectLocked space std) s).ConnectBridged space std n)
    (inside : n ≤ s.nodes.length) :
    Through s ((List.range n).foldl (connectLocked space std) s) ∧
      ((∀ k, s.Within 0 k) → ((List.range n).foldl (connectLocked space std) s).Joined n) := by
  induction n with
  | zero => exact ⟨.refl s, fun _ i before => absurd before (Nat.not_lt_zero i)⟩
  | succ n ih =>
    have before := Nat.le_of_succ_le inside
    obtain ⟨kept, grounded, placed⟩ :=
      @connect_first V D _ _ space std s n healthy.grounded healthy.positive before
    obtain ⟨through, joined⟩ := ih before
    have own : 0 < ((List.range n).foldl (connectLocked space std) s).layers n := by
      rw [kept.layers]
      exact healthy.positive n inside
    rw [List.range_succ, List.foldl_append]
    constructor
    · have here := @ConnectBridged.through V D _ _ space std _ n (fun _ => True)
        (bridged n inside) grounded placed own (fun _ _ _ _ _ => trivial) trivial
      exact through.trans here.1
    · intro unlinked
      obtain ⟨-, within⟩ := @wired_first V D _ _ space std s n (wired_of_unlinked unlinked)
        healthy.grounded healthy.positive unlinked before
      exact (joined unlinked).connectLocked (bridged n inside) grounded placed own within

theorem Navigable.buildStaged (navigable : s.Navigable)
    (bridged : s.PrunesBridged space std .buildStaged) : (s.buildStaged space std).Navigable := by
  have healthy := navigable.healthy
  obtain ⟨kept, -, -⟩ := @connect_first V D _ _ space std s s.nodes.length healthy.grounded
    healthy.positive le_rfl
  obtain ⟨through, joined⟩ := joined_first healthy bridged le_rfl
  refine ⟨healthy.buildStaged, nofun, fun _ => ?_⟩
  change Joined ((List.range s.nodes.length).foldl (connectLocked space std) s)
    ((List.range s.nodes.length).foldl (connectLocked space std) s).nodes.length
  rw [kept.length]
  cases staged : s.staged with
  | true => exact joined (navigable.unlinked staged)
  | false => exact (navigable.joined staged).through through

theorem navigable_step {op : Op V} (navigable : s.Navigable) (bridged : s.PrunesBridged space std op)
    (taken : s.step space std op = some t) : t.Navigable := by
  have thrown : ∀ result : Except String (Bool × HNSWIndex V),
      (∀ did changed, result = .ok (did, changed) → changed.Navigable) →
        (s.unlessThrown result).Navigable := by
    intro result kept
    cases result with
    | ok pair => exact kept pair.1 pair.2 rfl
    | error message => exact navigable
  cases op with
  | insert id vector record level =>
    cases taken
    exact thrown _ fun _ _ did => navigable.insertLocked bridged did
  | upsert id vector record level =>
    cases taken
    exact thrown _ fun _ _ did => navigable.insertLocked bridged did
  | remove id =>
    cases taken
    exact navigable.remove id
  | stage id vector record level =>
    cases taken
    exact thrown _ fun _ _ did => navigable.stage did
  | buildStaged =>
    cases taken
    exact navigable.buildStaged bridged

/-! ## Queries have all their hits -/

/-- The ids of the nodes that a query finds are ids of the index, once each. -/
theorem ids_found {results : List (Nat × D)} (healthy : s.Healthy)
    (finds : s.Finds space (space.prepare query) results) :
    (results.map fun pair => (s.node pair.1).id).Nodup ∧
      ∀ id ∈ results.map fun pair => (s.node pair.1).id, id ∈ s.idToIndex.keys := by
  have answers := @Finds.answers V D _ _ space s query results.length results healthy finds le_rfl
  have ids : ((results.map fun pair => ((s.node pair.1).id, pair.2)).map Prod.fst) =
      results.map fun pair => (s.node pair.1).id := by
    rw [List.map_map]
    rfl
  refine ⟨ids ▸ answers.distinct, fun id member => ?_⟩
  rw [← ids] at member
  obtain ⟨pair, isFound, rfl⟩ := List.mem_map.mp member
  obtain ⟨i, isId, -⟩ := answers.live pair isFound
  exact AList.lookup_isSome.mp (Option.isSome_of_eq_some isId)

/-- A search that is not full finds every live node. -/
theorem length_found {ef : Nat} (navigable : s.Navigable) (built : s.staged = false)
    (on : 0 < s.layers entry) (room : 0 < ef) :
    let results := s.searchLayer space std (space.prepare query) entry ef 0 true
    results.length ≤ s.size ∧ (results.length < ef → results.length = s.size) := by
  intro results
  have healthy := navigable.healthy
  have finds := @finds_bottom V D _ _ space std s (space.prepare query) entry ef healthy on room
    results.length
  rw [List.take_length] at finds
  obtain ⟨nodup, ids⟩ := ids_found healthy finds
  have few := (nodup.subperm ids).length_le
  rw [List.length_map] at few
  refine ⟨few, fun short => ?_⟩
  have closed : ∀ i ∈ List.range s.nodes.length, ∀ x ∈ s.links i 0, x ∈ List.range s.nodes.length :=
    fun i _ x member => List.mem_range.mpr (lt_length_of_layer (healthy.grounded i 0 x member))
  have inside := lt_length_of_layer on
  -- Every id leads to a live node, which the search reaches.
  have all : ∀ id ∈ s.idToIndex.keys, id ∈ results.map fun pair => (s.node pair.1).id := by
    intro id member
    obtain ⟨i, isId⟩ := Option.isSome_iff_exists.mp (AList.lookup_isSome.mpr member)
    obtain ⟨before, own, live⟩ := (healthy.ids id i).mp isId
    have counts : (s.layerSearch space (space.prepare query) ef 0 true).counts i = true := by
      simpa [layerSearch] using live
    obtain ⟨score, found⟩ := @BestFirst.run_complete Nat D _ std.queues
      (s.layerSearch space (space.prepare query) ef 0 true) _ i entry (List.range s.nodes.length)
      s.nodes.length (List.mem_range.mpr inside) closed (by rw [List.length_range]) room short
      (navigable.joined built entry inside i before) counts
    exact List.mem_map.mpr ⟨(i, score), found, own⟩
  have more := (s.idToIndex.keys_nodup.subperm all).length_le
  rw [List.length_map] at more
  exact Nat.le_antisymm few more

/-- The bytes of the records of all live nodes. -/
def liveBytes (s : HNSWIndex V) : Nat :=
  (((List.range s.nodes.length).filter fun i => !(s.node i).deleted).map fun i =>
    (s.node i).record.length).sum

omit [LinearOrder D] in
/-- Within the bound on their bytes all records are given. -/
theorem hits_within {maximum recordBytes : Nat} {withRecords : Bool} {results : List (Nat × D)}
    (fits : recordBytes + (results.map fun pair => (s.node pair.1).record.length).sum ≤ maximum) :
    ∃ found, s.hits maximum withRecords recordBytes results = .ok found := by
  induction results generalizing recordBytes with
  | nil => exact ⟨[], rfl⟩
  | cons pair rest ih =>
    rw [List.map_cons, List.sum_cons] at fits
    obtain ⟨others, later⟩ := @ih (recordBytes + (s.node pair.1).record.length) (by omega)
    unfold hits
    dsimp only
    rw [if_neg (by omega), later]
    exact ⟨_, rfl⟩

theorem bytes_found {results : List (Nat × D)} (finds : s.Finds space query results) :
    (results.map fun pair => (s.node pair.1).record.length).sum ≤ s.liveBytes := by
  have part : (results.map Prod.fst).Subperm
      ((List.range s.nodes.length).filter fun i => !(s.node i).deleted) := by
    refine finds.nodup.subperm fun i member => ?_
    obtain ⟨pair, isFound, rfl⟩ := List.mem_map.mp member
    obtain ⟨inside, live, -⟩ := finds.live pair isFound
    exact List.mem_filter.mpr ⟨List.mem_range.mpr inside, by rw [live]; rfl⟩
  have same : (results.map fun pair => (s.node pair.1).record.length) =
      (results.map Prod.fst).map fun i => (s.node i).record.length := by
    rw [List.map_map]
    rfl
  rw [same]
  obtain ⟨kept, perm, sub⟩ := part
  rw [← (perm.map fun i => (s.node i).record.length).sum_nat]
  exact (sub.map _).sum_le_sum fun _ _ => Nat.zero_le _

/-- A query for the vectors that the index has is answered in full. -/
theorem Navigable.searchRecords {efSearch maximumRecordBytes : Nat} (navigable : s.Navigable)
    (built : s.staged = false) (valid : space.validVector query = true)
    (dimensions : space.size query = s.dimensions) (bound : efSearch ≤ s.config.efSearch)
    (fits : s.liveBytes ≤ maximumRecordBytes) :
    ∃ found, s.searchRecords space std query n efSearch maximumRecordBytes = .ok found ∧
      found.length = min n s.size := by
  have healthy := navigable.healthy
  unfold HNSWIndex.searchRecords searchRecordsLocked
  rw [built, if_neg Bool.false_ne_true]
  split
  next nothing =>
    refine ⟨[], rfl, ?_⟩
    rw [List.length_nil]
    rcases nothing with none | none | wrong | wrong
    · omega
    · omega
    · rw [valid] at wrong
      cases wrong
    · exact absurd dimensions wrong
  next some =>
    rw [not_or, not_or] at some
    obtain ⟨positive, sized, -⟩ := some
    rw [if_neg (not_lt.mpr bound)]
    dsimp only
    have nodes : s.nodes ≠ [] := by
      intro none
      refine sized (List.length_eq_zero_iff.mpr (List.eq_nil_iff_forall_not_mem.mpr ?_))
      intro id member
      obtain ⟨i, isId⟩ := Option.isSome_iff_exists.mp (AList.lookup_isSome.mpr member)
      have inside := ((healthy.ids id i).mp isId).1
      rw [none] at inside
      exact Nat.not_lt_zero i inside
    have on := @entry_on_bottom V D _ _ space std s healthy built nodes (space.prepare query)
    generalize s.descend space std (space.prepare query) 0 s.maxLevel s.entryPoint = entry at on ⊢
    generalize isEf : max n (if efSearch = 0 then s.config.efSearch else efSearch) = ef
    have room : 0 < ef := by omega
    have finds := @finds_bottom V D _ _ space std s (space.prepare query) entry ef healthy on room n
    obtain ⟨few, all⟩ := @length_found V D _ _ space std s entry query ef navigable built on room
    have bytes := (bytes_found finds).trans fits
    obtain ⟨found, did⟩ := @hits_within V D _ s maximumRecordBytes 0 true _
      (le_of_eq_of_le (Nat.zero_add _) bytes)
    refine ⟨found, did, ?_⟩
    rw [hits_cases did, List.length_map, List.length_take]
    omega

/-! ## Every history -/

theorem navigable_ofConfig (config : HNSWConfig) : (ofConfig config : HNSWIndex V).Navigable :=
  ⟨healthy_ofConfig config, nofun, fun _ i before => absurd before (Nat.not_lt_zero i)⟩

/-- Where prunings are bridged, every node is reached and every query has all its hits. -/
theorem query_complete {config : HNSWConfig}
    (reached : Reach (step space std) (PrunesBridged space std) (ofConfig config) s)
    (built : s.staged = false) :
    (∀ query, ∀ i < s.nodes.length,
      s.Reaches (s.descend space std query 0 s.maxLevel s.entryPoint) i) ∧
    ∀ query n efSearch maximumRecordBytes, space.validVector query = true →
      space.size query = s.dimensions → efSearch ≤ s.config.efSearch →
        s.liveBytes ≤ maximumRecordBytes →
          ∃ found, s.searchRecords space std query n efSearch maximumRecordBytes = .ok found ∧
            found.length = min n s.size := by
  have navigable : s.Navigable := by
    refine reached.invariant (navigable_ofConfig config) fun before bridged taken => ?_
    exact navigable_step before bridged taken
  constructor
  · intro query i inside
    have nodes : s.nodes ≠ [] := fun none => by
      rw [none] at inside
      exact Nat.not_lt_zero i inside
    have on := @entry_on_bottom V D _ _ space std s navigable.healthy built nodes query
    exact navigable.joined built _ (lt_length_of_layer on) i inside
  · intro query n efSearch maximumRecordBytes valid dimensions bound fits
    exact navigable.searchRecords built valid dimensions bound fits

/-- Halving distances: the list of the first node is pruned to the nearest. -/
def halvingOps : List (Op Int) :=
  [.insert "o" 0 [] 0, .insert "p" 16 [] 0, .insert "q" 8 [] 0, .insert "r" 4 [1] 0,
    .insert "s" 2 [] 0, .insert "t" 1 [] 0, .remove "q"]

/-- Points of the plane at their squared distance. -/
def planeSpace : Space (Int × Int) Int where
  validVector _ := true
  size _ := 2
  prepare := id
  same a b := a == b
  distance a b := (a.1 - b.1) * (a.1 - b.1) + (a.2 - b.2) * (a.2 - b.2)

/-- Four points around the first fill its list; the sixth is farther out. -/
def surroundedOps : List (Op (Int × Int)) :=
  [.insert "o" (0, 0) [] 0, .insert "p" (10, 0) [] 0, .insert "q" (3, 9) [] 0,
    .insert "r" (-8, 6) [] 0, .insert "s" (-8, -6) [] 0, .insert "x" (4, -11) [] 0]

def narrowConfig : HNSWConfig := { M := 2 }

theorem halved_history_complete : ∃ s,
    run (step lineSpace (plainStandard Int)) (ofConfig narrowConfig) halvingOps = some s ∧
      s.links 0 0 = [5] ∧ s.size = 5 ∧
        ∃ found, s.searchRecords lineSpace (plainStandard Int) 3 9 0 1 = .ok found ∧
          found.length = 5 := by
  have summary : (run (step lineSpace (plainStandard Int)) (ofConfig narrowConfig) halvingOps).map
      (fun s => (s.links 0 0, s.size, s.staged, s.dimensions, s.liveBytes)) =
        some ([5], 5, false, 1, 1) := by decide
  obtain ⟨s, runs, found⟩ := Option.map_eq_some_iff.mp summary
  simp only [Prod.mk.injEq] at found
  obtain ⟨pruned, size, built, dimensions, bytes⟩ := found
  have reached : Reach (step lineSpace (plainStandard Int))
      (PrunesBridged lineSpace (plainStandard Int)) (ofConfig narrowConfig) s :=
    .of_runAllowed .refl (by decide) runs
  obtain ⟨-, answers⟩ := query_complete reached built
  obtain ⟨found, did, length⟩ := answers 3 9 0 1 rfl dimensions.symm (Nat.zero_le _) bytes.le
  rw [size] at length
  exact ⟨s, runs, pruned, size, found, did, length⟩

/-- The last point is linked only to the first, whose list keeps four others. -/
theorem surrounded_history_incomplete : ∃ s,
    run (step planeSpace (plainStandard Int)) (ofConfig narrowConfig) surroundedOps = some s ∧
      s.size = 6 ∧ ∃ found,
        s.searchRecords planeSpace (plainStandard Int) (4, -11) 6 0 100 = .ok found ∧
          found.length = 5 ∧ "x" ∉ found.map Hit.id := by
  have summary : (run (step planeSpace (plainStandard Int)) (ofConfig narrowConfig) surroundedOps).map
      (fun s => (s.size, (s.searchRecords planeSpace (plainStandard Int) (4, -11) 6 0 100).toOption)) =
        some (6, some [⟨"o", 137, []⟩, ⟨"p", 157, []⟩, ⟨"s", 169, []⟩, ⟨"q", 401, []⟩, ⟨"r", 433, []⟩]) :=
    rfl
  obtain ⟨s, runs, found⟩ := Option.map_eq_some_iff.mp summary
  simp only [Prod.mk.injEq] at found
  obtain ⟨size, answer⟩ := found
  cases did : s.searchRecords planeSpace (plainStandard Int) (4, -11) 6 0 100 with
  | error message =>
    rw [did] at answer
    cases answer
  | ok found =>
    rw [did] at answer
    have isFound : found = _ := Option.some.inj answer
    refine ⟨s, runs, size, found, did, ?_⟩
    rw [isFound]
    exact ⟨rfl, by decide⟩

end HNSWIndex

end PacificDb.Vector
