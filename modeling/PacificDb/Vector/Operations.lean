import PacificDb.Lib.Machine
import PacificDb.Vector.Graph

/-!
# Histories of the HNSW index

Every operation keeps the graph grounded, its entry on the highest level and the live
ids at their nodes. The lists are without duplicates and within their bounds as long as
`buildStaged` finds an index that is staged: on a graph that is built it connects every
node again, and finds the node itself.
-/

namespace PacificDb.Vector

open Lib

namespace HNSWIndex

variable {V D : Type} [Inhabited V] [LinearOrder D] {space : Space V D} {std : Standard D}
  {s t u : HNSWIndex V} {i j k l idx entry n : Nat} {query vector : V} {id : String}
  {record : List UInt8} {level : Nat}

/-! ## Connecting a node -/

/-- `t` has the nodes of `s` with other neighbours. -/
structure Kept (s t : HNSWIndex V) : Prop where
  config : t.config = s.config
  dimensions : t.dimensions = s.dimensions
  idToIndex : t.idToIndex = s.idToIndex
  staged : t.staged = s.staged
  length : t.nodes.length = s.nodes.length
  node : ∀ i, t.node i = { s.node i with neighbors := (t.node i).neighbors }
  layers : ∀ i, t.layers i = s.layers i

theorem Kept.refl (s : HNSWIndex V) : Kept s s := ⟨rfl, rfl, rfl, rfl, rfl, fun _ => rfl, fun _ => rfl⟩

theorem Kept.trans (first : Kept s t) (second : Kept t u) : Kept s u := by
  refine ⟨second.config.trans first.config, second.dimensions.trans first.dimensions,
    second.idToIndex.trans first.idToIndex, second.staged.trans first.staged,
    second.length.trans first.length, fun i => ?_, fun i => (second.layers i).trans (first.layers i)⟩
  rw [second.node i, first.node i]

theorem Rewired.kept (rewired : Rewired s t) : Kept s t := by
  refine ⟨rewired.config, ?_, ?_, ?_, rewired.length, rewired.node, rewired.layers⟩ <;>
    rw [rewired.same]

/-- The entry point is on the highest level of the first `n` nodes. -/
def Placed (s : HNSWIndex V) (n : Nat) : Prop :=
  n = 0 ∨ s.entryPoint < n ∧ s.layers s.entryPoint = s.maxLevel + 1 ∧
    ∀ i < n, s.layers i ≤ s.maxLevel + 1

/-- The entry of the last layers, and what the descent comes to. -/
theorem entry_layer (grounded : s.Grounded) (placed : s.Placed idx) (notFirst : idx ≠ 0)
    (query : V) (level : Nat) :
    min level s.maxLevel < s.layers (s.descend space std query level s.maxLevel s.entryPoint) := by
  obtain ⟨-, top, -⟩ := placed.resolve_left notFirst
  rw [Nat.min_comm]
  exact descend_layer grounded (by omega)

theorem descend_known {known : Nat → Prop} {top : Nat} (closed : ∀ k, s.Closed k known)
    (on : known entry) : known (s.descend space std query level top entry) := by
  induction top generalizing entry with
  | zero => exact on
  | succ top ih =>
    rw [descend]
    split
    next => exact ih (nearest_known (closed (top + 1)) on Nat.one_pos)
    next => exact on

theorem kept_connectLocked (s : HNSWIndex V) (idx : Nat) :
    Kept s (s.connectLocked space std idx) := by
  unfold connectLocked
  dsimp only
  split
  next => exact ⟨rfl, rfl, rfl, rfl, rfl, fun _ => rfl, fun _ => rfl⟩
  next =>
    have kept := (@rewired_connectLayers V D _ _ space std (min (s.layers idx - 1) s.maxLevel) idx
      (s.node idx).vector s (s.descend space std (s.node idx).vector (s.layers idx - 1) s.maxLevel
        s.entryPoint)).kept
    split
    next => exact ⟨kept.config, kept.dimensions, kept.idToIndex, kept.staged, kept.length, kept.node,
      kept.layers⟩
    next => exact kept

theorem Grounded.connectLocked (grounded : s.Grounded) (placed : s.Placed idx)
    (own : 0 < s.layers idx) : (s.connectLocked space std idx).Grounded := by
  unfold HNSWIndex.connectLocked
  dsimp only
  split
  next => exact grounded
  next notFirst =>
    have linked := @Grounded.connectLayers V D _ _ space std s (min (s.layers idx - 1) s.maxLevel)
      idx _ (s.node idx).vector grounded (by omega)
      (@entry_layer V D _ _ space std s idx grounded placed notFirst (s.node idx).vector
        (s.layers idx - 1))
    split <;> exact linked

theorem Placed.connectLocked (placed : s.Placed idx) (own : 0 < s.layers idx) :
    (s.connectLocked space std idx).Placed (idx + 1) := by
  have kept := @kept_connectLocked V D _ _ space std s idx
  refine .inr ?_
  unfold HNSWIndex.connectLocked at kept ⊢
  dsimp only at kept ⊢
  split at kept
  next first =>
    subst first
    refine ⟨Nat.one_pos, ?_, fun i before => ?_⟩
    · change s.layers 0 = s.layers 0 - 1 + 1
      omega
    · rw [Nat.lt_one_iff.mp before]
      change s.layers 0 ≤ s.layers 0 - 1 + 1
      omega
  next notFirst =>
    obtain ⟨before, top, highest⟩ := placed.resolve_left notFirst
    split at kept
    next higher =>
      rw [if_neg notFirst, if_pos higher]
      have layers := kept.layers
      refine ⟨Nat.lt_succ_self idx, ?_, fun i inside => ?_⟩
      · rw [layers]
        dsimp only
        omega
      · rw [layers]
        dsimp only
        rcases Nat.lt_succ_iff_lt_or_eq.mp inside with earlier | rfl
        · have := highest i earlier
          omega
        · omega
    next lower =>
      rw [if_neg notFirst, if_neg lower]
      have rewired := @rewired_connectLayers V D _ _ space std (min (s.layers idx - 1) s.maxLevel) idx
        (s.node idx).vector s (s.descend space std (s.node idx).vector (s.layers idx - 1) s.maxLevel
          s.entryPoint)
      rw [rewired.entryPoint, rewired.maxLevel]
      refine ⟨before.trans (Nat.lt_succ_self idx), (rewired.layers _).trans top, fun i inside => ?_⟩
      rw [rewired.layers]
      rcases Nat.lt_succ_iff_lt_or_eq.mp inside with earlier | rfl
      · exact highest i earlier
      · omega

/-- The first `n` nodes are connected in order, and have their layers. -/
theorem Wired.connectLocked (wired : s.Wired) (grounded : s.Grounded) (placed : s.Placed idx)
    (own : 0 < s.layers idx) (within : ∀ k, s.Within idx k) :
    (s.connectLocked space std idx).Wired ∧
      ∀ k, (s.connectLocked space std idx).Within (idx + 1) k := by
  have grown : ∀ k, s.Within (idx + 1) k := fun k i x member =>
    (within k i x member).imp Nat.lt_succ_of_lt Nat.lt_succ_of_lt
  unfold HNSWIndex.connectLocked
  dsimp only
  split
  next => exact ⟨⟨wired.edge, wired.nodup, wired.degree⟩, grown⟩
  next notFirst =>
    have linked := @Wired.connectLayers V D _ _ space std s (min (s.layers idx - 1) s.maxLevel) idx
      (s.descend space std (s.node idx).vector (s.layers idx - 1) s.maxLevel s.entryPoint)
      (s.node idx).vector wired grounded (by omega)
      ⟨@entry_layer V D _ _ space std s idx grounded placed notFirst _ _,
        descend_known (fun k i _ x member => (within k i x member).2)
          (placed.resolve_left notFirst).1⟩ (fun k _ => within k) fun k _ => grown k
    split
    next => exact ⟨⟨linked.1.edge, linked.1.nodup, linked.1.degree⟩, linked.2⟩
    next => exact linked

/-! ## A healthy index -/

structure Healthy (s : HNSWIndex V) : Prop where
  grounded : s.Grounded
  positive : ∀ i < s.nodes.length, 0 < s.layers i
  placed : s.staged = false → s.Placed s.nodes.length
  ids : ∀ id i, s.idToIndex.lookup id = some i ↔
    i < s.nodes.length ∧ (s.node i).id = id ∧ (s.node i).deleted = false

theorem node_modify (f : HNSWNode V → HNSWNode V) (inside : i < s.nodes.length) (j : Nat) :
    { s with nodes := s.nodes.modify i f }.node j = if j = i then f (s.node j) else s.node j := by
  unfold node
  dsimp only
  rw [List.getD_eq_getElem?_getD, List.getElem?_modify, List.getD_eq_getElem?_getD]
  by_cases same : j = i
  · subst same
    simp only [if_true]
    rw [List.getElem?_eq_getElem inside]
    rfl
  · have other : ¬i = j := Ne.symm same
    simp only [if_neg same, if_neg other]
    cases s.nodes[j]? <;> rfl

/-- A node is at the end; the node that it replaces is marked. -/
structure Appended (s t : HNSWIndex V) (node : HNSWNode V) : Prop where
  config : t.config = s.config
  maxLevel : t.maxLevel = s.maxLevel
  entryPoint : t.entryPoint = s.entryPoint
  length : t.nodes.length = s.nodes.length + 1
  idToIndex : t.idToIndex = s.idToIndex.insert node.id s.nodes.length
  empty : ∀ list ∈ node.neighbors, list = []
  layer : 0 < node.neighbors.length
  live : node.deleted = false
  node : ∀ i, t.node i =
    if i = s.nodes.length then node
    else if s.idToIndex.lookup node.id = some i then { s.node i with deleted := true }
    else s.node i

variable {new : HNSWNode V}

theorem node_append (new : HNSWNode V) (i : Nat) : { s with nodes := s.nodes ++ [new] }.node i =
    if i = s.nodes.length then new else s.node i := by
  unfold node
  dsimp only
  rw [List.getD_eq_getElem?_getD, List.getD_eq_getElem?_getD]
  split
  next last =>
    rw [last, List.getElem?_append_right le_rfl, Nat.sub_self]
    rfl
  next other =>
    rcases Nat.lt_or_gt_of_ne other with before | beyond
    · rw [List.getElem?_append_left before]
    · rw [List.getElem?_eq_none beyond.le, List.getElem?_eq_none]
      rw [List.length_append, List.length_singleton]
      exact beyond

theorem Appended.links (appended : Appended s t new) (i l : Nat) : t.links i l = s.links i l := by
  unfold HNSWIndex.links
  rw [appended.node]
  split
  next last =>
    have outside : s.links i l = [] := by
      refine List.eq_nil_iff_forall_not_mem.mpr fun x member => ?_
      have inside := lt_length_of_layer (layer_lt_of_mem member)
      omega
    refine Eq.trans ?_ outside.symm
    rw [List.getD_eq_getElem?_getD]
    cases found : new.neighbors[l]? with
    | none => rfl
    | some list => exact appended.empty list (List.mem_of_getElem? found)
  next => split <;> rfl

theorem Appended.layers (appended : Appended s t new) (before : i < s.nodes.length) :
    t.layers i = s.layers i := by
  unfold HNSWIndex.layers
  rw [appended.node, if_neg before.ne]
  split <;> rfl

theorem Appended.own (appended : Appended s t new) : 0 < t.layers s.nodes.length := by
  unfold HNSWIndex.layers
  rw [appended.node, if_pos rfl]
  exact appended.layer

theorem Appended.grounded (appended : Appended s t new) (grounded : s.Grounded) : t.Grounded := by
  intro i l x member
  rw [appended.links] at member
  have layer := grounded i l x member
  rw [appended.layers (lt_length_of_layer layer)]
  exact layer

theorem Appended.placed (appended : Appended s t new) (placed : s.Placed s.nodes.length) :
    t.Placed s.nodes.length := by
  refine placed.imp_right fun ⟨inside, top, highest⟩ => ?_
  rw [appended.entryPoint, appended.maxLevel, appended.layers inside]
  refine ⟨inside, top, fun i before => ?_⟩
  rw [appended.layers before]
  exact highest i before

theorem Appended.positive (appended : Appended s t new)
    (positive : ∀ i < s.nodes.length, 0 < s.layers i) : ∀ i < t.nodes.length, 0 < t.layers i := by
  intro i inside
  rw [appended.length] at inside
  rcases Nat.lt_succ_iff_lt_or_eq.mp inside with before | rfl
  · rw [appended.layers before]
    exact positive i before
  · exact appended.own

theorem Appended.ids (appended : Appended s t new)
    (ids : ∀ id i, s.idToIndex.lookup id = some i ↔
      i < s.nodes.length ∧ (s.node i).id = id ∧ (s.node i).deleted = false) (id : String) (i : Nat) :
    t.idToIndex.lookup id = some i ↔
      i < t.nodes.length ∧ (t.node i).id = id ∧ (t.node i).deleted = false := by
  rw [appended.idToIndex, appended.node, appended.length]
  by_cases own : id = new.id
  · rw [own, AList.lookup_insert, Option.some.injEq]
    constructor
    · rintro rfl
      rw [if_pos rfl]
      exact ⟨Nat.lt_succ_self _, rfl, appended.live⟩
    · rintro ⟨inside, isId, live⟩
      by_contra other
      rw [if_neg (Ne.symm other)] at isId live
      split at live
      next => cases live
      next gone =>
        rw [if_neg gone] at isId
        exact gone ((ids new.id i).mpr ⟨by omega, isId, live⟩)
  · rw [AList.lookup_insert_ne own, ids id i]
    constructor
    · rintro ⟨inside, isId, live⟩
      rw [if_neg inside.ne]
      split
      next old => exact absurd (isId.symm.trans ((ids _ i).mp old).2.1) own
      next => exact ⟨Nat.lt_succ_of_lt inside, isId, live⟩
    · rintro ⟨inside, isId, live⟩
      split at isId
      next => exact absurd isId.symm own
      next notLast =>
        rw [if_neg notLast] at live
        have before : i < s.nodes.length := by omega
        split at live
        next => cases live
        next kept =>
          rw [if_neg kept] at isId
          exact ⟨before, isId, live⟩

/-- Connecting leaves the nodes and the ids. -/
theorem Kept.ids (kept : Kept s t)
    (ids : ∀ id i, s.idToIndex.lookup id = some i ↔
      i < s.nodes.length ∧ (s.node i).id = id ∧ (s.node i).deleted = false) (id : String) (i : Nat) :
    t.idToIndex.lookup id = some i ↔
      i < t.nodes.length ∧ (t.node i).id = id ∧ (t.node i).deleted = false := by
  rw [kept.idToIndex, kept.length, kept.node]
  exact ids id i

/-- An index with one node more is connected. -/
theorem Appended.healthy (appended : Appended s t new) (healthy : s.Healthy)
    (built : s.staged = false) : (t.connectLocked space std s.nodes.length).Healthy := by
  have kept := @kept_connectLocked V D _ _ space std t s.nodes.length
  have placed := appended.placed (healthy.placed built)
  constructor
  · exact (appended.grounded healthy.grounded).connectLocked placed appended.own
  · intro i inside
    rw [kept.layers]
    rw [kept.length] at inside
    exact appended.positive healthy.positive i inside
  · intro _
    rw [kept.length, appended.length]
    exact placed.connectLocked appended.own
  · exact kept.ids (appended.ids healthy.ids)

/-! ## Nodes whose neighbours stay -/

section

variable {f : HNSWNode V → HNSWNode V}

theorem neighbors_modify (kept : ∀ node, (f node).neighbors = node.neighbors) (i j : Nat) :
    ({ s with nodes := s.nodes.modify i f }.node j).neighbors = (s.node j).neighbors := by
  unfold node
  dsimp only
  rw [List.getD_eq_getElem?_getD, List.getElem?_modify, List.getD_eq_getElem?_getD]
  cases s.nodes[j]? with
  | none => rfl
  | some node =>
    simp only [Option.map_eq_map, Option.map_some, Option.getD_some]
    split
    next => exact kept node
    next => rfl

theorem links_modify (f : HNSWNode V → HNSWNode V) (kept : ∀ node, (f node).neighbors = node.neighbors)
    (i j l : Nat) :
    { s with nodes := s.nodes.modify i f }.links j l = s.links j l := by
  unfold links
  rw [neighbors_modify kept]

theorem layers_modify (f : HNSWNode V → HNSWNode V)
    (kept : ∀ node, (f node).neighbors = node.neighbors) (i j : Nat) :
    { s with nodes := s.nodes.modify i f }.layers j = s.layers j := by
  unfold layers
  rw [neighbors_modify kept]

end

/-- The graph of `t` is that of `s`. -/
structure SameGraph (s t : HNSWIndex V) : Prop where
  config : t.config = s.config
  maxLevel : t.maxLevel = s.maxLevel
  entryPoint : t.entryPoint = s.entryPoint
  staged : t.staged = s.staged
  length : t.nodes.length = s.nodes.length
  links : ∀ i l, t.links i l = s.links i l
  layers : ∀ i, t.layers i = s.layers i

theorem sameGraph_markDeleted (s : HNSWIndex V) (i : Nat) : SameGraph s (s.markDeleted i) :=
  ⟨rfl, rfl, rfl, rfl, List.length_modify _ _ _,
    links_modify (fun node => { node with deleted := true }) (fun _ => rfl) i,
    layers_modify (fun node => { node with deleted := true }) (fun _ => rfl) i⟩

theorem sameGraph_setRecord (s : HNSWIndex V) (i : Nat) (record : List UInt8) :
    SameGraph s (s.setRecord i record) :=
  ⟨rfl, rfl, rfl, rfl, List.length_modify _ _ _,
    links_modify (fun node => { node with record }) (fun _ => rfl) i,
    layers_modify (fun node => { node with record }) (fun _ => rfl) i⟩

theorem SameGraph.healthy (same : SameGraph s t) (healthy : s.Healthy)
    (ids : ∀ id i, t.idToIndex.lookup id = some i ↔
      i < t.nodes.length ∧ (t.node i).id = id ∧ (t.node i).deleted = false) : t.Healthy := by
  refine ⟨fun i l x member => ?_, fun i inside => ?_, fun built => ?_, ids⟩
  · rw [same.links] at member
    rw [same.layers]
    exact healthy.grounded i l x member
  · rw [same.length] at inside
    rw [same.layers]
    exact healthy.positive i inside
  · rw [same.staged] at built
    rw [same.length, Placed, same.entryPoint, same.maxLevel, same.layers]
    simp only [same.layers]
    exact healthy.placed built

/-! ## What the operations do -/

omit [Inhabited V] [LinearOrder D] in
/-- `appendLocked` appends a node or at most sets the dimensions. -/
theorem appendLocked_cases {appended : Bool}
    (did : s.appendLocked space id vector record level = (appended, t)) :
    appended = false ∧ t = { s with dimensions := t.dimensions } ∨
      appended = true ∧ t = { s with
        dimensions := t.dimensions
        nodes := s.nodes ++ [⟨id, space.prepare vector, record, List.replicate (level + 1) [], false⟩]
        idToIndex := s.idToIndex.insert id s.nodes.length } := by
  unfold appendLocked at did
  dsimp only at did
  generalize isSized : (if s.dimensions = 0 then { s with dimensions := space.size vector } else s) =
    sized at did
  have same : sized = { s with dimensions := sized.dimensions } := by
    rw [← isSized]
    split <;> rfl
  split at did
  next =>
    cases did
    exact .inl ⟨rfl, rfl⟩
  next =>
    split at did
    next =>
      cases did
      exact .inl ⟨rfl, same⟩
    next =>
      cases did
      refine .inr ⟨rfl, ?_⟩
      rw [same]

theorem appended_fresh (new : HNSWNode V) (dimensions : Nat) (empty : ∀ list ∈ new.neighbors, list = [])
    (layer : 0 < new.neighbors.length) (live : new.deleted = false)
    (unused : s.idToIndex.lookup new.id = none) :
    Appended s { s with
      dimensions, nodes := s.nodes ++ [new], idToIndex := s.idToIndex.insert new.id s.nodes.length }
      new := by
  refine ⟨rfl, rfl, rfl, List.length_append, rfl, empty, layer, live, fun i => ?_⟩
  rw [unused, if_neg (by exact nofun : ¬(none : Option Nat) = some i)]
  exact node_append new i

theorem appended_replacing {old : Nat} (new : HNSWNode V) (dimensions : Nat)
    (empty : ∀ list ∈ new.neighbors, list = []) (layer : 0 < new.neighbors.length)
    (live : new.deleted = false) (found : s.idToIndex.lookup new.id = some old)
    (inside : old < s.nodes.length) :
    Appended s ({ s with
      dimensions, nodes := s.nodes ++ [new]
      idToIndex := s.idToIndex.insert new.id s.nodes.length }.markDeleted old) new := by
  refine ⟨rfl, rfl, rfl, ?_, rfl, empty, layer, live, fun i => ?_⟩
  · exact (List.length_modify _ _ _).trans List.length_append
  · have marked := @node_modify V _ { s with
      dimensions, nodes := s.nodes ++ [new], idToIndex := s.idToIndex.insert new.id s.nodes.length }
      old (fun node => { node with deleted := true })
      (inside.trans_le (by rw [List.length_append]; exact Nat.le_add_right _ _)) i
    have before : { s with
        dimensions, nodes := s.nodes ++ [new]
        idToIndex := s.idToIndex.insert new.id s.nodes.length }.node i =
          if i = s.nodes.length then new else s.node i := node_append new i
    rw [before] at marked
    refine marked.trans ?_
    rw [found]
    by_cases isOld : i = old
    · rw [isOld, if_pos rfl, if_neg inside.ne, if_neg inside.ne, if_pos rfl]
    · rw [if_neg isOld, if_neg fun same => isOld (Option.some.inj same).symm]

/-- The index to which `insertLocked` connects the new node that it has appended. -/
def joining (space : Space V D) (s : HNSWIndex V) (id : String) (vector : V) (replace : Bool)
    (record : List UInt8) (level : Nat) : Option (HNSWIndex V) :=
  if s.staged = true ∨ id = "" ∨ space.validVector vector = false then none
  else if (s.idToIndex.lookup id).isSome ∧ replace = false then none
  else
    let sized := if s.dimensions = 0 then { s with dimensions := space.size vector } else s
    let (appended, grown) := sized.appendLocked space id vector record level
    if space.size vector ≠ sized.dimensions ∨ appended = false then none
    else
      match s.idToIndex.lookup id with
      | some old =>
          if space.same (space.prepare vector) (sized.node old).vector then none
          else some (grown.markDeleted old)
      | none => some grown

/-- An insertion leaves the graph, or changes one payload, or connects one node more. -/
theorem insertLocked_cases {replace inserted : Bool} (healthy : s.Healthy)
    (did : s.insertLocked space std id vector replace record level = .ok (inserted, t)) :
    s.staged = false ∧ (t = { s with dimensions := t.dimensions } ∨
      (∃ old, s.idToIndex.lookup id = some old ∧
        t = { s with dimensions := t.dimensions }.setRecord old record) ∨
      ∃ appended new, Appended s appended new ∧ appended.staged = false ∧
        s.joining space id vector replace record level = some appended ∧
          t = appended.connectLocked space std s.nodes.length) := by
  unfold insertLocked at did
  dsimp only at did
  split at did
  next => cases did
  next built =>
    rw [Bool.not_eq_true] at built
    refine ⟨built, ?_⟩
    have empty : ∀ list ∈ List.replicate (level + 1) ([] : List Nat), list = [] :=
      fun list member => List.eq_of_mem_replicate member
    have layer : 0 < (List.replicate (level + 1) ([] : List Nat)).length := by
      rw [List.length_replicate]
      exact Nat.succ_pos level
    generalize isSized : (if s.dimensions = 0 then { s with dimensions := space.size vector } else s) =
      sized at did
    have same : sized = { s with dimensions := sized.dimensions } := by
      rw [← isSized]
      split <;> rfl
    split at did
    next =>
      cases did
      exact .inl rfl
    next valid =>
      split at did
      next =>
        cases did
        exact .inl rfl
      next allowed =>
        have joins : ∀ grown, sized.appendLocked space id vector record level = (true, grown) →
            space.size vector = sized.dimensions →
              s.joining space id vector replace record level =
                match s.idToIndex.lookup id with
                | some old =>
                  if space.same (space.prepare vector) (sized.node old).vector then none
                  else some (grown.markDeleted old)
                | none => some grown := by
          intro grown did fits
          unfold joining
          dsimp only
          rw [if_neg (by rw [built]; simpa using valid), if_neg allowed, isSized, did,
            if_neg (by simpa using fits)]
        split at did
        next =>
          cases did
          exact .inl same
        next fits =>
          rw [ne_eq, not_not] at fits
          split at did
          next old found =>
            split at did
            next =>
              cases did
              refine .inr (.inl ⟨old, found, ?_⟩)
              rw [same]
              rfl
            next differs =>
              split at did
              next =>
                cases did
                exact .inl same
              next =>
                split at did
                next kept done =>
                  cases did
                  obtain ⟨-, isKept⟩ | ⟨wrong, -⟩ := appendLocked_cases done
                  · refine .inl (isKept.trans ?_)
                    rw [same]
                  · cases wrong
                next appended done =>
                  cases did
                  obtain ⟨wrong, -⟩ | ⟨-, isAppended⟩ := appendLocked_cases done
                  · cases wrong
                  · refine .inr (.inr ⟨appended.markDeleted old,
                      ⟨id, space.prepare vector, record, List.replicate (level + 1) [], false⟩,
                      ?_, ?_, ?_, ?_⟩)
                    · rw [isAppended, same]
                      exact appended_replacing ⟨id, space.prepare vector, record, _, false⟩ _ empty
                        layer rfl found ((healthy.ids id old).mp found).1
                    · rw [isAppended, same]
                      exact built
                    · rw [joins appended done fits, found]
                      exact if_neg differs
                    · rw [same]
          next unused =>
            split at did
            next =>
              cases did
              exact .inl same
            next =>
              split at did
              next kept done =>
                cases did
                obtain ⟨-, isKept⟩ | ⟨wrong, -⟩ := appendLocked_cases done
                · refine .inl (isKept.trans ?_)
                  rw [same]
                · cases wrong
              next appended done =>
                cases did
                obtain ⟨wrong, -⟩ | ⟨-, isAppended⟩ := appendLocked_cases done
                · cases wrong
                · refine .inr (.inr ⟨appended,
                    ⟨id, space.prepare vector, record, List.replicate (level + 1) [], false⟩,
                    ?_, ?_, ?_, ?_⟩)
                  · rw [isAppended, same]
                    exact appended_fresh ⟨id, space.prepare vector, record, _, false⟩ _ empty layer rfl
                      unused
                  · rw [isAppended, same]
                    exact built
                  · rw [joins appended done fits, unused]
                  · rw [same]

/-! ## Every operation keeps the index healthy -/

theorem Healthy.setDimensions (healthy : s.Healthy) (dimensions : Nat) :
    { s with dimensions }.Healthy :=
  ⟨healthy.grounded, healthy.positive, healthy.placed, healthy.ids⟩

theorem Healthy.setRecord (healthy : s.Healthy) (inside : i < s.nodes.length) :
    (s.setRecord i record).Healthy := by
  have same := sameGraph_setRecord s i record
  refine same.healthy healthy fun id j => ?_
  have node := @node_modify V _ s i (fun node => { node with record }) inside j
  rw [same.length]
  unfold HNSWIndex.setRecord
  rw [node]
  refine (healthy.ids id j).trans ?_
  split <;> rfl

theorem Healthy.remove (healthy : s.Healthy) (id : String) : (s.remove id).2.Healthy := by
  unfold HNSWIndex.remove
  split
  next => exact healthy
  next i found =>
    obtain ⟨inside, isId, -⟩ := (healthy.ids id i).mp found
    have same := sameGraph_markDeleted s i
    have whole : SameGraph s { s.markDeleted i with idToIndex := s.idToIndex.erase id } :=
      ⟨same.config, same.maxLevel, same.entryPoint, same.staged, same.length, same.links, same.layers⟩
    refine whole.healthy healthy fun other j => ?_
    have node := @node_modify V _ s i (fun node => { node with deleted := true }) inside j
    have isNode : { s.markDeleted i with idToIndex := s.idToIndex.erase id }.node j =
        if j = i then { s.node j with deleted := true } else s.node j := node
    rw [whole.length, isNode]
    dsimp only
    by_cases own : other = id
    · rw [own, AList.lookup_erase]
      refine iff_of_false (by exact nofun) ?_
      rintro ⟨beyond, isOther, live⟩
      by_cases removed : j = i
      · rw [if_pos removed] at live
        cases live
      · rw [if_neg removed] at isOther live
        have again := (healthy.ids id j).mpr ⟨beyond, isOther, live⟩
        exact removed (Option.some.inj (again.symm.trans found))
    · rw [AList.lookup_erase_ne own, healthy.ids other j]
      by_cases removed : j = i
      · rw [if_pos removed, removed]
        refine iff_of_false ?_ ?_
        · rintro ⟨-, isOther, -⟩
          exact own (isOther.symm.trans isId)
        · rintro ⟨-, -, live⟩
          cases live
      · rw [if_neg removed]

theorem Healthy.insertLocked {replace inserted : Bool} (healthy : s.Healthy)
    (did : s.insertLocked space std id vector replace record level = .ok (inserted, t)) :
    t.Healthy := by
  obtain ⟨built, same | ⟨old, found, same⟩ | ⟨appended, new, grown, -, -, same⟩⟩ :=
    insertLocked_cases healthy did
  · rw [same]
    exact healthy.setDimensions _
  · rw [same]
    exact (healthy.setDimensions _).setRecord ((healthy.ids id old).mp found).1
  · rw [same]
    exact grown.healthy healthy built

omit [LinearOrder D] in
/-- Staging leaves the graph or adds a node that is not connected. -/
theorem stage_cases {staged : Bool} (did : s.stage space id vector record level = .ok (staged, t)) :
    t = s ∨ (s.staged = true ∨ s.nodes = []) ∧ (t = { s with
      staged := true, dimensions := t.dimensions } ∨ ∃ new, Appended s t new ∧ t.staged = true) := by
  unfold stage at did
  split at did
  next => cases did
  next open_ =>
    split at did
    next =>
      cases did
      exact .inl rfl
    next unused =>
      rw [Option.not_isSome_iff_eq_none] at unused
      refine .inr ⟨?_, ?_⟩
      · simp only [Bool.and_eq_true, Bool.not_eq_true', not_and_or, Bool.not_eq_false,
          List.isEmpty_iff] at open_
        exact open_
      · rcases appendLocked_cases (Except.ok.inj did) with ⟨-, same⟩ | ⟨-, same⟩
        · exact .inl same
        · refine .inr ⟨⟨id, space.prepare vector, record, List.replicate (level + 1) [], false⟩, ?_, ?_⟩
          · have fresh := @appended_fresh V _ s
              ⟨id, space.prepare vector, record, List.replicate (level + 1) [], false⟩ t.dimensions
              (fun list member => List.eq_of_mem_replicate member)
              (by rw [List.length_replicate]; exact Nat.succ_pos level) rfl unused
            rw [same]
            exact ⟨fresh.config, fresh.maxLevel, fresh.entryPoint, fresh.length, fresh.idToIndex,
              fresh.empty, fresh.layer, fresh.live, fresh.node⟩
          · rw [same]

omit [LinearOrder D] in
theorem Healthy.stage {staged : Bool} (healthy : s.Healthy)
    (did : s.stage space id vector record level = .ok (staged, t)) : t.Healthy := by
  rcases stage_cases did with same | ⟨-, same | ⟨new, grown, isStaged⟩⟩
  · rw [same]
    exact healthy
  · rw [same]
    exact ⟨healthy.grounded, healthy.positive, nofun, healthy.ids⟩
  · refine ⟨grown.grounded healthy.grounded, grown.positive healthy.positive, ?_,
      grown.ids healthy.ids⟩
    rw [isStaged]
    exact nofun

/-- The first `n` nodes are connected. -/
theorem connect_first (grounded : s.Grounded) (positive : ∀ i < s.nodes.length, 0 < s.layers i)
    (inside : n ≤ s.nodes.length) :
    Kept s ((List.range n).foldl (connectLocked space std) s) ∧
      ((List.range n).foldl (connectLocked space std) s).Grounded ∧
        ((List.range n).foldl (connectLocked space std) s).Placed n := by
  induction n with
  | zero => exact ⟨.refl s, grounded, .inl rfl⟩
  | succ n ih =>
    rw [List.range_succ, List.foldl_append]
    obtain ⟨kept, isGrounded, placed⟩ := ih (Nat.le_of_succ_le inside)
    have own : 0 < ((List.range n).foldl (connectLocked space std) s).layers n := by
      rw [kept.layers]
      exact positive n inside
    exact ⟨kept.trans (kept_connectLocked _ n), isGrounded.connectLocked placed own,
      placed.connectLocked own⟩

theorem Healthy.buildStaged (healthy : s.Healthy) : (s.buildStaged space std).Healthy := by
  obtain ⟨kept, grounded, placed⟩ :=
    @connect_first V D _ _ space std s s.nodes.length healthy.grounded healthy.positive le_rfl
  unfold HNSWIndex.buildStaged
  refine ⟨grounded, fun i inside => ?_, fun _ => ?_, kept.ids healthy.ids⟩
  · exact (kept.layers i).symm ▸ healthy.positive i (kept.length ▸ inside)
  · have length : { (List.range s.nodes.length).foldl (connectLocked space std) s with
        staged := false }.nodes.length = s.nodes.length := kept.length
    rw [length]
    exact placed

end HNSWIndex

end PacificDb.Vector
