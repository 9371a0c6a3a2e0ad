import PacificDb.Vector.Operations

/-!
# The graph invariant over histories

After every history in which `buildStaged` meets an index that is staged, or that has no
two nodes, the edges join different nodes of their layer, lists are without duplicates and
short enough for a checkpoint, the entry point is on the highest level, and the ids lead
to the nodes that are live. A query then returns live ids, once each, in the order of the
distance of their vectors.
-/

namespace PacificDb.Vector

open Lib

namespace HNSWIndex

inductive Op (V : Type) where
  | insert (id : String) (vector : V) (record : List UInt8) (level : Nat)
  | upsert (id : String) (vector : V) (record : List UInt8) (level : Nat)
  | remove (id : String)
  | stage (id : String) (vector : V) (record : List UInt8) (level : Nat)
  | buildStaged

variable {V D : Type} [Inhabited V] [LinearOrder D] {space : Space V D} {std : Standard D}
  {s t : HNSWIndex V} {op : Op V}

/-- An operation that throws leaves the index as it was. -/
def unlessThrown (s : HNSWIndex V) : Except String (Bool × HNSWIndex V) → HNSWIndex V
  | .ok (_, changed) => changed
  | .error _ => s

def step (space : Space V D) (std : Standard D) (s : HNSWIndex V) : Op V → Option (HNSWIndex V)
  | .insert id vector record level => some (s.unlessThrown (s.insert space std id vector record level))
  | .upsert id vector record level => some (s.unlessThrown (s.upsert space std id vector record level))
  | .remove id => some (s.remove id).2
  | .stage id vector record level => some (s.unlessThrown (s.stage space id vector record level))
  | .buildStaged => some (s.buildStaged space std)

/-- `buildStaged` is called for what was staged. -/
def BuildsStaged (s : HNSWIndex V) : Op V → Prop
  | .buildStaged => s.staged = true ∨ s.nodes.length ≤ 1
  | _ => True

instance decidableBuildsStaged (s : HNSWIndex V) : ∀ op, Decidable (s.BuildsStaged op)
  | .buildStaged => inferInstanceAs (Decidable (_ ∨ _))
  | .insert _ _ _ _ | .upsert _ _ _ _ | .remove _ | .stage _ _ _ _ => .isTrue trivial

theorem healthy_step (healthy : s.Healthy) (taken : s.step space std op = some t) : t.Healthy := by
  have thrown : ∀ result : Except String (Bool × HNSWIndex V),
      (∀ did changed, result = .ok (did, changed) → changed.Healthy) →
        (s.unlessThrown result).Healthy := by
    intro result kept
    cases result with
    | ok pair => exact kept pair.1 pair.2 rfl
    | error message => exact healthy
  cases op with
  | insert id vector record level =>
    cases taken
    exact thrown _ fun _ _ did => healthy.insertLocked did
  | upsert id vector record level =>
    cases taken
    exact thrown _ fun _ _ did => healthy.insertLocked did
  | remove id =>
    cases taken
    exact healthy.remove id
  | stage id vector record level =>
    cases taken
    exact thrown _ fun _ _ did => healthy.stage did
  | buildStaged =>
    cases taken
    exact healthy.buildStaged

theorem healthy_ofConfig (config : HNSWConfig) : (ofConfig config : HNSWIndex V).Healthy := by
  refine ⟨fun i l x member => ?_, nofun, fun _ => .inl rfl, fun id i => ?_⟩
  · exact absurd (layer_lt_of_mem member) (Nat.not_lt_zero l)
  · exact iff_of_false (by exact nofun) fun both => Nat.not_lt_zero i both.1

/-! ## Tidy lists -/

/-- What is staged is not connected yet. -/
structure Tidy (s : HNSWIndex V) : Prop where
  wired : s.Wired
  unlinked : s.staged = true → ∀ k, s.Within 0 k

theorem within_length (grounded : s.Grounded) (k : Nat) : s.Within s.nodes.length k :=
  fun i x member => ⟨lt_length_of_layer (layer_lt_of_mem member),
    lt_length_of_layer (grounded i k x member)⟩

theorem wired_of_unlinked (unlinked : ∀ k, s.Within 0 k) : s.Wired := by
  have none : ∀ i l, s.links i l = [] := fun i l => List.eq_nil_iff_forall_not_mem.mpr
    fun x member => Nat.not_lt_zero i (unlinked l i x member).1
  refine ⟨fun i l x member => ?_, fun i l => ?_, fun i l => ?_⟩
  · rw [none] at member
    cases member
  · rw [none]
    exact List.nodup_nil
  · rw [none]
    exact Nat.zero_le _

theorem SameGraph.wired (same : SameGraph s t) (wired : s.Wired) : t.Wired := by
  refine ⟨fun i l x member => ?_, fun i l => ?_, fun i l => ?_⟩
  · rw [same.links] at member
    exact wired.edge i l x member
  · rw [same.links]
    exact wired.nodup i l
  · rw [same.links, maximum, same.config]
    exact wired.degree i l

theorem SameGraph.within (same : SameGraph s t) {n k : Nat} (within : s.Within n k) :
    t.Within n k := by
  intro i x member
  rw [same.links] at member
  exact within i x member

theorem SameGraph.tidy (same : SameGraph s t) (tidy : s.Tidy) : t.Tidy :=
  ⟨same.wired tidy.wired, fun staged k => same.within (tidy.unlinked (same.staged ▸ staged) k)⟩

theorem Appended.wired {new : HNSWNode V} (appended : Appended s t new) (wired : s.Wired) :
    t.Wired := by
  refine ⟨fun i l x member => ?_, fun i l => ?_, fun i l => ?_⟩
  · rw [appended.links] at member
    exact wired.edge i l x member
  · rw [appended.links]
    exact wired.nodup i l
  · rw [appended.links, maximum, appended.config]
    exact wired.degree i l

theorem Appended.within {new : HNSWNode V} (appended : Appended s t new) {n k : Nat}
    (within : s.Within n k) : t.Within n k := by
  intro i x member
  rw [appended.links] at member
  exact within i x member

theorem Tidy.insertLocked {id : String} {vector : V} {replace inserted : Bool} {record : List UInt8}
    {level : Nat} (tidy : s.Tidy) (healthy : s.Healthy)
    (did : s.insertLocked space std id vector replace record level = .ok (inserted, t)) : t.Tidy := by
  obtain ⟨built, same | ⟨old, found, same⟩ | ⟨appended, new, grown, isBuilt, -, same⟩⟩ :=
    insertLocked_cases healthy did
  · rw [same]
    exact ⟨⟨tidy.wired.edge, tidy.wired.nodup, tidy.wired.degree⟩, tidy.unlinked⟩
  · rw [same]
    exact (sameGraph_setRecord _ old record).tidy
      ⟨⟨tidy.wired.edge, tidy.wired.nodup, tidy.wired.degree⟩, tidy.unlinked⟩
  · rw [same]
    have kept := @kept_connectLocked V D _ _ space std appended s.nodes.length
    have connected := @Wired.connectLocked V D _ _ space std appended s.nodes.length
      (grown.wired tidy.wired) (grown.grounded healthy.grounded) (grown.placed (healthy.placed built))
      grown.own fun k => grown.within (within_length healthy.grounded k)
    refine ⟨connected.1, fun staged => ?_⟩
    rw [kept.staged, isBuilt] at staged
    cases staged

omit [LinearOrder D] in
theorem Tidy.stage {id : String} {vector : V} {staged : Bool} {record : List UInt8} {level : Nat}
    (tidy : s.Tidy) (healthy : s.Healthy)
    (did : s.stage space id vector record level = .ok (staged, t)) : t.Tidy := by
  rcases stage_cases did with same | ⟨before, cases_⟩
  · rw [same]
    exact tidy
  · -- Nothing was connected before.
    have unlinked : ∀ k, s.Within 0 k := by
      rcases before with isStaged | empty
      · exact tidy.unlinked isStaged
      · intro k
        have within := within_length healthy.grounded k
        rw [empty] at within
        exact within
    rcases cases_ with same | ⟨new, grown, -⟩
    · rw [same]
      exact ⟨⟨tidy.wired.edge, tidy.wired.nodup, tidy.wired.degree⟩, fun _ => unlinked⟩
    · exact ⟨grown.wired tidy.wired, fun _ k => grown.within (unlinked k)⟩

/-- The first nodes are connected, and lists stay tidy. -/
theorem wired_first {n : Nat} (wired : s.Wired) (grounded : s.Grounded)
    (positive : ∀ i < s.nodes.length, 0 < s.layers i) (unlinked : ∀ k, s.Within 0 k)
    (inside : n ≤ s.nodes.length) :
    ((List.range n).foldl (connectLocked space std) s).Wired ∧
      ∀ k, ((List.range n).foldl (connectLocked space std) s).Within n k := by
  induction n with
  | zero => exact ⟨wired, unlinked⟩
  | succ n ih =>
    have before := Nat.le_of_succ_le inside
    obtain ⟨kept, isGrounded, placed⟩ :=
      @connect_first V D _ _ space std s n grounded positive before
    obtain ⟨isWired, within⟩ := ih before
    rw [List.range_succ, List.foldl_append]
    refine isWired.connectLocked isGrounded placed ?_ within
    rw [kept.layers]
    exact positive n inside

theorem Tidy.buildStaged (tidy : s.Tidy) (healthy : s.Healthy)
    (staged : s.staged = true ∨ s.nodes.length ≤ 1) : (s.buildStaged space std).Tidy := by
  have unlinked : ∀ k, s.Within 0 k := by
    rcases staged with isStaged | few
    · exact tidy.unlinked isStaged
    · -- An edge joins two nodes.
      intro k i x member
      obtain ⟨first, second⟩ := within_length healthy.grounded k i x member
      exact absurd (by omega) (tidy.wired.edge i k x member)
  obtain ⟨wired, -⟩ := @wired_first V D _ _ space std s s.nodes.length (wired_of_unlinked unlinked)
    healthy.grounded healthy.positive unlinked le_rfl
  exact ⟨⟨wired.edge, wired.nodup, wired.degree⟩, nofun⟩

theorem tidy_step (tidy : s.Tidy) (healthy : s.Healthy) (allowed : s.BuildsStaged op)
    (taken : s.step space std op = some t) : t.Tidy := by
  have thrown : ∀ result : Except String (Bool × HNSWIndex V),
      (∀ did changed, result = .ok (did, changed) → changed.Tidy) →
        (s.unlessThrown result).Tidy := by
    intro result kept
    cases result with
    | ok pair => exact kept pair.1 pair.2 rfl
    | error message => exact tidy
  cases op with
  | insert id vector record level =>
    cases taken
    exact thrown _ fun _ _ did => tidy.insertLocked healthy did
  | upsert id vector record level =>
    cases taken
    exact thrown _ fun _ _ did => tidy.insertLocked healthy did
  | remove id =>
    cases taken
    unfold HNSWIndex.remove
    split
    next => exact tidy
    next i found =>
      have same := (sameGraph_markDeleted s i).tidy tidy
      exact ⟨⟨same.wired.edge, same.wired.nodup, same.wired.degree⟩, same.unlinked⟩
  | stage id vector record level =>
    cases taken
    exact thrown _ fun _ _ did => tidy.stage healthy did
  | buildStaged =>
    cases taken
    exact tidy.buildStaged healthy allowed

/-! ## Queries -/

variable {query : V} {k efSearch : Nat}

omit [LinearOrder D] in
/-- The loop over the results gives every result, or throws. -/
theorem hits_cases {maximum recordBytes : Nat} {withRecords : Bool} {results : List (Nat × D)}
    {found : List (Hit D)} (did : s.hits maximum withRecords recordBytes results = .ok found) :
    found = results.map fun pair =>
      ⟨(s.node pair.1).id, pair.2, if withRecords then (s.node pair.1).record else []⟩ := by
  induction results generalizing recordBytes found with
  | nil =>
    cases did
    rfl
  | cons pair rest ih =>
    unfold hits at did
    dsimp only at did
    split at did
    next => cases did
    next =>
      cases later : s.hits maximum withRecords (recordBytes + (s.node pair.1).record.length) rest with
      | error message =>
        rw [later] at did
        cases did
      | ok others =>
        rw [later] at did
        cases did
        rw [ih later, List.map_cons]

omit [LinearOrder D] in
/-- Without records nothing is thrown. -/
theorem hits_total (s : HNSWIndex V) (maximum recordBytes : Nat) (results : List (Nat × D)) :
    ∃ found, s.hits maximum false recordBytes results = .ok found := by
  induction results generalizing recordBytes with
  | nil => exact ⟨[], rfl⟩
  | cons pair rest ih =>
    obtain ⟨others, later⟩ := ih (recordBytes + (s.node pair.1).record.length)
    unfold hits
    dsimp only
    rw [if_neg (by exact fun both => Bool.false_ne_true both.1), later]
    exact ⟨_, rfl⟩

/-- The nodes that a query finds. -/
structure Finds (s : HNSWIndex V) (space : Space V D) (query : V) (results : List (Nat × D)) :
    Prop where
  live : ∀ pair ∈ results, pair.1 < s.nodes.length ∧ (s.node pair.1).deleted = false ∧
    pair.2 = space.distance query (s.node pair.1).vector
  nodup : (results.map Prod.fst).Nodup
  ascending : results.Pairwise fun first second => first.2 ≤ second.2

/-- Where the descent of a query ends. -/
theorem entry_on_bottom (healthy : s.Healthy) (built : s.staged = false) (some : s.nodes ≠ [])
    (query : V) : 0 < s.layers (s.descend space std query 0 s.maxLevel s.entryPoint) := by
  have notEmpty : s.nodes.length ≠ 0 := fun none => some (List.length_eq_zero_iff.mp none)
  have entry := @entry_layer V D _ _ space std s s.nodes.length healthy.grounded
    (healthy.placed built) notEmpty query 0
  rw [Nat.zero_min] at entry
  exact entry

theorem finds_bottom {entry ef : Nat} (healthy : s.Healthy) (on : 0 < s.layers entry)
    (room : 0 < ef) (k : Nat) :
    s.Finds space query ((s.searchLayer space std query entry ef 0 true).take k) := by
  have returns := @searchLayer_returns V D _ _ space std s 0 entry query _ ef true
    (healthy.grounded.closed 0) on room
  refine ⟨fun pair member => ?_, ?_, returns.sorted.sublist (List.take_sublist k _)⟩
  · obtain ⟨layer, score, counts⟩ := returns.each pair (List.mem_of_mem_take member)
    refine ⟨lt_length_of_layer layer, ?_, score⟩
    simpa [layerSearch] using counts
  · exact returns.nodup.sublist ((List.take_sublist k _).map Prod.fst)

/-- An answer to `search`. -/
structure Answers (s : HNSWIndex V) (space : Space V D) (query : V) (k : Nat)
    (found : List (String × D)) : Prop where
  few : found.length ≤ k
  distinct : (found.map Prod.fst).Nodup
  live : ∀ pair ∈ found, ∃ i, s.idToIndex.lookup pair.1 = some i ∧
    pair.2 = space.distance (space.prepare query) (s.node i).vector
  ascending : found.Pairwise fun first second => first.2 ≤ second.2

/-- The ids of different live nodes differ. -/
theorem Finds.answers {results : List (Nat × D)} (healthy : s.Healthy)
    (finds : s.Finds space (space.prepare query) results) (few : results.length ≤ k) :
    s.Answers space query k (results.map fun pair => ((s.node pair.1).id, pair.2)) := by
  have own : ∀ pair ∈ results, s.idToIndex.lookup (s.node pair.1).id = some pair.1 := by
    intro pair member
    obtain ⟨inside, live, -⟩ := finds.live pair member
    exact (healthy.ids _ _).mpr ⟨inside, rfl, live⟩
  refine ⟨?_, ?_, fun found member => ?_, ?_⟩
  · rw [List.length_map]
    exact few
  · rw [List.map_map]
    have nodes : (results.map fun pair => (s.node pair.1).id) =
        (results.map Prod.fst).map fun i => (s.node i).id := by
      rw [List.map_map]
      rfl
    change (results.map fun pair => (s.node pair.1).id).Nodup
    rw [nodes]
    refine finds.nodup.map_on fun i first j second same => ?_
    obtain ⟨a, inFirst, rfl⟩ := List.mem_map.mp first
    obtain ⟨b, inSecond, rfl⟩ := List.mem_map.mp second
    have isFirst := own a inFirst
    rw [same, own b inSecond] at isFirst
    exact (Option.some.inj isFirst).symm
  · obtain ⟨pair, inside, rfl⟩ := List.mem_map.mp member
    exact ⟨pair.1, own pair inside, (finds.live pair inside).2.2⟩
  · rw [List.pairwise_map]
    exact finds.ascending

/-- A healthy index answers every query. -/
theorem Healthy.search (healthy : s.Healthy) (built : s.staged = false)
    (fits : efSearch ≤ s.config.efSearch) :
    ∃ found, s.search space std query k efSearch = .ok found ∧ s.Answers space query k found := by
  unfold HNSWIndex.search searchRecordsLocked
  rw [built, if_neg Bool.false_ne_true]
  split
  next => exact ⟨[], rfl, Nat.zero_le k, List.nodup_nil, nofun, .nil⟩
  next some =>
    rw [not_or, not_or] at some
    obtain ⟨positive, sized, -⟩ := some
    rw [if_neg (not_lt.mpr fits)]
    dsimp only
    have nodes : s.nodes ≠ [] := by
      intro none
      refine sized (List.length_eq_zero_iff.mpr (List.eq_nil_iff_forall_not_mem.mpr ?_))
      intro id member
      obtain ⟨i, isId⟩ := Option.isSome_iff_exists.mp (AList.lookup_isSome.mpr member)
      have inside := ((healthy.ids id i).mp isId).1
      rw [none] at inside
      exact Nat.not_lt_zero i inside
    have finds := @finds_bottom V D _ _ space std s (space.prepare query) _
      (max k (if efSearch = 0 then s.config.efSearch else efSearch)) healthy
      (@entry_on_bottom V D _ _ space std s healthy built nodes (space.prepare query)) (by omega) k
    obtain ⟨found, did⟩ := @hits_total V D _ s 0 0
      ((s.searchLayer space std (space.prepare query)
        (s.descend space std (space.prepare query) 0 s.maxLevel s.entryPoint)
        (max k (if efSearch = 0 then s.config.efSearch else efSearch)) 0 true).take k)
    rw [did]
    refine ⟨_, rfl, ?_⟩
    have given := hits_cases did
    rw [given]
    dsimp only
    rw [List.map_map]
    exact finds.answers healthy (List.length_take_le k _)

/-! ## Every history -/

/-- What a checkpoint relies on. -/
structure Consistent (s : HNSWIndex V) : Prop where
  edge : ∀ i l, ∀ x ∈ s.links i l, x ≠ i ∧ i < s.nodes.length ∧ l < s.layers i ∧
    x < s.nodes.length ∧ l < s.layers x
  nodup : ∀ i l, (s.links i l).Nodup
  degree : ∀ i l, (s.links i l).length ≤ if l = 0 then 2 * s.config.M else s.config.M
  ids : ∀ id i, s.idToIndex.lookup id = some i ↔
    i < s.nodes.length ∧ (s.node i).id = id ∧ (s.node i).deleted = false

/-- The entry point has the maximal level. -/
def EntryHighest (s : HNSWIndex V) : Prop :=
  s.nodes ≠ [] → s.entryPoint < s.nodes.length ∧ s.layers s.entryPoint = s.maxLevel + 1 ∧
    ∀ i < s.nodes.length, s.layers i ≤ s.layers s.entryPoint

theorem Tidy.consistent (tidy : s.Tidy) (healthy : s.Healthy) : s.Consistent := by
  refine ⟨fun i l x member => ?_, tidy.wired.nodup, fun i l => ?_, healthy.ids⟩
  · have own := layer_lt_of_mem member
    have other := healthy.grounded i l x member
    exact ⟨tidy.wired.edge i l x member, lt_length_of_layer own, own, lt_length_of_layer other, other⟩
  · have short := tidy.wired.degree i l
    unfold maximum at short
    split at short
    next bottom =>
      rw [if_pos bottom]
      omega
    next upper =>
      rw [if_neg upper]
      exact short

theorem Healthy.entryHighest (healthy : s.Healthy) (built : s.staged = false) : s.EntryHighest := by
  intro some
  have notEmpty : s.nodes.length ≠ 0 := fun none => some (List.length_eq_zero_iff.mp none)
  obtain ⟨inside, top, highest⟩ := (healthy.placed built).resolve_left notEmpty
  refine ⟨inside, top, fun i before => ?_⟩
  rw [top]
  exact highest i before

theorem tidy_ofConfig (config : HNSWConfig) : (ofConfig config : HNSWIndex V).Tidy :=
  ⟨wired_of_unlinked fun _ => nofun, nofun⟩

/-- What holds of the index in every history, and what a query then answers. -/
theorem history_consistent {config : HNSWConfig}
    (reached : Reach (step space std) BuildsStaged (ofConfig config) s) :
    s.Consistent ∧ (s.staged = false → s.EntryHighest ∧
      ∀ query k efSearch, efSearch ≤ s.config.efSearch →
        ∃ found, s.search space std query k efSearch = .ok found ∧
          s.Answers space query k found) := by
  obtain ⟨healthy, tidy⟩ : s.Healthy ∧ s.Tidy := by
    refine @Reach.invariant _ _ _ _ _ _ (fun s => s.Healthy ∧ s.Tidy) reached
      ⟨healthy_ofConfig config, tidy_ofConfig config⟩ fun before allowed taken => ?_
    exact ⟨healthy_step before.1 taken, tidy_step before.2 before.1 allowed taken⟩
  refine ⟨tidy.consistent healthy, fun built => ⟨healthy.entryHighest built, ?_⟩⟩
  exact fun query k efSearch fits => healthy.search built fits

/-! ## A concrete index -/

section

variable (D)

instance total_near : Std.Total fun a b : D × Nat => a.1 ≤ b.1 := ⟨fun a b => le_total a.1 b.1⟩

instance total_far : Std.Total fun a b : D × Nat => b.1 ≤ a.1 := ⟨fun a b => le_total b.1 a.1⟩

instance trans_near : IsTrans (D × Nat) fun a b => a.1 ≤ b.1 := ⟨fun _ _ _ => le_trans⟩

instance trans_far : IsTrans (D × Nat) fun a b => b.1 ≤ a.1 :=
  ⟨fun _ _ _ first second => le_trans second first⟩

/-- Queues and a sort that keep ties in the order of their insertion. -/
def plainStandard : Standard D where
  queues :=
    { near := .ordered fun a b : D × Nat => a.1 ≤ b.1
      far := .ordered fun a b : D × Nat => b.1 ≤ a.1 }
  sort := List.insertionSort fun a b => a.2 ≤ b.2
  sort_perm := List.perm_insertionSort _

end

/-- Numbers at the distance of their squared difference. -/
def lineSpace : Space Int Int where
  validVector _ := true
  size _ := 1
  prepare := id
  same a b := a == b
  distance a b := (a - b) * (a - b)

def pairConfig : HNSWConfig := { M := 2, efConstruction := 2, efSearch := 4 }

/-- A replaced node stays in the graph. -/
def replacedOps : List (Op Int) :=
  [.insert "a" 1 [] 0, .insert "b" 5 [] 1, .upsert "a" 9 [7] 0, .remove "b", .insert "c" 2 [] 0]

theorem replaced_history_answers : ∃ s,
    run (step lineSpace (plainStandard Int)) (ofConfig pairConfig) replacedOps = some s ∧
      s.nodes.length = 4 ∧ s.Consistent ∧ s.EntryHighest ∧
        (s.search lineSpace (plainStandard Int) 3 4 0).toOption = some [("c", 1), ("a", 36)] ∧
          ∃ found, s.search lineSpace (plainStandard Int) 3 4 0 = .ok found ∧
            s.Answers lineSpace 3 4 found := by
  have summary : (run (step lineSpace (plainStandard Int)) (ofConfig pairConfig) replacedOps).map
      (fun s => (s.nodes.length, s.staged, s.config.efSearch,
        (s.search lineSpace (plainStandard Int) 3 4 0).toOption)) =
          some (4, false, 4, some [("c", 1), ("a", 36)]) := rfl
  obtain ⟨s, runs, found⟩ := Option.map_eq_some_iff.mp summary
  simp only [Prod.mk.injEq] at found
  obtain ⟨nodes, built, bound, answer⟩ := found
  have reached : Reach (step lineSpace (plainStandard Int)) BuildsStaged (ofConfig pairConfig) s :=
    .of_runAllowed .refl (by decide) runs
  obtain ⟨consistent, later⟩ := history_consistent reached
  obtain ⟨entry, answers⟩ := later built
  exact ⟨s, runs, nodes, consistent, entry, answer, answers 3 4 0 (by omega)⟩

/-- Staged nodes are not connected, and a second build connects every node again. -/
theorem built_twice_inconsistent :
    (∃ s, run (step lineSpace (plainStandard Int)) (ofConfig pairConfig)
        [.stage "a" 1 [] 0, .stage "b" 5 [] 1] = some s ∧ ¬s.EntryHighest) ∧
      ∃ s, run (step lineSpace (plainStandard Int)) (ofConfig pairConfig)
        [.insert "a" 1 [] 0, .insert "b" 5 [] 0, .buildStaged] = some s ∧
          s.links 1 0 = [0, 1, 1, 0] ∧ ¬s.Consistent := by
  constructor
  · have summary : (run (step lineSpace (plainStandard Int)) (ofConfig pairConfig)
        [.stage "a" 1 [] 0, .stage "b" 5 [] 1]).map
          (fun s => (s.nodes.length, s.layers 1, s.layers s.entryPoint)) = some (2, 2, 1) := by
      decide
    obtain ⟨s, runs, found⟩ := Option.map_eq_some_iff.mp summary
    simp only [Prod.mk.injEq] at found
    obtain ⟨nodes, second, entry⟩ := found
    refine ⟨s, runs, fun highest => ?_⟩
    have some : s.nodes ≠ [] := fun none => by
      rw [none] at nodes
      cases nodes
    have above := (highest some).2.2 1 (by omega)
    omega
  · have summary : (run (step lineSpace (plainStandard Int)) (ofConfig pairConfig)
        [.insert "a" 1 [] 0, .insert "b" 5 [] 0, .buildStaged]).map (fun s => s.links 1 0) =
          some [0, 1, 1, 0] := by decide
    obtain ⟨s, runs, found⟩ := Option.map_eq_some_iff.mp summary
    refine ⟨s, runs, found, fun consistent => ?_⟩
    have own : 1 ∈ s.links 1 0 := by
      rw [found]
      exact .tail 0 (.head _)
    exact (consistent.edge 1 0 1 own).1 rfl

end HNSWIndex

end PacificDb.Vector
