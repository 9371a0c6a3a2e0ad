import PacificDb.Vector.Links

/-!
# Connecting nodes

Where every edge leads to a node of its layer, a search that starts on a layer stays on
it, and so what it chooses can be linked there. If the node that is connected has no
edges yet, then edges join different nodes, no list has a node twice, and none is longer
than its layer allows.
-/

namespace PacificDb.Vector

open Lib

namespace HNSWIndex

variable {V D : Type} [Inhabited V] [LinearOrder D] {space : Space V D} {std : Standard D}
  {s t : HNSWIndex V} {i j k l idx entry : Nat} {query : V}

/-- Edges lead to nodes of their layer. -/
def Grounded (s : HNSWIndex V) : Prop := ∀ i l, ∀ x ∈ s.links i l, l < s.layers x

/-- The nodes that are reached on a layer have the property. -/
def Closed (s : HNSWIndex V) (l : Nat) (known : Nat → Prop) : Prop :=
  ∀ i, known i → ∀ x ∈ s.links i l, known x

theorem Grounded.closed (grounded : s.Grounded) (l : Nat) : s.Closed l fun i => l < s.layers i :=
  fun i _ x member => grounded i l x member

/-! ## Searches stay on their layer -/

variable {known : Nat → Prop} {ef : Nat} {liveOnly : Bool}

theorem searchLayer_returns (closed : s.Closed l known) (on : known entry) (room : 0 < ef) :
    (s.layerSearch space query ef l liveOnly).Returns known
      (s.searchLayer space std query entry ef l liveOnly) :=
  BestFirst.run_returns on closed room

theorem nearest_known (closed : s.Closed l known) (on : known entry) (room : 0 < ef) :
    known (nearest (s.searchLayer space std query entry ef l liveOnly) entry) := by
  have returns := @searchLayer_returns V D _ _ space std s l entry query known ef liveOnly closed on room
  unfold nearest
  split
  next => exact on
  next found score rest results =>
    refine (returns.each (found, score) ?_).1
    rw [results]
    exact List.mem_cons_self

theorem descend_layer {top level : Nat} (grounded : s.Grounded) (on : top < s.layers entry) :
    min top level < s.layers (s.descend space std query level top entry) := by
  induction top generalizing entry with
  | zero =>
    rw [descend, Nat.zero_min]
    exact on
  | succ top ih =>
    rw [descend]
    split
    next above =>
      have found : top + 1 < s.layers
          (nearest (s.searchLayer space std query entry 1 (top + 1) false) entry) :=
        nearest_known (grounded.closed (top + 1)) on Nat.one_pos
      have below : min top level = min (top + 1) level := by omega
      rw [← below]
      exact ih ((Nat.lt_succ_self top).trans found)
    next below =>
      rw [Nat.min_eq_left (not_lt.mp below)]
      exact on

omit [Inhabited V] in
theorem efConstruction_pos (s : HNSWIndex V) : 0 < s.config.efConstruction := by
  have valid := s.config.valid
  omega

theorem chosen_sublist (s : HNSWIndex V) (query : V) (l entry : Nat) :
    (s.chosen space std query l entry).Sublist
      ((s.searchLayer space std query entry s.config.efConstruction l false).map Prod.fst) := by
  obtain ⟨taken, part, result⟩ := @selectNeighbors_sublist V D _ _ space s s.config.M []
    (s.searchLayer space std query entry s.config.efConstruction l false)
  unfold chosen
  rw [result]
  exact part

theorem chosen_known (closed : s.Closed l known) (on : known entry) :
    ∀ c ∈ s.chosen space std query l entry, known c := by
  intro c member
  obtain ⟨pair, isFound, same⟩ := List.mem_map.mp ((chosen_sublist s query l entry).subset member)
  rw [← same]
  exact ((searchLayer_returns closed on s.efConstruction_pos).each pair isFound).1

theorem chosen_nodup (closed : s.Closed l known) (on : known entry) :
    (s.chosen space std query l entry).Nodup :=
  (searchLayer_returns closed on s.efConstruction_pos).nodup.sublist (chosen_sublist s query l entry)

theorem length_chosen (s : HNSWIndex V) (query : V) (l entry : Nat) :
    (s.chosen space std query l entry).length ≤ s.config.M := by
  have valid := s.config.valid.1.1
  refine length_selectNeighbors _ _ ?_
  rw [List.length_nil]
  omega

/-! ## Layers keep the edges grounded -/

theorem rewired_links {chosen : List Nat} : Rewired s (chosen.foldl (link space std l idx) s) := by
  induction chosen generalizing s with
  | nil => exact .refl s
  | cons c rest ih => exact (rewired_link s l idx c).trans ih

theorem links_links_other {chosen : List Nat} (other : k ≠ l) :
    (chosen.foldl (link space std l idx) s).links j k = s.links j k := by
  induction chosen generalizing s with
  | nil => rfl
  | cons c rest ih => exact ih.trans (links_link_other (.inl other))

theorem Grounded.link {neighbor : Nat} (grounded : s.Grounded) (own : l < s.layers idx)
    (layer : l < s.layers neighbor) : (HNSWIndex.link space std l idx s neighbor).Grounded := by
  intro i k x member
  rw [(rewired_link s l idx neighbor).layers]
  rcases mem_links_link member with before | ⟨rfl, ⟨-, rfl⟩ | ⟨-, rfl⟩⟩
  · exact grounded i k x before
  · exact layer
  · exact own

theorem Grounded.links {chosen : List Nat} (grounded : s.Grounded) (own : l < s.layers idx)
    (layer : ∀ c ∈ chosen, l < s.layers c) :
    (chosen.foldl (HNSWIndex.link space std l idx) s).Grounded := by
  induction chosen generalizing s with
  | nil => exact grounded
  | cons c rest ih =>
    obtain ⟨first, later⟩ := List.forall_mem_cons.mp layer
    have rewired := @rewired_link V D _ _ space std s l idx c
    refine ih (grounded.link own first) ?_ fun other member => ?_
    · rw [rewired.layers]
      exact own
    · rw [rewired.layers]
      exact later other member

theorem rewired_connectLayers (s : HNSWIndex V) (entry : Nat) :
    Rewired s (connectLayers space std idx query l s entry) := by
  induction l generalizing s entry with
  | zero => exact rewired_links
  | succ l ih => exact rewired_links.trans (ih _ _)

theorem Grounded.connectLayers (grounded : s.Grounded) (own : l < s.layers idx)
    (on : l < s.layers entry) :
    (HNSWIndex.connectLayers space std idx query l s entry).Grounded := by
  induction l generalizing s entry with
  | zero => exact grounded.links own (chosen_known (grounded.closed 0) on)
  | succ l ih =>
    have rewired : Rewired s (s.connectLayer space std idx query (l + 1) entry) := rewired_links
    have found := @nearest_known V D _ _ space std s (l + 1) entry query _ _ false
      (grounded.closed (l + 1)) on s.efConstruction_pos
    refine ih (grounded.links own (chosen_known (grounded.closed (l + 1)) on)) ?_ ?_
    · rw [rewired.layers]
      exact (Nat.lt_succ_self l).trans own
    · rw [rewired.layers]
      exact (Nat.lt_succ_self l).trans found

/-! ## Lists without duplicates and within their bounds -/

structure Wired (s : HNSWIndex V) : Prop where
  edge : ∀ i l, ∀ x ∈ s.links i l, x ≠ i
  nodup : ∀ i l, (s.links i l).Nodup
  degree : ∀ i l, (s.links i l).length ≤ s.maximum l

omit [Inhabited V] in
theorem M_le_maximum (s : HNSWIndex V) (l : Nat) : s.config.M ≤ s.maximum l := by
  unfold maximum
  split <;> omega

theorem Wired.link {neighbor : Nat} (wired : s.Wired) (own : l < s.layers idx)
    (layer : l < s.layers neighbor) (differs : neighbor ≠ idx) (fresh : idx ∉ s.links neighbor l)
    (unused : neighbor ∉ s.links idx l) (room : (s.links idx l).length < s.maximum l) :
    (HNSWIndex.link space std l idx s neighbor).Wired ∧
      (HNSWIndex.link space std l idx s neighbor).links idx l = s.links idx l ++ [neighbor] := by
  have rewired := @rewired_link V D _ _ space std s l idx neighbor
  -- The first half leaves the list of the neighbour as it was.
  have half : ∀ i, i ≠ idx → (s.setLinks idx l (s.links idx l ++ [neighbor])).links i l =
      s.links i l := by
    intro i other
    rw [links_setLinks, if_neg fun both => other both.1]
  have first : (HNSWIndex.link space std l idx s neighbor).links idx l =
      s.links idx l ++ [neighbor] := by
    unfold HNSWIndex.link
    dsimp only
    rw [if_pos own, links_linkBack_other (.inl differs.symm), links_setLinks, if_pos ⟨rfl, rfl, own⟩]
  have second : ((HNSWIndex.link space std l idx s neighbor).links neighbor l).Nodup ∧
      ((HNSWIndex.link space std l idx s neighbor).links neighbor l).length ≤ s.maximum l := by
    unfold HNSWIndex.link
    dsimp only
    rw [if_pos own]
    obtain ⟨part, short⟩ := @links_linkBack V D _ _ space std
      (s.setLinks idx l (s.links idx l ++ [neighbor])) l idx neighbor
      ((rewired_setLinks s idx l _).layers neighbor ▸ layer)
    rw [half neighbor differs] at part short
    obtain ⟨kept, perm, sub⟩ := part
    refine ⟨perm.nodup_iff.mp (List.Nodup.sublist sub ?_), short (wired.degree neighbor l)⟩
    exact List.nodup_append.mpr ⟨wired.nodup neighbor l, List.nodup_singleton idx,
      fun x member y isIdx same => fresh (List.mem_singleton.mp isIdx ▸ same ▸ member)⟩
  refine ⟨⟨fun i k x member => ?_, fun i k => ?_, fun i k => ?_⟩, first⟩
  · rcases mem_links_link member with before | ⟨-, ⟨rfl, rfl⟩ | ⟨rfl, rfl⟩⟩
    · exact wired.edge i k x before
    · exact differs
    · exact differs.symm
  · by_cases other : k ≠ l ∨ i ≠ idx ∧ i ≠ neighbor
    · rw [links_link_other other]
      exact wired.nodup i k
    · rw [not_or, not_not, not_and_or, not_not, not_not] at other
      obtain ⟨rfl, rfl | rfl⟩ := other
      · rw [first]
        exact List.nodup_append.mpr ⟨wired.nodup i k, List.nodup_singleton neighbor,
          fun x member y isNew same => unused (List.mem_singleton.mp isNew ▸ same ▸ member)⟩
      · exact second.1
  · rw [rewired.maximum]
    by_cases other : k ≠ l ∨ i ≠ idx ∧ i ≠ neighbor
    · rw [links_link_other other]
      exact wired.degree i k
    · rw [not_or, not_not, not_and_or, not_not, not_not] at other
      obtain ⟨rfl, rfl | rfl⟩ := other
      · rw [first, List.length_append, List.length_singleton]
        exact room
      · exact second.2

/-- All that is chosen on a layer is linked there. -/
theorem Wired.links {chosen : List Nat} (wired : s.Wired) (own : l < s.layers idx)
    (each : ∀ c ∈ chosen, l < s.layers c ∧ c ≠ idx ∧ idx ∉ s.links c l)
    (nodup : (s.links idx l ++ chosen).Nodup)
    (room : (s.links idx l).length + chosen.length ≤ s.maximum l) :
    (chosen.foldl (HNSWIndex.link space std l idx) s).Wired := by
  induction chosen generalizing s with
  | nil => exact wired
  | cons c rest ih =>
    obtain ⟨⟨layer, differs, fresh⟩, later⟩ := List.forall_mem_cons.mp each
    rw [List.length_cons] at room
    obtain ⟨-, unique, apart⟩ := List.nodup_append.mp nodup
    have unused : c ∉ s.links idx l := fun member => apart c member c List.mem_cons_self rfl
    obtain ⟨linked, first⟩ := @Wired.link V D _ _ space std s l idx c wired own layer differs fresh
      unused (by omega)
    have rewired := @rewired_link V D _ _ space std s l idx c
    refine ih linked ?_ (fun other member => ?_) ?_ ?_
    · rw [rewired.layers]
      exact own
    · obtain ⟨layer, differs, fresh⟩ := later other member
      have notFirst : other ≠ c := fun same => (List.nodup_cons.mp unique).1 (same ▸ member)
      rw [rewired.layers, links_link_other (.inr ⟨differs, notFirst⟩)]
      exact ⟨layer, differs, fresh⟩
    · rw [first, List.append_assoc]
      exact nodup
    · rw [first, rewired.maximum, List.length_append, List.length_singleton]
      omega

/-- Edges join nodes before `n`. -/
def Within (s : HNSWIndex V) (n l : Nat) : Prop := ∀ i, ∀ x ∈ s.links i l, i < n ∧ x < n

theorem Within.links {chosen : List Nat} (within : s.Within idx l) (each : ∀ c ∈ chosen, c < idx) :
    (chosen.foldl (HNSWIndex.link space std l idx) s).Within (idx + 1) l := by
  have grown : s.Within (idx + 1) l := fun i x member =>
    (within i x member).imp Nat.lt_succ_of_lt Nat.lt_succ_of_lt
  clear within
  induction chosen generalizing s with
  | nil => exact grown
  | cons c rest ih =>
    obtain ⟨first, later⟩ := List.forall_mem_cons.mp each
    refine ih later fun i x member => ?_
    rcases mem_links_link member with before | ⟨-, ⟨rfl, rfl⟩ | ⟨rfl, rfl⟩⟩
    · exact grown i x before
    · exact ⟨Nat.lt_succ_self _, Nat.lt_succ_of_lt first⟩
    · exact ⟨Nat.lt_succ_of_lt first, Nat.lt_succ_self _⟩

/-- On a layer where the new node has no edges it is found by no search. -/
theorem closed_before (grounded : s.Grounded) (within : s.Within idx l) :
    s.Closed l fun i => l < s.layers i ∧ i < idx :=
  fun i _ x member => ⟨grounded i l x member, (within i x member).2⟩

theorem Wired.connectLayer (wired : s.Wired) (grounded : s.Grounded) (own : l < s.layers idx)
    (on : l < s.layers entry ∧ entry < idx) (within : s.Within idx l) :
    (s.connectLayer space std idx query l entry).Wired ∧
      (s.connectLayer space std idx query l entry).Within (idx + 1) l := by
  have each : ∀ c ∈ s.chosen space std query l entry, l < s.layers c ∧ c < idx :=
    chosen_known (closed_before grounded within) on
  have empty : s.links idx l = [] := by
    refine List.eq_nil_iff_forall_not_mem.mpr fun x member => ?_
    exact absurd (within idx x member).1 (lt_irrefl idx)
  refine ⟨wired.links own (fun c member => ?_) ?_ ?_, within.links fun c member => (each c member).2⟩
  · obtain ⟨layer, before⟩ := each c member
    exact ⟨layer, before.ne, fun back => absurd (within c idx back).2 (lt_irrefl idx)⟩
  · rw [empty]
    exact @chosen_nodup V D _ _ space std s l entry query _ (closed_before grounded within) on
  · rw [empty, List.length_nil, Nat.zero_add]
    exact (s.length_chosen query l entry).trans (s.M_le_maximum l)

/-- The layer of a new node and those above, once it is connected there. -/
theorem Wired.within_connectLayer (wired : s.Wired) (grounded : s.Grounded) (own : l < s.layers idx)
    (on : l < s.layers entry ∧ entry < idx) (within : s.Within idx l)
    (above : ∀ k, l < k → s.Within (idx + 1) k) (k : Nat) (beyond : l ≤ k) :
    (s.connectLayer space std idx query l entry).Within (idx + 1) k := by
  rcases Nat.eq_or_lt_of_le beyond with same | more
  · rw [← same]
    exact (wired.connectLayer grounded own on within).2
  · intro i x member
    unfold HNSWIndex.connectLayer at member
    rw [links_links_other more.ne'] at member
    exact above k more i x member

/-- A new node is connected on a layer and on those below. -/
theorem Wired.connectLayers (wired : s.Wired) (grounded : s.Grounded) (own : l < s.layers idx)
    (on : l < s.layers entry ∧ entry < idx) (within : ∀ k ≤ l, s.Within idx k)
    (above : ∀ k, l < k → s.Within (idx + 1) k) :
    (HNSWIndex.connectLayers space std idx query l s entry).Wired ∧
      ∀ k, (HNSWIndex.connectLayers space std idx query l s entry).Within (idx + 1) k := by
  induction l generalizing s entry with
  | zero =>
    refine ⟨(wired.connectLayer grounded own on (within 0 le_rfl)).1, fun k => ?_⟩
    exact wired.within_connectLayer grounded own on (within 0 le_rfl) above k (Nat.zero_le k)
  | succ l ih =>
    have rewired : Rewired s (s.connectLayer space std idx query (l + 1) entry) := rewired_links
    have here := within (l + 1) le_rfl
    have found := @nearest_known V D _ _ space std s (l + 1) entry query _ _ false
      (closed_before grounded here) on s.efConstruction_pos
    refine ih (wired.connectLayer grounded own on here).1
      (grounded.links own (chosen_known (grounded.closed (l + 1)) on.1)) ?_ ?_ ?_ ?_
    · rw [rewired.layers]
      exact (Nat.lt_succ_self l).trans own
    · rw [rewired.layers]
      exact ⟨(Nat.lt_succ_self l).trans found.1, found.2⟩
    · intro k below i x member
      unfold HNSWIndex.connectLayer at member
      rw [links_links_other (Nat.lt_succ_of_le below).ne] at member
      exact within k (Nat.le_succ_of_le below) i x member
    · exact fun k more => wired.within_connectLayer grounded own on here above k more

end HNSWIndex

end PacificDb.Vector
