import PacificDb.Vector.Hnsw

/-!
# Links of the HNSW graph

A link changes two lists of one layer and nothing else of the index. What is linked on a
layer was found on that layer, so that edges lead to nodes of their layer; pruning keeps
some of what is there.
-/

namespace PacificDb.Vector

open Lib

namespace HNSWIndex

variable {V D : Type} [Inhabited V] [LinearOrder D] {space : Space V D} {std : Standard D}
  {s t u : HNSWIndex V} {i j k l idx entry neighbor : Nat} {query : V}

/-! ## What links leave alone -/

/-- `t` is `s` with other lists of neighbours. -/
structure Rewired (s t : HNSWIndex V) : Prop where
  same : t = { s with nodes := t.nodes }
  length : t.nodes.length = s.nodes.length
  node : ∀ i, t.node i = { s.node i with neighbors := (t.node i).neighbors }
  layers : ∀ i, t.layers i = s.layers i

theorem Rewired.refl (s : HNSWIndex V) : Rewired s s := ⟨rfl, rfl, fun _ => rfl, fun _ => rfl⟩

theorem Rewired.trans (first : Rewired s t) (second : Rewired t u) : Rewired s u := by
  refine ⟨?_, second.length.trans first.length, fun i => ?_,
    fun i => (second.layers i).trans (first.layers i)⟩
  · rw [second.same, first.same]
  · rw [second.node i, first.node i]

theorem Rewired.config (rewired : Rewired s t) : t.config = s.config := by rw [rewired.same]

theorem Rewired.entryPoint (rewired : Rewired s t) : t.entryPoint = s.entryPoint := by
  rw [rewired.same]

theorem Rewired.maxLevel (rewired : Rewired s t) : t.maxLevel = s.maxLevel := by rw [rewired.same]

theorem Rewired.vector (rewired : Rewired s t) (i : Nat) : (t.node i).vector = (s.node i).vector := by
  rw [rewired.node i]

theorem Rewired.maximum (rewired : Rewired s t) (l : Nat) : t.maximum l = s.maximum l := by
  unfold HNSWIndex.maximum
  rw [rewired.config]

theorem node_setLinks (s : HNSWIndex V) (i l j : Nat) (list : List Nat) :
    (s.setLinks i l list).node j =
      if j = i then { s.node j with neighbors := (s.node j).neighbors.set l list } else s.node j := by
  unfold setLinks node
  dsimp only
  rw [List.getD_eq_getElem?_getD, List.getElem?_modify, List.getD_eq_getElem?_getD]
  by_cases same : j = i
  · subst same
    simp only [if_true]
    cases s.nodes[j]? <;> rfl
  · have other : ¬i = j := Ne.symm same
    simp only [if_neg same, if_neg other]
    cases s.nodes[j]? <;> rfl

theorem rewired_setLinks (s : HNSWIndex V) (i l : Nat) (list : List Nat) :
    Rewired s (s.setLinks i l list) := by
  refine ⟨rfl, List.length_modify _ _ _, fun j => ?_, fun j => ?_⟩
  · rw [node_setLinks]
    split <;> rfl
  · unfold layers
    rw [node_setLinks]
    split
    next => exact List.length_set
    next => rfl

theorem links_setLinks (s : HNSWIndex V) (i l j k : Nat) (list : List Nat) :
    (s.setLinks i l list).links j k =
      if j = i ∧ k = l ∧ l < s.layers i then list else s.links j k := by
  unfold links
  rw [node_setLinks]
  by_cases same : j = i
  · subst same
    rw [if_pos rfl]
    dsimp only
    rw [List.getD_eq_getElem?_getD, List.getElem?_set, List.getD_eq_getElem?_getD]
    by_cases layer : l = k
    · subst layer
      by_cases inside : l < s.layers j
      · have room : l < (s.node j).neighbors.length := inside
        rw [if_pos rfl, if_pos room, if_pos ⟨rfl, rfl, inside⟩]
        rfl
      · have outside : ¬l < (s.node j).neighbors.length := inside
        rw [if_pos rfl, if_neg outside, if_neg fun both => inside both.2.2,
          List.getElem?_eq_none (not_lt.mp outside)]
    · rw [if_neg layer, if_neg fun both => layer both.2.1.symm]
  · rw [if_neg same, if_neg fun both => same both.1]

/-- A node has links on its own layers only. -/
theorem layer_lt_of_mem {x : Nat} (member : x ∈ s.links i l) : l < s.layers i := by
  by_contra beyond
  unfold links at member
  rw [List.getD_eq_getElem?_getD, List.getElem?_eq_none (not_lt.mp beyond)] at member
  cases member

/-- A node with a layer is in the index. -/
theorem lt_length_of_layer (layer : l < s.layers i) : i < s.nodes.length := by
  by_contra beyond
  unfold layers node at layer
  rw [List.getD_eq_getElem?_getD, List.getElem?_eq_none (not_lt.mp beyond)] at layer
  cases layer

/-! ## Selection -/

/-- What is selected is a part of the candidates, in their order. -/
theorem selectNeighbors_sublist (s : HNSWIndex V) (maximum : Nat) (selected : List Nat)
    (candidates : List (Nat × D)) : ∃ taken, taken.Sublist (candidates.map Prod.fst) ∧
      s.selectNeighbors space maximum selected candidates = selected ++ taken := by
  induction candidates generalizing selected with
  | nil => exact ⟨[], .slnil, (List.append_nil _).symm⟩
  | cons candidate rest ih =>
    rw [selectNeighbors, List.map_cons]
    split
    next =>
      split
      next => exact ⟨[candidate.1], (List.nil_sublist _).cons_cons _, rfl⟩
      next =>
        obtain ⟨taken, part, result⟩ := ih (selected ++ [candidate.1])
        refine ⟨candidate.1 :: taken, part.cons_cons _, ?_⟩
        rw [result, List.append_assoc]
        rfl
    next =>
      split
      next => exact ⟨[], List.nil_sublist _, (List.append_nil _).symm⟩
      next =>
        obtain ⟨taken, part, result⟩ := ih selected
        exact ⟨taken, part.cons _, result⟩

theorem length_selectNeighbors (s : HNSWIndex V) {maximum : Nat} (candidates : List (Nat × D))
    {selected : List Nat} (room : selected.length < maximum) :
    (s.selectNeighbors space maximum selected candidates).length ≤ maximum := by
  induction candidates generalizing selected with
  | nil => exact room.le
  | cons candidate rest ih =>
    rw [selectNeighbors]
    split
    next =>
      have grown : (selected ++ [candidate.1]).length = selected.length + 1 := List.length_append
      split
      next full => exact full.le
      next short => exact ih (by omega)
    next =>
      split
      next full => exact full.le
      next => exact ih room

/-- The first candidate is always selected. -/
theorem selectNeighbors_cons (s : HNSWIndex V) (maximum : Nat) (candidate : Nat × D)
    (rest : List (Nat × D)) :
    candidate.1 ∈ s.selectNeighbors space maximum [] (candidate :: rest) := by
  rw [selectNeighbors]
  have first : s.diverse space [] candidate = true := rfl
  rw [first, if_pos rfl]
  split
  next => exact List.mem_cons_self
  next =>
    obtain ⟨taken, -, result⟩ := @selectNeighbors_sublist V D _ _ space s maximum
      ([] ++ [candidate.1]) rest
    rw [result]
    exact List.mem_append_left _ List.mem_cons_self

omit [Inhabited V] in
theorem maximum_pos (s : HNSWIndex V) (l : Nat) : 0 < s.maximum l := by
  have valid := s.config.valid.1.1
  unfold maximum
  split <;> omega

/-- What `prune` keeps of a list. -/
theorem links_prune (layer : l < s.layers i) : ∃ kept, (s.prune space std i l).links i l = kept ∧
    kept.Subperm (s.links i l) ∧ kept.length ≤ s.maximum l := by
  unfold prune
  dsimp only
  rw [links_setLinks, if_pos ⟨rfl, rfl, layer⟩]
  refine ⟨_, rfl, ?_, length_selectNeighbors _ _ (s.maximum_pos l)⟩
  obtain ⟨taken, part, result⟩ := @selectNeighbors_sublist V D _ _ space s (s.maximum l) []
    (std.sort ((s.links i l).map fun other =>
      (other, space.distance (s.node i).vector (s.node other).vector)))
  rw [result, List.nil_append]
  refine part.subperm.trans (List.Perm.subperm ?_)
  have sorted := (std.sort_perm ((s.links i l).map fun other =>
    (other, space.distance (s.node i).vector (s.node other).vector))).map Prod.fst
  rw [List.map_map] at sorted
  refine sorted.trans (List.Perm.of_eq ?_)
  exact List.map_id _

theorem rewired_prune (s : HNSWIndex V) (i l : Nat) : Rewired s (s.prune space std i l) :=
  rewired_setLinks s i l _

theorem links_prune_other (other : j ≠ i ∨ k ≠ l) :
    (s.prune space std i l).links j k = s.links j k := by
  unfold prune
  dsimp only
  rw [links_setLinks, if_neg]
  rintro ⟨node, layer, -⟩
  exact other.elim (fun differs => differs node) fun differs => differs layer

/-! ## One link -/

theorem rewired_linkBack (s : HNSWIndex V) (l idx neighbor : Nat) :
    Rewired s (s.linkBack space std l idx neighbor) := by
  unfold linkBack
  dsimp only
  split
  next =>
    split
    next => exact (rewired_setLinks s neighbor l _).trans (rewired_prune _ neighbor l)
    next => exact rewired_setLinks s neighbor l _
  next => exact .refl s

theorem rewired_link (s : HNSWIndex V) (l idx neighbor : Nat) :
    Rewired s (link space std l idx s neighbor) := by
  unfold link
  dsimp only
  split
  next => exact (rewired_setLinks s idx l _).trans (rewired_linkBack _ l idx neighbor)
  next => exact rewired_linkBack s l idx neighbor

theorem links_linkBack_other (other : j ≠ neighbor ∨ k ≠ l) :
    (s.linkBack space std l idx neighbor).links j k = s.links j k := by
  have kept : (s.setLinks neighbor l (s.links neighbor l ++ [idx])).links j k = s.links j k := by
    rw [links_setLinks, if_neg]
    rintro ⟨node, layer, -⟩
    exact other.elim (fun differs => differs node) fun differs => differs layer
  unfold linkBack
  dsimp only
  split
  next =>
    split
    next => exact (links_prune_other other).trans kept
    next => exact kept
  next => rfl

/-- What the neighbour keeps, with the link back or without. -/
theorem links_linkBack (layer : l < s.layers neighbor) :
    ((s.linkBack space std l idx neighbor).links neighbor l).Subperm (s.links neighbor l ++ [idx]) ∧
      ((s.links neighbor l).length ≤ s.maximum l →
        ((s.linkBack space std l idx neighbor).links neighbor l).length ≤ s.maximum l) := by
  have linked : (s.setLinks neighbor l (s.links neighbor l ++ [idx])).links neighbor l =
      s.links neighbor l ++ [idx] := by rw [links_setLinks, if_pos ⟨rfl, rfl, layer⟩]
  have rewired := rewired_setLinks s neighbor l (s.links neighbor l ++ [idx])
  unfold linkBack
  dsimp only
  rw [if_pos layer]
  split
  next =>
    obtain ⟨kept, isKept, part, short⟩ := @links_prune V D _ _ space std _ neighbor l
      ((rewired.layers neighbor).symm ▸ layer)
    rw [isKept]
    rw [linked] at part
    rw [rewired.maximum] at short
    exact ⟨part, fun _ => short⟩
  next fits =>
    rw [rewired.maximum] at fits
    rw [linked] at fits ⊢
    exact ⟨List.Subperm.refl _, fun _ => not_lt.mp fits⟩

theorem links_link_other (other : k ≠ l ∨ j ≠ idx ∧ j ≠ neighbor) :
    (link space std l idx s neighbor).links j k = s.links j k := by
  unfold link
  dsimp only
  rw [links_linkBack_other (other.elim .inr fun both => .inl both.2)]
  split
  next =>
    rw [links_setLinks, if_neg]
    rintro ⟨node, layer, -⟩
    exact other.elim (fun differs => differs layer) fun both => both.1 node
  next => rfl

/-- A link adds edges between its ends on its layer. -/
theorem mem_links_link {x : Nat} (member : x ∈ (link space std l idx s neighbor).links j k) :
    x ∈ s.links j k ∨ k = l ∧ (j = idx ∧ x = neighbor ∨ j = neighbor ∧ x = idx) := by
  unfold link at member
  dsimp only at member
  generalize isOwn : (if l < s.layers idx then
    s.setLinks idx l (s.links idx l ++ [neighbor]) else s) = own at member
  have ownMember : ∀ {j k x}, x ∈ own.links j k →
      x ∈ s.links j k ∨ k = l ∧ j = idx ∧ x = neighbor := by
    intro j k x member
    rw [← isOwn] at member
    split at member
    next =>
      rw [links_setLinks] at member
      split at member
      next here =>
        obtain ⟨node, layer, -⟩ := here
        rcases List.mem_append.mp member with before | isNew
        · rw [node, layer]
          exact .inl before
        · exact .inr ⟨layer, node, List.mem_singleton.mp isNew⟩
      next => exact .inl member
    next => exact .inl member
  have split_ : x ∈ own.links j k ∨ k = l ∧ j = neighbor ∧ x = idx := by
    by_cases other : j ≠ neighbor ∨ k ≠ l
    · rw [links_linkBack_other other] at member
      exact .inl member
    · rw [not_or, not_not, not_not] at other
      obtain ⟨rfl, rfl⟩ := other
      by_cases layer : k < own.layers j
      · rcases List.mem_append.mp ((links_linkBack layer).1.subset member) with before | isNew
        · exact .inl before
        · exact .inr ⟨rfl, rfl, List.mem_singleton.mp isNew⟩
      · unfold linkBack at member
        rw [if_neg layer] at member
        exact .inl member
  rcases split_ with before | ⟨layer, node, isNew⟩
  · exact (ownMember before).imp_right fun both => ⟨both.1, .inl both.2⟩
  · exact .inr ⟨layer, .inr ⟨node, isNew⟩⟩

end HNSWIndex

end PacificDb.Vector
