import PacificDb.Index.Directory

/-!
# A column index in memory

A process keeps the value of each id, and the ids of each value. It fills both from
the segments in order, a snapshot starting afresh, and applies each further batch as
it is written. The ids of a value are exactly those that have it, and a value without
ids has no entry.

Sets of ids are lists without repetitions; the order of a hash map is not kept.
-/

namespace PacificDb.Index

open Lib Sst

structure BinaryColumnIndexState where
  loaded : Bool := false
  valueById : SortedMap Bytes Bytes := .empty
  idsByValue : SortedMap Bytes (List Bytes) := .empty

/-- The ids in the bucket of a value. -/
def BinaryColumnIndexState.ids (state : BinaryColumnIndexState) (value : Bytes) : List Bytes :=
  (state.idsByValue.find? value).getD []

/-- The first half of `applyBinaryIndexMutation`: the id loses its value. -/
def BinaryColumnIndexState.forget (state : BinaryColumnIndexState) (id : Bytes) :
    BinaryColumnIndexState :=
  match state.valueById.find? id with
  | none => state
  | some existing =>
      let idsByValue :=
        match state.idsByValue.find? existing with
        | none => state.idsByValue
        | some ids =>
            let left := ids.filter fun other => other ≠ id
            if left.isEmpty then state.idsByValue.erase existing
            else state.idsByValue.assign existing left
      { state with valueById := state.valueById.erase id, idsByValue }

def applyBinaryIndexMutation (state : BinaryColumnIndexState) (mutation : IndexMutation) :
    BinaryColumnIndexState :=
  let state := state.forget mutation.id
  match mutation.op with
  | .clear => state
  | .put =>
      let bucket := state.ids mutation.value
      let bucket := if mutation.id ∈ bucket then bucket else mutation.id :: bucket
      { state with
        valueById := state.valueById.assign mutation.id mutation.value
        idsByValue := state.idsByValue.assign mutation.value bucket }

/-- The segments of the list in order; false is an exception, which leaves the state half
filled. -/
def loadSegments (dir : Directory) : List String → BinaryColumnIndexState →
    BinaryColumnIndexState × Bool
  | [], state => ({ state with loaded := true }, true)
  | path :: rest, state =>
      match (dir.files.find? path).map readIndexSegment with
      | some (.ok segment) =>
          let state := if segment.snapshot then { state with valueById := .empty, idsByValue := .empty } else state
          loadSegments dir rest (segment.mutations.foldl applyBinaryIndexMutation state)
      | _ => (state, false)

def loadBinaryColumnIndexLocked (dir : Directory) (state : BinaryColumnIndexState) :
    BinaryColumnIndexState × Bool :=
  if state.loaded then (state, true)
  else loadSegments dir (listIndexSegments dir) { state with valueById := .empty, idsByValue := .empty }

/-! ## The values of the ids -/

/-- What a mutation does to the values of the ids. -/
def applyValue (values : SortedMap Bytes Bytes) (mutation : IndexMutation) : SortedMap Bytes Bytes :=
  match mutation.op with
  | .clear => values.erase mutation.id
  | .put => values.assign mutation.id mutation.value

def applyValues (values : SortedMap Bytes Bytes) (mutations : List IndexMutation) :
    SortedMap Bytes Bytes :=
  mutations.foldl applyValue values

/-- What the segments of a directory stand for. -/
def replaySegments (segments : List IndexSegment) : SortedMap Bytes Bytes :=
  let replay (values : SortedMap Bytes Bytes) (segment : IndexSegment) :=
    applyValues (if segment.snapshot then .empty else values) segment.mutations
  segments.foldl replay .empty

variable {state : BinaryColumnIndexState} {values : SortedMap Bytes Bytes}
  {mutations others : List IndexMutation} {mutation : IndexMutation} {id value : Bytes}
  {dir : Directory}

theorem valueById_forget (state : BinaryColumnIndexState) (id : Bytes) :
    (state.forget id).valueById = state.valueById.erase id := by
  unfold BinaryColumnIndexState.forget
  split
  next missing =>
    apply SortedMap.ext_find?
    intro other
    rw [SortedMap.find?_erase]
    split
    next same => rw [same, missing]
    next => rfl
  next => rfl

theorem valueById_applyBinaryIndexMutation (state : BinaryColumnIndexState)
    (mutation : IndexMutation) :
    (applyBinaryIndexMutation state mutation).valueById = applyValue state.valueById mutation := by
  unfold applyBinaryIndexMutation applyValue
  cases mutation.op with
  | clear => exact valueById_forget state mutation.id
  | put =>
    apply SortedMap.ext_find?
    intro other
    dsimp only
    rw [SortedMap.find?_assign, SortedMap.find?_assign, valueById_forget, SortedMap.find?_erase]
    split
    next => rfl
    next => rfl

theorem loaded_applyBinaryIndexMutation (state : BinaryColumnIndexState)
    (mutation : IndexMutation) :
    (applyBinaryIndexMutation state mutation).loaded = state.loaded := by
  have kept : (state.forget mutation.id).loaded = state.loaded := by
    unfold BinaryColumnIndexState.forget
    split
    · rfl
    · rfl
  unfold applyBinaryIndexMutation
  split
  · exact kept
  · exact kept

theorem valueById_foldl (state : BinaryColumnIndexState) (mutations : List IndexMutation) :
    (mutations.foldl applyBinaryIndexMutation state).valueById =
      applyValues state.valueById mutations := by
  induction mutations generalizing state with
  | nil => rfl
  | cons mutation rest ih =>
    rw [List.foldl_cons, ih, valueById_applyBinaryIndexMutation]
    rfl

theorem loaded_foldl (state : BinaryColumnIndexState) (mutations : List IndexMutation) :
    (mutations.foldl applyBinaryIndexMutation state).loaded = state.loaded := by
  induction mutations generalizing state with
  | nil => rfl
  | cons mutation rest ih => rw [List.foldl_cons, ih, loaded_applyBinaryIndexMutation]

/-! ## The order of the mutations -/

theorem find?_applyValue (values : SortedMap Bytes Bytes) (mutation : IndexMutation) (id : Bytes) :
    (applyValue values mutation).find? id =
      if id = mutation.id then (if mutation.op = .put then some mutation.value else none)
      else values.find? id := by
  unfold applyValue
  by_cases own : id = mutation.id
  · rw [if_pos own]
    cases mutation.op with
    | clear => exact (SortedMap.find?_erase _ _ _).trans (if_pos own)
    | put => exact (SortedMap.find?_assign _ _ _ _).trans (if_pos own)
  · rw [if_neg own]
    cases mutation.op with
    | clear => exact (SortedMap.find?_erase _ _ _).trans (if_neg own)
    | put => exact (SortedMap.find?_assign _ _ _ _).trans (if_neg own)

/-- An id has its value by its own mutations, in their order. -/
theorem find?_applyValues (values : SortedMap Bytes Bytes) (mutations : List IndexMutation)
    (id : Bytes) :
    (applyValues values mutations).find? id =
      (applyValues values (mutations.filter fun mutation => mutation.id = id)).find? id := by
  have agree : ∀ (mutations : List IndexMutation) (first second : SortedMap Bytes Bytes),
      first.find? id = second.find? id →
      (applyValues first mutations).find? id =
        (applyValues second (mutations.filter fun mutation => mutation.id = id)).find? id := by
    intro mutations
    induction mutations with
    | nil => exact fun _ _ same => same
    | cons mutation rest ih =>
      intro first second same
      by_cases own : mutation.id = id
      · rw [List.filter_cons_of_pos (by simpa using own)]
        apply ih
        rw [find?_applyValue, find?_applyValue, same]
      · rw [List.filter_cons_of_neg (by simpa using own)]
        apply ih
        rw [find?_applyValue, if_neg (Ne.symm own), same]
  exact agree mutations values values rfl

theorem sortKey_injective {left right : IndexMutation} (same : left.sortKey = right.sortKey) :
    left = right := by
  obtain ⟨op, value, id⟩ := left
  obtain ⟨op', value', id'⟩ := right
  have pairs := toLex_inj.mp same
  have inner := toLex_inj.mp (congrArg Prod.snd pairs)
  have values : value = value' := congrArg Prod.fst pairs
  have ids : id = id' := congrArg Prod.fst inner
  have codes : op.code = op'.code := congrArg Prod.snd inner
  have ops : op = op' := by
    have decoded := congrArg Op.ofCode? codes
    rwa [Op.ofCode?_code, Op.ofCode?_code, Option.some.injEq] at decoded
  rw [values, ids, ops]

/-- The mutations of each id are in the order of a segment. -/
def SortedById (mutations : List IndexMutation) : Prop :=
  ∀ id, (mutations.filter fun mutation => mutation.id = id).Pairwise fun left right =>
    left.sortKey ≤ right.sortKey

/-- Sorting moves no mutation of an id past another one of it. -/
theorem applyValues_sortMutations (sorted : SortedById mutations) (values : SortedMap Bytes Bytes) :
    applyValues values (sortMutations mutations) = applyValues values mutations := by
  apply SortedMap.ext_find?
  intro id
  have perm := (sortMutations_perm mutations).filter fun mutation => decide (mutation.id = id)
  have order := (sortMutations_sorted mutations).filter fun mutation => decide (mutation.id = id)
  have same := perm.eq_of_pairwise
    (fun _ _ _ _ less more => sortKey_injective (le_antisymm less more)) order (sorted id)
  rw [find?_applyValues, same, ← find?_applyValues]

/-! ## The buckets -/

/-- The buckets hold the ids of their values, each once, and none is empty. -/
structure Inverse (state : BinaryColumnIndexState) : Prop where
  mem_ids : ∀ value id, id ∈ state.ids value ↔ state.valueById.find? id = some value
  nodup : ∀ value, (state.ids value).Nodup
  nonempty : ∀ value ids, state.idsByValue.find? value = some ids → ids ≠ []

theorem Inverse.empty : Inverse { state with valueById := .empty, idsByValue := .empty } where
  mem_ids value id := ⟨fun member => (List.not_mem_nil member).elim, fun found => by cases found⟩
  nodup value := List.nodup_nil
  nonempty value ids found := by cases found

theorem Inverse.loaded (inverse : Inverse state) : Inverse { state with loaded := true } :=
  ⟨inverse.mem_ids, inverse.nodup, inverse.nonempty⟩

/-- The bucket of the old value loses the id, and no other has it. -/
theorem Inverse.ids_forget (inverse : Inverse state) (id value : Bytes) :
    (state.forget id).ids value = (state.ids value).filter fun other => other ≠ id := by
  have absent : state.valueById.find? id ≠ some value →
      (state.ids value).filter (fun other => other ≠ id) = state.ids value := by
    intro elsewhere
    apply List.filter_eq_self.mpr
    intro other member
    have different : other ≠ id := fun same => elsewhere (same ▸ (inverse.mem_ids value other).mp member)
    exact decide_eq_true different
  unfold BinaryColumnIndexState.forget
  split
  next missing => rw [absent (by rw [missing]; exact Option.some_ne_none _ ∘ Eq.symm)]
  next existing found =>
    by_cases own : value = existing
    · obtain rfl := own
      rw [BinaryColumnIndexState.ids, BinaryColumnIndexState.ids]
      dsimp only
      cases bucket : state.idsByValue.find? value with
      | none =>
        dsimp only
        rw [bucket]
        rfl
      | some ids =>
        dsimp only
        rw [Option.getD_some]
        split
        next isEmpty =>
          rw [SortedMap.find?_erase, if_pos rfl, List.isEmpty_iff.mp isEmpty]
          rfl
        next => rw [SortedMap.find?_assign, if_pos rfl, Option.getD_some]
    · rw [absent (by rw [found]; exact fun same => own (Option.some.inj same).symm)]
      rw [BinaryColumnIndexState.ids, BinaryColumnIndexState.ids]
      dsimp only
      split
      next => rfl
      next =>
        split
        next => rw [SortedMap.find?_erase, if_neg own]
        next => rw [SortedMap.find?_assign, if_neg own]

theorem Inverse.forget (inverse : Inverse state) (id : Bytes) : Inverse (state.forget id) where
  mem_ids value other := by
    rw [inverse.ids_forget, valueById_forget, List.mem_filter, inverse.mem_ids, SortedMap.find?_erase,
      decide_eq_true_eq]
    split
    next same => exact ⟨fun both => absurd same both.2, fun impossible => by cases impossible⟩
    next differs => exact and_iff_left differs
  nodup value := by
    rw [inverse.ids_forget]
    exact (inverse.nodup value).filter _
  nonempty value ids := by
    unfold BinaryColumnIndexState.forget
    split
    next => exact inverse.nonempty value ids
    next existing found =>
      dsimp only
      split
      next => exact inverse.nonempty value ids
      next =>
        split
        next =>
          rw [SortedMap.find?_erase]
          split
          next => exact fun impossible => by cases impossible
          next => exact inverse.nonempty value ids
        next some =>
          rw [SortedMap.find?_assign]
          split
          next =>
            intro same
            obtain rfl := Option.some.inj same
            exact fun empty => some (List.isEmpty_iff.mpr empty)
          next => exact inverse.nonempty value ids

theorem Inverse.apply (inverse : Inverse state) (mutation : IndexMutation) :
    Inverse (applyBinaryIndexMutation state mutation) := by
  have forgot := inverse.forget mutation.id
  have gone : ∀ value, mutation.id ∉ (state.forget mutation.id).ids value := by
    intro value member
    rw [inverse.ids_forget, List.mem_filter, decide_eq_true_eq] at member
    exact member.2 rfl
  unfold applyBinaryIndexMutation
  split
  next => exact forgot
  next =>
    dsimp only
    rw [if_neg (gone mutation.value)]
    have bucket : ∀ value, BinaryColumnIndexState.ids { state.forget mutation.id with
          valueById := (state.forget mutation.id).valueById.assign mutation.id mutation.value
          idsByValue := (state.forget mutation.id).idsByValue.assign mutation.value
            (mutation.id :: (state.forget mutation.id).ids mutation.value) } value =
        if value = mutation.value then mutation.id :: (state.forget mutation.id).ids value
        else (state.forget mutation.id).ids value := by
      intro value
      rw [BinaryColumnIndexState.ids]
      dsimp only
      rw [SortedMap.find?_assign]
      split
      next same => rw [same, Option.getD_some]
      next => rfl
    refine ⟨fun value id => ?_, fun value => ?_, fun value ids => ?_⟩
    · rw [bucket]
      dsimp only
      rw [SortedMap.find?_assign]
      split
      next same =>
        split
        next own => simp [own, same]
        next differs =>
          rw [List.mem_cons, or_iff_right differs]
          exact forgot.mem_ids value id
      next other =>
        split
        next own =>
          rw [own]
          refine ⟨fun member => absurd member (gone value), fun found => ?_⟩
          exact absurd (Option.some.inj found).symm other
        next => exact forgot.mem_ids value id
    · rw [bucket]
      split
      next => exact List.nodup_cons.mpr ⟨gone value, forgot.nodup value⟩
      next => exact forgot.nodup value
    · dsimp only
      rw [SortedMap.find?_assign]
      split
      next =>
        intro same
        obtain rfl := Option.some.inj same
        exact List.cons_ne_nil _ _
      next => exact forgot.nonempty value ids

theorem Inverse.foldl (inverse : Inverse state) (mutations : List IndexMutation) :
    Inverse (mutations.foldl applyBinaryIndexMutation state) := by
  induction mutations generalizing state with
  | nil => exact inverse
  | cons mutation rest ih => exact ih (inverse.apply mutation)

theorem Inverse.loadSegments (inverse : Inverse state) (paths : List String) :
    Inverse (loadSegments dir paths state).1 := by
  induction paths generalizing state with
  | nil => exact inverse.loaded
  | cons path rest ih =>
    unfold Index.loadSegments
    split
    next segment =>
      apply ih
      apply Inverse.foldl
      split
      · exact .empty
      · exact inverse
    next => exact inverse

theorem Inverse.load (inverse : Inverse state) :
    Inverse (loadBinaryColumnIndexLocked dir state).1 := by
  unfold loadBinaryColumnIndexLocked
  split
  · exact inverse
  · exact Inverse.empty.loadSegments _

end PacificDb.Index
