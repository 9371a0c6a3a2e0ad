import PacificDb.Json

/-!
# Visibility of a stamped row

`LSM::put`, `putMany` and `del` stamp a row once, at the commit index of that
moment, and no later step stamps it again. `docVisibleByCommitIndex` then
decides from the stamp and from the commit index of the read. This module says
at which commit indexes a stamped row can be seen when Raft is enabled and the
single-node bypass is off.

The stamp writes the outcome of its own comparison into the row: a row whose
commit index lies above the commit index of the stamp is stored as `PENDING`,
and no read looks past that state.
-/

namespace PacificDb.Lsm

/-- Raft is enabled and the single-node bypass is off. -/
def clustered : RaftView := { enabled := true, standaloneBypass := false }

/-- The visibility floor of a row with commit index `rowCommit`. -/
def visibilityFloor (doc : Json) (rowCommit : Nat) : Nat :=
  ((doc.field? "_visibility_floor").bind Json.asUInt64?).getD rowCommit

/-- The row has a commit index, and the commit index and the floor of the row
are both at most `committedIndex`. -/
def CoveredBy (doc : Json) (committedIndex : Nat) : Prop :=
  ∃ rowCommit, extractRowCommitIndex doc = some rowCommit ∧ rowCommit ≤ committedIndex ∧
    visibilityFloor doc rowCommit ≤ committedIndex

/-- In a cluster a row is seen when its stored state allows it and the commit
index covers it. -/
theorem docVisible_clustered_iff {doc : Json} {committedIndex : Nat} :
    docVisibleByCommitIndex clustered doc committedIndex = true ↔
      doc.isObject = true ∧ hasVisibleCommitState doc = true ∧ CoveredBy doc committedIndex := by
  unfold docVisibleByCommitIndex CoveredBy visibilityFloor clustered
  cases object : doc.isObject <;> cases state : hasVisibleCommitState doc <;>
    cases row : extractRowCommitIndex doc <;> simp

/-- The commit index that the stamp works with: the row's own one, or that of
the moment. -/
def stampedCommit (doc : Json) (stampIndex : Nat) : Nat :=
  (extractRowCommitIndex doc).getD stampIndex

/-- The row with the commit index and the floor of the stamp, before the state
is written. -/
def indexedRow (doc : Json) (stampIndex : Nat) : Json :=
  let indexed :=
    if (extractRowCommitIndex doc).isSome then doc
    else doc.set "_raft_commit_index" (.unsigned (stampedCommit doc stampIndex))
  if (indexed.field? "_visibility_floor").isSome then indexed
  else indexed.set "_visibility_floor" (.unsigned (stampedCommit doc stampIndex))

/-- The state that the stamp writes last. -/
def stampedState (doc : Json) (stampIndex : Nat) : String :=
  if stampedCommit doc stampIndex ≤ stampIndex then
    if isDeletedDoc doc then "TOMBSTONED" else "COMMITTED_VISIBLE"
  else "PENDING"

/-- The stamp in a cluster: index and floor first, then the outcome of the
comparison, as `committed` and as the state. -/
theorem stampVisibilityMetadata_clustered {doc : Json} {stampIndex : Nat}
    (object : doc.isObject = true) :
    stampVisibilityMetadata clustered doc stampIndex =
      ((indexedRow doc stampIndex).set "committed"
        (.bool (decide (stampedCommit doc stampIndex ≤ stampIndex)))).set "_visibility_state"
          (.string (stampedState doc stampIndex)) := by
  have state : (if decide (stampedCommit doc stampIndex ≤ stampIndex) = true then
        Json.string (if isDeletedDoc doc = true then "TOMBSTONED" else "COMMITTED_VISIBLE")
      else Json.string "PENDING") = Json.string (stampedState doc stampIndex) := by
    unfold stampedState
    by_cases covered : stampedCommit doc stampIndex ≤ stampIndex
    · rw [if_pos covered, if_pos (decide_eq_true covered)]
    · rw [if_neg covered, if_neg (by simp [covered])]
  rw [← state]
  unfold stampVisibilityMetadata
  rw [object]
  rfl

theorem isObject_indexedRow {doc : Json} {stampIndex : Nat} :
    (indexedRow doc stampIndex).isObject = doc.isObject := by
  unfold indexedRow
  dsimp only
  split_ifs <;> simp only [Json.isObject_set]

/-- What the stamp leaves in the state of a row: visible exactly when the commit
index of the row was covered at the stamp. -/
theorem hasVisibleCommitState_stamp {doc : Json} {stampIndex : Nat}
    (object : doc.isObject = true) :
    hasVisibleCommitState (stampVisibilityMetadata clustered doc stampIndex) =
      decide (stampedCommit doc stampIndex ≤ stampIndex) := by
  rw [stampVisibilityMetadata_clustered object]
  have written : ((((indexedRow doc stampIndex).set "committed"
        (.bool (decide (stampedCommit doc stampIndex ≤ stampIndex)))).set "_visibility_state"
          (.string (stampedState doc stampIndex))).field? "_visibility_state") =
      some (.string (stampedState doc stampIndex)) := by
    apply Json.field?_set_self
    rw [Json.isObject_set, isObject_indexedRow, object]
  unfold hasVisibleCommitState
  rw [List.findSome?_cons, written]
  unfold stampedState
  by_cases covered : stampedCommit doc stampIndex ≤ stampIndex
  · cases deleted : isDeletedDoc doc <;> simp [covered]
  · simp [covered]

/-- The commit index of a row depends on two members only. -/
theorem extractRowCommitIndex_congr {doc other : Json}
    (raft : doc.field? "_raft_commit_index" = other.field? "_raft_commit_index")
    (plain : doc.field? "commit_index" = other.field? "commit_index") :
    extractRowCommitIndex doc = extractRowCommitIndex other := by
  unfold extractRowCommitIndex
  simp only [List.findSome?_cons, List.findSome?_nil, raft, plain]

/-- A row that has a commit index keeps it through the stamp. -/
theorem extractRowCommitIndex_stamp_of_some {doc : Json} {stampIndex rowCommit : Nat}
    (object : doc.isObject = true) (own : extractRowCommitIndex doc = some rowCommit) :
    extractRowCommitIndex (stampVisibilityMetadata clustered doc stampIndex) =
      some rowCommit := by
  rw [stampVisibilityMetadata_clustered object, ← own]
  have kept (name : String) (floor : name ≠ "_visibility_floor") :
      (indexedRow doc stampIndex).field? name = doc.field? name := by
    unfold indexedRow
    rw [own]
    dsimp only [Option.isSome_some]
    rw [if_pos rfl]
    split_ifs
    · rfl
    · rw [Json.field?_set_ne floor]
  apply extractRowCommitIndex_congr
  · rw [Json.field?_set_ne (by decide), Json.field?_set_ne (by decide), kept _ (by decide)]
  · rw [Json.field?_set_ne (by decide), Json.field?_set_ne (by decide), kept _ (by decide)]

/-- A row without one gets the commit index of the stamp. -/
theorem extractRowCommitIndex_stamp_of_none {doc : Json} {stampIndex : Nat}
    (object : doc.isObject = true) (bare : extractRowCommitIndex doc = none) :
    extractRowCommitIndex (stampVisibilityMetadata clustered doc stampIndex) =
      some (Json.wrapUInt64 stampIndex) := by
  rw [stampVisibilityMetadata_clustered object]
  have given : (indexedRow doc stampIndex).field? "_raft_commit_index" =
      some (.unsigned stampIndex) := by
    unfold indexedRow stampedCommit
    rw [bare]
    dsimp only [Option.isSome_none, Option.getD_none]
    rw [if_neg Bool.false_ne_true]
    split_ifs
    · exact Json.field?_set_self object
    · rw [Json.field?_set_ne (by decide), Json.field?_set_self object]
  unfold extractRowCommitIndex
  rw [List.findSome?_cons, Json.field?_set_ne (by decide), Json.field?_set_ne (by decide), given]
  rfl

/-- A stamped row has a commit index, so a large enough commit index covers it. -/
theorem exists_coveredBy_stamp {doc : Json} {stampIndex : Nat} (object : doc.isObject = true) :
    ∃ committedIndex,
      CoveredBy (stampVisibilityMetadata clustered doc stampIndex) committedIndex := by
  obtain ⟨rowCommit, indexed⟩ : ∃ rowCommit, extractRowCommitIndex
      (stampVisibilityMetadata clustered doc stampIndex) = some rowCommit := by
    cases own : extractRowCommitIndex doc with
    | none => exact ⟨_, extractRowCommitIndex_stamp_of_none object own⟩
    | some rowCommit => exact ⟨_, extractRowCommitIndex_stamp_of_some object own⟩
  exact ⟨max rowCommit (visibilityFloor _ rowCommit), rowCommit, indexed, le_max_left _ _,
    le_max_right _ _⟩

/-- What a reader of the stamped row is promised: at every later commit index the
row is seen exactly when that index covers it, and a row once seen stays seen. -/
def SeenWhenCovered (stored : Json) : Prop :=
  (∀ committedIndex, docVisibleByCommitIndex clustered stored committedIndex = true ↔
    CoveredBy stored committedIndex) ∧
  ∀ early late, early ≤ late → docVisibleByCommitIndex clustered stored early = true →
    docVisibleByCommitIndex clustered stored late = true

/-- A stamped row is seen exactly when it is covered, unless its own commit index
lies above the commit index of the stamp; such a row is never seen. -/
theorem stamped_seenWhenCovered_iff (doc : Json) (stampIndex : Nat) :
    SeenWhenCovered (stampVisibilityMetadata clustered doc stampIndex) ↔
      ∀ rowCommit, extractRowCommitIndex doc = some rowCommit → rowCommit ≤ stampIndex := by
  have monotone : ∀ early late, early ≤ late →
      docVisibleByCommitIndex clustered (stampVisibilityMetadata clustered doc stampIndex) early =
        true →
      docVisibleByCommitIndex clustered (stampVisibilityMetadata clustered doc stampIndex) late =
        true :=
    fun early late order => docVisibleByCommitIndex_mono order
  cases object : doc.isObject with
  | false =>
    -- no member, no commit index: the row is never seen and never covered
    have bare : extractRowCommitIndex doc = none := by
      cases doc <;> first | rfl | cases object
    have same : stampVisibilityMetadata clustered doc stampIndex = doc := by
      unfold stampVisibilityMetadata
      rw [object]
      rfl
    refine iff_of_true ⟨fun committedIndex => ?_, monotone⟩ ?_
    · rw [same, docVisible_clustered_iff, object]
      refine iff_of_false (fun seen => Bool.false_ne_true seen.1) ?_
      rintro ⟨rowCommit, indexed, -⟩
      rw [bare] at indexed
      cases indexed
    · intro rowCommit indexed
      rw [bare] at indexed
      cases indexed
  | true =>
    have stored : (stampVisibilityMetadata clustered doc stampIndex).isObject = true := by
      rw [isObject_stampVisibilityMetadata, object]
    have state : hasVisibleCommitState (stampVisibilityMetadata clustered doc stampIndex) = _ :=
      hasVisibleCommitState_stamp object
    have condition : (∀ rowCommit, extractRowCommitIndex doc = some rowCommit →
        rowCommit ≤ stampIndex) ↔ stampedCommit doc stampIndex ≤ stampIndex := by
      unfold stampedCommit
      cases extractRowCommitIndex doc <;> simp
    rw [condition]
    constructor
    · rintro ⟨seen, -⟩
      obtain ⟨committedIndex, covered⟩ : ∃ committedIndex,
          CoveredBy (stampVisibilityMetadata clustered doc stampIndex) committedIndex :=
        exists_coveredBy_stamp object
      have visible := (docVisible_clustered_iff.mp ((seen committedIndex).mpr covered)).2.1
      rw [state] at visible
      exact of_decide_eq_true visible
    · intro covered
      refine ⟨fun committedIndex => ?_, monotone⟩
      rw [docVisible_clustered_iff, stored, state, decide_eq_true covered]
      simp only [true_and]

/-- A row with commit index 2 that is stamped at commit index 1 is covered at
commit index 2 and still not seen there. -/
theorem stamped_early_not_seenWhenCovered :
    ¬ SeenWhenCovered (stampVisibilityMetadata clustered
      (.object [("id", .string "a"), ("_raft_commit_index", .unsigned 2)]) 1) := by
  rintro ⟨seen, -⟩
  have covered : CoveredBy (stampVisibilityMetadata clustered
      (.object [("id", .string "a"), ("_raft_commit_index", .unsigned 2)]) 1) 2 := by
    refine ⟨2, ?_, le_rfl, ?_⟩ <;> decide
  have hidden : docVisibleByCommitIndex clustered (stampVisibilityMetadata clustered
      (.object [("id", .string "a"), ("_raft_commit_index", .unsigned 2)]) 1) 2 = false := by
    decide
  rw [(seen 2).mpr covered] at hidden
  cases hidden

end PacificDb.Lsm
