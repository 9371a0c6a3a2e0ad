import PacificDb.Engine.Update
import PacificDb.Query.PlainFilters

/-!
# Projected rows

`DatabaseEngine::count` and the scan of `find` do not decode a row to test it. They
take the members that the filter and the visibility tests name, and evaluate on these.
The names of the filter are the first parts of its field paths.

The visibility tests always answer as on the whole document, and so does the filter
when every member that it looks up is one that was taken (`projected_evaluation`).
`$elemMatch` and `$vectorSearch` look a dotted field up whole, and the empty field is
not taken at all: with such a field the filter may miss a document.
-/

namespace PacificDb.Engine

open Lsm Query Raft

variable {lib : Library}

/-! ## Rows of the merged scan -/

/-- `LSM::LatestRowView`: a row in memory, or a view of one in an SST. -/
inductive LatestRowView where
  | json (row : Json)
  | msgpack (view : MsgpackRowView)

namespace LatestRowView

def field : LatestRowView → String → Option Json
  | json row, name => row.field? name
  | msgpack view, name => view.field name

def materialize : LatestRowView → Json
  | json row => row
  | msgpack view => view.row

/-- A document: an object in memory, or a row from whose indexed view the cursor took an id. -/
def Stored : LatestRowView → Prop
  | json row => row.isObject = true
  | msgpack view => view.indexed = true ∧ (view.field "id").isSome = true

variable {row : LatestRowView}

theorem field_eq (stored : row.Stored) (name : String) : row.field name = row.materialize.field? name := by
  cases row with
  | json row => rfl
  | msgpack view =>
    obtain ⟨doc, indexed⟩ := view
    obtain ⟨rfl, shown⟩ := stored
    cases valid : (MsgpackRowView.mk doc true).indexValid with
    | true => exact MsgpackRowView.field_of_valid valid
    | false =>
      rw [MsgpackRowView.field_of_invalid valid] at shown
      cases shown

theorem isObject_materialize (stored : row.Stored) : row.materialize.isObject = true := by
  cases row with
  | json row => exact stored
  | msgpack view =>
    obtain ⟨doc, indexed⟩ := view
    obtain ⟨rfl, shown⟩ := stored
    cases valid : (MsgpackRowView.mk doc true).indexValid with
    | true => exact MsgpackRowView.isObject_of_valid valid
    | false =>
      rw [MsgpackRowView.field_of_invalid valid] at shown
      cases shown

end LatestRowView

/-! ## The projection -/

/-- `field.substr(0, field.find('.'))`. -/
def rootField (field : String) : String := String.ofList (field.toList.takeWhile (· ≠ '.'))

def rootFields (field : String) : List String := if field = "" then [] else [rootField field]

mutual

def collectQueryRootFields : QueryNode lib.Double → List String
  | .and children => collectAll children
  | .or children => collectAll children
  | .not child => collectQueryRootFields child
  | .nor children => collectAll children
  | .field _ field _ => rootFields field
  | .regex field _ _ => rootFields field
  | .elemMatch field child => rootFields field ++ collectQueryRootFields child
  | .vectorSearch field _ _ _ _ => rootFields field
  | .alwaysFalse => []
  | .matchAll => []
  | .invalid => []

def collectAll : List (QueryNode lib.Double) → List String
  | [] => []
  | child :: children => collectQueryRootFields child ++ collectAll children

end

/-- The fields that are taken for every query. -/
def projectedFields : List String :=
  ["id", "tenant_id", "_deleted", "_visibility_state", "committed", "_raft_commit_index",
    "_visibility_floor", "version", "_mvcc_commit_ms"]

def takeField (row : LatestRowView) (projected : Json) (field : String) : Json :=
  match row.field field with
  | some value => projected.set field value
  | none => projected

def projectLatestRow (row : LatestRowView) (queryFields : List String) : Json :=
  let projected := queryFields.foldl (takeField row) (.object [])
  projectedFields.foldl
    (fun projected field =>
      if (projected.field? field).isSome then projected else takeField row projected field) projected

/-! ## Counting and scanning -/

/-- What the queries of a call are tested with. -/
structure QueryCall where
  userId : String
  raft : RaftView
  readFloorVersion : Int
  commitIndex : Nat

/-- The tests of a document. -/
def accepts (lib : Library) (call : QueryCall) (query : QueryNode lib.Double) (doc : Json) : Bool :=
  isTenantDocumentVisible call.userId doc &&
    documentVisibleForCurrentRead call.raft call.readFloorVersion doc call.commitIndex &&
      evalQuery lib query doc

/-- `DatabaseEngine::count`, over the rows that `visitLatest` hands out. -/
def count (lib : Library) (call : QueryCall) (query : QueryNode lib.Double) (rows : List LatestRowView) : Nat :=
  rows.foldl (fun total row =>
    if accepts lib call query (projectLatestRow row (collectQueryRootFields query)) then total + 1
    else total) 0

/-- The limits of a scan: a limit of the call lowers `maxResults`. -/
structure FindLimits where
  maxScan : Nat
  maxResults : Nat
  skipMatches : Nat := 0

structure FindScan where
  scanned : Nat := 0
  matchedBeforeOffset : Nat := 0
  matched : List Json := []

/-- The scan of `DatabaseEngine::find`. -/
def findScan (lib : Library) (call : QueryCall) (limits : FindLimits) (query : QueryNode lib.Double) :
    List LatestRowView → FindScan → FindScan
  | [], scan => scan
  | row :: rows, scan =>
      let scan := { scan with scanned := scan.scanned + 1 }
      if limits.maxScan < scan.scanned then scan
      else if !accepts lib call query (projectLatestRow row (collectQueryRootFields query)) then
        findScan lib call limits query rows scan
      else if scan.matchedBeforeOffset < limits.skipMatches then
        findScan lib call limits query rows { scan with matchedBeforeOffset := scan.matchedBeforeOffset + 1 }
      else
        let scan := { scan with matched := scan.matched ++ [row.materialize] }
        if limits.maxResults ≤ scan.matched.length then scan
        else findScan lib call limits query rows scan

/-! ## What a projection has -/

section Projection

variable {row : LatestRowView} {name : String}

theorem field?_takeField (projected : Json) (object : projected.isObject = true) (field : String) :
    (takeField row projected field).isObject = true ∧ (takeField row projected field).field? name =
      if name = field then (row.field field).or (projected.field? field) else projected.field? name := by
  unfold takeField
  cases found : row.field field with
  | none =>
    refine ⟨object, ?_⟩
    by_cases own : name = field
    · rw [if_pos own, own]
      rfl
    · rw [if_neg own]
  | some value =>
    refine ⟨(Json.isObject_set _ _ _).trans object, ?_⟩
    by_cases own : name = field
    · rw [if_pos own, own]
      exact Json.field?_set_self object
    · rw [if_neg own]
      exact Json.field?_set_ne own

/-- A projection so far: members of the row, and those of these names. -/
structure Projects (row : LatestRowView) (names : List String) (projected : Json) : Prop where
  object : projected.isObject = true
  field : ∀ name, projected.field? name = if name ∈ names then row.field name else none

theorem Projects.takeField {names : List String} {projected : Json} (projects : Projects row names projected)
    (field : String) : Projects row (field :: names) (takeField row projected field) := by
  refine ⟨(@field?_takeField row "" projected projects.object field).1, fun name => ?_⟩
  rw [(@field?_takeField row name projected projects.object field).2, projects.field, projects.field]
  by_cases own : name = field
  · subst own
    rw [if_pos rfl, if_pos List.mem_cons_self]
    cases row.field name <;> simp
  · simp [own]

theorem Projects.takeMissing {names : List String} {projected : Json} (projects : Projects row names projected)
    (field : String) : Projects row (field :: names)
      (if (projected.field? field).isSome then projected else Engine.takeField row projected field) := by
  split
  next held =>
    refine ⟨projects.object, fun name => ?_⟩
    by_cases own : name = field
    · subst own
      rw [projects.field] at held ⊢
      split at held
      next member => rw [if_pos member, if_pos List.mem_cons_self]
      next => cases held
    · rw [projects.field]
      simp [own]
  next => exact projects.takeField field

theorem Projects.congr {names others : List String} {projected : Json} (projects : Projects row names projected)
    (same : ∀ name, name ∈ names ↔ name ∈ others) : Projects row others projected :=
  ⟨projects.object, fun name => by rw [projects.field]; simp only [same]⟩

theorem projects_projectLatestRow (queryFields : List String) :
    Projects row (queryFields ++ projectedFields) (projectLatestRow row queryFields) := by
  have taken : ∀ {names : List String} {projected : Json} (fields : List String),
      Projects row names projected →
        Projects row (fields ++ names) (fields.foldl (takeField row) projected) := by
    intro names projected fields projects
    induction fields generalizing names projected with
    | nil => exact projects
    | cons field fields ih =>
      apply (ih (projects.takeField field)).congr
      intro name
      simp only [List.mem_append, List.mem_cons, List.cons_append]
      exact or_left_comm
  have missing : ∀ {names : List String} {projected : Json} (fields : List String),
      Projects row names projected →
        Projects row (fields ++ names) (fields.foldl (fun projected field =>
          if (projected.field? field).isSome then projected else takeField row projected field) projected) := by
    intro names projected fields projects
    induction fields generalizing names projected with
    | nil => exact projects
    | cons field fields ih =>
      apply (ih (projects.takeMissing field)).congr
      intro name
      simp only [List.mem_append, List.mem_cons, List.cons_append]
      exact or_left_comm
  have start : Projects row [] (.object []) := ⟨rfl, fun _ => rfl⟩
  apply (missing projectedFields (taken queryFields start)).congr
  intro name
  simp only [List.append_nil, List.mem_append]
  exact or_comm

end Projection

/-! ## What a query looks up -/

mutual

/-- The members of the document that the nodes of a query look up. -/
def lookups : QueryNode lib.Double → List String
  | .and children => lookupsAll children
  | .or children => lookupsAll children
  | .not child => lookups child
  | .nor children => lookupsAll children
  | .field _ field _ => [rootField field]
  | .regex field _ _ => [rootField field]
  | .elemMatch field _ => [field]
  | .vectorSearch field _ _ _ _ => [field]
  | .alwaysFalse => []
  | .matchAll => []
  | .invalid => []

def lookupsAll : List (QueryNode lib.Double) → List String
  | [] => []
  | child :: children => lookups child ++ lookupsAll children

end

section Lookups

variable {doc other : Json}

theorem splitOn_root (chars : List Char) : ∃ rest, chars.splitOn '.' = chars.takeWhile (· ≠ '.') :: rest := by
  unfold List.splitOn
  induction chars with
  | nil => exact ⟨[], rfl⟩
  | cons c chars ih =>
    obtain ⟨rest, split⟩ := ih
    rw [List.splitOnP_cons_eq_if_modifyHead, split]
    by_cases dot : c = '.'
    · subst dot
      exact ⟨_, rfl⟩
    · have isChar : (c == '.') = false := beq_eq_false_iff_ne.mpr dot
      refine ⟨rest, ?_⟩
      rw [isChar, List.takeWhile_cons_of_pos (by simpa using dot)]
      rfl

/-- A path starts in the root field. -/
theorem fieldValue?_congr {field : String} (same : doc.field? (rootField field) = other.field? (rootField field)) :
    fieldValue? field doc = fieldValue? field other := by
  obtain ⟨rest, split⟩ := splitOn_root field.toList
  rw [fieldValue?, fieldValue?, fieldPath, split, List.map_cons, List.foldlM_cons, List.foldlM_cons,
    ← rootField, same]

mutual

/-- A query reads no other members. -/
theorem evalQuery_congr : ∀ (query : QueryNode lib.Double),
    (∀ name ∈ lookups query, doc.field? name = other.field? name) →
      evalQuery lib query doc = evalQuery lib query other
  | .alwaysFalse, _ => rfl
  | .matchAll, _ => rfl
  | .invalid, _ => rfl
  | .and children, same => evalAll_congr children same
  | .or children, same => evalAny_congr children same
  | .not child, same => congrArg (! ·) (evalQuery_congr child same)
  | .nor children, same => congrArg (! ·) (evalAny_congr children same)
  | .field test field value, same => by
      have value := fieldValue?_congr (same _ (.head _))
      rw [evalQuery, evalQuery, matchField, matchField, value]
  | .regex field pattern options, same => by
      have value := fieldValue?_congr (same _ (.head _))
      rw [evalQuery, evalQuery, matchRegex, matchRegex, value]
  | .elemMatch field child, same => by
      have value := same field (.head _)
      rw [evalQuery, evalQuery, value]
  | .vectorSearch field vector threshold metric topK, same => by
      have value := same field (.head _)
      rw [evalQuery, evalQuery, value]

theorem evalAll_congr : ∀ (children : List (QueryNode lib.Double)),
    (∀ name ∈ lookupsAll children, doc.field? name = other.field? name) →
      evalAll lib children doc = evalAll lib children other
  | [], _ => rfl
  | child :: children, same => by
      obtain ⟨first, later⟩ := List.forall_mem_append.mp same
      rw [evalAll, evalAll, evalQuery_congr child first, evalAll_congr children later]

theorem evalAny_congr : ∀ (children : List (QueryNode lib.Double)),
    (∀ name ∈ lookupsAll children, doc.field? name = other.field? name) →
      evalAny lib children doc = evalAny lib children other
  | [], _ => rfl
  | child :: children, same => by
      obtain ⟨first, later⟩ := List.forall_mem_append.mp same
      rw [evalAny, evalAny, evalQuery_congr child first, evalAny_congr children later]

end

end Lookups

/-! ## Projected evaluation -/

section Evaluation

variable {row : LatestRowView} {call : QueryCall} {limits : FindLimits} {query : QueryNode lib.Double}
  {rows : List LatestRowView}

/-- Every member of the document that the query looks up is taken. -/
def Kept (query : QueryNode lib.Double) (doc : Json) : Prop :=
  ∀ name ∈ lookups query, name ∈ collectQueryRootFields query ∨ name ∈ projectedFields ∨
    doc.field? name = none

theorem field?_projectLatestRow (stored : row.Stored) {queryFields : List String} {name : String}
    (kept : name ∈ queryFields ∨ name ∈ projectedFields ∨ row.materialize.field? name = none) :
    (projectLatestRow row queryFields).field? name = row.materialize.field? name := by
  rw [(projects_projectLatestRow queryFields).field, LatestRowView.field_eq stored]
  split
  next => rfl
  next missed =>
    rw [List.mem_append] at missed
    rcases kept with taken | taken | absent
    · exact absurd (.inl taken) missed
    · exact absurd (.inr taken) missed
    · exact absent.symm

theorem isTenantDocumentVisible_projected (stored : row.Stored) (queryFields : List String) (userId : String) :
    isTenantDocumentVisible userId (projectLatestRow row queryFields) =
      isTenantDocumentVisible userId row.materialize := by
  have tenant := @field?_projectLatestRow row stored queryFields "tenant_id" (.inr (.inl (by decide)))
  rw [isTenantDocumentVisible, isTenantDocumentVisible, tenant]

theorem documentVisibleForCurrentRead_projected (stored : row.Stored) (queryFields : List String)
    (raft : RaftView) (readFloorVersion : Int) (commitIndex : Nat) :
    documentVisibleForCurrentRead raft readFloorVersion (projectLatestRow row queryFields) commitIndex =
      documentVisibleForCurrentRead raft readFloorVersion row.materialize commitIndex := by
  have same : ∀ name ∈ projectedFields,
      (projectLatestRow row queryFields).field? name = row.materialize.field? name :=
    fun name member => field?_projectLatestRow stored (.inr (.inl member))
  simp only [projectedFields, List.forall_mem_cons] at same
  obtain ⟨-, -, deleted, state, committed, index, floor, version, -⟩ := same
  have object : (projectLatestRow row queryFields).isObject = row.materialize.isObject := by
    rw [(projects_projectLatestRow queryFields).object, LatestRowView.isObject_materialize stored]
  unfold documentVisibleForCurrentRead isDeletedDoc readableByCommitIndex parseVersion
  rw [object, deleted, state, committed, index, floor, version]

theorem evalQuery_projected (stored : row.Stored) (kept : Kept query row.materialize) :
    evalQuery lib query (projectLatestRow row (collectQueryRootFields query)) =
      evalQuery lib query row.materialize :=
  evalQuery_congr query fun name member => field?_projectLatestRow stored (kept name member)

theorem accepts_projected (stored : row.Stored) (kept : Kept query row.materialize) :
    accepts lib call query (projectLatestRow row (collectQueryRootFields query)) =
      accepts lib call query row.materialize := by
  rw [accepts, accepts, isTenantDocumentVisible_projected stored,
    documentVisibleForCurrentRead_projected stored, evalQuery_projected stored kept]

/-- The rows whose projection is accepted. -/
def accepted (lib : Library) (call : QueryCall) (query : QueryNode lib.Double) (rows : List LatestRowView) :
    List LatestRowView :=
  rows.filter fun row => accepts lib call query (projectLatestRow row (collectQueryRootFields query))

theorem count_eq : count lib call query rows = (accepted lib call query rows).length := by
  have counted : ∀ total, rows.foldl (fun total row =>
      if accepts lib call query (projectLatestRow row (collectQueryRootFields query)) then total + 1
      else total) total = total + (accepted lib call query rows).length := by
    unfold accepted
    induction rows with
    | nil => exact fun total => rfl
    | cons row rows ih =>
      intro total
      rw [List.foldl_cons, ih, List.filter_cons]
      split
      · rw [List.length_cons]
        omega
      · rfl
  rw [count, counted, Nat.zero_add]

/-- Within its limits a scan finds every accepted row. -/
theorem findScan_matched {scan : FindScan} (whole : limits.skipMatches = 0)
    (scans : scan.scanned + rows.length ≤ limits.maxScan)
    (fits : scan.matched.length + (accepted lib call query rows).length ≤ limits.maxResults) :
    (findScan lib call limits query rows scan).matched =
      scan.matched ++ (accepted lib call query rows).map LatestRowView.materialize := by
  unfold accepted at fits ⊢
  induction rows generalizing scan with
  | nil => exact (List.append_nil _).symm
  | cons row rows ih =>
    rw [List.length_cons] at scans
    rw [List.filter_cons] at fits ⊢
    rw [findScan]
    dsimp only
    rw [if_neg (by omega), whole, if_neg (Nat.not_lt_zero scan.matchedBeforeOffset)]
    cases taken : accepts lib call query (projectLatestRow row (collectQueryRootFields query)) with
    | false =>
      rw [taken, if_neg Bool.false_ne_true] at fits
      rw [Bool.not_false, if_pos rfl, if_neg Bool.false_ne_true]
      apply ih
      · dsimp only
        omega
      · exact fits
    | true =>
      rw [taken, if_pos rfl, List.length_cons] at fits
      rw [Bool.not_true, if_neg Bool.false_ne_true, if_pos rfl, List.map_cons]
      split
      next full =>
        -- the result that fills the limit is the last one
        rw [List.length_append, List.length_singleton] at full
        have none : rows.filter (fun row =>
            accepts lib call query (projectLatestRow row (collectQueryRootFields query))) = [] :=
          List.length_eq_zero_iff.mp (by omega)
        rw [none]
        rfl
      next =>
        rw [ih, List.append_assoc]
        · rfl
        · dsimp only
          omega
        · rw [List.length_append, List.length_singleton]
          omega

/-- Where the projection keeps what the query looks up, the tests answer as on the document,
and `count` and `find` see the documents that the query accepts. They always see equally
many. This is so for every query, and so for that of every filter. -/
theorem projected_evaluation (lib : Library) (call : QueryCall) (query : QueryNode lib.Double) :
    (∀ row : LatestRowView, row.Stored →
      let projected := projectLatestRow row (collectQueryRootFields query)
      isTenantDocumentVisible call.userId projected =
          isTenantDocumentVisible call.userId row.materialize ∧
        documentVisibleForCurrentRead call.raft call.readFloorVersion projected call.commitIndex =
          documentVisibleForCurrentRead call.raft call.readFloorVersion row.materialize call.commitIndex ∧
        (Kept query row.materialize →
          evalQuery lib query projected = evalQuery lib query row.materialize)) ∧
    ∀ (rows : List LatestRowView) (limits : FindLimits), limits.skipMatches = 0 →
      rows.length ≤ limits.maxScan → count lib call query rows ≤ limits.maxResults →
      (findScan lib call limits query rows {}).matched.length = count lib call query rows ∧
        ((∀ row ∈ rows, row.Stored ∧ Kept query row.materialize) →
          (findScan lib call limits query rows {}).matched =
            (rows.map LatestRowView.materialize).filter (accepts lib call query)) := by
  refine ⟨fun row stored => ⟨?_, ?_, ?_⟩, fun rows limits whole scans fits => ?_⟩
  · exact isTenantDocumentVisible_projected stored _ _
  · exact documentVisibleForCurrentRead_projected stored _ _ _ _
  · exact evalQuery_projected stored
  · rw [count_eq] at fits ⊢
    have matched := @findScan_matched lib call limits query rows {} whole (by simpa using scans)
      (by simpa using fits)
    rw [List.nil_append] at matched
    refine ⟨by rw [matched, List.length_map], fun kept => ?_⟩
    rw [matched, accepted, List.filter_map]
    congr 1
    apply List.filter_congr
    intro row member
    exact accepts_projected (kept row member).1 (kept row member).2

end Evaluation

/-! ## A dotted field -/

/-- A document with a member whose name has a dot. -/
def dottedDoc : Json := .object [("id", .string "1"), ("a.b", .array [.integer 1])]

/-- `{"a.b": {"$elemMatch": {}}}`. -/
def dottedFilter : Json := .object [("a.b", .object [("$elemMatch", .object [])])]

/-- The document matches, and is neither counted nor found. -/
theorem dotted_not_projected : ∃ query, parseQuery sampleLibrary dottedFilter = some query ∧
    (LatestRowView.json dottedDoc).Stored ∧
    evalQuery sampleLibrary query dottedDoc = true ∧
    evalQuery sampleLibrary query
      (projectLatestRow (.json dottedDoc) (collectQueryRootFields query)) = false ∧
    accepts sampleLibrary ⟨"", ⟨false, false⟩, -1, 0⟩ query dottedDoc = true ∧
    count sampleLibrary ⟨"", ⟨false, false⟩, -1, 0⟩ query [.json dottedDoc] = 0 :=
  ⟨_, rfl, rfl, by decide, by decide, by decide, by decide⟩

/-- A filter on a plain field. -/
theorem projected_evaluation_plain : ∃ query,
    parseQuery sampleLibrary (.object [("id", .string "1")]) = some query ∧
    evalQuery sampleLibrary query
        (projectLatestRow (.json dottedDoc) (collectQueryRootFields query)) =
      evalQuery sampleLibrary query dottedDoc ∧
    (findScan sampleLibrary ⟨"", ⟨false, false⟩, -1, 0⟩ ⟨10, 10, 0⟩ query [.json dottedDoc] {}).matched =
      [dottedDoc] := by
  refine ⟨_, rfl, ?_⟩
  obtain ⟨evaluates, finds⟩ := projected_evaluation sampleLibrary ⟨"", ⟨false, false⟩, -1, 0⟩
    (.field .eq "id" (.string "1"))
  have kept : @Kept sampleLibrary (.field .eq "id" (.string "1")) dottedDoc := by
    intro name member
    left
    exact member
  refine ⟨(evaluates (.json dottedDoc) rfl).2.2 kept, ?_⟩
  rw [(finds [.json dottedDoc] ⟨10, 10, 0⟩ rfl (by decide) (by decide)).2]
  · rfl
  · intro row member
    rw [List.mem_singleton.mp member]
    exact ⟨rfl, kept⟩

end PacificDb.Engine
