import PacificDb.Engine.Projection
import PacificDb.Lsm.SettledReads

/-!
# Finding documents

`DatabaseEngine::find`, without a limit and an offset. A filter with a plain member is
answered by looking up the text of this member; the filter is tested on what this gives,
unless it has no other member. Any other filter is answered by a scan.

Where the reads are settled, and the text of the member says what the filter says of it,
`find` returns the documents that the filter accepts (`find_perm`).
-/

namespace PacificDb.Engine

open Lib Lsm Query Raft
open Index (BinaryColumnIndexState isScalar)

/-! ## The call -/

/-- What the calls share. -/
structure FindEnv where
  config : LsmConfig
  layout : SstLayout
  targetedSeekMaxIds : Nat
  lib : Library

/-- A call, with the floor of its read context, negative when there is none. -/
structure FindCall where
  userId : String
  filter : Json
  readFloorVersion : Int := -1
  maxScan : Nat
  maxResults : Nat

/-- The collection with the column indexes that are ready, by their fields. `undrained` says that
a strict read waits for their pending updates in vain. -/
structure IndexedState extends LeaderState where
  undrained : Bool := false
  indexes : String → Option BinaryColumnIndexState := fun _ => none

def FindCall.query (call : FindCall) (env : FindEnv) (s : IndexedState) : QueryCall where
  userId := call.userId
  raft := env.config.raft
  readFloorVersion := call.readFloorVersion
  commitIndex := s.commitIndex

/-- The tests besides the filter. -/
def shows (call : QueryCall) (doc : Json) : Bool :=
  isTenantDocumentVisible call.userId doc &&
    documentVisibleForCurrentRead call.raft call.readFloorVersion doc call.commitIndex

/-- The member that is looked up, with its text: the first plain one, unless its name is a path. -/
def fastField (config : LsmConfig) (undrained : Bool) : Json → Option (String × String)
  | .object members =>
      match members.find? fun member => isScalar member.2 with
      | some (field, value) =>
          if field = "" ∨ '.' ∈ field.toList then none
          else if undrained ∧ field ≠ "id" then none
          else some (field, idText config value)
      | none => none
  | _ => none

/-- `LSM::findByField`, without a limit on the candidates. -/
def lookedUp (env : FindEnv) (s : IndexedState) (field text : String) :
    Except String (List Json) :=
  if field = "id" then findByField env.layout env.config s.collection s.commitIndex text
  else
    match s.indexes field with
    | some index => findByIndex env.layout env.config env.targetedSeekMaxIds s.collection index
        s.commitIndex field text
    | none => findByScan env.config s.collection s.commitIndex field text

/-- The filter tested on documents that were looked up. A result is added before the cap is
checked. -/
def matchDocs (lib : Library) (call : FindCall) (query : QueryCall) (node : QueryNode lib.Double)
    (docs : List Json) : List Json :=
  ((docs.take call.maxScan).filter fun doc => !isDeletedDoc doc && accepts lib query node doc).take
    (max 1 call.maxResults)

def singleMember : Json → Bool
  | .object [_] => true
  | _ => false

/-- `DatabaseEngine::find`; none when it throws. -/
def find (env : FindEnv) (call : FindCall) (s : IndexedState) : Option (List Json) := do
  let node ← parseQuery env.lib call.filter
  let limits : FindLimits := { maxScan := call.maxScan, maxResults := call.maxResults }
  let scanned := (visitLatest env.config s.collection s.commitIndex).toOption.map fun rows =>
    (findScan env.lib (call.query env s) limits node (rows.map .json) {}).matched
  match fastField env.config s.undrained call.filter with
  | none => scanned
  | some (field, text) => do
      let docs ← (lookedUp env s field text).toOption
      if singleMember call.filter && !docs.isEmpty then
        let tenantVisible := docs.filter fun doc => !isDeletedDoc doc && shows (call.query env s) doc
        if tenantVisible.isEmpty && decide (0 ≤ call.readFloorVersion) then scanned
        else return tenantVisible
      else return matchDocs env.lib call (call.query env s) node docs

/-! ## What is looked up -/

/-- The document is one of those looked up: under its id, or by the value of the field. An
index has the scalars only. -/
def inColumn (env : FindEnv) (s : IndexedState) (field text : String) (doc : Json) : Bool :=
  if field = "id" then decide (rowKey env.config doc = some text)
  else
    match s.indexes field with
    | some _ => hasColumnValue env.config field text doc
    | none => docFieldMatchesColumnValue env.config doc field text

/-- The look-up reads the documents of `getAll`. -/
structure SettledLookup (env : FindEnv) (s : IndexedState) (names : List String)
    (docs : List Json) (field text : String) : Prop where
  points : field = "id" → PointReadsSettled env.layout env.config s.collection s.commitIndex text names
  indexes : ∀ index, s.indexes field = some index → IndexConsistent env.config field index docs ∧
    IndexedLookupSettled env.layout env.config env.targetedSeekMaxIds s.collection s.commitIndex names docs field text

/-- `find` reads the documents that its filter accepts. -/
structure SettledFind (env : FindEnv) (call : FindCall) (node : QueryNode env.lib.Double) (s : IndexedState)
    (names : List String) (docs : List Json) : Prop where
  noFloor : call.readFloorVersion < 0
  /-- The caps are not reached. -/
  scans : docs.length ≤ call.maxScan
  fits : (docs.filter (accepts env.lib (call.query env s) node)).length ≤ call.maxResults
  /-- A scan tests the filter on members that it takes. -/
  kept : fastField env.config s.undrained call.filter = none → ∀ doc ∈ docs, Kept node doc
  lookups : ∀ field text, fastField env.config s.undrained call.filter = some (field, text) →
    SettledLookup env s names docs field text
  /-- Documents that the filter accepts are looked up, and if the filter has no other member
  those looked up are accepted. -/
  texts : ∀ field text, fastField env.config s.undrained call.filter = some (field, text) →
    ∀ doc ∈ docs, shows (call.query env s) doc = true →
      (evalQuery env.lib node doc = true → inColumn env s field text doc = true) ∧
      (singleMember call.filter = true → inColumn env s field text doc = true →
        evalQuery env.lib node doc = true)

variable {env : FindEnv} {call : FindCall} {node : QueryNode env.lib.Double} {s : IndexedState}
  {names : List String} {docs found : List Json} {doc : Json} {field text : String}

theorem accepts_eq {query : QueryCall} :
    accepts env.lib query node doc = (shows query doc && evalQuery env.lib node doc) := rfl

theorem not_deleted_of_shows {query : QueryCall} (shown : shows query doc = true) :
    isDeletedDoc doc = false := by
  unfold shows documentVisibleForCurrentRead at shown
  simp only [Bool.and_eq_true, Bool.not_eq_true'] at shown
  exact shown.2.1.1.2

theorem alive_and_shows {query : QueryCall} : (!isDeletedDoc doc && shows query doc) = shows query doc := by
  cases shown : shows query doc with
  | false => exact Bool.and_false _
  | true => rw [not_deleted_of_shows shown]; rfl

theorem alive_and_accepts {query : QueryCall} :
    (!isDeletedDoc doc && accepts env.lib query node doc) = accepts env.lib query node doc := by
  rw [accepts_eq, ← Bool.and_assoc, alive_and_shows]

theorem lookedUp_perm (settled : SettledReads env.config s.collection s.commitIndex names docs)
    (lookup : SettledLookup env s names docs field text) :
    ∃ rows, lookedUp env s field text = .ok rows ∧ rows.Perm (docs.filter (inColumn env s field text)) := by
  unfold lookedUp inColumn
  by_cases isId : field = "id"
  · simp only [if_pos isId]
    exact settled.findByField_perm (lookup.points isId)
  · simp only [if_neg isId]
    cases ready : s.indexes field with
    | some index =>
      obtain ⟨consistent, reads⟩ := lookup.indexes index ready
      exact settled.findByIndex_perm consistent reads
    | none => exact settled.findByScan_perm

/-- Within the caps all accepted documents are returned. -/
theorem matchDocs_eq {query : QueryCall} (scans : docs.length ≤ call.maxScan)
    (fits : (docs.filter (accepts env.lib query node)).length ≤ call.maxResults) :
    matchDocs env.lib call query node docs = docs.filter (accepts env.lib query node) := by
  unfold matchDocs
  simp only [alive_and_accepts]
  rw [List.take_of_length_le scans, List.take_of_length_le (fits.trans (le_max_right _ _))]

/-! ## What is found -/

/-- The scan returns the documents that the filter accepts. -/
theorem scan_perm (settled : SettledReads env.config s.collection s.commitIndex names docs)
    (ready : SettledFind env call node s names docs) (kept : ∀ doc ∈ docs, Kept node doc) :
    ∃ rows, visitLatest env.config s.collection s.commitIndex = .ok rows ∧
      ((findScan env.lib (call.query env s) { maxScan := call.maxScan, maxResults := call.maxResults } node
        (rows.map .json) {}).matched).Perm (docs.filter (accepts env.lib (call.query env s) node)) := by
  obtain ⟨rows, visited, same⟩ := settled.visitLatest_perm
  have tested : accepted env.lib (call.query env s) node (rows.map .json) =
      (rows.filter (accepts env.lib (call.query env s) node)).map .json := by
    rw [accepted, List.filter_map]
    congr 1
    apply List.filter_congr
    intro row member
    have isDoc := same.mem_iff.mp member
    exact @accepts_projected env.lib (.json row) _ _ (isObject_of_mem_docs settled.reads isDoc) (kept row isDoc)
  have matched := @findScan_matched env.lib (call.query env s)
    { maxScan := call.maxScan, maxResults := call.maxResults } node (rows.map .json) {} rfl
    (by simpa [same.length_eq] using ready.scans)
    (by simpa [tested, (same.filter _).length_eq] using ready.fits)
  refine ⟨rows, visited, ?_⟩
  rw [matched, tested, List.nil_append, List.map_map]
  change ((rows.filter _).map id).Perm _
  rw [List.map_id]
  exact same.filter _

/-- `find` returns the documents that its filter accepts. -/
theorem find_perm (settled : SettledReads env.config s.collection s.commitIndex names docs)
    (parsed : parseQuery env.lib call.filter = some node) (ready : SettledFind env call node s names docs) :
    ∃ found, find env call s = some found ∧
      found.Perm (docs.filter (accepts env.lib (call.query env s) node)) := by
  unfold find
  rw [parsed]
  cases fast : fastField env.config s.undrained call.filter with
  | none =>
    obtain ⟨rows, visited, same⟩ := scan_perm settled ready (ready.kept fast)
    refine ⟨_, ?_, same⟩
    simp only [visited]
    rfl
  | some looked =>
    obtain ⟨field, text⟩ := looked
    obtain ⟨rows, looks, same⟩ := lookedUp_perm settled (ready.lookups field text fast)
    have texts := ready.texts field text fast
    -- the documents looked up and accepted are those accepted
    have both : (docs.filter (inColumn env s field text)).filter (accepts env.lib (call.query env s) node) =
        docs.filter (accepts env.lib (call.query env s) node) := by
      rw [List.filter_filter]
      apply List.filter_congr
      intro doc isDoc
      cases shown : shows (call.query env s) doc with
      | false => rw [accepts_eq, shown]; rfl
      | true =>
        rw [accepts_eq, shown, Bool.true_and]
        cases accepted : evalQuery env.lib node doc with
        | false => rfl
        | true => exact (texts doc isDoc shown).1 accepted
    have matched : (matchDocs env.lib call (call.query env s) node rows).Perm
        (docs.filter (accepts env.lib (call.query env s) node)) := by
      have tested := same.filter (accepts env.lib (call.query env s) node)
      rw [both] at tested
      rw [matchDocs_eq]
      · exact tested
      · rw [same.length_eq]
        exact (List.length_filter_le _ _).trans ready.scans
      · rw [tested.length_eq]
        exact ready.fits
    simp only [looks]
    by_cases single : (singleMember call.filter && !rows.isEmpty) = true
    · refine ⟨rows.filter fun doc => !isDeletedDoc doc && shows (call.query env s) doc, ?_, ?_⟩
      · have noFloor : decide (0 ≤ call.readFloorVersion) = false := by
          apply decide_eq_false
          exact not_le.mpr ready.noFloor
        change (if (singleMember call.filter && !rows.isEmpty) = true then _ else _) = _
        rw [if_pos single, noFloor, Bool.and_false, if_neg Bool.false_ne_true]
        rfl
      · simp only [alive_and_shows]
        rw [Bool.and_eq_true] at single
        apply (same.filter _).trans
        rw [List.filter_filter, ← both, List.filter_filter]
        apply List.Perm.of_eq
        apply List.filter_congr
        intro doc isDoc
        rw [Bool.eq_iff_iff, accepts_eq, Bool.and_eq_true, Bool.and_eq_true, Bool.and_eq_true]
        constructor
        · rintro ⟨shown, looked⟩
          exact ⟨⟨shown, (texts doc isDoc shown).2 single.1 looked⟩, looked⟩
        · rintro ⟨⟨shown, -⟩, looked⟩
          exact ⟨shown, looked⟩
    · refine ⟨_, ?_, matched⟩
      change (if (singleMember call.filter && !rows.isEmpty) = true then _ else _) = _
      rw [if_neg single]
      rfl

/-- Which column indexes are ready or not drained decides how `find` looks, not what it finds. -/
theorem find_indexes {undrained : Bool} {indexes : String → Option BinaryColumnIndexState}
    (settled : SettledReads env.config s.collection s.commitIndex names docs)
    (parsed : parseQuery env.lib call.filter = some node) (ready : SettledFind env call node s names docs)
    (ready' : SettledFind env call node { s with indexes, undrained } names docs) :
    ∃ found others, find env call s = some found ∧
      find env call { s with indexes, undrained } = some others ∧ found.Perm others := by
  obtain ⟨found, finds, same⟩ := find_perm settled parsed ready
  obtain ⟨others, finds', same'⟩ := @find_perm _ _ _ { s with indexes, undrained } _ _ settled parsed ready'
  exact ⟨found, others, finds, finds', same.trans same'.symm⟩

/-! ## By the index and by the scan -/

def blueFind : FindEnv where
  config := standalone
  layout := textLines
  targetedSeekMaxIds := 128
  lib := sampleLibrary

/-- The filter accepts one of the two blue documents. -/
def blueCall : FindCall where
  userId := "u"
  filter := .object [("colour", .string "blue"), ("version", .unsigned 1)]
  maxScan := 100
  maxResults := 100

def blueState : IndexedState := { collection := replayedNewer }

theorem settledReads_blueState : SettledReads standalone blueState.collection 0 ["1_0.sst"] replayedDocs where
  keyed := by
    refine ⟨fun id doc held => ?_, fun immutable member => (by cases member)⟩
    rcases lookup_insert_eq_some held with ⟨rfl, rfl⟩ | ⟨-, absent⟩
    · rfl
    · cases absent
  published := rfl
  verified := verified_replayedNewer
  indexable := settled_replayedNewer.indexable
  reads := rfl

theorem settledFind_blue {node : QueryNode blueFind.lib.Double}
    {indexes : String → Option BinaryColumnIndexState}
    (ready : ∀ index, indexes "colour" = some index → index = blueIndex ["a", "b"]) :
    SettledFind blueFind blueCall node { blueState with indexes } ["1_0.sst"] replayedDocs := by
  have fast {looked} (isFast : fastField standalone false blueCall.filter = some looked) :
      looked = ("colour", "blue") := (Option.some.inj (isFast : some ("colour", "blue") = some looked)).symm
  constructor
  case noFloor => decide
  case scans => decide
  case fits => exact (List.length_filter_le _ _).trans (by decide)
  case kept => exact nofun
  case lookups =>
    intro field text isFast
    cases fast isFast
    refine ⟨nofun, fun index isReady => ?_⟩
    cases ready index isReady
    exact ⟨consistent_replayedDocs, settled_replayedNewer⟩
  case texts =>
    intro field text isFast doc isDoc _
    cases fast isFast
    refine ⟨fun _ => ?_, nofun⟩
    unfold inColumn
    rw [if_neg (by decide)]
    rcases mem_replayedDocs isDoc with rfl | rfl <;> split <;> rfl

theorem find_indexes_blue : ∃ found others, find blueFind blueCall blueState = some found ∧
    find blueFind blueCall { blueState with indexes := fun _ => some (blueIndex ["a", "b"]) } = some others ∧
      found.Perm others :=
  find_indexes settledReads_blueState rfl (settledFind_blue nofun)
    (settledFind_blue fun _ isReady => (Option.some.inj isReady).symm)

end PacificDb.Engine
