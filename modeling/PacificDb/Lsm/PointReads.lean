import PacificDb.Lsm.Reads
import PacificDb.Lsm.RowView
import Mathlib.Data.List.TakeWhile

/-!
# Point reads

`LSM::findByField` on the field `id` and `LSM::findStrongSnapshotBound` look for
one id in every layer, and each has its own order in which the layers are asked.
`getAll` overlays the layers in one order for all ids.

Both point reads answer as `getAll` does (`pointReads_agree_iff`), unless two
memtables hold rows of the greatest score for the id and the wrong one is taken,
the row is in an immutable memtable that `findByField` does not look at, a binary SST
has a row of the id that a view cannot index, or the row is in a text SST and the seek
passes it over.
-/

namespace PacificDb.Lsm

open Lib

variable {config : LsmConfig}

/-! ## Bloom filters -/

/-- The seeded FNV-1a hash with its final mix, on 64 bits. -/
def fnv1a (bytes : List UInt8) (seed : Nat) : Nat :=
  let hash := bytes.foldl (fun hash byte => (hash ^^^ byte.toNat) * 1099511628211 % 2 ^ 64)
    (1469598103934665603 ^^^ seed)
  let mixed := (hash ^^^ (hash >>> 33)) * 0xff51afd7ed558ccd % 2 ^ 64
  mixed ^^^ (mixed >>> 33)

def kBloomHashes : Nat := 7

/-- The bits of a key. -/
def bloomBits (bitCount : Nat) (key : String) : List Nat :=
  let first := fnv1a key.toUTF8.toList 0x9e3779b97f4a7c15
  let second := fnv1a key.toUTF8.toList 0xc2b2ae3d27d4eb4f ||| 1
  (List.range kBloomHashes).map fun i => (first + i * second) % 2 ^ 64 % bitCount

structure BloomFilter where
  bitCount : Nat
  words : List Nat

/-- `buildBloom`. The set bits stand for the words. -/
def buildBloom (keys : List String) : BloomFilter :=
  let bitCount := max 64 ((keys.length * 10 + 63) / 64 * 64)
  { bitCount, words := keys.flatMap (bloomBits bitCount) }

def bloomMayContain (bloom : BloomFilter) (key : String) : Bool :=
  (bloomBits bloom.bitCount key).all fun bit => bloom.words.contains bit

theorem bloomMayContain_of_mem {keys : List String} {key : String} (member : key ∈ keys) :
    bloomMayContain (buildBloom keys) key = true := by
  rw [bloomMayContain, List.all_eq_true]
  intro bit isBit
  rw [List.contains_iff_mem, buildBloom, List.mem_flatMap]
  exact ⟨key, member, isBit⟩

/-! ## Seeking in one SST -/

/-- What lies beside an SST of an older release: what its bloom filter says, and the points of
its `.sidx` file if there is one and it is not empty. A point has an id and the row of its line. -/
structure TextSidecars where
  mayExist : String → Bool
  sparseIndex : Option (List (String × Nat))

/-- Binary, with or without a bloom filter that can be read, or a line of text for each row. -/
inductive SstFormat where
  | binary (hasBloom : Bool)
  | text (sidecars : TextSidecars)

def SstFormat.isBinarySst : SstFormat → Bool
  | binary _ => true
  | text _ => false

/-- `sstHasPointIndex` -/
def SstFormat.hasPointIndex : SstFormat → Bool
  | binary _ => true
  | text sidecars => sidecars.sparseIndex.isSome

/-- The format of each SST, and how a binary one is cut into blocks. -/
structure SstLayout where
  blocks : List Json → List (List Json)
  flatten_blocks : ∀ rows, (blocks rows).flatten = rows
  blocks_ne_nil : ∀ rows, ∀ block ∈ blocks rows, block ≠ []
  format : String → SstFormat

/-- `mayExistInSST`: a filter that cannot be read excludes nothing. -/
def mayExistInSST (format : SstFormat) (config : LsmConfig) (rows : List Json) (id : String) : Bool :=
  match format with
  | .binary hasBloom => !hasBloom || bloomMayContain (buildBloom (rows.filterMap (docId? config.dump))) id
  | .text sidecars => sidecars.mayExist id

/-- The best row so far, with the version its view showed. -/
abbrev FoundRow := Option (Json × Option Int)

/-- Whether a row of the file replaces the one found before it. -/
def replacesFound (version newestVersion : Option Int) : Bool :=
  match version, newestVersion with
  | some version, some newest => decide (newest ≤ version)
  | some _, none => true
  | none, some _ => false
  | none, none => true

/-- A row of the id; none is the exception of `project`. -/
def considerRow (config : LsmConfig) (committedIndex : Nat) (found : FoundRow) (row : Json) :
    Option FoundRow :=
  let view := MsgpackRowView.mk row true
  match view.project MsgpackRowView.visibilityFields with
  | none => none
  | some projected =>
      if !docVisibleByCommitIndex config.raft projected committedIndex then some found
      else
        let version := view.rowVersion
        match found with
        | none => some (some (row, version))
        | some (_, newestVersion) =>
            some (if replacesFound version newestVersion then some (row, version) else found)

/-- The key a point read takes for a row: what its view shows, or what the decoded
row has. -/
def viewKey (config : LsmConfig) (row : Json) : String :=
  match (MsgpackRowView.mk row true).field "id" with
  | some id => idText config id
  | none => sstKey config row

/-- The rows of a block, up to the first one behind the id. -/
def visitBlockRows (config : LsmConfig) (committedIndex : Nat) (id : String) :
    List Json → FoundRow → Option FoundRow
  | [], found => some found
  | row :: rest, found =>
      match (if viewKey config row = id then considerRow config committedIndex found row
        else some found) with
      | none => none
      | some next =>
          if viewKey config row ≤ id then visitBlockRows config committedIndex id rest next
          else some next

def firstKey (config : LsmConfig) (block : List Json) : String :=
  (block.head?.map (sstKey config)).getD ""

def lastKey (config : LsmConfig) (block : List Json) : String :=
  (block.getLast?.map (sstKey config)).getD ""

/-- `findInSst`: the blocks whose key range holds the id. -/
def findInSst (layout : SstLayout) (config : LsmConfig) (committedIndex : Nat) (id : String)
    (rows : List Json) : Option FoundRow :=
  (((layout.blocks rows).dropWhile fun block => lastKey config block < id).takeWhile fun block =>
    firstKey config block ≤ id).foldlM
      (fun found block => visitBlockRows config committedIndex id block found) none

/-- The binary search for the first point that is not before the id. -/
def lowerBound (points : List (String × Nat)) (id : String) : Nat → Nat → Nat → Nat
  | 0, lo, _ => lo
  | fuel + 1, lo, hi =>
      if lo < hi then
        let mid := lo + (hi - lo) / 2
        if points[mid]?.any fun point => point.1 < id then lowerBound points id fuel (mid + 1) hi
        else lowerBound points id fuel lo mid
      else lo

/-- The row at `startOffset`. -/
def TextSidecars.startRow (sidecars : TextSidecars) (id : String) : Nat :=
  let points := sidecars.sparseIndex.getD []
  match lowerBound points id points.length 0 points.length with
  | 0 => 0
  | lo + 1 => (points[lo]?.map Prod.snd).getD 0

/-- The lines of a text SST, up to the first visible one behind the id. A row whose id is not a
string is passed over. -/
def seekLines (config : LsmConfig) (committedIndex : Nat) (id : String) :
    List Json → Option Json → Option Json
  | [], newest => newest
  | row :: rest, newest =>
      match row.field? "id" with
      | some (.string did) =>
          if !docVisibleByCommitIndex config.raft row committedIndex then
            seekLines config committedIndex id rest newest
          else if did = id then
            seekLines config committedIndex id rest (match newest with
              | none => some row
              | some current => if isCandidateNewer row current then some row else some current)
          else if id < did then newest
          else seekLines config committedIndex id rest newest
      | _ => seekLines config committedIndex id rest newest

/-- In a text SST all errors are swallowed. -/
def seekDocInSSTById (layout : SstLayout) (config : LsmConfig) (s : Collection)
    (committedIndex : Nat) (id name : String) : Except String (Option Json) :=
  match layout.format name with
  | .binary hasBloom =>
      match scanSst s.dir name with
      | none => .error "cannot read binary SST: cannot stat SST"
      | some (_, rows) =>
          if !mayExistInSST (.binary hasBloom) config rows id then .ok none
          else
            match findInSst layout config committedIndex id rows with
            | none => .error ("cannot read binary SST: invalid SST MessagePack row: " ++
                "invalid indexed MessagePack row")
            | some found => .ok (found.map Prod.fst)
  | .text sidecars =>
      match scanSst s.dir name with
      | none => .ok none
      | some (_, rows) =>
          if !mayExistInSST (.text sidecars) config rows id then .ok none
          else .ok (seekLines config committedIndex id (rows.drop (sidecars.startRow id)) none)

/-! ## The two point reads -/

/-- The rows the immutable memtables hold for the id, newest first. -/
def Collection.immutableHits (s : Collection) (id : String) : List Json :=
  s.immutables.filterMap fun immutable => immutable.2.lookup id

def Collection.visibleDoc (config : LsmConfig) (committedIndex : Nat) (doc : Json) : Bool :=
  docVisibleByCommitIndex config.raft doc committedIndex

/-- What `findByField` retains from memory: the active row, and then the row of the
first immutable memtable that holds the id. -/
def Collection.memoryFound (config : LsmConfig) (s : Collection) (committedIndex : Nat)
    (id : String) : Option Json :=
  let active := (s.memtable.lookup id).filter (visibleDoc config committedIndex)
  match (s.immutableHits id).head? with
  | none => active
  | some doc =>
      if visibleDoc config committedIndex doc &&
          (match active with
            | none => true
            | some current => isCandidateNewer doc current) then some doc
      else active

/-- One SST of the scan in `findByField`. -/
def Collection.latestFound (layout : SstLayout) (config : LsmConfig) (s : Collection)
    (committedIndex : Nat) (id : String) (latest : Option Json) (name : String) :
    Except String (Option Json) :=
  match seekDocInSSTById layout config s committedIndex id name with
  | .error reason => .error reason
  | .ok none => .ok latest
  | .ok (some found) =>
      if !visibleDoc config committedIndex found then .ok latest
      else
        match latest with
        | none => .ok (some found)
        | some current => .ok (if isCandidateNewer found current then some found else some current)

/-- `LSM::findByField` on `id`, past the id cache. -/
def findByField (layout : SstLayout) (config : LsmConfig) (s : Collection) (committedIndex : Nat)
    (id : String) : Except String (List Json) :=
  match publishedSsts config.codec s.dir with
  | .error reason => .error reason
  | .ok published =>
      match published.foldlM (s.latestFound layout config committedIndex id) none with
      | .error reason => .error reason
      | .ok latestFound =>
          let chosen := match s.memoryFound config committedIndex id, latestFound with
            | none, latest => latest
            | some memory, none => some memory
            | some memory, some latest =>
                if isCandidateNewer memory latest then some memory else some latest
          .ok (chosen.filter fun doc => !isDeletedDoc doc).toList

/-- Where `findStrongSnapshotBound` found a row. -/
inductive ReadLayer where
  | memtable
  | immutable
  | sst (name : String)
  deriving DecidableEq

def ReadLayer.rank : ReadLayer → Nat
  | memtable => 2
  | immutable => 1
  | sst _ => 0

def ReadLayer.source : ReadLayer → String
  | memtable => "MEMTABLE"
  | immutable => "IMMUTABLE_MEMTABLE"
  | sst _ => "SST_L0"

/-- `consider`: among equal scores a lower layer does not replace a higher one. -/
def considerLayer (config : LsmConfig) (committedIndex : Nat) (newest : Option (Json × ReadLayer))
    (candidate : Json × ReadLayer) : Option (Json × ReadLayer) :=
  if !Collection.visibleDoc config committedIndex candidate.1 then newest
  else
    match newest with
    | none => some candidate
    | some current =>
        if !isCandidateNewer candidate.1 current.1 then newest
        else if isCandidateNewer current.1 candidate.1 && candidate.2.rank < current.2.rank then newest
        else some candidate

/-- The part of the answer of `findStrongSnapshotBound` that depends on the rows. -/
structure StrongRead where
  found : Bool := false
  floorSatisfied : Bool
  returnedVersion : Option Int := none
  visibilitySource : String := "UNKNOWN"
  documents : List Json := []

def strongResult (requiredFloorVersion : Nat) (chosen : Json × ReadLayer) : StrongRead :=
  let version := extractDocVersionScore chosen.1
  { found := !isDeletedDoc chosen.1
    floorSatisfied := requiredFloorVersion = 0 || match version with
      | some version => decide (0 ≤ version) && decide (requiredFloorVersion ≤ version.toNat)
      | none => false
    returnedVersion := version
    visibilitySource := chosen.2.source
    documents := if isDeletedDoc chosen.1 then [] else [chosen.1] }

/-- One SST of the scan in `findStrongSnapshotBound`. -/
def Collection.newestFound (layout : SstLayout) (config : LsmConfig) (s : Collection)
    (committedIndex : Nat) (id : String) (newest : Option (Json × ReadLayer)) (name : String) :
    Except String (Option (Json × ReadLayer)) :=
  match seekDocInSSTById layout config s committedIndex id name with
  | .error reason => .error reason
  | .ok none => .ok newest
  | .ok (some found) => .ok (considerLayer config committedIndex newest (found, .sst name))

/-- `LSM::findStrongSnapshotBound` without a cached row. -/
def findStrongSnapshotBound (layout : SstLayout) (config : LsmConfig) (s : Collection)
    (committedIndex : Nat) (id : String) (requiredFloorVersion : Nat) : Except String StrongRead :=
  let active := ((s.memtable.lookup id).toList).map fun doc => (doc, ReadLayer.memtable)
  let immutable := (s.immutableHits id).map fun doc => (doc, ReadLayer.immutable)
  let memory := (active ++ immutable).foldl (considerLayer config committedIndex) none
  match publishedSsts config.codec s.dir with
  | .error reason => .error reason
  | .ok published =>
      match published.foldlM (s.newestFound layout config committedIndex id) memory with
      | .error reason => .error reason
      | .ok none => .ok { floorSatisfied := requiredFloorVersion = 0 }
      | .ok (some chosen) => .ok (strongResult requiredFloorVersion chosen)

/-! ## What a seek finds -/

section Seek

variable {committedIndex : Nat} {id : String}

theorem viewKey_eq (row : Json) : viewKey config row = sstKey config row := by
  unfold viewKey
  split
  next value found =>
    rw [sstKey, docId?_eq (MsgpackRowView.field_some found)]
    rfl
  next => rfl

/-- A row of the id that a view can read. -/
def Indexable (row : Json) : Prop := (MsgpackRowView.mk row true).indexValid = true

instance (row : Json) : Decidable (Indexable row) := inferInstanceAs (Decidable (_ = true))

theorem replacesFound_iff {row current : Json} :
    replacesFound (extractDocVersionScore row) (extractDocVersionScore current) = true ↔
      docScore current ≤ docScore row := by
  rw [← isCandidateNewer_iff]
  unfold replacesFound isCandidateNewer
  cases extractDocVersionScore row with
  | none => cases extractDocVersionScore current <;> simp
  | some version =>
    cases extractDocVersionScore current with
    | none => simp
    | some newest =>
      simp only [decide_eq_true_eq, ne_eq, ite_not]
      split
      · simp only [iff_true]
        omega
      · rw [decide_eq_true_eq]
        omega

/-- A row with the version its view shows. -/
def versioned (best : Option Json) : FoundRow := best.map fun doc => (doc, extractDocVersionScore doc)

theorem considerRow_indexable {best : Option Json} {row : Json} (indexable : Indexable row) :
    considerRow config committedIndex (versioned best) row =
      some (versioned (latest docScore best
        ((some row).filter (Collection.visibleDoc config committedIndex)))) := by
  obtain ⟨projected, projects, same⟩ :=
    @MsgpackRowView.project_visible row config committedIndex indexable
  unfold considerRow
  dsimp only
  rw [projects, Option.filter_some]
  dsimp only
  rw [same, MsgpackRowView.rowVersion_of_valid indexable, Collection.visibleDoc]
  cases docVisibleByCommitIndex config.raft row committedIndex with
  | false =>
    simp only [Bool.not_false, if_true, Bool.false_eq_true, if_false]
    rw [latest_none]
  | true =>
    simp only [Bool.not_true, Bool.false_eq_true, if_false, if_true]
    cases best with
    | none => rfl
    | some current =>
      dsimp only [versioned, Option.map_some]
      by_cases below : docScore current ≤ docScore row
      · rw [if_pos (replacesFound_iff.mpr below), latest, if_pos below]
        rfl
      · rw [if_neg fun newer => below (replacesFound_iff.mp newer), latest, if_neg below]
        rfl

theorem considerRow_unindexable {found : FoundRow} {row : Json} (deep : ¬Indexable row) :
    considerRow config committedIndex found row = none := by
  rw [Indexable, Bool.not_eq_true] at deep
  unfold considerRow
  dsimp only
  rw [MsgpackRowView.project, deep]
  rfl

/-- A seek over all rows of the file, whatever block they are in. -/
def seekRows (config : LsmConfig) (committedIndex : Nat) (id : String) (rows : List Json)
    (found : FoundRow) : Option FoundRow :=
  rows.foldlM (fun found row =>
    if sstKey config row = id then considerRow config committedIndex found row else some found) found

theorem seekRows_append (rows others : List Json) (found : FoundRow) :
    seekRows config committedIndex id (rows ++ others) found =
      (seekRows config committedIndex id rows found).bind
        (seekRows config committedIndex id others) := by
  rw [seekRows, List.foldlM_append]
  rfl

theorem seekRows_other {rows : List Json} {found : FoundRow}
    (other : ∀ row ∈ rows, sstKey config row ≠ id) :
    seekRows config committedIndex id rows found = some found := by
  induction rows with
  | nil => rfl
  | cons row rest ih =>
    obtain ⟨first, later⟩ := List.forall_mem_cons.mp other
    rw [seekRows, List.foldlM_cons, if_neg first]
    exact ih later

/-- Behind the first row past the id there is no row of the id. -/
theorem visitBlockRows_eq {rows : List Json} {found : FoundRow}
    (sorted : rows.Pairwise fun row next => sstKey config row ≤ sstKey config next) :
    visitBlockRows config committedIndex id rows found =
      seekRows config committedIndex id rows found := by
  induction rows generalizing found with
  | nil => rfl
  | cons row rest ih =>
    obtain ⟨first, later⟩ := List.pairwise_cons.mp sorted
    rw [visitBlockRows, viewKey_eq, seekRows, List.foldlM_cons]
    cases (if sstKey config row = id then considerRow config committedIndex found row
      else some found) with
    | none => rfl
    | some next =>
      dsimp only
      split
      · exact ih later
      next behind =>
        refine (seekRows_other fun other member => ?_).symm
        exact (lt_of_lt_of_le (not_le.mp behind) (first other member)).ne'

theorem le_lastKey {block : List Json} {row : Json}
    (sorted : block.Pairwise fun row next => sstKey config row ≤ sstKey config next)
    (member : row ∈ block) : sstKey config row ≤ lastKey config block := by
  rcases List.eq_nil_or_concat block with rfl | ⟨start, last, rfl⟩
  · cases member
  · rw [List.concat_eq_append] at sorted member ⊢
    rw [lastKey, List.getLast?_concat, Option.map_some, Option.getD_some]
    rcases List.mem_append.mp member with old | own
    · exact (List.pairwise_append.mp sorted).2.2 row old last (.head _)
    · rw [List.mem_singleton.mp own]

theorem foldlM_visitBlockRows {blocks : List (List Json)} {found : FoundRow}
    (sorted : blocks.flatten.Pairwise fun row next => sstKey config row ≤ sstKey config next) :
    blocks.foldlM (fun found block => visitBlockRows config committedIndex id block found) found =
      seekRows config committedIndex id blocks.flatten found := by
  induction blocks generalizing found with
  | nil => rfl
  | cons block rest ih =>
    rw [List.flatten_cons] at sorted
    obtain ⟨own, later, -⟩ := List.pairwise_append.mp sorted
    rw [List.foldlM_cons, visitBlockRows_eq own, List.flatten_cons, seekRows_append]
    congr 1
    funext next
    exact ih later

/-- Every row from a block behind the id on lies behind the id. -/
theorem behind_of_firstKey {blocks : List (List Json)} {row : Json}
    (sorted : blocks.flatten.Pairwise fun row next => sstKey config row ≤ sstKey config next)
    (filled : ∀ block ∈ blocks, block ≠ [])
    (behind : ∀ block ∈ blocks.head?, id < firstKey config block) (member : row ∈ blocks.flatten) :
    id < sstKey config row := by
  cases blocks with
  | nil => cases member
  | cons block rest =>
    cases block with
    | nil => exact absurd rfl (filled [] (.head _))
    | cons first others =>
      have start : id < sstKey config first := behind _ rfl
      rw [List.flatten_cons, List.cons_append] at sorted member
      rcases List.mem_cons.mp member with rfl | later
      · exact start
      · exact start.trans_le ((List.pairwise_cons.mp sorted).1 row later)

/-- The blocks that a seek leaves out hold no row of the id. -/
theorem findInSst_eq_seekRows {layout : SstLayout} {rows : List Json}
    (sorted : rows.Pairwise fun row next => sstKey config row ≤ sstKey config next) :
    findInSst layout config committedIndex id rows =
      seekRows config committedIndex id rows none := by
  have whole := layout.flatten_blocks rows
  have filled := layout.blocks_ne_nil rows
  unfold findInSst
  generalize layout.blocks rows = blocks at whole filled ⊢
  -- the blocks in front of the id, those that are read, and those behind it
  have front := @List.takeWhile_append_dropWhile _ (fun block => lastKey config block < id) blocks
  have read := @List.takeWhile_append_dropWhile _ (fun block => firstKey config block ≤ id)
    (blocks.dropWhile fun block => lastKey config block < id)
  have inFront : ∀ block ∈ blocks.takeWhile fun block => lastKey config block < id,
      lastKey config block < id := by
    intro block member
    have passes : decide (lastKey config block < id) = true :=
      @List.mem_takeWhile_imp _ (fun block => decide (lastKey config block < id)) _ _ member
    exact of_decide_eq_true passes
  have behind : ∀ block ∈ ((blocks.dropWhile fun block => lastKey config block < id).dropWhile
      fun block => firstKey config block ≤ id).head?, id < firstKey config block := by
    intro block isHead
    have kept := List.head?_dropWhile_not (fun block => decide (firstKey config block ≤ id))
      (blocks.dropWhile fun block => lastKey config block < id)
    rw [Option.mem_def.mp isHead] at kept
    exact not_le.mp (of_decide_eq_false kept)
  generalize blocks.takeWhile (fun block => lastKey config block < id) = skipped at front inFront
  generalize blocks.dropWhile (fun block => lastKey config block < id) = rest at front read behind ⊢
  generalize rest.takeWhile (fun block => firstKey config block ≤ id) = middle at read ⊢
  generalize rest.dropWhile (fun block => firstKey config block ≤ id) = tail at read behind
  subst read
  subst front
  rw [List.flatten_append, List.flatten_append] at whole
  subst whole
  obtain ⟨sortedFront, sortedRest, -⟩ := List.pairwise_append.mp sorted
  obtain ⟨sortedMiddle, sortedTail, -⟩ := List.pairwise_append.mp sortedRest
  have noFront : seekRows config committedIndex id skipped.flatten none = some none := by
    refine seekRows_other fun row member => ?_
    obtain ⟨block, isBlock, isRow⟩ := List.mem_flatten.mp member
    have sortedBlock := (List.pairwise_flatten.mp sortedFront).1 block isBlock
    exact ((le_lastKey sortedBlock isRow).trans_lt (inFront block isBlock)).ne
  have noTail : ∀ found, seekRows config committedIndex id tail.flatten found = some found := by
    intro found
    refine seekRows_other fun row member => ?_
    refine (behind_of_firstKey sortedTail (fun block isBlock => filled block ?_) behind member).ne'
    exact List.mem_append_right _ (List.mem_append_right _ isBlock)
  rw [foldlM_visitBlockRows sortedMiddle, seekRows_append, noFront, Option.bind_some, seekRows_append]
  cases seekRows config committedIndex id middle.flatten none with
  | none => rfl
  | some found => rw [Option.bind_some, noTail]

/-- A seek ends with the last visible row of greatest score of the id. -/
theorem seekRows_indexable {rows : List Json} {best : Option Json}
    (indexable : ∀ row ∈ rows, sstKey config row = id → Indexable row) :
    seekRows config committedIndex id rows (versioned best) =
      some (versioned (latest docScore best (lastMax docScore ((rows.filter fun row =>
        sstKey config row = id).filter (Collection.visibleDoc config committedIndex))))) := by
  induction rows generalizing best with
  | nil => rw [List.filter_nil, List.filter_nil, lastMax, List.foldl_nil, latest_none]; rfl
  | cons row rest ih =>
    obtain ⟨first, later⟩ := List.forall_mem_cons.mp indexable
    rw [seekRows, List.foldlM_cons, List.filter_cons]
    by_cases own : sstKey config row = id
    · rw [if_pos own, considerRow_indexable (first own), if_pos (decide_eq_true own),
        List.filter_cons]
      change seekRows config committedIndex id rest _ = _
      rw [ih later, Option.filter_some]
      cases Collection.visibleDoc config committedIndex row with
      | false => rw [if_neg Bool.false_ne_true, if_neg Bool.false_ne_true, latest_none]
      | true => rw [if_pos rfl, if_pos rfl, lastMax_cons, latest_assoc]
    · rw [if_neg own, if_neg (by simp [own])]
      exact ih later

theorem seekRows_unindexable {rows : List Json} {found : FoundRow}
    (deep : ∃ row ∈ rows, sstKey config row = id ∧ ¬Indexable row) :
    seekRows config committedIndex id rows found = none := by
  induction rows generalizing found with
  | nil =>
    obtain ⟨row, member, -⟩ := deep
    cases member
  | cons first rest ih =>
    rw [seekRows, List.foldlM_cons]
    obtain ⟨row, member, own, notIndexable⟩ := deep
    rcases List.mem_cons.mp member with rfl | later
    · rw [if_pos own, considerRow_unindexable notIndexable]
      rfl
    · cases (if sstKey config first = id then considerRow config committedIndex found first
        else some found) with
      | none => rfl
      | some next => exact ih ⟨row, later, own, notIndexable⟩

/-- The row is visible and its id is this string. -/
def isTextHit (config : LsmConfig) (committedIndex : Nat) (id : String) (row : Json) : Bool :=
  match row.field? "id" with
  | some (.string did) => did == id && docVisibleByCommitIndex config.raft row committedIndex
  | _ => false

theorem sstKey_of_isTextHit {row : Json} (hit : isTextHit config committedIndex id row = true) :
    sstKey config row = id ∧ docVisibleByCommitIndex config.raft row committedIndex = true := by
  unfold isTextHit at hit
  split at hit
  next did found =>
    rw [Bool.and_eq_true, beq_iff_eq] at hit
    refine ⟨?_, hit.2⟩
    rw [sstKey, docId?, found, ← hit.1]
    rfl
  next => cases hit

/-- The seek in a text SST ends with the last of the best rows whose id is the string. -/
theorem seekLines_eq {rows : List Json} {best : Option Json}
    (sorted : rows.Pairwise fun row next => sstKey config row ≤ sstKey config next) :
    seekLines config committedIndex id rows best =
      latest docScore best (lastMax docScore (rows.filter (isTextHit config committedIndex id))) := by
  induction rows generalizing best with
  | nil => exact (latest_none best).symm
  | cons row rest ih =>
    obtain ⟨first, later⟩ := List.pairwise_cons.mp sorted
    rw [seekLines.eq_def, List.filter_cons]
    dsimp only
    split
    next did found =>
      have isKey : sstKey config row = did := by rw [sstKey, docId?, found]; rfl
      have hit : isTextHit config committedIndex id row =
          (did == id && docVisibleByCommitIndex config.raft row committedIndex) := by
        rw [isTextHit, found]
      rw [hit]
      cases docVisibleByCommitIndex config.raft row committedIndex with
      | false => simpa using ih later
      | true =>
        rw [Bool.and_true, Bool.not_true, if_neg Bool.false_ne_true]
        by_cases own : did = id
        · rw [if_pos own, if_pos (beq_iff_eq.mpr own), lastMax_cons, ← latest_assoc, ih later]
          congr 1
          cases best with
          | none => rfl
          | some current =>
            dsimp only [latest]
            by_cases below : docScore current ≤ docScore row
            · rw [if_pos (isCandidateNewer_iff.mpr below), if_pos below]
            · rw [if_neg fun newer => below (isCandidateNewer_iff.mp newer), if_neg below]
        · rw [if_neg own, if_neg fun same => own (beq_iff_eq.mp same)]
          split
          next behind =>
            have none : rest.filter (isTextHit config committedIndex id) = [] := by
              rw [List.filter_eq_nil_iff]
              intro other member isHit
              have above := first other member
              rw [isKey, (sstKey_of_isTextHit isHit).1] at above
              exact absurd behind (not_lt.mpr above)
            rw [none]
            exact (latest_none best).symm
          next => exact ih later
    next other =>
      have miss : isTextHit config committedIndex id row = false := by
        unfold isTextHit
        split
        next did found => exact absurd found (other did)
        next => rfl
      rw [miss, if_neg Bool.false_ne_true]
      exact ih later

/-- A point that the binary search leaves behind is before the id. -/
theorem before_of_lowerBound {points : List (String × Nat)} {fuel lo hi last : Nat}
    (left : ∀ last, lo = last + 1 → ∃ point, points[last]? = some point ∧ point.1 < id)
    (ends : lowerBound points id fuel lo hi = last + 1) :
    ∃ point, points[last]? = some point ∧ point.1 < id := by
  induction fuel generalizing lo hi with
  | zero => exact left last ends
  | succ fuel ih =>
    rw [lowerBound] at ends
    split at ends
    · dsimp only at ends
      split at ends
      next before =>
        refine ih (fun last same => ?_) ends
        cases same
        cases found : points[lo + (hi - lo) / 2]? with
        | none =>
          rw [found] at before
          cases before
        | some point =>
          rw [found] at before
          exact ⟨point, rfl, of_decide_eq_true before⟩
      · exact ih left ends
    · exact left last ends

/-- A sparse index whose points are rows of the file, under their ids, starts no seek behind a row of
the id. -/
theorem filter_drop_startRow {sidecars : TextSidecars} {rows : List Json}
    (sorted : rows.Pairwise fun row next => sstKey config row ≤ sstKey config next)
    (points : ∀ point ∈ sidecars.sparseIndex.getD [], ∃ row, rows[point.2]? = some row ∧
      row.field? "id" = some (.string point.1)) :
    (rows.drop (sidecars.startRow id)).filter (isTextHit config committedIndex id) =
      rows.filter (isTextHit config committedIndex id) := by
  unfold TextSidecars.startRow
  dsimp only
  split
  next => rw [List.drop_zero]
  next last ends =>
    obtain ⟨point, found, before⟩ := before_of_lowerBound (fun _ absurd => by cases absurd) ends
    obtain ⟨row, isRow, isId⟩ := points point (List.mem_of_getElem? found)
    have isKey : sstKey config row = point.1 := by rw [sstKey, docId?, isId]; rfl
    rw [found, Option.map_some, Option.getD_some]
    conv_rhs => rw [← List.take_append_drop point.2 rows, List.filter_append]
    have none : (rows.take point.2).filter (isTextHit config committedIndex id) = [] := by
      rw [List.filter_eq_nil_iff]
      intro other member isHit
      have behind : row ∈ rows.drop point.2 := by
        rw [List.mem_iff_getElem?]
        exact ⟨0, by rw [List.getElem?_drop, Nat.add_zero, isRow]⟩
      rw [← List.take_append_drop point.2 rows] at sorted
      have below := (List.pairwise_append.mp sorted).2.2 other member row behind
      rw [(sstKey_of_isTextHit isHit).1, isKey] at below
      exact absurd before (not_lt.mpr below)
    rw [none, List.nil_append]

end Seek

/-! ## What the layers hold for an id -/

section Layers

variable {s : Collection} {layout : SstLayout} {committedIndex : Nat} {id : String}

/-- The visible rows of the id in one SST. -/
def Collection.fileHits (config : LsmConfig) (s : Collection) (committedIndex : Nat) (id name : String) :
    List Json :=
  ((sstRows s.dir name).filter fun row => sstKey config row = id).filter
    (visibleDoc config committedIndex)

/-- Every published SST is there and passes `verifySst`. -/
def Verified (config : LsmConfig) (s : Collection) (names : List String) : Prop :=
  ∀ name ∈ names, ∃ rows, s.dir.lookup name = some (.sst rows) ∧ verifySst config rows = true

/-- The rows of the id that a seek takes: of a text SST only those from where it starts, with a
string for the id. -/
def Collection.seekHits (layout : SstLayout) (config : LsmConfig) (s : Collection)
    (committedIndex : Nat) (id name : String) : List Json :=
  match layout.format name with
  | .binary _ => s.fileHits config committedIndex id name
  | .text sidecars =>
      if sidecars.mayExist id then
        ((sstRows s.dir name).drop (sidecars.startRow id)).filter (isTextHit config committedIndex id)
      else []

theorem seekHits_subset {name : String} {row : Json}
    (member : row ∈ s.seekHits layout config committedIndex id name) :
    row ∈ s.fileHits config committedIndex id name := by
  unfold Collection.seekHits at member
  split at member
  · exact member
  · split at member
    · obtain ⟨inFile, hit⟩ := List.mem_filter.mp member
      obtain ⟨isKey, visible⟩ := sstKey_of_isTextHit hit
      exact List.mem_filter.mpr ⟨List.mem_filter.mpr ⟨List.mem_of_mem_drop inFile,
        decide_eq_true isKey⟩, visible⟩
    · cases member

/-- The rows of the id in one SST can be indexed, if they are read with views. -/
def IndexableFile (layout : SstLayout) (config : LsmConfig) (s : Collection) (id name : String) : Prop :=
  (layout.format name).isBinarySst = true →
    ∀ row ∈ sstRows s.dir name, sstKey config row = id → Indexable row

def IndexableHits (layout : SstLayout) (config : LsmConfig) (s : Collection) (names : List String)
    (id : String) : Prop :=
  ∀ name ∈ names, IndexableFile layout config s id name

/-- The bloom filter of a binary SST has seen the ids of its rows. -/
theorem mayExist_of_key {hasBloom : Bool} {rows : List Json} {row : Json}
    (has : (docId? config.dump row).isSome = true) (isKey : sstKey config row = id)
    (member : row ∈ rows) : mayExistInSST (.binary hasBloom) config rows id = true := by
  obtain ⟨key, known⟩ := Option.isSome_iff_exists.mp has
  have isId : key = id := by rw [← isKey, sstKey, known]; rfl
  have kept : id ∈ rows.filterMap (docId? config.dump) :=
    List.mem_filterMap.mpr ⟨row, member, isId ▸ known⟩
  rw [mayExistInSST, bloomMayContain_of_mem kept, Bool.or_true]

theorem seekDocInSSTById_ok {name : String} {rows : List Json}
    (body : s.dir.lookup name = some (.sst rows)) (verified : verifySst config rows = true)
    (indexable : IndexableFile layout config s id name) :
    seekDocInSSTById layout config s committedIndex id name =
      .ok (lastMax docScore (s.seekHits layout config committedIndex id name)) := by
  have own : sstRows s.dir name = rows := by rw [sstRows, body]
  obtain ⟨named, sorted⟩ := verifyRows_keys verified
  rw [IndexableFile, own] at indexable
  rw [seekDocInSSTById, Collection.seekHits, scanSst, body]
  cases format : layout.format name with
  | text sidecars =>
    dsimp only
    rw [own, mayExistInSST]
    cases sidecars.mayExist id with
    | false => rfl
    | true =>
      rw [Bool.not_true, if_neg Bool.false_ne_true, if_pos rfl, seekLines_eq (sorted.drop ..)]
      rfl
  | binary hasBloom =>
    rw [format] at indexable
    have found : findInSst layout config committedIndex id rows =
        some (versioned (lastMax docScore (s.fileHits config committedIndex id name))) := by
      rw [findInSst_eq_seekRows sorted, Collection.fileHits, own]
      exact @seekRows_indexable config committedIndex id rows none (indexable rfl)
    dsimp only
    rw [found]
    dsimp only
    split
    next excluded =>
      -- a filter that excludes the id has seen no row of it
      have absent : ∀ row ∈ rows, sstKey config row ≠ id := by
        intro row member isKey
        rw [mayExist_of_key (named row member).1 isKey member] at excluded
        cases excluded
      have none : (rows.filter fun row => sstKey config row = id) = [] := by
        rw [List.filter_eq_nil_iff]
        intro row member isKey
        exact absent row member (of_decide_eq_true isKey)
      rw [Collection.fileHits, own, none]
      rfl
    next =>
      rw [versioned, Option.map_map]
      cases lastMax docScore (s.fileHits config committedIndex id name) <;> rfl

theorem seekDocInSSTById_error {name : String} {rows : List Json}
    (body : s.dir.lookup name = some (.sst rows)) (verified : verifySst config rows = true)
    (deep : ¬IndexableFile layout config s id name) :
    ∃ reason, seekDocInSSTById layout config s committedIndex id name = .error reason := by
  have own : sstRows s.dir name = rows := by rw [sstRows, body]
  obtain ⟨named, sorted⟩ := verifyRows_keys verified
  unfold IndexableFile at deep
  rw [own] at deep
  push Not at deep
  obtain ⟨isBinary, row, member, isKey, notIndexable⟩ := deep
  rw [seekDocInSSTById, scanSst, body]
  cases format : layout.format name with
  | text sidecars =>
    rw [format] at isBinary
    cases isBinary
  | binary hasBloom =>
    dsimp only
    rw [mayExist_of_key (named row member).1 isKey member, findInSst_eq_seekRows sorted,
      seekRows_unindexable ⟨row, member, isKey, notIndexable⟩]
    exact ⟨_, rfl⟩

theorem visible_of_lastMax {name : String} {doc : Json}
    (found : lastMax docScore (s.seekHits layout config committedIndex id name) = some doc) :
    Collection.visibleDoc config committedIndex doc = true :=
  (List.mem_filter.mp (seekHits_subset (mem_of_lastMax found))).2

theorem latestFound_ok {name : String} {rows : List Json} {best : Option Json}
    (body : s.dir.lookup name = some (.sst rows)) (verified : verifySst config rows = true)
    (indexable : IndexableFile layout config s id name) :
    s.latestFound layout config committedIndex id best name =
      .ok (latest docScore best (lastMax docScore (s.seekHits layout config committedIndex id name))) := by
  rw [Collection.latestFound, seekDocInSSTById_ok body verified indexable]
  cases found : lastMax docScore (s.seekHits layout config committedIndex id name) with
  | none => rw [latest_none]
  | some doc =>
    dsimp only
    rw [visible_of_lastMax found]
    cases best with
    | none => rfl
    | some current =>
      simp only [Bool.not_true, Bool.false_eq_true, if_false, latest]
      by_cases below : docScore current ≤ docScore doc
      · rw [if_pos (isCandidateNewer_iff.mpr below), if_pos below]
      · rw [if_neg fun newer => below (isCandidateNewer_iff.mp newer), if_neg below]

theorem foldlM_latestFound {names : List String} {best : Option Json}
    (verified : Verified config s names) (indexable : IndexableHits layout config s names id) :
    names.foldlM (s.latestFound layout config committedIndex id) best =
      .ok (latest docScore best
        (lastMax docScore (names.flatMap (s.seekHits layout config committedIndex id)))) := by
  induction names generalizing best with
  | nil => rw [List.foldlM_nil, List.flatMap_nil, lastMax, List.foldl_nil, latest_none]; rfl
  | cons name rest ih =>
    obtain ⟨⟨rows, body, passes⟩, laterVerified⟩ := List.forall_mem_cons.mp verified
    obtain ⟨first, later⟩ := List.forall_mem_cons.mp indexable
    rw [List.foldlM_cons, latestFound_ok body passes first, List.flatMap_cons, lastMax_append,
      ← latest_assoc]
    exact ih laterVerified later

theorem foldlM_latestFound_error {names : List String} {best : Option Json}
    (verified : Verified config s names) (deep : ¬IndexableHits layout config s names id) :
    ∃ reason, names.foldlM (s.latestFound layout config committedIndex id) best = .error reason := by
  induction names generalizing best with
  | nil => exact absurd (fun name member => by cases member) deep
  | cons name rest ih =>
    obtain ⟨⟨rows, body, passes⟩, laterVerified⟩ := List.forall_mem_cons.mp verified
    rw [List.foldlM_cons]
    by_cases first : IndexableFile layout config s id name
    · rw [latestFound_ok body passes first]
      exact ih laterVerified fun later => deep (List.forall_mem_cons.mpr ⟨first, later⟩)
    · obtain ⟨reason, failed⟩ := @seekDocInSSTById_error config s layout committedIndex id name rows
        body passes first
      refine ⟨reason, ?_⟩
      rw [Collection.latestFound, failed]
      rfl

/-! ## The strong read -/

/-- The score of a considered row. -/
def layerScore (candidate : Json × ReadLayer) : WithBot Int := docScore candidate.1

/-- With the rows of a higher layer considered first, the rows of one layer are
taken as a scan of that layer would, and the higher layer is overlaid on it. -/
theorem considerLayer_latest {low high : Option (Json × ReadLayer)} {candidate : Json × ReadLayer}
    (lowRank : ∀ current ∈ low, current.2.rank = candidate.2.rank)
    (highRank : ∀ current ∈ high, candidate.2.rank < current.2.rank) :
    considerLayer config committedIndex (latest layerScore low high) candidate =
      latest layerScore (latest layerScore low
        ((some candidate).filter fun candidate =>
          Collection.visibleDoc config committedIndex candidate.1)) high := by
  unfold considerLayer
  rw [Option.filter_some]
  cases Collection.visibleDoc config committedIndex candidate.1 with
  | false =>
    rw [if_pos (by rfl), if_neg Bool.false_ne_true, latest_none]
  | true =>
    rw [if_neg (by decide), if_pos rfl]
    have newer : ∀ current : Json × ReadLayer,
        isCandidateNewer candidate.1 current.1 = decide (layerScore current ≤ layerScore candidate) := by
      intro current
      rw [Bool.eq_iff_iff, decide_eq_true_iff]
      exact isCandidateNewer_iff
    have older : ∀ current : Json × ReadLayer,
        isCandidateNewer current.1 candidate.1 = decide (layerScore candidate ≤ layerScore current) := by
      intro current
      rw [Bool.eq_iff_iff, decide_eq_true_iff]
      exact isCandidateNewer_iff
    cases high with
    | none =>
      rw [latest_none, latest_none]
      cases low with
      | none => rfl
      | some current =>
        have same := lowRank current rfl
        simp only [newer, older, latest, same, lt_irrefl, decide_false, Bool.and_false,
          Bool.false_eq_true, if_false]
        by_cases below : layerScore current ≤ layerScore candidate
        · simp [below]
        · simp [below]
    | some top =>
      have above := highRank top rfl
      cases low with
      | none =>
        simp only [newer, older, latest, above, decide_true, Bool.and_true]
        by_cases below : layerScore top ≤ layerScore candidate
        · by_cases tie : layerScore candidate ≤ layerScore top
          · simp [below, tie]
          · simp [below, tie]
        · have under : layerScore candidate ≤ layerScore top := le_of_not_ge below
          simp [below, under]
      | some current =>
        have same := lowRank current rfl
        simp only [latest]
        by_cases covered : layerScore current ≤ layerScore top
        · rw [if_pos covered]
          simp only [newer, older, above, decide_true, Bool.and_true]
          by_cases below : layerScore top ≤ layerScore candidate
          · have through := covered.trans below
            by_cases tie : layerScore candidate ≤ layerScore top
            · simp [below, tie, through]
            · simp [below, tie, through]
          · have under : layerScore candidate ≤ layerScore top := le_of_not_ge below
            by_cases through : layerScore current ≤ layerScore candidate
            · simp [below, through, under]
            · simp [below, through, covered]
        · rw [if_neg covered]
          simp only [newer, older, same, lt_irrefl, decide_false, Bool.and_false,
            Bool.false_eq_true, if_false]
          by_cases below : layerScore current ≤ layerScore candidate
          · have beyond : ¬layerScore candidate ≤ layerScore top := fun under =>
              covered (below.trans under)
            simp [below, beyond]
          · simp [below, covered]

/-- The rows of a layer after those of a higher one. -/
theorem foldl_considerLayer {rank : Nat} {candidates : List (Json × ReadLayer)}
    {low high : Option (Json × ReadLayer)} (ranked : ∀ candidate ∈ candidates, candidate.2.rank = rank)
    (lowRank : ∀ current ∈ low, current.2.rank = rank)
    (highRank : ∀ current ∈ high, rank < current.2.rank) :
    candidates.foldl (considerLayer config committedIndex) (latest layerScore low high) =
      latest layerScore (latest layerScore low (lastMax layerScore (candidates.filter fun candidate =>
        Collection.visibleDoc config committedIndex candidate.1))) high := by
  induction candidates generalizing low with
  | nil => rw [List.foldl_nil, List.filter_nil, lastMax, List.foldl_nil, latest_none]
  | cons candidate rest ih =>
    obtain ⟨first, later⟩ := List.forall_mem_cons.mp ranked
    rw [List.foldl_cons, considerLayer_latest (by rw [first]; exact lowRank)
      (by rw [first]; exact highRank), Option.filter_some, List.filter_cons]
    cases Collection.visibleDoc config committedIndex candidate.1 with
    | false =>
      rw [if_neg Bool.false_ne_true, if_neg Bool.false_ne_true, latest_none]
      exact ih later lowRank
    | true =>
      rw [if_pos rfl, if_pos rfl, lastMax_cons, ← latest_assoc]
      refine ih later fun current isCurrent => ?_
      rcases mem_latest isCurrent with old | own
      · exact lowRank current old
      · cases own
        exact first

theorem latest_map_fst (first second : Option (Json × ReadLayer)) :
    (latest layerScore first second).map Prod.fst =
      latest docScore (first.map Prod.fst) (second.map Prod.fst) := by
  cases first with
  | none => rfl
  | some a =>
    cases second with
    | none => rfl
    | some b =>
      by_cases below : layerScore a ≤ layerScore b
      · have same : docScore a.1 ≤ docScore b.1 := below
        rw [latest, if_pos below, Option.map_some, Option.map_some, latest, if_pos same]
      · have same : ¬docScore a.1 ≤ docScore b.1 := below
        rw [latest, if_neg below, Option.map_some, Option.map_some, latest, if_neg same]

theorem lastMax_map_fst (candidates : List (Json × ReadLayer)) :
    (lastMax layerScore candidates).map Prod.fst = lastMax docScore (candidates.map Prod.fst) := by
  induction candidates with
  | nil => rfl
  | cons candidate rest ih =>
    rw [lastMax_cons, latest_map_fst, ih, List.map_cons, lastMax_cons]
    rfl

theorem newestFound_ok {name : String} {rows : List Json} {low high : Option (Json × ReadLayer)}
    (body : s.dir.lookup name = some (.sst rows)) (verified : verifySst config rows = true)
    (indexable : IndexableFile layout config s id name)
    (lowRank : ∀ current ∈ low, current.2.rank = 0) (highRank : ∀ current ∈ high, 0 < current.2.rank) :
    s.newestFound layout config committedIndex id (latest layerScore low high) name =
      .ok (latest layerScore (latest layerScore low
        ((lastMax docScore (s.seekHits layout config committedIndex id name)).map fun doc =>
          (doc, ReadLayer.sst name))) high) := by
  rw [Collection.newestFound, seekDocInSSTById_ok body verified indexable]
  cases found : lastMax docScore (s.seekHits layout config committedIndex id name) with
  | none => rw [Option.map_none, latest_none]
  | some doc =>
    dsimp only
    rw [considerLayer_latest lowRank highRank, Option.filter_some, visible_of_lastMax found,
      if_pos rfl, Option.map_some]

theorem foldlM_newestFound {names : List String} {low high : Option (Json × ReadLayer)}
    (verified : Verified config s names) (indexable : IndexableHits layout config s names id)
    (lowRank : ∀ current ∈ low, current.2.rank = 0) (highRank : ∀ current ∈ high, 0 < current.2.rank) :
    ∃ newest, names.foldlM (s.newestFound layout config committedIndex id)
        (latest layerScore low high) = .ok newest ∧
      newest.map Prod.fst = latest docScore (latest docScore (low.map Prod.fst)
        (lastMax docScore (names.flatMap (s.seekHits layout config committedIndex id))))
          (high.map Prod.fst) := by
  induction names generalizing low with
  | nil =>
    refine ⟨_, rfl, ?_⟩
    rw [latest_map_fst, List.flatMap_nil, lastMax, List.foldl_nil, latest_none]
  | cons name rest ih =>
    obtain ⟨⟨rows, body, passes⟩, laterVerified⟩ := List.forall_mem_cons.mp verified
    obtain ⟨first, later⟩ := List.forall_mem_cons.mp indexable
    have nextRank : ∀ current ∈ latest layerScore low
        ((lastMax docScore (s.seekHits layout config committedIndex id name)).map fun doc =>
          (doc, ReadLayer.sst name)), current.2.rank = 0 := by
      intro current isCurrent
      rcases mem_latest isCurrent with old | own
      · exact lowRank current old
      · obtain ⟨doc, -, rfl⟩ := Option.mem_map.mp own
        rfl
    obtain ⟨newest, taken, isNewest⟩ := ih laterVerified later nextRank
    refine ⟨newest, ?_, ?_⟩
    · rw [List.foldlM_cons, newestFound_ok body passes first lowRank highRank]
      exact taken
    · have same : ((lastMax docScore (s.seekHits layout config committedIndex id name)).map fun doc =>
          (doc, ReadLayer.sst name)).map Prod.fst =
            lastMax docScore (s.seekHits layout config committedIndex id name) := by
        rw [Option.map_map]
        exact Option.map_id'
      rw [isNewest, latest_map_fst, same, List.flatMap_cons, lastMax_append, latest_assoc (low.map _)]

end Layers

/-! ## The three resolution orders -/

/-- A tombstone shows nothing. -/
def shown (chosen : Option Json) : Option Json := chosen.filter fun doc => !isDeletedDoc doc

section Orders

variable {s : Collection} {layout : SstLayout} {committedIndex : Nat} {id : String} {names : List String}

/-- The row of the id in the active memtable, if it is visible. -/
def Collection.activeHit (config : LsmConfig) (s : Collection) (committedIndex : Nat) (id : String) :
    Option Json :=
  (s.memtable.lookup id).filter (visibleDoc config committedIndex)

/-- The row of the first immutable memtable that holds the id, if it is visible. -/
def Collection.newestHit (config : LsmConfig) (s : Collection) (committedIndex : Nat) (id : String) :
    Option Json :=
  (s.immutableHits id).head?.filter (visibleDoc config committedIndex)

/-- The visible rows of the id in the other immutable memtables, newest first. -/
def Collection.olderHits (config : LsmConfig) (s : Collection) (committedIndex : Nat) (id : String) :
    List Json :=
  (s.immutableHits id).tail.filter (visibleDoc config committedIndex)

/-- The visible rows of the id in the published SSTs. -/
def Collection.sstHits (config : LsmConfig) (s : Collection) (committedIndex : Nat) (id : String)
    (names : List String) : List Json :=
  names.flatMap (s.fileHits config committedIndex id)

/-- Those that the seeks take. -/
def Collection.soughtHits (layout : SstLayout) (config : LsmConfig) (s : Collection)
    (committedIndex : Nat) (id : String) (names : List String) : List Json :=
  names.flatMap (s.seekHits layout config committedIndex id)

theorem memoryFound_eq : s.memoryFound config committedIndex id =
    latest docScore (s.activeHit config committedIndex id) (s.newestHit config committedIndex id) := by
  unfold Collection.memoryFound Collection.newestHit
  rw [← Collection.activeHit]
  cases (s.immutableHits id).head? with
  | none => exact (latest_none _).symm
  | some doc =>
    dsimp only
    rw [Option.filter_some]
    cases Collection.visibleDoc config committedIndex doc with
    | false =>
      rw [Bool.false_and, if_neg Bool.false_ne_true, if_neg Bool.false_ne_true, latest_none]
    | true =>
      rw [Bool.true_and, if_pos rfl]
      cases s.activeHit config committedIndex id with
      | none => rfl
      | some current =>
        dsimp only [latest]
        by_cases below : docScore current ≤ docScore doc
        · rw [if_pos (isCandidateNewer_iff.mpr below), if_pos below]
        · rw [if_neg fun newer => below (isCandidateNewer_iff.mp newer), if_neg below]

/-- What the scan of the SSTs in `findByField` is left with. -/
def Collection.sstFound (layout : SstLayout) (config : LsmConfig) (s : Collection)
    (committedIndex : Nat) (id : String) : Except String (Option Json) :=
  match publishedSsts config.codec s.dir with
  | .error reason => .error reason
  | .ok published => published.foldlM (s.latestFound layout config committedIndex id) none

/-- The choice of `findByField` between memory and the SSTs. -/
theorem findByField_latest : findByField layout config s committedIndex id =
    (s.sstFound layout config committedIndex id).map fun sst => (shown (latest docScore sst
      (latest docScore (s.activeHit config committedIndex id)
        (s.newestHit config committedIndex id)))).toList := by
  unfold findByField Collection.sstFound
  split
  · rfl
  · dsimp only
    split
    next failed => rw [failed, Except.map]
    next sst scanned =>
      rw [scanned, Except.map, memoryFound_eq]
      congr 2
      rw [shown]
      congr 1
      cases latest docScore (s.activeHit config committedIndex id)
          (s.newestHit config committedIndex id) with
      | none => exact (latest_none _).symm
      | some memory =>
        cases sst with
        | none => rfl
        | some found =>
          dsimp only [latest]
          by_cases below : docScore found ≤ docScore memory
          · rw [if_pos (isCandidateNewer_iff.mpr below), if_pos below]
          · rw [if_neg fun newer => below (isCandidateNewer_iff.mp newer), if_neg below]

theorem findByField_eq (published : publishedSsts config.codec s.dir = .ok names)
    (verified : Verified config s names) (indexable : IndexableHits layout config s names id) :
    findByField layout config s committedIndex id = .ok (shown (latest docScore
      (lastMax docScore (s.soughtHits layout config committedIndex id names))
      (latest docScore (s.activeHit config committedIndex id)
        (s.newestHit config committedIndex id)))).toList := by
  rw [findByField_latest, Collection.sstFound, published]
  dsimp only
  rw [foldlM_latestFound verified indexable]
  rfl

/-- What the strong read retains from memory. The immutable memtables are considered
newest first, so the oldest of equal scores is left. -/
theorem strongMemory_eq : ∃ memory,
    ((((s.memtable.lookup id).toList).map fun doc => (doc, ReadLayer.memtable)) ++
      (s.immutableHits id).map fun doc => (doc, ReadLayer.immutable)).foldl
        (considerLayer config committedIndex) none = memory ∧
    memory.map Prod.fst = latest docScore (lastMax docScore
      ((s.immutableHits id).filter (Collection.visibleDoc config committedIndex)))
        (s.activeHit config committedIndex id) ∧
    ∀ current ∈ memory, 0 < current.2.rank := by
  have active : (((s.memtable.lookup id).toList).map fun doc => (doc, ReadLayer.memtable)).foldl
      (considerLayer config committedIndex) none =
        (s.activeHit config committedIndex id).map fun doc => (doc, ReadLayer.memtable) := by
    rw [Collection.activeHit]
    cases s.memtable.lookup id with
    | none => rfl
    | some doc =>
      rw [Option.filter_some]
      change considerLayer config committedIndex none (doc, ReadLayer.memtable) = _
      unfold considerLayer
      cases Collection.visibleDoc config committedIndex doc <;> rfl
  have untagged : ((((s.immutableHits id).map fun doc => (doc, ReadLayer.immutable)).filter
      fun candidate => Collection.visibleDoc config committedIndex candidate.1).map Prod.fst) =
        (s.immutableHits id).filter (Collection.visibleDoc config committedIndex) := by
    rw [List.filter_map, List.map_map]
    exact List.map_id' _
  have memory := @foldl_considerLayer config committedIndex 1
    ((s.immutableHits id).map fun doc => (doc, ReadLayer.immutable)) none
    ((s.activeHit config committedIndex id).map fun doc => (doc, ReadLayer.memtable))
    (by simp [ReadLayer.rank]) (by simp) (by simp [ReadLayer.rank])
  rw [List.foldl_append, active]
  refine ⟨_, memory, ?_, ?_⟩
  · rw [latest_map_fst, latest_map_fst, lastMax_map_fst, untagged, Option.map_map]
    congr 1
    exact Option.map_id'
  · intro current isCurrent
    rcases mem_latest isCurrent with low | high
    · obtain ⟨held, -⟩ := List.mem_filter.mp (mem_of_lastMax low)
      obtain ⟨doc, -, rfl⟩ := List.mem_map.mp held
      exact Nat.zero_lt_one
    · obtain ⟨doc, -, rfl⟩ := Option.mem_map.mp high
      exact Nat.zero_lt_two

theorem findStrongSnapshotBound_eq (published : publishedSsts config.codec s.dir = .ok names)
    (verified : Verified config s names) (indexable : IndexableHits layout config s names id) :
    ∃ answer, findStrongSnapshotBound layout config s committedIndex id 0 = .ok answer ∧
      answer.documents = (shown (latest docScore
        (lastMax docScore (s.soughtHits layout config committedIndex id names))
        (latest docScore (lastMax docScore
          ((s.immutableHits id).filter (Collection.visibleDoc config committedIndex)))
            (s.activeHit config committedIndex id)))).toList ∧
      answer.found = !answer.documents.isEmpty := by
  obtain ⟨memory, start, memoryDoc, memoryRank⟩ := @strongMemory_eq config s committedIndex id
  obtain ⟨newest, taken, isNewest⟩ := @foldlM_newestFound config s layout committedIndex id names none
    memory verified indexable (by simp) memoryRank
  rw [memoryDoc] at isNewest
  have resolved : newest.map Prod.fst = latest docScore
      (lastMax docScore (s.soughtHits layout config committedIndex id names)) _ := isNewest
  have scanned : names.foldlM (s.newestFound layout config committedIndex id) memory = .ok newest :=
    taken
  rw [findStrongSnapshotBound, published]
  dsimp only
  rw [start, scanned, ← resolved]
  cases newest with
  | none => exact ⟨_, rfl, rfl, rfl⟩
  | some chosen =>
    refine ⟨_, rfl, ?_, ?_⟩
    · rw [strongResult, shown, Option.map_some, Option.filter_some]
      cases isDeletedDoc chosen.1 <;> rfl
    · rw [strongResult]
      cases isDeletedDoc chosen.1 <;> rfl

/-- Every document in memory is stored under its own id, as the callers of `LSM::put`
and `putMany` make sure. -/
structure KeyedMemory (config : LsmConfig) (s : Collection) : Prop where
  active : ∀ id doc, s.memtable.lookup id = some doc → rowKey config doc = some id
  immutable : ∀ immutable ∈ s.immutables, ∀ id doc, immutable.2.lookup id = some doc →
    rowKey config doc = some id

theorem rowsOf_append (rows others : List Json) :
    rowsOf config id (rows ++ others) = rowsOf config id rows ++ rowsOf config id others :=
  List.filter_append _ _

theorem filterMap_own {keys : List String} {doc : Json} (nodup : keys.Nodup) (member : id ∈ keys) :
    keys.filterMap (fun key => if key = id then some doc else none) = [doc] := by
  induction keys with
  | nil => cases member
  | cons key rest ih =>
    obtain ⟨fresh, later⟩ := List.nodup_cons.mp nodup
    rw [List.filterMap_cons]
    by_cases same : key = id
    · have gone : rest.filterMap (fun key => if key = id then some doc else none) = [] := by
        rw [List.filterMap_eq_nil_iff]
        intro other isOther
        rw [if_neg]
        rintro rfl
        exact fresh (same ▸ isOther)
      rw [if_pos same, gone]
    · rw [if_neg same]
      exact ih later ((List.mem_cons.mp member).resolve_left (Ne.symm same))

/-- A document with an id is stored under it. -/
def FiledById (config : LsmConfig) (table : Memtable) : Prop :=
  ∀ key doc, table.lookup key = some doc → ∀ id, rowKey config doc = some id → key = id

/-- A memtable has at most one row for an id. -/
theorem rowsOf_filed {table : Memtable} (filed : FiledById config table) :
    rowsOf config id table.rows =
      ((table.lookup id).filter fun doc => rowKey config doc = some id).toList := by
  have nodup : (sortNames table.keys).Nodup :=
    (pairwise_sortNames table.nodupKeys).imp fun below => below.ne
  have held : id ∈ sortNames table.keys ↔ (table.lookup id).isSome = true := by
    rw [mem_sortNames, ← AList.mem_keys, AList.lookup_isSome]
  have only : rowsOf config id table.rows = (sortNames table.keys).filterMap fun key =>
      if key = id then (table.lookup id).filter fun doc => rowKey config doc = some id else none := by
    rw [rowsOf, Memtable.rows, List.filter_filterMap]
    refine List.filterMap_congr fun key _ => ?_
    by_cases same : key = id
    · rw [if_pos same, same]
    · rw [if_neg same, Option.filter_eq_none_iff]
      intro doc found isKey
      exact same (filed key doc found id (of_decide_eq_true isKey))
  rw [only]
  cases found : (table.lookup id).filter fun doc => rowKey config doc = some id with
  | none => simp
  | some doc =>
    have some_ := Option.isSome_iff_exists.mpr ⟨doc, (Option.filter_eq_some_iff.mp found).1⟩
    exact filterMap_own nodup (held.mpr some_)

/-- A memtable has one row for an id that it holds. -/
theorem rowsOf_rows {table : Memtable}
    (keyed : ∀ id doc, table.lookup id = some doc → rowKey config doc = some id) :
    rowsOf config id table.rows = (table.lookup id).toList := by
  rw [rowsOf_filed fun key doc found other isKey => Option.some.inj ((keyed key doc found).symm.trans isKey)]
  cases found : table.lookup id with
  | none => rfl
  | some doc => rw [Option.filter_some, if_pos (decide_eq_true (keyed id doc found))]

theorem rowsOf_visibleRows (rows : List Json) :
    rowsOf config id (visibleRows config committedIndex rows) =
      (rowsOf config id rows).filter (Collection.visibleDoc config committedIndex) := by
  rw [rowsOf, visibleRows, List.filter_filter, rowsOf, List.filter_filter]
  refine List.filter_congr fun row _ => ?_
  rw [Bool.and_comm, Collection.visibleDoc]

/-- The visible rows of an id in memory, in the order of a scan. -/
theorem rowsOf_memoryRows (keyed : KeyedMemory config s) :
    (rowsOf config id s.memoryRows).filter (Collection.visibleDoc config committedIndex) =
      ((s.immutableHits id).filter (Collection.visibleDoc config committedIndex)).reverse ++
        (s.activeHit config committedIndex id).toList := by
  have immutables : ∀ tables : List (Nat × Memtable),
      (∀ immutable ∈ tables, ∀ id doc, immutable.2.lookup id = some doc →
        rowKey config doc = some id) →
      rowsOf config id (tables.flatMap fun immutable => Memtable.rows immutable.2) =
        tables.filterMap fun immutable => immutable.2.lookup id := by
    intro tables each
    induction tables with
    | nil => rfl
    | cons immutable rest ih =>
      obtain ⟨first, later⟩ := List.forall_mem_cons.mp each
      rw [List.flatMap_cons, rowsOf_append, rowsOf_rows first, ih later, List.filterMap_cons]
      cases immutable.2.lookup id <;> rfl
  rw [Collection.memoryRows, rowsOf_append, rowsOf_rows keyed.active, List.filter_append,
    immutables _ fun immutable member => keyed.immutable immutable (List.mem_reverse.mp member),
    List.filterMap_reverse, List.filter_reverse, ← Collection.immutableHits, Collection.activeHit]
  congr 1
  cases s.memtable.lookup id with
  | none => rfl
  | some doc =>
    rw [Option.filter_some, Option.toList_some, List.filter_cons]
    cases Collection.visibleDoc config committedIndex doc <;> rfl

/-- The visible rows of an id in the published SSTs, in the order of a scan. -/
theorem rowsOf_sstRows (verified : Verified config s names) :
    (rowsOf config id (names.flatMap (sstRows s.dir))).filter
      (Collection.visibleDoc config committedIndex) = s.sstHits config committedIndex id names := by
  induction names with
  | nil => rfl
  | cons name rest ih =>
    obtain ⟨⟨rows, body, passes⟩, later⟩ := List.forall_mem_cons.mp verified
    have own : sstRows s.dir name = rows := by rw [sstRows, body]
    obtain ⟨named, -⟩ := verifyRows_keys passes
    have same : rowsOf config id (sstRows s.dir name) =
        (sstRows s.dir name).filter fun row => sstKey config row = id := by
      rw [own, rowsOf]
      refine List.filter_congr fun row member => ?_
      obtain ⟨has, nonempty, -⟩ := named row member
      obtain ⟨key, known⟩ := Option.isSome_iff_exists.mp has
      have isKey : sstKey config row = key := by rw [sstKey, known]; rfl
      rw [isKey] at nonempty ⊢
      have isRowKey : rowKey config row = some key := by
        rw [rowKey, known, Option.filter_some, if_pos (decide_eq_true nonempty)]
      rw [isRowKey]
      simp
    rw [List.flatMap_cons, rowsOf_append, List.filter_append, ih later, same]
    unfold Collection.sstHits
    rw [List.flatMap_cons]
    rfl

/-- The visible rows of the id in all layers, in the order of a scan. -/
def Collection.hits (config : LsmConfig) (s : Collection) (committedIndex : Nat) (id : String)
    (names : List String) : List Json :=
  s.sstHits config committedIndex id names ++
    (((s.immutableHits id).filter (visibleDoc config committedIndex)).reverse ++
      (s.activeHit config committedIndex id).toList)

theorem lastMax_toList (found : Option Json) : lastMax docScore found.toList = found := by
  cases found <;> rfl

/-- The document a scan shows for an id. -/
theorem mem_latestDocs_key {rows : List Json} {doc : Json} :
    (doc ∈ latestDocs config rows ∧ rowKey config doc = some id) ↔
      shown (lastMax docScore (rowsOf config id rows)) = some doc := by
  rw [mem_latestDocs, shown, Option.filter_eq_some_iff]
  constructor
  · rintro ⟨⟨alive, ⟨noKey, -⟩ | ⟨other, won⟩⟩, isKey⟩
    · rw [isKey] at noKey
      cases noKey
    · obtain ⟨-, otherKey⟩ := rowKey_of_lastMax won
      cases isKey.symm.trans otherKey
      exact ⟨won, by rw [alive]; rfl⟩
  · rintro ⟨won, alive⟩
    obtain ⟨-, isKey⟩ := rowKey_of_lastMax won
    exact ⟨⟨by simpa using alive, .inr ⟨id, won⟩⟩, isKey⟩

/-- The documents `getAll` has for an id. -/
theorem mem_getAll_iff {docs : List Json} {doc : Json} (keyed : KeyedMemory config s)
    (published : publishedSsts config.codec s.dir = .ok names) (verified : Verified config s names)
    (reads : readAllCollectionRows config s committedIndex = .ok docs) :
    (doc ∈ docs ∧ rowKey config doc = some id) ↔
      shown (lastMax docScore (s.hits config committedIndex id names)) = some doc := by
  obtain ⟨others, samePublished, -, rfl⟩ := readAllCollectionRows_ok.mp reads
  cases published.symm.trans samePublished
  have rows : rowsOf config id (visibleRows config committedIndex
      ((names.map fun name => (name, sstRows s.dir name)).flatMap Prod.snd ++ s.memoryRows)) =
        s.hits config committedIndex id names := by
    rw [flatMap_scanned, rowsOf_visibleRows, rowsOf_append, List.filter_append,
      rowsOf_sstRows verified, rowsOf_memoryRows keyed, Collection.hits]
  rw [mem_latestDocs_key, rows]

/-! ## When they agree -/

/-- The chosen row scores no less than any of the rows. -/
def Leads (hits : List Json) (chosen : Option Json) : Prop :=
  ∀ row ∈ hits, ∃ doc ∈ chosen, docScore row ≤ docScore doc

/-- Both point reads answer, and their answer is the document of the id in `docs`. -/
def PointReadsAgree (layout : SstLayout) (config : LsmConfig) (s : Collection)
    (committedIndex : Nat) (id : String) (docs : List Json) : Prop :=
  ∃ found : Option Json,
    findByField layout config s committedIndex id = .ok found.toList ∧
    (∃ answer, findStrongSnapshotBound layout config s committedIndex id 0 = .ok answer ∧
      answer.documents = found.toList ∧ answer.found = found.isSome) ∧
    ∀ doc, (doc ∈ docs ∧ rowKey config doc = some id) ↔ found = some doc

/-- The rows of the id that the seeks take and those in memory, in the order of a scan. -/
def Collection.readHits (layout : SstLayout) (config : LsmConfig) (s : Collection)
    (committedIndex : Nat) (id : String) (names : List String) : List Json :=
  s.soughtHits layout config committedIndex id names ++
    (((s.immutableHits id).filter (visibleDoc config committedIndex)).reverse ++
      (s.activeHit config committedIndex id).toList)

/-- The condition on the layers. -/
structure PointReadsSettled (layout : SstLayout) (config : LsmConfig) (s : Collection)
    (committedIndex : Nat) (id : String) (names : List String) : Prop where
  /-- A view can index every row of the id in the published binary SSTs. -/
  indexable : IndexableHits layout config s names id
  /-- Where a scan without the rows that the seeks pass over in text SSTs ends with another row, the
  rows that each read considers show the same all the same. -/
  seeks : lastMax docScore (s.readHits layout config committedIndex id names) ≠
      lastMax docScore (s.hits config committedIndex id names) →
    shown (lastMax docScore (s.soughtHits layout config committedIndex id names ++
        ((s.activeHit config committedIndex id).toList ++
          (s.newestHit config committedIndex id).toList))) =
      shown (lastMax docScore (s.hits config committedIndex id names)) ∧
    shown (lastMax docScore (s.soughtHits layout config committedIndex id names ++
        ((s.immutableHits id).filter (Collection.visibleDoc config committedIndex) ++
          (s.activeHit config committedIndex id).toList))) =
      shown (lastMax docScore (s.hits config committedIndex id names))
  /-- The active memtable and the first immutable memtable that holds the id do not
  both have a row of greatest score, unless the two show the same. -/
  activeTie : Leads (s.hits config committedIndex id names) (s.activeHit config committedIndex id) →
    Leads (s.hits config committedIndex id names) (s.newestHit config committedIndex id) →
    shown (s.newestHit config committedIndex id) = shown (s.activeHit config committedIndex id)
  /-- A greatest score that memory reaches in older immutable memtables only is not
  missed: the other layers show the same. -/
  olderImmutables : Leads (s.hits config committedIndex id names)
      (lastMax docScore (s.olderHits config committedIndex id).reverse) →
    ¬Leads (s.hits config committedIndex id names) (s.activeHit config committedIndex id) →
    ¬Leads (s.hits config committedIndex id names) (s.newestHit config committedIndex id) →
    shown (lastMax docScore (s.soughtHits layout config committedIndex id names ++
      ((s.activeHit config committedIndex id).toList ++
        (s.newestHit config committedIndex id).toList))) =
      shown (lastMax docScore (s.olderHits config committedIndex id).reverse)
  /-- Immutable memtables whose rows decide and tie show the same in the newest and in
  the oldest of them. -/
  immutableTie : Leads (s.hits config committedIndex id names) (lastMax docScore
      ((s.immutableHits id).filter (Collection.visibleDoc config committedIndex)).reverse) →
    ¬Leads (s.hits config committedIndex id names) (s.activeHit config committedIndex id) →
    shown (lastMax docScore
        ((s.immutableHits id).filter (Collection.visibleDoc config committedIndex))) =
      shown (lastMax docScore
        ((s.immutableHits id).filter (Collection.visibleDoc config committedIndex)).reverse)

end Orders

/-! ## Biased maxima -/

section Biased

variable {α σ : Type} [LinearOrder σ] {score : α → σ}

variable {β : Type} {shows : Option α → β} {sst older newest active : Option α}

/-- The newest of the immutable rows overlaid on the active one, and the older ones
not asked, against the whole overlay. -/
theorem shows_latest_iff {best : Option α}
    (whole : best = latest score (latest score (latest score sst older) newest) active) :
    shows (latest score sst (latest score active newest)) = shows best ↔
      (optScore score best ≤ optScore score active → optScore score best ≤ optScore score newest →
        shows newest = shows active) ∧
      (optScore score best ≤ optScore score older → ¬optScore score best ≤ optScore score active →
        ¬optScore score best ≤ optScore score newest →
        shows (latest score sst (latest score active newest)) = shows older) := by
  have top : optScore score best = max (max (max (optScore score sst) (optScore score older))
      (optScore score newest)) (optScore score active) := by
    rw [whole, optScore_latest, optScore_latest, optScore_latest]
  have underBest : optScore score sst ≤ optScore score best ∧
      optScore score older ≤ optScore score best ∧ optScore score newest ≤ optScore score best ∧
        optScore score active ≤ optScore score best := by
    rw [top]
    simp
  obtain ⟨sstUnder, olderUnder, newestUnder, activeUnder⟩ := underBest
  by_cases activeTop : optScore score best ≤ optScore score active
  · have isActive : best = active := by
      rw [whole, latest_eq_ite, optScore_latest, optScore_latest, if_pos]
      exact max_le (max_le (sstUnder.trans activeTop) (olderUnder.trans activeTop))
        (newestUnder.trans activeTop)
    by_cases newestTop : optScore score best ≤ optScore score newest
    · have memory : latest score active newest = newest := by
        rw [latest_eq_ite, if_pos (activeUnder.trans newestTop)]
      have answer : latest score sst newest = newest := by
        rw [latest_eq_ite, if_pos (sstUnder.trans newestTop)]
      rw [memory, answer]
      constructor
      · intro same
        exact ⟨fun _ _ => same.trans (congrArg shows isActive), fun _ other => absurd activeTop other⟩
      · rintro ⟨tie, -⟩
        exact (tie activeTop newestTop).trans (congrArg shows isActive.symm)
    · have memory : latest score active newest = active := by
        rw [latest_eq_ite, if_neg fun below => newestTop (activeTop.trans below)]
      have answer : latest score sst active = active := by
        rw [latest_eq_ite, if_pos (sstUnder.trans activeTop)]
      rw [memory, answer]
      exact iff_of_true (congrArg shows isActive.symm)
        ⟨fun _ other => absurd other newestTop, fun _ other => absurd activeTop other⟩
  · have notActive : best = latest score (latest score sst older) newest := by
      rw [whole, latest_eq_ite, if_neg]
      intro below
      apply activeTop
      rw [optScore_latest, optScore_latest] at below
      rw [top]
      exact max_le below le_rfl
    by_cases newestTop : optScore score best ≤ optScore score newest
    · have isNewest : best = newest := by
        rw [notActive, latest_eq_ite, optScore_latest, if_pos]
        exact max_le (sstUnder.trans newestTop) (olderUnder.trans newestTop)
      have memory : latest score active newest = newest := by
        rw [latest_eq_ite, if_pos (activeUnder.trans newestTop)]
      have answer : latest score sst newest = newest := by
        rw [latest_eq_ite, if_pos (sstUnder.trans newestTop)]
      rw [memory, answer]
      exact iff_of_true (congrArg shows isNewest.symm)
        ⟨fun other => absurd other activeTop, fun _ _ other => absurd newestTop other⟩
    · have notNewest : best = latest score sst older := by
        rw [notActive, latest_eq_ite, if_neg]
        intro below
        apply newestTop
        rw [notActive, optScore_latest]
        exact max_le below le_rfl
      by_cases olderTop : optScore score best ≤ optScore score older
      · have isOlder : best = older := by
          rw [notNewest, latest_eq_ite, if_pos (sstUnder.trans olderTop)]
        constructor
        · intro same
          exact ⟨fun other => absurd other activeTop,
            fun _ _ _ => same.trans (congrArg shows isOlder)⟩
        · rintro ⟨-, missed⟩
          exact (missed olderTop activeTop newestTop).trans (congrArg shows isOlder.symm)
      · have isSst : best = sst := by
          rw [notNewest, latest_eq_ite, if_neg]
          intro below
          apply olderTop
          rw [notNewest, optScore_latest]
          exact max_le below le_rfl
        have answer : latest score sst (latest score active newest) = sst := by
          rw [latest_eq_ite, if_neg]
          intro below
          rw [optScore_latest, le_max_iff, ← isSst] at below
          exact below.elim activeTop newestTop
        rw [answer]
        exact iff_of_true (congrArg shows isSst.symm)
          ⟨fun other => absurd other activeTop, fun other => absurd other olderTop⟩

/-- Two orders of the immutable rows under the same active row. -/
theorem shows_latest_tie_iff {best first last : Option α}
    (whole : best = latest score sst (latest score first active))
    (tied : optScore score last = optScore score first) :
    shows (latest score sst (latest score last active)) = shows best ↔
      (optScore score best ≤ optScore score first → ¬optScore score best ≤ optScore score active →
        shows last = shows first) := by
  have top : optScore score best =
      max (optScore score sst) (max (optScore score first) (optScore score active)) := by
    rw [whole, optScore_latest, optScore_latest]
  have underBest : optScore score sst ≤ optScore score best ∧
      optScore score first ≤ optScore score best ∧ optScore score active ≤ optScore score best := by
    rw [top]
    simp
  obtain ⟨sstUnder, firstUnder, activeUnder⟩ := underBest
  by_cases activeTop : optScore score best ≤ optScore score active
  · have memory : latest score last active = latest score first active := by
      have under := firstUnder.trans activeTop
      rw [latest_eq_ite, latest_eq_ite, tied, if_pos under, if_pos under]
    rw [memory, ← whole]
    exact iff_of_true rfl fun _ other => absurd activeTop other
  · by_cases firstTop : optScore score best ≤ optScore score first
    · have beyond : ¬optScore score first ≤ optScore score active := fun below =>
        activeTop (firstTop.trans below)
      have memory : latest score last active = last := by
        rw [latest_eq_ite, tied, if_neg beyond]
      have isFirst : best = first := by
        have inner : latest score first active = first := by rw [latest_eq_ite, if_neg beyond]
        rw [whole, inner, latest_eq_ite, if_pos (sstUnder.trans firstTop)]
      have answer : latest score sst last = last := by
        rw [latest_eq_ite, tied, if_pos (sstUnder.trans firstTop)]
      rw [memory, answer]
      constructor
      · intro same _ _
        exact same.trans (congrArg shows isFirst)
      · intro tie
        exact (tie firstTop activeTop).trans (congrArg shows isFirst.symm)
    · have sstTop : optScore score best = optScore score sst := by
        rcases max_cases (optScore score sst) (max (optScore score first) (optScore score active)) with
          ⟨isSst, -⟩ | ⟨isMemory, -⟩
        · rw [top, isSst]
        · have memoryTop : optScore score best ≤
              max (optScore score first) (optScore score active) := by
            rw [top, isMemory]
          exact ((le_max_iff.mp memoryTop).elim firstTop activeTop).elim
      have above : ¬optScore score sst ≤ max (optScore score first) (optScore score active) := by
        rw [← sstTop, le_max_iff]
        exact fun below => below.elim firstTop activeTop
      have answer : latest score sst (latest score last active) = best := by
        rw [whole, latest_eq_ite, latest_eq_ite sst, optScore_latest, optScore_latest, tied,
          if_neg above, if_neg above]
      rw [answer]
      exact iff_of_true rfl fun other => absurd other firstTop

end Biased

/-! ## The point reads and the scan -/

section Agreement

variable {s : Collection} {layout : SstLayout} {committedIndex : Nat} {id : String} {names : List String}

theorem leads_iff {hits : List Json} {chosen : Option Json} : Leads hits chosen ↔
    optScore docScore (lastMax docScore hits) ≤ optScore docScore chosen := by
  rw [optScore_lastMax_le_iff]
  refine forall₂_congr fun row _ => ?_
  cases chosen with
  | none => exact iff_of_false (fun ⟨_, held, _⟩ => by cases held) (WithBot.not_coe_le_bot _)
  | some doc =>
    rw [optScore, WithBot.coe_le_coe]
    simp

/-- A scan as an overlay of the four groups of rows that `findByField` tells apart. -/
theorem lastMax_overlay (rows : List Json) : lastMax docScore (rows ++
    (((s.immutableHits id).filter (Collection.visibleDoc config committedIndex)).reverse ++
      (s.activeHit config committedIndex id).toList)) =
    latest docScore (latest docScore (latest docScore (lastMax docScore rows)
      (lastMax docScore (s.olderHits config committedIndex id).reverse))
      (s.newestHit config committedIndex id)) (s.activeHit config committedIndex id) := by
  have immutables : ((s.immutableHits id).filter
      (Collection.visibleDoc config committedIndex)).reverse =
        (s.olderHits config committedIndex id).reverse ++
          (s.newestHit config committedIndex id).toList := by
    rw [Collection.olderHits, Collection.newestHit]
    cases s.immutableHits id with
    | nil => rfl
    | cons newest older =>
      rw [List.filter_cons, List.head?_cons, List.tail_cons, Option.filter_some]
      cases Collection.visibleDoc config committedIndex newest with
      | false => simp
      | true => simp
  rw [immutables, lastMax_append, lastMax_append, lastMax_append, lastMax_toList,
    lastMax_toList, latest_assoc, latest_assoc, latest_assoc]

/-- The same overlay without the older immutable memtables. -/
theorem lastMax_newestHits (rows : List Json) : lastMax docScore (rows ++
    ((s.activeHit config committedIndex id).toList ++ (s.newestHit config committedIndex id).toList)) =
    latest docScore (lastMax docScore rows)
      (latest docScore (s.activeHit config committedIndex id) (s.newestHit config committedIndex id)) := by
  rw [lastMax_append, lastMax_append, lastMax_toList, lastMax_toList]

theorem optScore_lastMax_mono {rows others : List Json} (subset : rows ⊆ others) :
    optScore docScore (lastMax docScore rows) ≤ optScore docScore (lastMax docScore others) :=
  optScore_lastMax_le_iff.mpr fun _ member => optScore_lastMax_le_iff.mp le_rfl _ (subset member)

/-- Where a row in memory leads, it does not matter what the seeks pass over. -/
theorem readHits_of_leads {rows : List Json}
    (leads : Leads (s.hits config committedIndex id names) (lastMax docScore rows))
    (inMemory : rows ⊆ ((s.immutableHits id).filter (Collection.visibleDoc config committedIndex)).reverse ++
      (s.activeHit config committedIndex id).toList) :
    lastMax docScore (s.readHits layout config committedIndex id names) =
      lastMax docScore (s.hits config committedIndex id names) := by
  have top := (leads_iff.mp leads).trans (optScore_lastMax_mono inMemory)
  have sought : optScore docScore (lastMax docScore (s.soughtHits layout config committedIndex id names)) ≤
      optScore docScore (lastMax docScore (s.sstHits config committedIndex id names)) := by
    apply optScore_lastMax_mono
    intro row member
    obtain ⟨name, isName, hit⟩ := List.mem_flatMap.mp member
    exact List.mem_flatMap.mpr ⟨name, isName, seekHits_subset hit⟩
  rw [Collection.readHits]
  rw [Collection.hits] at top ⊢
  generalize ((s.immutableHits id).filter (Collection.visibleDoc config committedIndex)).reverse ++
    (s.activeHit config committedIndex id).toList = memory at top ⊢
  rw [lastMax_append, optScore_latest] at top
  have sstUnder := (le_max_left _ _).trans top
  rw [lastMax_append, lastMax_append, latest_eq_ite, latest_eq_ite, if_pos (sought.trans sstUnder),
    if_pos sstUnder]

/-- Where the layers are settled, `findByField` shows the row that the scan shows. -/
theorem findByField_of_settled (published : publishedSsts config.codec s.dir = .ok names)
    (verified : Verified config s names)
    (settled : PointReadsSettled layout config s committedIndex id names) :
    findByField layout config s committedIndex id =
      .ok (shown (lastMax docScore (s.hits config committedIndex id names))).toList := by
  obtain ⟨indexable, seeks, activeTie, missed, -⟩ := settled
  rw [findByField_eq published verified indexable]
  by_cases covered : lastMax docScore (s.readHits layout config committedIndex id names) =
      lastMax docScore (s.hits config committedIndex id names)
  · simp only [leads_iff, lastMax_newestHits] at activeTie missed
    rw [(shows_latest_iff (covered.symm.trans (lastMax_overlay _))).mpr ⟨activeTie, missed⟩]
  · rw [← lastMax_newestHits, (seeks covered).1]

/-- The rows that the two point reads consider show what the scan shows exactly when the layers are
settled for the id. -/
theorem shows_iff_settled (indexable : IndexableHits layout config s names id) :
    shown (latest docScore (lastMax docScore (s.soughtHits layout config committedIndex id names))
        (latest docScore (s.activeHit config committedIndex id)
          (s.newestHit config committedIndex id))) =
      shown (lastMax docScore (s.hits config committedIndex id names)) ∧
    shown (latest docScore (lastMax docScore (s.soughtHits layout config committedIndex id names))
        (latest docScore (lastMax docScore
          ((s.immutableHits id).filter (Collection.visibleDoc config committedIndex)))
            (s.activeHit config committedIndex id))) =
      shown (lastMax docScore (s.hits config committedIndex id names)) ↔
    PointReadsSettled layout config s committedIndex id names := by
  by_cases covered : lastMax docScore (s.readHits layout config committedIndex id names) =
      lastMax docScore (s.hits config committedIndex id names)
  · have strongWhole : lastMax docScore (s.hits config committedIndex id names) =
        latest docScore (lastMax docScore (s.soughtHits layout config committedIndex id names))
          (latest docScore (lastMax docScore
            ((s.immutableHits id).filter (Collection.visibleDoc config committedIndex)).reverse)
              (s.activeHit config committedIndex id)) := by
      rw [← covered, Collection.readHits, lastMax_append, lastMax_append, lastMax_toList]
    rw [shows_latest_iff (covered.symm.trans (lastMax_overlay _)),
      shows_latest_tie_iff strongWhole (optScore_lastMax_reverse _).symm]
    constructor
    · rintro ⟨⟨activeTie, missed⟩, immutableTie⟩
      constructor
      · exact indexable
      · exact fun uncovered => absurd covered uncovered
      · simpa only [leads_iff] using activeTie
      · simpa only [leads_iff, lastMax_newestHits] using missed
      · simpa only [leads_iff] using immutableTie
    · rintro ⟨-, -, activeTie, missed, immutableTie⟩
      simp only [leads_iff, lastMax_newestHits] at activeTie missed immutableTie
      exact ⟨⟨activeTie, missed⟩, immutableTie⟩
  · constructor
    · rintro ⟨sameField, sameStrong⟩
      refine ⟨indexable, fun _ => ⟨?_, ?_⟩, fun active => ?_, fun older => ?_, fun immutables => ?_⟩
      · rw [lastMax_newestHits, sameField]
      · rw [lastMax_append, lastMax_append, lastMax_toList, sameStrong]
      · rw [← lastMax_toList (s.activeHit config committedIndex id)] at active
        exact absurd (readHits_of_leads active (List.subset_append_right ..)) covered
      · refine absurd (readHits_of_leads older fun row member => List.mem_append_left _ ?_) covered
        rw [List.mem_reverse, Collection.olderHits] at member
        rw [List.mem_reverse]
        exact ((List.tail_sublist _).filter _).subset member
      · exact absurd (readHits_of_leads immutables (List.subset_append_left ..)) covered
    · intro settled
      obtain ⟨field, strong⟩ := settled.seeks covered
      rw [lastMax_newestHits] at field
      rw [lastMax_append, lastMax_append, lastMax_toList] at strong
      exact ⟨field, strong⟩

/-- Both point reads answer as `getAll` does exactly when the layers are settled for
the id. -/
theorem pointReads_agree_iff {docs : List Json} (keyed : KeyedMemory config s)
    (published : publishedSsts config.codec s.dir = .ok names) (verified : Verified config s names)
    (reads : readAllCollectionRows config s committedIndex = .ok docs) :
    PointReadsAgree layout config s committedIndex id docs ↔
      PointReadsSettled layout config s committedIndex id names := by
  by_cases indexable : IndexableHits layout config s names id
  · have byField : findByField layout config s committedIndex id = _ :=
      findByField_eq published verified indexable
    obtain ⟨answer, isAnswer, isDocuments, isFound⟩ :=
      @findStrongSnapshotBound_eq config s layout committedIndex id names published verified indexable
    have scanned : ∀ doc, (doc ∈ docs ∧ rowKey config doc = some id) ↔
        shown (lastMax docScore (s.hits config committedIndex id names)) = some doc := fun doc =>
      mem_getAll_iff keyed published verified reads
    rw [← shows_iff_settled indexable]
    constructor
    · rintro ⟨found, isField, ⟨strong, isStrong, documents, -⟩, getAll⟩
      have isFound : found = shown (lastMax docScore (s.hits config committedIndex id names)) :=
        Option.ext fun doc => (getAll doc).symm.trans (scanned doc)
      cases isAnswer.symm.trans isStrong
      have sameField := Except.ok.inj (byField.symm.trans isField)
      have sameStrong := isDocuments.symm.trans documents
      rw [← isFound]
      have injective : ∀ first second : Option Json, first.toList = second.toList →
          first = second := by
        intro first second same
        rw [← @Option.head?_toList _ first, same, Option.head?_toList]
      exact ⟨injective _ _ sameField, injective _ _ sameStrong⟩
    · rintro ⟨sameField, sameStrong⟩
      refine ⟨shown (lastMax docScore (s.hits config committedIndex id names)), ?_,
        ⟨answer, isAnswer, ?_, ?_⟩, scanned⟩
      · rw [byField, sameField]
      · rw [isDocuments, sameStrong]
      · rw [isFound, isDocuments, sameStrong]
        cases shown (lastMax docScore (s.hits config committedIndex id names)) <;> rfl
  · refine iff_of_false ?_ fun settled => indexable settled.indexable
    rintro ⟨found, byField, -⟩
    obtain ⟨reason, failed⟩ := @foldlM_latestFound_error config s layout committedIndex id names none
      verified indexable
    rw [findByField, published] at byField
    dsimp only at byField
    rw [failed] at byField
    cases byField

end Agreement

/-! ## A tie between two memtables -/

/-- One block for each row, no bloom filters. -/
def rowBlocks : SstLayout where
  blocks rows := rows.map fun row => [row]
  flatten_blocks rows := by
    induction rows with
    | nil => rfl
    | cons row rest ih => rw [List.map_cons, List.flatten_cons, ih]; rfl
  blocks_ne_nil rows block member := by
    obtain ⟨row, -, rfl⟩ := List.mem_map.mp member
    exact List.cons_ne_nil _ _
  format _ := .binary false

/-- A document without a version. -/
def plainDoc (x : Int) : Json := .object [("id", .string "a"), ("x", .integer x)]

/-- The document was written, swapped out by a flush that did not finish, and written
again. -/
def rewrittenDuringFlush : Collection where
  memtable := (∅ : Memtable).insert "a" (plainDoc 2)
  immutables := [(0, (∅ : Memtable).insert "a" (plainDoc 1))]
  nextHandle := 1

/-- `findByField` answers with the older document. -/
theorem pointReads_disagree :
    readAllCollectionRows standalone rewrittenDuringFlush 0 = .ok [plainDoc 2] ∧
      findByField rowBlocks standalone rewrittenDuringFlush 0 "a" = .ok [plainDoc 1] ∧
      ¬PointReadsAgree rowBlocks standalone rewrittenDuringFlush 0 "a" [plainDoc 2] := by
  have field : findByField rowBlocks standalone rewrittenDuringFlush 0 "a" = .ok [plainDoc 1] := by
    rfl
  refine ⟨by rfl, field, ?_⟩
  rintro ⟨found, isField, -, getAll⟩
  have isFound : found = some (plainDoc 2) := (getAll (plainDoc 2)).mp ⟨.head _, rfl⟩
  rw [field, isFound] at isField
  cases isField

/-- All SSTs are text, without sidecars. -/
def textLines : SstLayout :=
  { rowBlocks with format := fun _ => .text { mayExist := fun _ => true, sparseIndex := none } }

/-- `dump` on integers. -/
def integerDump : LsmConfig :=
  { standalone with dump := fun | .integer value => toString value | _ => "" }

def numberedRow : Json := .object [("id", .integer 5)]

/-- A document in the active memtable, with an older row of it in a text SST behind one that seeks
pass over. -/
def oneActive : Collection where
  memtable := (∅ : Memtable).insert "a" (plainDoc 2)
  dir := (∅ : LsmDir).insert "1_0.sst" (.sst [numberedRow, plainDoc 1])

theorem pointReads_agree_active :
    PointReadsAgree textLines integerDump oneActive 0 "a" [numberedRow, plainDoc 2] := by
  have leads : Leads (oneActive.hits integerDump 0 "a" ["1_0.sst"]) (oneActive.activeHit integerDump 0 "a") := by
    intro row member
    rcases List.mem_cons.mp member with rfl | last
    · exact ⟨plainDoc 2, rfl, le_rfl⟩
    · rw [List.mem_singleton.mp last]
      exact ⟨plainDoc 2, rfl, le_rfl⟩
  refine (@pointReads_agree_iff integerDump oneActive textLines 0 "a" ["1_0.sst"]
    [numberedRow, plainDoc 2] ?_ rfl ?_ rfl).mpr ?_
  · refine ⟨fun id doc found => ?_, fun immutable member => (by cases member)⟩
    by_cases own : id = "a"
    · subst own
      cases found
      rfl
    · rw [oneActive, AList.lookup_insert_ne own] at found
      cases found
  · intro name member
    rw [List.mem_singleton.mp member]
    exact ⟨[numberedRow, plainDoc 1], rfl, rfl⟩
  · refine ⟨fun _ _ absurd => (by cases absurd), fun different => absurd rfl different, ?_,
      fun _ other => absurd leads other, fun _ other => absurd leads other⟩
    intro _ noNewest
    obtain ⟨doc, held, -⟩ := noNewest (plainDoc 2) (.tail _ (.head _))
    cases held

end PacificDb.Lsm
