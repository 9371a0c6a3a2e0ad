import PacificDb.Lib.LastMax
import PacificDb.Lib.SortedBlocks
import PacificDb.Sst.RoundTrip

/-!
# Looking a row up in an SST

`findInSst` goes to the first block that does not end before the id, and reads on while
the blocks do not start behind it; within a block it stops behind the id. Of the rows
with the id that its caller accepts it keeps the one of the greatest version, and of
these the last.

That is what a scan over all rows would keep (`findsReference_iff`), unless the index of
the file is one that `loadMetadata` refuses, or a row that nests so deep that its view shows
no version would have come out otherwise with the version it has.
-/

namespace PacificDb.Sst

open Lib
open Lsm hiding MsgpackRowView scanSst verifySst verifyRows idText

variable {lib : JsonLibrary} {lz4 : Lz4}

/-! ## The code -/

/-- `rowVersion`: the first member that has a version. -/
def rowVersion (lib : JsonLibrary) (view : MsgpackRowView) : Option Int :=
  versionFields.findSome? fun name => view.field lib name >>= versionOf?

/-- The id of a row, decoded whole if its view does not show one. -/
def rowKey (lib : JsonLibrary) (row : Bytes) : Except String Bytes :=
  match MsgpackRowView.field lib ⟨row, true⟩ "id" with
  | some idValue => .ok (utf8 (idText lib idValue))
  | none => (materialize lib row).map fun value => utf8 (rowId lib value)

/-- Whether a row of this version replaces the one found before it. -/
def replaces (version newestVersion : Option Int) : Bool :=
  (match version, newestVersion with
    | some version, some newest => decide (newest ≤ version)
    | _, _ => false) ||
  (version.isSome != newestVersion.isSome && version.isSome) || version == newestVersion

/-- The row found so far, and its version. -/
abbrev Found := Option (Json × Option Int)

/-- Whether a row of this version is taken. -/
def better (version : Option Int) : Found → Bool
  | none => true
  | some (_, newestVersion) => replaces version newestVersion

/-- A row of a block: what is found with it, and whether the block goes on. -/
def considerRow (lib : JsonLibrary) (eligible : MsgpackRowView → Bool) (id : Bytes) (found : Found)
    (row : Bytes) : Except String (Found × Bool) := do
  let key ← rowKey lib row
  if key = id ∧ eligible ⟨row, true⟩ = true then
    let version := rowVersion lib ⟨row, true⟩
    if better version found then
      let value ← materialize lib row
      return (some (value, version), decide (key ≤ id))
    else return (found, decide (key ≤ id))
  else return (found, decide (key ≤ id))

/-- `visitBlockRows` with a visitor that may stop. -/
def foldBlockRows {σ : Type} (visit : σ → Bytes → Except String (σ × Bool)) :
    Nat → Bytes → σ → Except String σ
  | 0, plain, state => if plain.isEmpty then .ok state else .error "trailing bytes in SST block"
  | count + 1, plain, state =>
      match readRow plain with
      | none => .error "invalid SST row length"
      | some (row, rest) => do
          let (next, goOn) ← visit state row
          if goOn then foldBlockRows visit count rest next else return next

/-- One block of the loop of `findInSst`. -/
def visitBlock (lib : JsonLibrary) (lz4 : Lz4) (eligible : MsgpackRowView → Bool) (file id : Bytes)
    (found : Found) (block : BlockIndexEntry) : Except String Found := do
  let (plain, count) ← readBlockPayload lz4 file block
  foldBlockRows (considerRow lib eligible id) count plain found

/-- `findInSst`. -/
def findInSst (lib : JsonLibrary) (lz4 : Lz4) (eligible : MsgpackRowView → Bool) (file id : Bytes) :
    Except String (Option Json) := do
  let blocks ← loadMetadata file
  let found ← (seekBlocks BlockIndexEntry.firstKey BlockIndexEntry.lastKey id blocks).foldlM
    (visitBlock lib lz4 eligible file id) none
  return found.map Prod.fst

/-! ## The reference -/

/-- Rows without a version stand below all others. -/
def versionRank : Option Int → WithBot Int
  | none => ⊥
  | some version => (version : WithBot Int)

/-- A row as a lookup sees it. -/
def rowView (lib : JsonLibrary) (row : Json) : MsgpackRowView := ⟨writeMsgpack lib row, true⟩

/-- The version a row has among its members. -/
def ownRank (row : Json) : WithBot Int := versionRank (extractDocVersionScore row)

/-- The version its view shows. -/
def viewRank (lib : JsonLibrary) (row : Json) : WithBot Int :=
  versionRank (rowVersion lib (rowView lib row))

/-- The rows with the id that are eligible. -/
def candidates (lib : JsonLibrary) (eligible : MsgpackRowView → Bool) (rows : List Json) (id : Bytes) :
    List Json :=
  (rows.filter fun row => utf8 (rowId lib row) = id).filter fun row => eligible (rowView lib row)

/-- Among all rows with the id that are eligible, the last of the greatest version. -/
def referenceRow (lib : JsonLibrary) (eligible : MsgpackRowView → Bool) (rows : List Json)
    (id : Bytes) : Option Json :=
  lastMax ownRank (candidates lib eligible rows id)

/-- A lookup returns what the reference selects, for every id and every predicate. An error
returns nothing. -/
def FindsReference (lib : JsonLibrary) (lz4 : Lz4) (same : Json → Json → Prop) (rows : List Json)
    (file : Bytes) : Prop :=
  ∀ eligible id, Option.Rel same (referenceRow lib eligible rows id)
    (match findInSst lib lz4 eligible file id with
      | .ok found => found
      | .error _ => none)

/-- The rows `writeSst` is handed: objects in the order of their ids. -/
structure IdSorted (lib : JsonLibrary) (rows : List Json) : Prop where
  objects : ∀ row ∈ rows, row.isObject = true
  sorted : rows.Pairwise fun row next => utf8 (rowId lib row) ≤ utf8 (rowId lib next)

/-! ## One row -/

theorem replaces_iff {version newestVersion : Option Int} :
    replaces version newestVersion = true ↔ versionRank newestVersion ≤ versionRank version := by
  unfold replaces
  cases version with
  | none =>
    cases newestVersion with
    | none => exact iff_of_true rfl le_rfl
    | some newest =>
      refine iff_of_false (by simp) ?_
      exact WithBot.not_coe_le_bot newest
  | some version =>
    cases newestVersion with
    | none => exact iff_of_true (by simp) bot_le
    | some newest =>
      simp only [Option.isSome_some, bne_self_eq_false, Bool.false_and, Bool.or_false,
        Bool.or_eq_true, decide_eq_true_eq, beq_iff_eq, Option.some.injEq, versionRank,
        WithBot.coe_le_coe]
      exact ⟨fun either => either.elim id fun same => same.ge, .inl⟩

/-- What decoding makes of a row. -/
def decoded (lib : JsonLibrary) (row : Json) : Json := (lib.fromMsgpack (writeMsgpack lib row)).getD .null

/-- A row with the version its view shows. -/
def asFound (lib : JsonLibrary) (best : Option Json) : Found :=
  best.map fun row => (decoded lib row, rowVersion lib (rowView lib row))

section Rows

variable {same : Json → Json → Prop} {rows : List Json}

/-- What is assumed of decoding: it keeps the ids of the rows. -/
def KeepsIds (lib : JsonLibrary) (same : Json → Json → Prop) (rows : List Json) : Prop :=
  ∀ row ∈ rows, ∀ back, same row back → rowId lib back = rowId lib row

/-- A row whose key and value a lookup can read. -/
structure Legible (lib : JsonLibrary) (row : Json) : Prop where
  key : rowKey lib (writeMsgpack lib row) = .ok (utf8 (rowId lib row))
  value : materialize lib (writeMsgpack lib row) = .ok (decoded lib row)

theorem decoded_eq {row back : Json} (decodes : lib.fromMsgpack (writeMsgpack lib row) = some back) :
    decoded lib row = back := by
  rw [decoded, decodes]
  rfl

theorem legible (faithful : Faithful lib same rows) (keeps : KeepsIds lib same rows) {row : Json}
    (member : row ∈ rows) (object : row.isObject = true)
    (fits : (writeMsgpack lib row).length ≤ kMaxFieldBytes) : Legible lib row := by
  obtain ⟨back, decodes, isSame⟩ := faithful.decodes row (.inl member)
  have value : materialize lib (writeMsgpack lib row) = .ok (decoded lib row) := by
    rw [materialize, decodes, decoded_eq decodes]
  refine ⟨?_, value⟩
  have shown := @field_id lib same rows row true faithful member object fits
  unfold rowKey
  cases found : idFound true row with
  | none =>
    rw [shown.1 found, value, decoded_eq decodes]
    dsimp only
    rw [Except.map, keeps row member back isSame]
  | some id =>
    obtain ⟨shownId, isShown, text⟩ := shown.2 (by rw [found]; rfl)
    rw [isShown]
    dsimp only
    rw [text]

end Rows

/-! ## Versions -/

section Versions

/-- The version that an indexed view of the row shows: none where a member nests too deep. -/
def shownRank (row : Json) : WithBot Int := versionRank (Lsm.MsgpackRowView.mk row true).rowVersion

/-- Of two rows of one id, unless the first is written again behind the second, the second
is at least as new by the versions that views show exactly if it is by their own. -/
def VersionsShow (lib : JsonLibrary) (rows : List Json) : Prop :=
  ∀ id, RankAlike shownRank ownRank (writeMsgpack lib) (rows.filter fun row => utf8 (rowId lib row) = id)

/-- What is assumed of decoding: a decoded row has the bytes and the version of the row, and
no array or object decodes to a version. -/
structure KeepsVersions (lib : JsonLibrary) (same : Json → Json → Prop) (rows : List Json) : Prop where
  row : ∀ row ∈ rows, ∀ back, same row back → writeMsgpack lib back = writeMsgpack lib row ∧
    extractDocVersionScore back = extractDocVersionScore row
  members : ∀ row ∈ rows, ∀ name ∈ versionFields, ∀ value, row.field? name = some value →
    isContainer value = true → ∀ back, lib.fromMsgpack (writeMsgpack lib value) = some back →
    versionOf? back = none

variable {same : Json → Json → Prop} {rows : List Json} {row : Json}

theorem versionOf?_stored (value : Json) : versionOf? (stored lib value) = versionOf? value := by
  have unsigned : ∀ number : Int, Json.wrapInt64 (Json.wrapUInt64 number) = Json.wrapInt64 number := by
    intro number
    rw [Json.wrapInt64, Json.wrapInt64, Json.wrapUInt64, Int.toNat_of_nonneg (Int.emod_nonneg _ (by decide))]
    exact Int.emod_bmod number (2 ^ 64)
  have signed : ∀ number : Int, Json.wrapInt64 (Json.wrapInt64 number) = Json.wrapInt64 number :=
    fun number => Int.bmod_bmod
  cases value with
  | integer value =>
    rw [stored]
    split
    next positive =>
      rw [versionOf?, versionOf?, Int.toNat_of_nonneg positive, signed]
    next => rw [versionOf?, versionOf?, signed]
  | unsigned value => rw [stored, versionOf?, versionOf?, unsigned]
  | float bits =>
    rw [stored]
    split <;> rfl
  | _ => rfl

/-- A view of the bytes of a row shows the version that a view of the row shows. -/
theorem viewRank_eq (keeps : KeepsVersions lib same rows) (member : row ∈ rows)
    (object : row.isObject = true) (fits : (writeMsgpack lib row).length ≤ kMaxFieldBytes) :
    viewRank lib row = shownRank row := by
  obtain ⟨members, rfl⟩ : ∃ members, row = .object members := by
    cases row with
    | object members => exact ⟨members, rfl⟩
    | _ => cases object
  have limit : kMaxFieldBytes < 2 ^ 32 := by decide
  have shows : ∀ name ∈ versionFields,
      (MsgpackRowView.field lib (rowView lib (.object members)) name >>= versionOf?) =
        ((Lsm.MsgpackRowView.mk (.object members) true).field name >>= versionOf?) := by
    intro name isVersion
    rw [rowView, MsgpackRowView.field, @fieldBytes_writeMsgpack lib members name true (by omega)]
    cases found : (Lsm.MsgpackRowView.mk (.object members) true).field name with
    | none => rfl
    | some value =>
      have inRow := Lsm.MsgpackRowView.field_some found
      have short := @length_member_le lib members name value inRow
      rw [Option.map_some, Option.bind_some, decodeMsgpackField_writeMsgpack (by omega)]
      cases container : isContainer value with
      | false => exact versionOf?_stored value
      | true =>
        have shape : versionOf? value = none := by
          cases value with
          | array _ => rfl
          | object _ => rfl
          | _ => cases container
        rw [if_pos rfl]
        cases decodes : lib.fromMsgpack (writeMsgpack lib value) with
        | none => exact shape.symm
        | some back => exact (keeps.members _ member name isVersion value inRow container back decodes).trans shape.symm
  simp only [versionFields, List.forall_mem_cons] at shows
  obtain ⟨mvcc, version, deleted, created, stamp, -⟩ := shows
  simp only [viewRank, shownRank, rowVersion, Lsm.MsgpackRowView.rowVersion, versionFields,
    List.findSome?_cons, List.findSome?_nil, mvcc, version, deleted, created, stamp]

/-- The winners by what the views show are the winners by the own versions exactly if the
views show the versions. -/
theorem winners_iff (faithful : Faithful lib same rows) (keeps : KeepsVersions lib same rows)
    (shown : ∀ row ∈ rows, viewRank lib row = shownRank row) :
    (∀ eligible id, Option.Rel same (referenceRow lib eligible rows id)
      ((lastMax (viewRank lib) (candidates lib eligible rows id)).map (decoded lib))) ↔
        VersionsShow lib rows := by
  have byView : ∀ items, Respects (viewRank lib) (writeMsgpack lib) items := by
    intro items row _ twin _ same
    rw [viewRank, viewRank, rowView, rowView, same]
  have decodes : ∀ row ∈ rows, same row (decoded lib row) := by
    intro row member
    obtain ⟨back, decodes, isSame⟩ := faithful.decodes row (.inl member)
    rw [decoded_eq decodes]
    exact isSame
  have byOwn : Respects ownRank (writeMsgpack lib) rows := by
    intro row member twin isTwin equal
    have one := (keeps.row row member _ (decodes row member)).2
    have two := (keeps.row twin isTwin _ (decodes twin isTwin)).2
    rw [decoded, equal, ← decoded, two] at one
    rw [ownRank, ownRank, one]
  constructor
  · intro finds id before first between second after split once
    have isRow : ∀ row ∈ before ++ first :: (between ++ second :: after), row ∈ rows := by
      intro row member
      rw [← split] at member
      exact (List.mem_filter.mp member).1
    -- the lookup that accepts no other row than these two
    let eligible : MsgpackRowView → Bool := fun view =>
      decide (view.data = writeMsgpack lib first ∨ view.data = writeMsgpack lib second)
    have accepts : ∀ row, eligible (rowView lib row) = true ↔
        (writeMsgpack lib row = writeMsgpack lib first ∨ writeMsgpack lib row = writeMsgpack lib second) :=
      fun row => decide_eq_true_iff
    have two : ∀ row ∈ candidates lib eligible rows id,
        writeMsgpack lib row = writeMsgpack lib first ∨ writeMsgpack lib row = writeMsgpack lib second :=
      fun row member => (accepts row).mp (List.mem_filter.mp member).2
    have parts : candidates lib eligible rows id =
        before.filter (fun row => eligible (rowView lib row)) ++ first ::
          (between.filter (fun row => eligible (rowView lib row)) ++ second ::
            after.filter fun row => eligible (rowView lib row)) := by
      rw [candidates, split, List.filter_append, List.filter_cons, if_pos ((accepts first).mpr (.inl rfl)),
        List.filter_append, List.filter_cons, if_pos ((accepts second).mpr (.inr rfl))]
    have once' : writeMsgpack lib first ∉
        (second :: after.filter fun row => eligible (rowView lib row)).map (writeMsgpack lib) :=
      fun again => once (((List.filter_sublist.cons_cons second).map _).subset again)
    have inRows : ∀ row ∈ candidates lib eligible rows id, row ∈ rows :=
      fun row member => (List.mem_filter.mp (List.mem_filter.mp member).1).1
    have found := finds eligible id
    rw [referenceRow] at found
    cases own : lastMax ownRank (candidates lib eligible rows id) with
    | none =>
      rw [lastMax_eq_none_iff, parts] at own
      exact absurd own (by simp)
    | some reference =>
      cases seen : lastMax (viewRank lib) (candidates lib eligible rows id) with
      | none =>
        rw [lastMax_eq_none_iff, parts] at seen
        exact absurd seen (by simp)
      | some winner =>
        rw [own, seen] at found
        obtain ⟨isSame⟩ := found
        have isWinner := inRows winner (mem_of_lastMax seen)
        have bytes := (keeps.row reference (inRows reference (mem_of_lastMax own)) _ isSame).1
        rw [(keeps.row winner isWinner _ (decodes winner isWinner)).1] at bytes
        have ownWins := kind_lastMax_iff (byOwn.filter.filter) parts once' two own
        rw [← shown first (isRow first (by simp)), ← shown second (isRow second (by simp)),
          ← kind_lastMax_iff (byView _) parts once' two seen, ← ownWins, bytes]
  · intro alike eligible id
    have sameWinner : lastMax (viewRank lib) (candidates lib eligible rows id) =
        referenceRow lib eligible rows id := by
      have byShown : RankAlike (viewRank lib) ownRank (writeMsgpack lib)
          (rows.filter fun row => utf8 (rowId lib row) = id) := by
        intro before first between second after split once
        have isRow : ∀ row ∈ before ++ first :: (between ++ second :: after), row ∈ rows := by
          intro row member
          rw [← split] at member
          exact (List.mem_filter.mp member).1
        rw [shown first (isRow first (by simp)), shown second (isRow second (by simp))]
        exact alike id before first between second after split once
      exact lastMax_congr (byShown.filter fun bytes => eligible ⟨bytes, true⟩) (byView _)
        byOwn.filter.filter
    rw [sameWinner]
    cases selected : referenceRow lib eligible rows id with
    | none => exact .none
    | some best =>
      exact .some (decodes best (List.mem_filter.mp (List.mem_filter.mp (mem_of_lastMax selected)).1).1)

/-- Views show the versions if no row with a version nests too deep. -/
theorem versionsShow_of_valid (valid : ∀ row ∈ rows,
    (Lsm.MsgpackRowView.mk row true).indexValid = true ∨ extractDocVersionScore row = none) :
    VersionsShow lib rows := by
  have shown : ∀ row ∈ rows, shownRank row = ownRank row := by
    intro row member
    rw [shownRank, ownRank]
    cases deep : (Lsm.MsgpackRowView.mk row true).indexValid with
    | true => rw [Lsm.MsgpackRowView.rowVersion_of_valid deep]
    | false =>
      have none : (Lsm.MsgpackRowView.mk row true).rowVersion = none := by
        rw [Lsm.MsgpackRowView.rowVersion]
        simp only [Lsm.MsgpackRowView.field_of_invalid deep]
        rfl
      rw [none, (valid row member).resolve_left (by rw [deep]; exact Bool.false_ne_true)]
  intro id before first between second after split _
  have inside : ∀ row ∈ before ++ first :: (between ++ second :: after), row ∈ rows := by
    intro row member
    rw [← split] at member
    exact (List.mem_filter.mp member).1
  rw [shown first (inside first (by simp)), shown second (inside second (by simp))]

end Versions

/-! ## One block -/

section Fold

variable {eligible : MsgpackRowView → Bool} {id : Bytes}

/-- The best row so far and one more row. -/
def keepRow (lib : JsonLibrary) (eligible : MsgpackRowView → Bool) (id : Bytes) (best : Option Json)
    (row : Json) : Option Json :=
  if utf8 (rowId lib row) = id ∧ eligible (rowView lib row) = true then
    latest (viewRank lib) best (some row)
  else best

theorem latest_asFound {row : Json} {best : Option Json} :
    latest (viewRank lib) best (some row) =
      if better (rowVersion lib (rowView lib row)) (asFound lib best) then some row else best := by
  cases best with
  | none => rfl
  | some current =>
    rw [latest]
    by_cases above : viewRank lib current ≤ viewRank lib row
    · rw [if_pos above, if_pos]
      exact replaces_iff.mpr above
    · rw [if_neg above, if_neg]
      exact mt replaces_iff.mp above

theorem considerRow_eq {row : Json} (legible : Legible lib row) (best : Option Json) :
    considerRow lib eligible id (asFound lib best) (writeMsgpack lib row) =
      .ok (asFound lib (keepRow lib eligible id best row), decide (utf8 (rowId lib row) ≤ id)) := by
  unfold considerRow keepRow
  rw [legible.key, latest_asFound, ← rowView]
  dsimp only [bind, Except.bind]
  by_cases own : utf8 (rowId lib row) = id ∧ eligible (rowView lib row) = true
  · rw [if_pos own, if_pos own]
    by_cases taken : better (rowVersion lib (rowView lib row)) (asFound lib best) = true
    · rw [if_pos taken, if_pos taken, legible.value]
      rfl
    · rw [if_neg taken, if_neg taken]
      rfl
  · rw [if_neg own, if_neg own]
    rfl

/-- The last best of the rows of the id. -/
theorem foldl_keepRow (rows : List Json) (best : Option Json) :
    rows.foldl (keepRow lib eligible id) best =
      latest (viewRank lib) best (lastMax (viewRank lib) (candidates lib eligible rows id)) := by
  rw [← foldl_latest, candidates]
  induction rows generalizing best with
  | nil => rfl
  | cons row rows ih =>
    rw [List.foldl_cons, ih, keepRow, List.filter_cons]
    by_cases own : utf8 (rowId lib row) = id
    · rw [if_pos (decide_eq_true own), List.filter_cons]
      by_cases accepted : eligible (rowView lib row) = true
      · rw [if_pos ⟨own, accepted⟩, if_pos accepted, List.foldl_cons]
      · rw [if_neg fun both => accepted both.2, if_neg accepted]
    · rw [if_neg fun both => own both.1, if_neg (by simpa using own)]

theorem foldl_keepRow_other {rows : List Json} {best : Option Json}
    (other : ∀ row ∈ rows, utf8 (rowId lib row) ≠ id) : rows.foldl (keepRow lib eligible id) best = best := by
  have none : rows.filter (fun row => utf8 (rowId lib row) = id) = [] := by
    rw [List.filter_eq_nil_iff]
    intro row member
    rw [decide_eq_true_eq]
    exact other row member
  rw [foldl_keepRow, candidates, none]
  exact latest_none best

/-- Nothing is lost by stopping behind the id. -/
theorem foldBlockRows_eq {rows : List Json} {best : Option Json}
    (legible : ∀ row ∈ rows, Legible lib row)
    (fits : ∀ row ∈ rows, (writeMsgpack lib row).length ≤ kMaxFieldBytes)
    (sorted : rows.Pairwise fun row next => utf8 (rowId lib row) ≤ utf8 (rowId lib next)) :
    foldBlockRows (considerRow lib eligible id) rows.length (blockPlain lib rows) (asFound lib best) =
      .ok (asFound lib (rows.foldl (keepRow lib eligible id) best)) := by
  induction rows generalizing best with
  | nil => rfl
  | cons row rows ih =>
    obtain ⟨first, later⟩ := List.forall_mem_cons.mp legible
    obtain ⟨fit, fits⟩ := List.forall_mem_cons.mp fits
    obtain ⟨above, sorted⟩ := List.pairwise_cons.mp sorted
    rw [List.length_cons, foldBlockRows, blockPlain, List.flatMap_cons, readRow_encodeRow fit]
    dsimp only
    rw [considerRow_eq first]
    dsimp only [bind, Except.bind]
    rw [List.foldl_cons]
    by_cases goOn : utf8 (rowId lib row) ≤ id
    · rw [if_pos (decide_eq_true goOn), ← blockPlain]
      exact ih later fits sorted
    · rw [if_neg (by simpa using goOn), foldl_keepRow_other]
      · rfl
      · intro other member
        exact ((not_le.mp goOn).trans_le (above other member)).ne'

end Fold

/-! ## All blocks -/

/-- The blocks with their offsets. -/
def placedBlocks (lib : JsonLibrary) (lz4 : Lz4) : Nat → List (List Json) → List (Nat × List Json)
  | _, [] => []
  | offset, rows :: blocks =>
      (offset, rows) :: placedBlocks lib lz4 (offset + (blockBytes lib lz4 rows).length) blocks

section Blocks

variable {offset target : Nat} {blocks : List (List Json)}

theorem blockEntries_eq : blockEntries lib lz4 offset blocks =
    (placedBlocks lib lz4 offset blocks).map fun placed => blockEntry lib lz4 placed.1 placed.2 := by
  induction blocks generalizing offset with
  | nil => rfl
  | cons rows blocks ih => rw [blockEntries, placedBlocks, List.map_cons, ih]

theorem snd_placedBlocks : (placedBlocks lib lz4 offset blocks).map Prod.snd = blocks := by
  induction blocks generalizing offset with
  | nil => rfl
  | cons rows blocks ih => rw [placedBlocks, List.map_cons, ih]

theorem mem_placedBlocks {placed : Nat × List Json} (member : placed ∈ placedBlocks lib lz4 offset blocks) :
    ∃ before after, blocks = before ++ placed.2 :: after ∧
      placed.1 = offset + (before.flatMap (blockBytes lib lz4)).length := by
  induction blocks generalizing offset with
  | nil => cases member
  | cons rows blocks ih =>
    rcases List.mem_cons.mp member with rfl | later
    · exact ⟨[], blocks, rfl, rfl⟩
    · obtain ⟨before, after, split, place⟩ := ih later
      refine ⟨rows :: before, after, congrArg (rows :: ·) split, ?_⟩
      rw [place, List.flatMap_cons, List.length_append, Nat.add_assoc]

theorem readBlockPayload_placed (compresses : lz4.RoundTrips) (fits : BlocksFit lib lz4 blocks)
    {placed : Nat × List Json} (member : placed ∈ placedBlocks lib lz4 kSstHeaderBytes blocks) :
    readBlockPayload lz4 (sstBytes lib lz4 target blocks) (blockEntry lib lz4 placed.1 placed.2) =
      .ok (blockPlain lib placed.2, placed.2.length) := by
  obtain ⟨before, after, split, place⟩ := mem_placedBlocks member
  have there := @drop_block lib lz4 target before placed.2 after
  rw [← split, indexOffset, ← place] at there
  have inBlocks : placed.2 ∈ blocks := by
    rw [split]
    exact List.mem_append_right _ (.head _)
  exact readBlockPayload_block compresses (blockFits fits inBlocks) rfl there

/-- The entry of a block has the range of its ids. -/
theorem ranged_placedBlocks (filled : ∀ rows ∈ blocks, rows ≠ [])
    (sorted : blocks.flatten.Pairwise fun row next => utf8 (rowId lib row) ≤ utf8 (rowId lib next)) :
    Ranged (fun row => utf8 (rowId lib row)) (Prod.snd : Nat × List Json → List Json)
      (fun placed => keyOf lib placed.2.head?) (fun placed => keyOf lib placed.2.getLast?)
      (placedBlocks lib lz4 offset blocks) := by
  obtain ⟨inBlock, between⟩ := List.pairwise_flatten.mp sorted
  constructor
  · intro placed member row isRow
    obtain ⟨before, after, split, -⟩ := mem_placedBlocks member
    have own := inBlock placed.2 (by rw [split]; exact List.mem_append_right _ (.head _))
    generalize placed.2 = rows at own isRow
    constructor
    · cases rows with
      | nil => cases isRow
      | cons first rest =>
        rcases List.mem_cons.mp isRow with rfl | later
        · exact le_rfl
        · exact (List.pairwise_cons.mp own).1 row later
    · rcases List.eq_nil_or_concat' rows with rfl | ⟨init, last, rfl⟩
      · cases isRow
      · rw [List.getLast?_concat]
        rcases List.mem_append.mp isRow with earlier | isLast
        · exact (List.pairwise_append.mp own).2.2 row earlier last (.head _)
        · rw [List.mem_singleton.mp isLast]
          exact le_rfl
  · have lows : blocks.Pairwise fun rows next => keyOf lib rows.head? ≤ keyOf lib next.head? := by
      refine (List.Pairwise.and_mem.mp between).imp ?_
      rintro rows next ⟨isBlock, isNext, below⟩
      cases rows with
      | nil => exact absurd rfl (filled [] isBlock)
      | cons row rest =>
        cases next with
        | nil => exact absurd rfl (filled [] isNext)
        | cons other others => exact below row (.head _) other (.head _)
    rw [← @snd_placedBlocks lib lz4 offset blocks, List.pairwise_map] at lows
    exact lows

/-- Over blocks that can be read, a lookup selects by the versions that the views show. -/
theorem findInSst_eq (compresses : lz4.RoundTrips) (fits : BlocksFit lib lz4 blocks)
    (few : blocks.length ≤ kMaxBlocks) (edges : EdgesFit lib blocks)
    (legible : ∀ row ∈ blocks.flatten, Legible lib row)
    (sorted : blocks.flatten.Pairwise fun row next => utf8 (rowId lib row) ≤ utf8 (rowId lib next))
    (eligible : MsgpackRowView → Bool) (id : Bytes) :
    findInSst lib lz4 eligible (sstBytes lib lz4 target blocks) id =
      .ok ((lastMax (viewRank lib) (candidates lib eligible blocks.flatten id)).map (decoded lib)) := by
  have ranged : Ranged (fun row => utf8 (rowId lib row)) (Prod.snd : Nat × List Json → List Json)
      (fun placed => (blockEntry lib lz4 placed.1 placed.2).firstKey)
      (fun placed => (blockEntry lib lz4 placed.1 placed.2).lastKey)
      (placedBlocks lib lz4 kSstHeaderBytes blocks) := ranged_placedBlocks fits.nonempty sorted
  have rows : (placedBlocks lib lz4 kSstHeaderBytes blocks).flatMap Prod.snd = blocks.flatten := by
    rw [List.flatMap_def, snd_placedBlocks]
  -- every block that is read gives its rows
  have visits : ∀ placed ∈ placedBlocks lib lz4 kSstHeaderBytes blocks, ∀ best,
      visitBlock lib lz4 eligible (sstBytes lib lz4 target blocks) id (asFound lib best)
          (blockEntry lib lz4 placed.1 placed.2) =
        .ok (asFound lib (placed.2.foldl (keepRow lib eligible id) best)) := by
    intro placed member best
    obtain ⟨before, after, split, -⟩ := mem_placedBlocks member
    have isBlock : placed.2 ∈ blocks := by
      rw [split]
      exact List.mem_append_right _ (.head _)
    rw [visitBlock, readBlockPayload_placed compresses fits member]
    exact foldBlockRows_eq (fun row isRow => legible row (List.mem_flatten.mpr ⟨_, isBlock, isRow⟩))
      (fits.rows _ isBlock) ((List.pairwise_flatten.mp sorted).1 _ isBlock)
  have loop : ∀ placed : List (Nat × List Json),
      (∀ one ∈ placed, one ∈ placedBlocks lib lz4 kSstHeaderBytes blocks) → ∀ best,
      (placed.map fun one => blockEntry lib lz4 one.1 one.2).foldlM
          (visitBlock lib lz4 eligible (sstBytes lib lz4 target blocks) id) (asFound lib best) =
        .ok (asFound lib ((placed.flatMap Prod.snd).foldl (keepRow lib eligible id) best)) := by
    intro placed
    induction placed with
    | nil => exact fun _ _ => rfl
    | cons one placed ih =>
      intro inside best
      rw [List.map_cons, List.foldlM_cons, visits one (inside one (.head _)), List.flatMap_cons,
        List.foldl_append]
      exact ih (fun other member => inside other (.tail _ member)) _
  rw [findInSst, loadMetadata_ok fits few edges, blockEntries_eq]
  dsimp only [bind, Except.bind]
  rw [seekBlocks_map, show (none : Found) = asFound lib none from rfl,
    loop _ fun one member => mem_of_mem_seekBlocks member, foldl_keepRow, candidates,
    filter_seekBlocks ranged fun row => of_decide_eq_true, rows, ← candidates]
  dsimp only [pure, Except.pure]
  rw [asFound, Option.map_map]
  rfl

end Blocks

/-! ## Every written file -/

variable {same : Json → Json → Prop} {rows : List Json} {file : Bytes}
  {capacity targetBlockBytes target : Nat}

/-- Where the index is refused no row is found. -/
theorem not_findsReference {row : Json} {reason : String}
    (refused : loadMetadata file = .error reason) :
    ¬FindsReference lib lz4 same (row :: rows) file := by
  intro finds
  have found := finds (fun _ => true) (utf8 (rowId lib row))
  have failed : findInSst lib lz4 (fun _ => true) file (utf8 (rowId lib row)) = .error reason := by
    rw [findInSst, refused]
    rfl
  rw [failed] at found
  cases selected : referenceRow lib (fun _ => true) (row :: rows) (utf8 (rowId lib row)) with
  | some best =>
    rw [selected] at found
    cases found
  | none =>
    rw [referenceRow, lastMax_eq_none_iff, candidates, List.filter_eq_nil_iff] at selected
    exact absurd rfl (selected row (List.mem_filter.mpr ⟨.head _, decide_eq_true rfl⟩))

/-- Where the index is read, a lookup is the reference lookup exactly if the views show the
versions. -/
theorem findsReference_read (compresses : lz4.RoundTrips) (faithful : Faithful lib same rows)
    (keeps : KeepsIds lib same rows) (versions : KeepsVersions lib same rows)
    (sorted : IdSorted lib rows)
    (fitsRow : ∀ row ∈ rows, (writeMsgpack lib row).length ≤ kMaxFieldBytes)
    (fits : BlocksFit lib lz4 (sstBlocks lib targetBlockBytes rows))
    (few : (sstBlocks lib targetBlockBytes rows).length ≤ kMaxBlocks)
    (edges : EdgesFit lib (sstBlocks lib targetBlockBytes rows)) :
    FindsReference lib lz4 same rows (sstBytes lib lz4 target (sstBlocks lib targetBlockBytes rows)) ↔
      VersionsShow lib rows := by
  have all : (sstBlocks lib targetBlockBytes rows).flatten = rows := flatten_cutBlocks _ [] rows
  have legibleRows : ∀ row ∈ (sstBlocks lib targetBlockBytes rows).flatten, Legible lib row := by
    rw [all]
    exact fun row member => legible faithful keeps member (sorted.objects row member) (fitsRow row member)
  have sortedRows := sorted.sorted
  rw [← all] at sortedRows
  rw [← winners_iff faithful versions fun row member =>
    viewRank_eq versions member (sorted.objects row member) (fitsRow row member)]
  refine forall_congr' fun eligible => forall_congr' fun id => ?_
  rw [findInSst_eq compresses fits few edges legibleRows sortedRows, all]

/-- A lookup in what `writeSst` wrote is the reference lookup, for every id and every
predicate, exactly when the file has no more blocks than the readers accept, no id at the
edge of a block is too long for its index, and the views show the versions of the rows. -/
theorem findsReference_iff (compresses : lz4.RoundTrips) (faithful : Faithful lib same rows)
    (keeps : KeepsIds lib same rows) (versions : KeepsVersions lib same rows)
    (sorted : IdSorted lib rows) (limited : capacity < 2 ^ 63)
    (written : writeSst lib lz4 capacity targetBlockBytes rows = .ok file) :
    FindsReference lib lz4 same rows file ↔
      (sstBlocks lib targetBlockBytes rows).length ≤ kMaxBlocks ∧
        EdgesFit lib (sstBlocks lib targetBlockBytes rows) ∧ VersionsShow lib rows := by
  obtain ⟨fitsRow, rfl, room⟩ := writeSst_ok written
  have fits := blocksFit_sstBlocks fitsRow faithful (room.trans_lt limited)
  have read := @findsReference_read lib lz4 same rows targetBlockBytes (clampTarget targetBlockBytes)
    compresses faithful keeps versions sorted fitsRow fits
  constructor
  · intro finds
    cases rows with
    | nil => exact ⟨Nat.zero_le _, nofun, (read (Nat.zero_le _) nofun).mp finds⟩
    | cons row rest =>
      cases loaded : loadMetadata (sstBytes lib lz4 (clampTarget targetBlockBytes)
          (sstBlocks lib targetBlockBytes (row :: rest))) with
      | ok entries =>
        obtain ⟨few, edges⟩ := loadMetadata_some fits loaded
        exact ⟨few, edges, (read few edges).mp finds⟩
      | error reason => exact absurd finds (not_findsReference loaded)
  · rintro ⟨few, edges, shows⟩
    exact (read few edges).mpr shows

theorem keepsIds_table (known : rows ⊆ longRow :: shortRows) : KeepsIds tableLibrary SameStored rows := by
  intro row member back isSame
  rw [sameStored_object (objects_table row (known member)) isSame]

theorem keepsVersions_table (known : rows ⊆ longRow :: shortRows) :
    KeepsVersions tableLibrary SameStored rows := by
  have scalars : ∀ row ∈ longRow :: shortRows, ∀ name ∈ versionFields,
      (row.field? name).any isContainer = false := by decide
  constructor
  · intro row member back isSame
    rw [sameStored_object (objects_table row (known member)) isSame]
    exact ⟨rfl, rfl⟩
  · intro row member name isVersion value found container
    have scalar := scalars row (known member) name isVersion
    rw [found, Option.any_some, container] at scalar
    cases scalar

/-- Lookups in a file of three blocks, with a run of one id over all of them. -/
theorem findsReference_flat : ∃ file,
    writeSst tableLibrary literalsOnly (2 ^ 40) 4096 threeBlocks = .ok file ∧
      FindsReference tableLibrary literalsOnly SameStored threeBlocks file := by
  obtain ⟨file, written⟩ := writeSst_threeBlocks
  have known : threeBlocks ⊆ longRow :: shortRows := by simp [threeBlocks, shortRows]
  have sorted : IdSorted tableLibrary threeBlocks := ⟨by decide, by decide⟩
  refine ⟨file, written, (findsReference_iff literalsOnly_roundTrips (faithful_table known)
    (keepsIds_table known) (keepsVersions_table known) sorted (by decide) written).mpr ⟨?_, ?_, ?_⟩⟩
  · rw [sstBlocks_threeBlocks]
    decide
  · rw [sstBlocks_threeBlocks]
    unfold EdgesFit
    decide
  · exact versionsShow_of_valid fun row member => .inl (valid_threeBlocks row member)

/-! ## Rows that are not found -/

section Nulls

/-- A row whose id is an array of so many nulls. -/
def nullsRow (count : Nat) : Json := .object [("id", .array (List.replicate count .null))]

/-- The text of so many nulls, up to the bracket. -/
def nullsText : Nat → List Char
  | 0 => [']']
  | 1 => "null]".toList
  | count + 1 => "null,".toList ++ nullsText count

/-- A library that decodes the row, and has the text of arrays of nulls. -/
def nullsLibrary (count : Nat) : JsonLibrary where
  fromMsgpack _ := some (nullsRow count)
  dump
    | .array items => String.ofList ('[' :: nullsText items.length)
    | _ => ""
  narrow _ := none
  widen bits := bits

theorem length_nullsText : ∀ count, (nullsText (count + 1)).length = 5 * (count + 1)
  | 0 => rfl
  | count + 1 => by
      rw [nullsText, List.length_append, length_nullsText count]
      · have comma : "null,".toList.length = 5 := rfl
        omega
      · exact nofun

variable {count : Nat}

theorem length_nullsRow (many : 2 ^ 16 ≤ count) (fits : count < 2 ^ 32) :
    (writeMsgpack lib (nullsRow count)).length = 9 + count := by
  have header : (arrayHeader count).length = 5 := by
    rw [arrayHeader, containerHeader, if_neg (by omega), if_neg (by omega), if_pos (by omega),
      List.length_cons, length_beBytes]
  have one : ∀ id, sortMembers [("id", id)] = [("id", id)] := fun _ => rfl
  have map : (objectHeader 1).length = 1 := rfl
  have name : (writeString "id").length = 3 := by decide
  rw [nullsRow, writeMsgpack_object, one, List.flatMap_singleton, writeMember, writeMsgpack, writeItems_eq,
    List.length_replicate, List.length_append, List.length_append, List.length_append, header,
    flatMap_nulls, List.length_replicate, List.length_singleton, map, name]
  omega

theorem length_nullsKey (many : 0 < count) :
    5 * count < (utf8 (rowId (nullsLibrary count) (nullsRow count))).length ∧
      (utf8 (rowId (nullsLibrary count) (nullsRow count))).length ≤ 4 * (5 * count + 1) := by
  have text : rowId (nullsLibrary count) (nullsRow count) = String.ofList ('[' :: nullsText count) := by
    have dump : ∀ items, idText (nullsLibrary count) (.array items) =
        String.ofList ('[' :: nullsText items.length) := fun _ => rfl
    rw [@rowId_eq (nullsLibrary count) (nullsRow count) _ rfl, dump, List.length_replicate]
  obtain ⟨before, rfl⟩ : ∃ before, count = before + 1 := ⟨count - 1, by omega⟩
  have size := length_nullsText before
  have above := length_le_utf8ByteSize ('[' :: nullsText (before + 1))
  have below := utf8ByteSize_le ('[' :: nullsText (before + 1))
  rw [List.length_cons, size] at above below
  rw [text]
  exact ⟨above, below⟩

/-- The text of such an id is five times as long as the id. Where the index cannot hold it
the row is written and not found. -/
theorem nullsRow_not_found (many : kMaxFieldBytes < 5 * count) (fits : 9 + count ≤ kMaxFieldBytes) :
    ∃ file, writeSst (nullsLibrary count) literalsOnly (2 ^ 40) 4096 [nullsRow count] = .ok file ∧
      ¬FindsReference (nullsLibrary count) literalsOnly Eq [nullsRow count] file := by
  have limit : kMaxFieldBytes = 67108864 := by decide
  have header : kSstHeaderBytes = 64 := rfl
  have blockHead : kBlockHeaderBytes = 24 := rfl
  have size := @length_nullsRow (nullsLibrary count) count (by omega) (by omega)
  obtain ⟨long, bounded⟩ := @length_nullsKey count (by omega)
  have one : sstBlocks (nullsLibrary count) 4096 [nullsRow count] = [[nullsRow count]] := rfl
  have plain : (blockPlain (nullsLibrary count) [nullsRow count]).length = 4 + (9 + count) := by
    rw [blockPlain, List.flatMap_singleton, encodeRow, List.length_append, length_leBytes, size]
  have block : (blockBytes (nullsLibrary count) literalsOnly [nullsRow count]).length ≤
      24 + (4 + (9 + count)) := by
    rw [blockBytes, List.length_append, length_blockHeader, ← plain, blockHead]
    exact Nat.add_le_add_left (length_storedData_le _) 24
  have index : indexOffset (nullsLibrary count) literalsOnly [[nullsRow count]] ≤
      64 + (24 + (4 + (9 + count))) := by
    rw [indexOffset, List.flatMap_singleton, header]
    omega
  have fitsRow : ∀ row ∈ [nullsRow count],
      (writeMsgpack (nullsLibrary count) row).length ≤ kMaxFieldBytes := by
    intro row member
    rw [List.mem_singleton.mp member, size]
    exact fits
  have blocksFit : BlocksFit (nullsLibrary count) literalsOnly [[nullsRow count]] := by
    refine ⟨?_, ?_, ?_, ?_, by omega⟩
    · intro rows member
      rw [List.mem_singleton.mp member]
      exact fitsRow
    · intro rows member
      rw [List.mem_singleton.mp member]
      exact List.cons_ne_nil _ _
    · intro rows member
      rw [List.mem_singleton.mp member, plain]
      omega
    · intro rows member row isRow
      rw [List.mem_singleton.mp member] at isRow
      rw [List.mem_singleton.mp isRow]
      omega
  have room : ¬2 ^ 40 < (sstBytes (nullsLibrary count) literalsOnly (clampTarget 4096)
      [[nullsRow count]]).length := by
    have key : keyOf (nullsLibrary count) [nullsRow count].head? =
        utf8 (rowId (nullsLibrary count) (nullsRow count)) := rfl
    have last : keyOf (nullsLibrary count) [nullsRow count].getLast? =
        utf8 (rowId (nullsLibrary count) (nullsRow count)) := rfl
    have size := @length_sstBytes_le (nullsLibrary count) literalsOnly (clampTarget 4096)
      [[nullsRow count]]
    rw [List.map_singleton, List.sum_singleton, key, last, plain] at size
    omega
  refine ⟨_, by rw [writeSst_eq fitsRow, one, if_neg room], ?_⟩
  cases loaded : loadMetadata (sstBytes (nullsLibrary count) literalsOnly (clampTarget 4096)
      [[nullsRow count]]) with
  | error reason => exact not_findsReference loaded
  | ok found =>
    have edges := (loadMetadata_some blocksFit loaded).2 [nullsRow count] (.head _)
    have key : keyOf (nullsLibrary count) [nullsRow count].head? =
        utf8 (rowId (nullsLibrary count) (nullsRow count)) := rfl
    rw [key] at edges
    omega

end Nulls

/-- A row whose version its view does not show loses to an older one. -/
theorem hiddenRow_not_found : ∃ file,
    writeSst tableLibrary literalsOnly (2 ^ 40) 4096 [hiddenRow, oldRow] = .ok file ∧
      ¬FindsReference tableLibrary literalsOnly SameStored [hiddenRow, oldRow] file := by
  have isOk : (writeSst tableLibrary literalsOnly (2 ^ 40) 4096 [hiddenRow, oldRow]).isOk = true := by
    decide +kernel
  cases written : writeSst tableLibrary literalsOnly (2 ^ 40) 4096 [hiddenRow, oldRow] with
  | error reason =>
    rw [written] at isOk
    cases isOk
  | ok file =>
    obtain ⟨fitsRow, rfl, room⟩ := writeSst_ok written
    have known : [hiddenRow, oldRow] ⊆ longRow :: shortRows := by simp [shortRows]
    have fits := blocksFit_sstBlocks fitsRow (faithful_table known) (room.trans_lt (by decide))
    have few : (sstBlocks tableLibrary 4096 [hiddenRow, oldRow]).length ≤ kMaxBlocks := by decide +kernel
    have edges : EdgesFit tableLibrary (sstBlocks tableLibrary 4096 [hiddenRow, oldRow]) := by
      unfold EdgesFit
      decide +kernel
    refine ⟨_, rfl, fun finds => ?_⟩
    have shows := (findsReference_read literalsOnly_roundTrips (faithful_table known)
      (keepsIds_table known) (keepsVersions_table known) ⟨by decide, by decide⟩ fitsRow fits
      few edges).mp finds
    have order := shows (utf8 "a") [] hiddenRow [] oldRow [] rfl (by decide)
    have hidden : shownRank hiddenRow = ⊥ := congrArg versionRank
      (show (Lsm.MsgpackRowView.mk hiddenRow true).rowVersion = none by decide +kernel)
    have newer : ownRank hiddenRow = (5 : Int) := congrArg versionRank
      (show extractDocVersionScore hiddenRow = some 5 by decide)
    have older : ownRank oldRow = (2 : Int) := congrArg versionRank
      (show extractDocVersionScore oldRow = some 2 by decide)
    rw [hidden, newer, older, WithBot.coe_le_coe] at order
    exact absurd (order.mp bot_le) (by decide)

/-- An id of sixteen million nulls: a row of 16 MB whose id has a text of 80 MB. And a row of
version 5 that nests too deep. -/
theorem longId_not_found :
    (∃ file, writeSst (nullsLibrary 16777216) literalsOnly (2 ^ 40) 4096 [nullsRow 16777216] = .ok file ∧
      ¬FindsReference (nullsLibrary 16777216) literalsOnly Eq [nullsRow 16777216] file) ∧
    ∃ file, writeSst tableLibrary literalsOnly (2 ^ 40) 4096 [hiddenRow, oldRow] = .ok file ∧
      ¬FindsReference tableLibrary literalsOnly SameStored [hiddenRow, oldRow] file :=
  ⟨nullsRow_not_found (by decide) (by decide), hiddenRow_not_found⟩

end PacificDb.Sst
