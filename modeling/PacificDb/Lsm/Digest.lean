import PacificDb.Lib.Sha256
import PacificDb.Lsm.Compaction

/-!
# Logical digests

`LSM::logicalDigest`: the hash over the newest visible row of every id, which the
replicas of a collection compare. It scans the same layers as a read, but stops at
the first row without an id and when there are more ids than it may hold, and it
counts the ids of tombstones.

The digest depends on the live rows alone (`logicalDigest_of_rows`) when every row is
visible at the fence and has an id, and the ids fit the limit.
-/

namespace PacificDb.Lsm

open Lib

variable {config : LsmConfig}

/-- What the digest takes from the JSON and the crypto library. -/
structure DigestCodec where
  toMsgpack : Json → List Nat
  sha256 : List Nat → List Nat

def visibleAtFence (fence : Nat) (doc : Json) : Bool :=
  doc.isObject && hasVisibleCommitState doc &&
    match extractRowCommitIndex doc with
    | none => true
    | some commit =>
        let floor := ((doc.field? "_visibility_floor").bind Json.asUInt64?).getD commit
        decide (commit ≤ fence) && decide (floor ≤ fence)

structure DigestScan where
  latest : LatestRows := {}
  truncated : Bool := false

def DigestScan.stopped (scan : DigestScan) : Bool :=
  scan.truncated || !scan.latest.noIdDocs.isEmpty

/-- One row; after the scan has stopped, nothing. -/
def DigestScan.consider (config : LsmConfig) (fence maxDocs : Nat) (scan : DigestScan) (doc : Json) :
    DigestScan :=
  if scan.stopped then scan
  else if !visibleAtFence fence doc then scan
  else
    let latest := mergeLatestById config scan.latest doc
    if !latest.noIdDocs.isEmpty then { scan with latest }
    else { latest, truncated := decide (maxDocs < latest.latestById.keys.length) }

/-- The published SSTs in turn, up to the one in which the scan stops. -/
def DigestScan.readSsts (config : LsmConfig) (fence maxDocs : Nat) (dir : LsmDir) :
    List String → DigestScan → Except String DigestScan
  | [], scan => .ok scan
  | name :: rest, scan =>
      match scanSst dir name with
      | none => .error ("cannot scan SST for logical digest " ++ name)
      | some (_, rows) =>
          let next := rows.foldl (consider config fence maxDocs) scan
          if next.stopped then .ok next else readSsts config fence maxDocs dir rest next

/-- The result of `logicalDigest`; `schema` and `bounded` are constant. -/
structure LogicalDigest where
  status : String := "OK"
  fence : Nat
  count : Nat := 0
  truncated : Bool := false
  maxDocs : Nat
  invalidRows : Option Nat := none
  digest : Option String := none
  deriving DecidableEq

def kSchema : String := "pacificdb-logical-v1"

/-- The bytes of a text. -/
def textBytes (text : String) : List Nat :=
  (text.toList.flatMap String.utf8EncodeChar).map UInt8.toNat

def updateLength (value : Nat) : List Nat := Sha256.beBytes 8 value

/-- The bytes the digest hashes. -/
def digestInput (codec : DigestCodec) (fence : Nat) (rows : List (String × Json)) : List Nat :=
  textBytes kSchema ++ 0 :: updateLength fence ++ updateLength rows.length ++
    rows.flatMap fun row =>
      let encoded := codec.toMsgpack row.2
      updateLength (textBytes row.1).length ++ textBytes row.1 ++ updateLength encoded.length ++ encoded

def hexDigits (bytes : List Nat) : String :=
  String.ofList (bytes.flatMap fun byte => [Nat.digitChar (byte / 16), Nat.digitChar (byte % 16)])

/-- The rows that are hashed: no tombstones, in id order. -/
def liveRows (latestById : Memtable) : List (String × Json) :=
  (sortNames latestById.keys).filterMap fun id =>
    ((latestById.lookup id).filter fun doc => !isDeletedDoc doc).map fun doc => (id, doc)

/-- The result for the rows that are hashed. -/
def digestRows (codec : DigestCodec) (fence maxDocs : Nat) (rows : List (String × Json)) :
    LogicalDigest :=
  if maxDocs < rows.length then
    { status := "TRUNCATED", truncated := true, count := rows.length, fence, maxDocs }
  else
    { count := rows.length, fence, maxDocs
      digest := some (hexDigits (codec.sha256 (digestInput codec fence rows))) }

def logicalDigest (config : LsmConfig) (codec : DigestCodec) (s : Collection) (fence maxDocs : Nat) :
    Except String LogicalDigest :=
  if maxDocs = 0 then .ok { status := "INVALID_LIMIT", truncated := true, fence, maxDocs }
  else
    match publishedSsts config.codec s.dir with
    | .error reason => .error reason
    | .ok published =>
        match DigestScan.readSsts config fence maxDocs s.dir published {} with
        | .error reason => .error reason
        | .ok scanned =>
            let scan := s.memoryRows.foldl (DigestScan.consider config fence maxDocs) scanned
            if !scan.latest.noIdDocs.isEmpty then
              .ok { status := "INVALID_ROW", invalidRows := some scan.latest.noIdDocs.length, fence,
                    maxDocs }
            else if scan.truncated then
              .ok { status := "TRUNCATED", truncated := true,
                    count := scan.latest.latestById.keys.length, fence, maxDocs }
            else .ok (digestRows codec fence maxDocs (liveRows scan.latest.latestById))

/-! ## What the digest depends on -/

/-- The scan has not stopped, and the ids it holds are among the given ones. -/
structure DigestScan.Within (ids : List String) (scan : DigestScan) : Prop where
  whole : scan.truncated = false
  keyed : scan.latest.noIdDocs = []
  known : ∀ id ∈ scan.latest.latestById.keys, id ∈ ids

/-- A row the digest takes in: visible at the fence and filed under one of the ids. -/
def TakenRow (config : LsmConfig) (fence : Nat) (ids : List String) (row : Json) : Prop :=
  visibleAtFence fence row = true ∧ ∃ id ∈ ids, rowKey config row = some id

section Scan

variable {fence maxDocs : Nat} {ids : List String} {scan : DigestScan}

theorem mem_keys_upsertNewer {table : Memtable} {id other : String} {row : Json}
    (member : other ∈ (upsertNewer table id row).keys) : other = id ∨ other ∈ table.keys := by
  by_cases same : other = id
  · exact .inl same
  · refine .inr ?_
    rw [← AList.mem_keys, ← AList.lookup_isSome] at member ⊢
    rwa [lookup_upsertNewer, if_neg same] at member

theorem DigestScan.Within.length_le {table : Memtable} (known : ∀ id ∈ table.keys, id ∈ ids) :
    table.keys.length ≤ ids.length :=
  (List.subperm_of_subset table.nodupKeys known).length_le

theorem DigestScan.Within.consider (within : scan.Within ids) (fits : ids.length ≤ maxDocs) {row : Json}
    (taken : TakenRow config fence ids row) :
    scan.consider config fence maxDocs row = ⟨mergeLatestById config scan.latest row, false⟩ ∧
      (scan.consider config fence maxDocs row).Within ids := by
  obtain ⟨visible, id, isId, key⟩ := taken
  have going : scan.stopped = false := by
    rw [stopped, within.whole, within.keyed]
    rfl
  have merged : mergeLatestById config scan.latest row =
      ⟨upsertNewer scan.latest.latestById id row, []⟩ := by
    rw [mergeLatestById, key, ← within.keyed]
  have known : ∀ other ∈ (upsertNewer scan.latest.latestById id row).keys, other ∈ ids := by
    intro other member
    rcases mem_keys_upsertNewer member with rfl | old
    · exact isId
    · exact within.known other old
  have room : ¬maxDocs < (upsertNewer scan.latest.latestById id row).keys.length :=
    not_lt.mpr ((length_le known).trans fits)
  have result : scan.consider config fence maxDocs row =
      ⟨mergeLatestById config scan.latest row, false⟩ := by
    rw [DigestScan.consider, going, visible, merged]
    simp [room]
  refine ⟨result, ?_⟩
  rw [result, merged]
  exact ⟨rfl, rfl, known⟩

theorem DigestScan.Within.foldl (within : scan.Within ids) (fits : ids.length ≤ maxDocs)
    {rows : List Json} (taken : ∀ row ∈ rows, TakenRow config fence ids row) :
    rows.foldl (DigestScan.consider config fence maxDocs) scan =
        ⟨rows.foldl (mergeLatestById config) scan.latest, false⟩ ∧
      (rows.foldl (DigestScan.consider config fence maxDocs) scan).Within ids := by
  induction rows generalizing scan with
  | nil =>
    refine ⟨?_, within⟩
    rw [List.foldl_nil, List.foldl_nil, ← within.whole]
  | cons row rows ih =>
    obtain ⟨first, rest⟩ := List.forall_mem_cons.mp taken
    obtain ⟨next, nextWithin⟩ := within.consider fits first
    obtain ⟨last, lastWithin⟩ := ih nextWithin rest
    rw [List.foldl_cons, List.foldl_cons]
    refine ⟨?_, lastWithin⟩
    rw [last, next]

theorem DigestScan.Within.readSsts (within : scan.Within ids) (fits : ids.length ≤ maxDocs)
    {dir : LsmDir} {names : List String}
    (bodies : ∀ name ∈ names, ∃ rows, dir.lookup name = some (.sst rows))
    (taken : ∀ name ∈ names, ∀ row ∈ sstRows dir name, TakenRow config fence ids row) :
    ∃ last, DigestScan.readSsts config fence maxDocs dir names scan = .ok last ∧ last.Within ids ∧
      last.latest = (names.flatMap (sstRows dir)).foldl (mergeLatestById config) scan.latest := by
  induction names generalizing scan with
  | nil => exact ⟨scan, rfl, within, rfl⟩
  | cons name rest ih =>
    obtain ⟨⟨rows, body⟩, restBodies⟩ := List.forall_mem_cons.mp bodies
    obtain ⟨first, restTaken⟩ := List.forall_mem_cons.mp taken
    have own : sstRows dir name = rows := by rw [sstRows, body]
    rw [own] at first
    obtain ⟨next, nextWithin⟩ := within.foldl fits first
    have going : (rows.foldl (DigestScan.consider config fence maxDocs) scan).stopped = false := by
      rw [stopped, nextWithin.whole, nextWithin.keyed]
      rfl
    obtain ⟨last, reads, lastWithin, latest⟩ := ih nextWithin restBodies restTaken
    refine ⟨last, ?_, lastWithin, ?_⟩
    · rw [DigestScan.readSsts, scanSst, body]
      dsimp only
      rw [going]
      exact reads
    · rw [latest, next, List.flatMap_cons, List.foldl_append, own]

end Scan

/-- The hashed rows are the documents that are not tombstones, strictly in id order. -/
theorem mem_liveRows {table : Memtable} {row : String × Json} :
    row ∈ liveRows table ↔ table.lookup row.1 = some row.2 ∧ isDeletedDoc row.2 = false := by
  rw [liveRows, List.mem_filterMap]
  constructor
  · rintro ⟨id, -, found⟩
    obtain ⟨doc, isDoc, rfl⟩ := Option.map_eq_some_iff.mp found
    obtain ⟨looked, alive⟩ := Option.filter_eq_some_iff.mp isDoc
    exact ⟨looked, by simpa using alive⟩
  · rintro ⟨looked, alive⟩
    refine ⟨row.1, ?_, ?_⟩
    · rw [mem_sortNames, ← AList.mem_keys, ← AList.lookup_isSome, looked]
      rfl
    · rw [looked]
      simp [alive]

theorem pairwise_liveRows (table : Memtable) :
    (liveRows table).Pairwise fun row next => row.1 < next.1 := by
  refine List.pairwise_filterMap.mpr ((pairwise_sortNames table.nodupKeys).imp ?_)
  intro id other below row isRow next isNext
  obtain ⟨_, -, rfl⟩ := Option.map_eq_some_iff.mp isRow
  obtain ⟨_, -, rfl⟩ := Option.map_eq_some_iff.mp isNext
  exact below

theorem liveRows_eq {table other : Memtable} (same : ∀ id doc, isDeletedDoc doc = false →
      (table.lookup id = some doc ↔ other.lookup id = some doc)) :
    liveRows table = liveRows other := by
  refine (pairwise_liveRows table).eq_of_mem_iff (pairwise_liveRows other) fun row => ?_
  rw [mem_liveRows, mem_liveRows]
  exact and_congr_left fun alive => same row.1 row.2 alive

/-- The rows the digest scans when the published SSTs are `names`. -/
def Collection.scannedRows (s : Collection) (names : List String) : List Json :=
  names.flatMap (sstRows s.dir) ++ s.memoryRows

theorem logicalDigest_of_rows {codec : DigestCodec} {s : Collection} {fence maxDocs : Nat}
    {names ids : List String} (published : publishedSsts config.codec s.dir = .ok names)
    (bodies : ∀ name ∈ names, ∃ rows, s.dir.lookup name = some (.sst rows))
    (taken : ∀ row ∈ s.scannedRows names, TakenRow config fence ids row)
    (fits : ids.length ≤ maxDocs) (limit : maxDocs ≠ 0) :
    logicalDigest config codec s fence maxDocs = .ok (digestRows codec fence maxDocs
      (liveRows ((s.scannedRows names).foldl (mergeLatestById config) {}).latestById)) := by
  have empty : DigestScan.Within ids {} := by
    refine ⟨rfl, rfl, ?_⟩
    rintro id ⟨⟩
  obtain ⟨scanned, reads, within, latest⟩ := empty.readSsts fits bodies fun name member row isRow =>
    taken row (List.mem_append_left _ (List.mem_flatMap.mpr ⟨name, member, isRow⟩))
  obtain ⟨memory, last⟩ := within.foldl fits fun row member =>
    taken row (List.mem_append_right _ member)
  have whole := last.keyed
  rw [memory] at whole
  have all : s.memoryRows.foldl (mergeLatestById config) scanned.latest =
      (s.scannedRows names).foldl (mergeLatestById config) {} := by
    rw [Collection.scannedRows, List.foldl_append, latest]
  dsimp only at whole
  rw [all] at memory whole
  rw [logicalDigest, if_neg limit, published]
  dsimp only
  rw [reads]
  dsimp only
  rw [memory]
  dsimp only
  rw [whole]
  rfl

/-- Two collections whose live rows agree id by id have the same digest. -/
theorem logicalDigest_congr {codec : DigestCodec} {s t : Collection} {fence maxDocs : Nat}
    {names others ids : List String} {live : String → Json → Prop}
    (published : publishedSsts config.codec s.dir = .ok names)
    (bodies : ∀ name ∈ names, ∃ rows, s.dir.lookup name = some (.sst rows))
    (taken : ∀ row ∈ s.scannedRows names, TakenRow config fence ids row)
    (otherPublished : publishedSsts config.codec t.dir = .ok others)
    (otherBodies : ∀ name ∈ others, ∃ rows, t.dir.lookup name = some (.sst rows))
    (otherTaken : ∀ row ∈ t.scannedRows others, TakenRow config fence ids row)
    (fits : ids.length ≤ maxDocs) (limit : maxDocs ≠ 0)
    (shows : ∀ id doc, isDeletedDoc doc = false →
      (lastMax docScore (rowsOf config id (s.scannedRows names)) = some doc ↔ live id doc))
    (otherShows : ∀ id doc, isDeletedDoc doc = false →
      (lastMax docScore (rowsOf config id (t.scannedRows others)) = some doc ↔ live id doc)) :
    logicalDigest config codec s fence maxDocs = logicalDigest config codec t fence maxDocs := by
  rw [logicalDigest_of_rows published bodies taken fits limit,
    logicalDigest_of_rows otherPublished otherBodies otherTaken fits limit]
  have rows : liveRows ((s.scannedRows names).foldl (mergeLatestById config) {}).latestById =
      liveRows ((t.scannedRows others).foldl (mergeLatestById config) {}).latestById := by
    refine liveRows_eq fun id doc alive => ?_
    rw [lookup_latestById, lookup_latestById, shows id doc alive, otherShows id doc alive]
  rw [rows]

/-! ## The encoding -/

/-- A length or a number in one of its widths: the value itself next to `short` when it is
below `limit`, and the tag before 1, 2, 4 or 8 bytes otherwise. -/
def msgpackHead (limit short : Nat) (tags : List (Nat × Nat)) (value : Nat) : List Nat :=
  if value < limit then [short + value]
  else
    match tags.find? fun tag => decide (value < 256 ^ tag.1) with
    | some (width, tag) => tag :: Sha256.beBytes width value
    | none => []

def msgpackUnsigned (value : Nat) : List Nat :=
  msgpackHead 128 0 [(1, 0xcc), (2, 0xcd), (4, 0xce), (8, 0xcf)] value

def msgpackInteger (value : Int) : List Nat :=
  if 0 ≤ value then msgpackUnsigned value.toNat
  else if -32 ≤ value then [(256 + value).toNat]
  else
    match [(1, 0xd0), (2, 0xd1), (4, 0xd2), (8, 0xd3)].find? fun tag : Nat × Nat =>
      decide (-(256 ^ tag.1 : Int) ≤ 2 * value) with
    | some (width, tag) => tag :: Sha256.beBytes width ((256 ^ width : Int) + value).toNat
    | none => []

def msgpackText (text : String) : List Nat :=
  msgpackHead 32 0xa0 [(1, 0xd9), (2, 0xda), (4, 0xdb)] (textBytes text).length ++ textBytes text

mutual

/-- `json::to_msgpack`. Objects are maps in key order; a float is written as a double. -/
def toMsgpack : Json → List Nat
  | .null => [0xc0]
  | .bool value => [if value then 0xc3 else 0xc2]
  | .integer value => msgpackInteger value
  | .unsigned value => msgpackUnsigned value
  | .float bits => 0xcb :: Sha256.beBytes 8 bits
  | .string value => msgpackText value
  | .array items => msgpackHead 16 0x90 [(2, 0xdc), (4, 0xdd)] items.length ++ msgpackItems items
  | .object members =>
      msgpackHead 16 0x80 [(2, 0xde), (4, 0xdf)] members.length ++
        ((msgpackMembers members).insertionSort fun member next => member.1 ≤ next.1).flatMap
          fun member => msgpackText member.1 ++ member.2

def msgpackItems : List Json → List Nat
  | [] => []
  | item :: items => toMsgpack item ++ msgpackItems items

def msgpackMembers : List (String × Json) → List (String × List Nat)
  | [] => []
  | (name, value) :: members => (name, toMsgpack value) :: msgpackMembers members

end

/-- The libraries the engine is built with. -/
def msgpackSha256 : DigestCodec := { toMsgpack, sha256 := Sha256.hash }

end PacificDb.Lsm
