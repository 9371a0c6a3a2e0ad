import PacificDb.Lib.SortedMap
import PacificDb.Raft.LogRewrite

/-!
# The term cache and the offset cache

`getTermForIndex` and `readRaftEntriesRange` read `log.bin` through two caches: the term of an
index, and the offset of its record. Appends and reads fill them, rewrites of the log clear them.

A reader holds the file that it opened, which a rewrite may replace while it reads. It goes on to
put what it reads into the caches. The files that the name `log.bin` has stood for are numbered
here, and a rewrite takes the steps that others can come between.
-/

namespace PacificDb.Raft

open Lib

/-! ## The caches -/

/-- `termCache_` and `logOffsetCache_`. -/
structure TermCache where
  terms : SortedMap Nat Nat := .empty
  offsets : SortedMap Nat Nat := .empty

namespace TermCache

def highest (cache : TermCache) : Nat :=
  ((cache.terms.entries ++ cache.offsets.entries).map Prod.fst).foldl max 0

def dropBelow (cutoff : Nat) (map : SortedMap Nat Nat) : SortedMap Nat Nat :=
  ⟨map.entries.filter fun entry => cutoff ≤ entry.1, map.sorted.filter _⟩

/-- The lower half goes where a cache is full. -/
def evict (cap : Nat) (cache : TermCache) : TermCache :=
  if cap ≤ cache.terms.entries.length ∨ cap ≤ cache.offsets.entries.length then
    let cutoff := cache.highest - cap / 2
    ⟨dropBelow cutoff cache.terms, dropBelow cutoff cache.offsets⟩
  else cache

def cacheIndexTermAndOffset (cap : Nat) (cache : TermCache) (index term offset : Nat) : TermCache :=
  if index = 0 then cache
  else
    let kept := cache.evict cap
    { terms := if term ≠ 0 then kept.terms.assign index term else kept.terms
      offsets := kept.offsets.assign index offset }

def cacheRecords (cap : Nat) : TermCache → Nat → List (Entry Bytes) → TermCache
  | cache, _, [] => cache
  | cache, offset, record :: records =>
      cacheRecords cap (cache.cacheIndexTermAndOffset cap record.index record.term offset)
        (offset + record.bytes.length) records

/-- Stops at the first size out of bounds, and at a record that is cut short. -/
def cacheRaftRecordBlock (cap : Nat) (cache : TermCache) (bytes : Bytes) (startOffset : Nat) : TermCache :=
  cache.cacheRecords cap startOffset (parse validSize bytes).1

end TermCache

/-! ## What the log says -/

/-- Readers take any size. -/
def anySize : Nat → Bool := fun _ => true

def logRecord (log : Bytes) (index : Nat) : Option (Entry Bytes) :=
  (parse anySize log).1.find? fun record => record.index = index

/-- The term of an index after a full parse of the log. The snapshot is its index and its term. -/
def logTerm (snapshot : Nat × Nat) (log : Bytes) (index : Nat) : Nat :=
  if index = 0 then 0
  else if 0 < snapshot.1 ∧ index = snapshot.1 ∧ 0 < snapshot.2 then snapshot.2
  else ((logRecord log index).map Entry.term).getD 0

/-- The payloads and terms of a range after a full parse of the log. -/
def logRange {Value : Type} (decode : Bytes → Option Value) (log : Bytes) (fromIndex toIndex : Nat) :
    List (Value × Nat) :=
  if fromIndex = 0 ∨ toIndex < fromIndex then []
  else
    ((List.range' fromIndex (toIndex + 1 - fromIndex)).mapM fun index => do
      let record ← logRecord log index
      let value ← decode record.payload
      return (value, record.term)).getD []

/-! ## Readers -/

/-- The index, the term and the size of a record. -/
def readHeader (bytes : Bytes) : Option (Nat × Nat × Nat) :=
  if bytes.length < 20 then none
  else some (readLe (bytes.take 8), readLe ((bytes.drop 8).take 8), readLe ((bytes.drop 16).take 4))

inductive Query where
  | term (index : Nat)
  | range (fromIndex toIndex : Nat)

/-- A scan that is under way. A range has collected the entries before the index it expects. -/
structure Reader (Value : Type) where
  query : Query
  log : Nat
  position : Nat
  snapshot : Nat × Nat
  entries : List (Value × Nat) := []

/-- An answer, with the log that was read as it was then. -/
inductive Answered (Value : Type) where
  | term (index result : Nat) (snapshot : Nat × Nat) (log : Bytes)
  | range (fromIndex toIndex : Nat) (result : List (Value × Nat)) (log : Bytes)

/-- The answer is that of a full parse. -/
def Answered.Exact {Value : Type} (decode : Bytes → Option Value) : Answered Value → Prop
  | .term index result snapshot log => result = logTerm snapshot log index
  | .range fromIndex toIndex result log => result = logRange decode log fromIndex toIndex

/-! ## Runs -/

/-- A rewrite holds `logMutex_` from the reset of the handle until the caches are cleared. -/
inductive RewritePhase where
  | idle
  | reset (rewrite : Rewrite)
  | renamed

structure CachedLog (Value : Type) where
  logs : Nat → Bytes := fun _ => []
  current : Nat := 0
  /-- The file that `PersistentRaftLog` has open. -/
  handle : Option Nat := none
  phase : RewritePhase := .idle
  cache : TermCache := {}
  lastIndex : Nat := 0
  snapshot : Nat × Nat := (0, 0)
  readers : List (Reader Value) := []
  answers : List (Answered Value) := []

inductive CacheEvent where
  | append (first : Nat) (entries : List (Nat × Bytes))
  /-- Only so many bytes get into the file. -/
  | appendFails (first : Nat) (entries : List (Nat × Bytes)) (persisted : Nat)
  | sync
  | rewrite (rewrite : Rewrite)
  | rename
  | invalidateTermCache
  | snapshot (index term : Nat)
  | restart
  | getTermForIndex (index : Nat)
  | readRaftEntriesRange (fromIndex toIndex : Nat)
  | advance (reader : Nat)

namespace CachedLog

variable {Value : Type} (cap : Nat) (decode : Bytes → Option Value)

def log (s : CachedLog Value) : Bytes := s.logs s.current

def answer (s : CachedLog Value) (answered : Answered Value) : CachedLog Value :=
  { s with answers := s.answers ++ [answered] }

/-- The records of an append, numbered from its first index. -/
def numberFrom (first : Nat) (entries : List (Nat × Bytes)) : List (Entry Bytes) :=
  entries.mapIdx fun k entry => { index := first + k, term := entry.1, payload := entry.2 }

/-- `appendRaftLog` and the caching of the block. The bytes go to the file that is open. -/
def append (s : CachedLog Value) (first : Nat) (entries : List (Nat × Bytes)) : CachedLog Value :=
  let records := numberFrom first entries
  let target := s.handle.getD s.current
  { s with
    logs := Function.update s.logs target (s.logs target ++ recordBytes records)
    handle := some target
    cache := s.cache.cacheRaftRecordBlock cap (recordBytes records) (s.logs target).length
    lastIndex := records.foldl (fun last record => max last record.index) s.lastIndex }

/-- An append that fails: nothing is cached, and the last index stays. -/
def appendFails (s : CachedLog Value) (first : Nat) (entries : List (Nat × Bytes)) (persisted : Nat) :
    CachedLog Value :=
  let target := s.handle.getD s.current
  { s with
    logs := Function.update s.logs target
      (s.logs target ++ (recordBytes (numberFrom first entries)).take persisted)
    handle := some target }

/-- The copy takes the place of the log. A truncation moves the last index back. -/
def rename (s : CachedLog Value) (rewrite : Rewrite) : CachedLog Value :=
  let kept := rewrite.kept (parse anySize s.log).1
  let last := (kept.getLast?.map Entry.index).getD 0
  { s with
    logs := Function.update s.logs (s.current + 1) (recordBytes kept)
    current := s.current + 1
    phase := .renamed
    lastIndex :=
      match rewrite with
      | .truncate _ => if s.snapshot.1 ≤ last then last else s.snapshot.1
      | _ => s.lastIndex }

/-- A new process caches what it loads. -/
def restart (s : CachedLog Value) : CachedLog Value :=
  { s with
    handle := none
    phase := .idle
    cache := ({} : TermCache).cacheRaftRecordBlock cap s.log 0
    lastIndex := (parse validSize s.log).1.foldl (fun last record => max last record.index) s.snapshot.1
    readers := [] }

def getTermForIndex (s : CachedLog Value) (index : Nat) : CachedLog Value :=
  let (lastSnapshotIndex, lastSnapshotTerm) := s.snapshot
  if index = 0 then s.answer (.term index 0 s.snapshot s.log)
  else if 0 < lastSnapshotIndex ∧ index = lastSnapshotIndex ∧ 0 < lastSnapshotTerm then
    s.answer (.term index lastSnapshotTerm s.snapshot s.log)
  else
    match s.cache.terms.find? index with
    | some term => s.answer (.term index term s.snapshot s.log)
    | none => { s with readers := s.readers ++ [⟨.term index, s.current, 0, s.snapshot, []⟩] }

/-- The reader starts at the cached offset, if there is one. -/
def readRaftEntriesRange (s : CachedLog Value) (fromIndex toIndex : Nat) : CachedLog Value :=
  if fromIndex = 0 ∨ toIndex < fromIndex then s.answer (.range fromIndex toIndex [] s.log)
  else
    let position := (s.cache.offsets.find? fromIndex).getD 0
    { s with
      readers := s.readers ++ [⟨.range fromIndex toIndex, s.current, position, s.snapshot, []⟩] }

/-- What a scan does with one record. -/
inductive Scanned (Value : Type) where
  | onward (reader : Reader Value)
  | done (answered : Answered Value)

/-- The check behind the loop of a range. -/
def finishRange (fromIndex toIndex : Nat) (entries : List (Value × Nat)) (log : Bytes) : Scanned Value :=
  .done (.range fromIndex toIndex (if fromIndex + entries.length = toIndex + 1 then entries else []) log)

/-- One round of the loop of `getTermForIndex`; the payload is passed over. The second part is what
is cached. -/
def scanTerm (reader : Reader Value) (log : Bytes) (index : Nat) : Scanned Value × Option (Nat × Nat) :=
  match readHeader (log.drop reader.position) with
  | none => (.done (.term index 0 reader.snapshot log), none)
  | some (idx, term, size) =>
      (if idx = index then .done (.term index term reader.snapshot log)
        else .onward { reader with position := reader.position + (20 + size) },
        some (idx, term))

/-- One round of the loop of `readRaftEntriesRange`. -/
def scanRange (reader : Reader Value) (log : Bytes) (fromIndex toIndex : Nat) :
    Scanned Value × Option (Nat × Nat) :=
  match readRecord anySize (log.drop reader.position) with
  | .record record _ =>
      let position := reader.position + record.bytes.length
      (if record.index < fromIndex then .onward { reader with position }
        else if toIndex < record.index then finishRange fromIndex toIndex reader.entries log
        else if record.index ≠ fromIndex + reader.entries.length then
          .done (.range fromIndex toIndex [] log)
        else
          match decode record.payload with
          | some value =>
              .onward { reader with position, entries := reader.entries ++ [(value, record.term)] }
          | none => finishRange fromIndex toIndex reader.entries log,
        some (record.index, record.term))
  | _ => (finishRange fromIndex toIndex reader.entries log, none)

def scan (reader : Reader Value) (log : Bytes) : Scanned Value × Option (Nat × Nat) :=
  match reader.query with
  | .term index => scanTerm reader log index
  | .range fromIndex toIndex => scanRange decode reader log fromIndex toIndex

/-- A reader takes a record. -/
def advance (s : CachedLog Value) (place : Nat) (reader : Reader Value) : CachedLog Value :=
  let (scanned, cached) := scan decode reader (s.logs reader.log)
  let cache :=
    match cached with
    | some (index, term) => s.cache.cacheIndexTermAndOffset cap index term reader.position
    | none => s.cache
  match scanned with
  | .onward reader => { s with cache, readers := s.readers.set place reader }
  | .done answered => { s with cache, readers := s.readers.eraseIdx place }.answer answered

/-- Writers, rewrites and the opening of a range need `logMutex_`; appended records come behind the
last index. -/
def step (s : CachedLog Value) : CacheEvent → Option (CachedLog Value)
  | .append first entries =>
      match s.phase with
      | .idle =>
          if s.lastIndex < first ∧ ∀ record ∈ numberFrom first entries, record.Fits then
            some (s.append cap first entries)
          else none
      | _ => none
  | .appendFails first entries persisted =>
      match s.phase with
      | .idle => some (s.appendFails first entries persisted)
      | _ => none
  | .sync => some { s with handle := some (s.handle.getD s.current) }
  | .rewrite rewrite =>
      match s.phase with
      | .idle => some { s with phase := .reset rewrite, handle := none }
      | _ => none
  | .rename =>
      match s.phase with
      | .reset rewrite => some (s.rename rewrite)
      | _ => none
  | .invalidateTermCache =>
      match s.phase with
      | .renamed => some { s with phase := .idle, cache := {} }
      | _ => none
  | .snapshot index term =>
      if s.snapshot.1 ≤ index then
        some { s with snapshot := (index, term), lastIndex := max s.lastIndex index }
      else none
  | .restart => some (s.restart cap)
  | .getTermForIndex index => some (s.getTermForIndex index)
  | .readRaftEntriesRange fromIndex toIndex =>
      match s.phase with
      | .idle => some (s.readRaftEntriesRange fromIndex toIndex)
      | _ => if fromIndex = 0 ∨ toIndex < fromIndex then some (s.readRaftEntriesRange fromIndex toIndex) else none
  | .advance place => s.readers[place]?.map fun reader => s.advance cap decode place reader

/-- Appends go to the log. -/
def AppendsToLog (s : CachedLog Value) : Prop := ∀ log, s.handle = some log → log = s.current

/-- What a reader caches of a file that is not the log any more is in the log at the same offset,
appends go to the log and behind a whole record, one that fails leaves less than a header, and no
term is taken from the caches between a rename and their clearing. -/
def KeepsCaches (s : CachedLog Value) : CacheEvent → Prop
  | .append _ _ => s.AppendsToLog ∧ (parse anySize s.log).2 = []
  | .appendFails _ _ persisted => s.AppendsToLog ∧ (parse anySize s.log).2 = [] ∧ persisted < 20
  | .getTermForIndex index => s.phase = .renamed → s.cache.terms.find? index = none
  | .advance place => s.phase = .renamed ∨ ∀ reader, s.readers[place]? = some reader →
      reader.log = s.current ∨ ∀ index term, (scan decode reader (s.logs reader.log)).2 = some (index, term) →
        ∃ before record after, (parse anySize s.log).1 = before ++ record :: after ∧
          record.index = index ∧ record.term = term ∧ reader.position = (recordBytes before).length
  | _ => True

end CachedLog

end PacificDb.Raft
