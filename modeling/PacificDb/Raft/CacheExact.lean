import PacificDb.Lib.Machine
import PacificDb.Raft.Follower
import PacificDb.Raft.TermCache

/-!
# The caches and the log

In a run where readers cache only what is still in place in the log, every answer is that of a full
parse (`answers_exact`). A reader that a compaction overtakes caches offsets of the old file, and the
next range that starts there finds nothing (`overtaken_reader_loses_range`).
-/

namespace PacificDb.Raft

open Lib

/-! ## Logs with whole records -/

/-- The bytes of records whose indexes rise, and perhaps part of a header behind them. -/
structure IsLog (log : Bytes) (records : List (Entry Bytes)) : Prop where
  bytes : ∃ torn : Bytes, torn.length < 20 ∧ log = recordBytes records ++ torn
  fit : ∀ record ∈ records, record.Fits
  ascending : records.Pairwise fun first second => first.index < second.index
  positive : ∀ record ∈ records, 0 < record.index

namespace IsLog

variable {log : Bytes} {records : List (Entry Bytes)} {record : Entry Bytes} {index : Nat}

theorem nil : IsLog [] [] where
  bytes := ⟨[], by decide, rfl⟩
  fit _ absurd := by cases absurd
  ascending := .nil
  positive _ absurd := by cases absurd

theorem parse_torn {check : Nat → Bool} {torn : Bytes} (short : torn.length < 20) :
    Raft.parse check torn = ([], torn) := by
  refine parse_stop fun entry rest read => ?_
  have long := congrArg List.length (readRecord_eq_record read).1
  rw [List.length_append, Entry.length_bytes] at long
  omega

theorem parse (isLog : IsLog log records) {check : Nat → Bool}
    (valid : ∀ size, validSize size = true → check size = true) : (Raft.parse check log).1 = records := by
  obtain ⟨torn, short, rfl⟩ := isLog.bytes
  rw [parse_recordBytes valid isLog.fit, parse_torn short, List.append_nil]

theorem parseAny (isLog : IsLog log records) : (Raft.parse anySize log).1 = records :=
  isLog.parse fun _ _ => rfl

theorem bytes_of_whole (isLog : IsLog log records) (whole : (Raft.parse anySize log).2 = []) :
    log = recordBytes records := by
  have split := parse_bytes anySize log
  rwa [isLog.parseAny, whole, List.append_nil] at split

theorem sublist {kept : List (Entry Bytes)} (isLog : IsLog log records) (sub : kept.Sublist records) :
    IsLog (recordBytes kept) kept :=
  ⟨⟨[], by decide, (List.append_nil _).symm⟩, fun record member => isLog.fit record (sub.mem member),
    isLog.ascending.sublist sub, fun record member => isLog.positive record (sub.mem member)⟩

/-- Part of a header behind the last record changes nothing. -/
theorem tear (isLog : IsLog log records) (whole : (Raft.parse anySize log).2 = []) {torn : Bytes}
    (short : torn.length < 20) : IsLog (log ++ torn) records :=
  { isLog with bytes := ⟨torn, short, by rw [isLog.bytes_of_whole whole]⟩ }

theorem append {more : List (Entry Bytes)} (isLog : IsLog log records)
    (whole : (Raft.parse anySize log).2 = []) (fit : ∀ record ∈ more, record.Fits)
    (ascending : more.Pairwise fun first second => first.index < second.index) {last : Nat}
    (old : ∀ record ∈ records, record.index ≤ last) (new : ∀ record ∈ more, last < record.index) :
    IsLog (log ++ recordBytes more) (records ++ more) where
  bytes := ⟨[], by decide, by rw [isLog.bytes_of_whole whole, recordBytes_append, List.append_nil]⟩
  fit := List.forall_mem_append.mpr ⟨isLog.fit, fit⟩
  ascending := List.pairwise_append.mpr ⟨isLog.ascending, ascending,
    fun first isFirst second isSecond => (old first isFirst).trans_lt (new second isSecond)⟩
  positive := List.forall_mem_append.mpr
    ⟨isLog.positive, fun record member => Nat.zero_lt_of_lt (new record member)⟩

theorem unique (isLog : IsLog log records) {first second : Entry Bytes} (isFirst : first ∈ records)
    (isSecond : second ∈ records) (same : first.index = second.index) : first = second := by
  by_contra differ
  have distinct : records.Pairwise fun first second => first.index ≠ second.index :=
    isLog.ascending.imp fun below => below.ne
  have symmetric : Std.Symm fun first second : Entry Bytes => first.index ≠ second.index :=
    ⟨fun _ _ ne => ne.symm⟩
  exact distinct.forall isFirst isSecond differ same

theorem logRecord (isLog : IsLog log records) (member : record ∈ records) (isIndex : record.index = index) :
    Raft.logRecord log index = some record := by
  rw [Raft.logRecord, isLog.parseAny]
  cases found : records.find? fun record => record.index = index with
  | none =>
    have absent := List.find?_eq_none.mp found record member
    exact absurd (decide_eq_true isIndex) absent
  | some other =>
    have holds := List.find?_some found
    have same : other.index = index := of_decide_eq_true holds
    rw [isLog.unique (List.mem_of_find?_eq_some found) member (same.trans isIndex.symm)]

theorem logRecord_none (isLog : IsLog log records) (absent : ∀ record ∈ records, record.index ≠ index) :
    Raft.logRecord log index = none := by
  rw [Raft.logRecord, isLog.parseAny]
  apply List.find?_eq_none.mpr
  intro record member isIndex
  exact absent record member (of_decide_eq_true isIndex)

end IsLog

/-! ## Sound caches -/

/-- The record and its offset. -/
def InPlace (records : List (Entry Bytes)) (index term offset : Nat) : Prop :=
  ∃ before record after, records = before ++ record :: after ∧ record.index = index ∧ record.term = term ∧
    offset = (recordBytes before).length

/-- The caches say of the log what is in it. -/
structure TermCache.Sound (cache : TermCache) (records : List (Entry Bytes)) : Prop where
  terms : ∀ index term, cache.terms.find? index = some term → ∃ offset, InPlace records index term offset
  offsets : ∀ index offset, cache.offsets.find? index = some offset → ∃ term, InPlace records index term offset

theorem InPlace.append {records : List (Entry Bytes)} {index term offset : Nat}
    (inPlace : InPlace records index term offset) (more : List (Entry Bytes)) :
    InPlace (records ++ more) index term offset := by
  obtain ⟨before, record, after, rfl, facts⟩ := inPlace
  exact ⟨before, record, after ++ more, by rw [List.append_assoc, List.cons_append], facts⟩

namespace TermCache

variable {cache : TermCache} {records : List (Entry Bytes)} {cap index term offset : Nat}

theorem Sound.empty : Sound {} records where
  terms _ _ absurd := by cases absurd
  offsets _ _ absurd := by cases absurd

theorem Sound.append (sound : cache.Sound records) (more : List (Entry Bytes)) :
    cache.Sound (records ++ more) where
  terms index term found := (sound.terms index term found).imp fun _ inPlace => inPlace.append more
  offsets index offset found := (sound.offsets index offset found).imp fun _ inPlace => inPlace.append more

theorem find?_dropBelow {cutoff key value : Nat} {map : SortedMap Nat Nat}
    (found : (dropBelow cutoff map).find? key = some value) : map.find? key = some value :=
  SortedMap.find?_eq_some.mpr (List.mem_of_mem_filter (SortedMap.find?_eq_some.mp found))

theorem Sound.evict (sound : cache.Sound records) : (cache.evict cap).Sound records := by
  rw [TermCache.evict]
  split
  · exact ⟨fun index term found => sound.terms index term (find?_dropBelow found),
      fun index offset found => sound.offsets index offset (find?_dropBelow found)⟩
  · exact sound

theorem Sound.cacheIndexTermAndOffset (sound : cache.Sound records) (inPlace : InPlace records index term offset) :
    (cache.cacheIndexTermAndOffset cap index term offset).Sound records := by
  have kept := @Sound.evict cache records cap sound
  rw [TermCache.cacheIndexTermAndOffset]
  split
  · exact sound
  · refine ⟨fun key value found => ?_, fun key value found => ?_⟩
    · dsimp only at found
      split at found
      · rw [SortedMap.find?_assign] at found
        split at found
        next same =>
          cases found
          rw [same]
          exact ⟨offset, inPlace⟩
        · exact kept.terms key value found
      · exact kept.terms key value found
    · rw [SortedMap.find?_assign] at found
      split at found
      next same =>
        cases found
        rw [same]
        exact ⟨term, inPlace⟩
      · exact kept.offsets key value found

/-- What a scan has cached of a log is in it. -/
theorem Sound.cached {found : Option (Nat × Nat)} (sound : cache.Sound records)
    (inPlace : ∀ index term, found = some (index, term) → InPlace records index term offset) :
    (match found with
      | some (index, term) => cache.cacheIndexTermAndOffset cap index term offset
      | none => cache).Sound records := by
  split
  · exact sound.cacheIndexTermAndOffset (inPlace _ _ rfl)
  · exact sound

/-- Records that are cached from their offset on. -/
theorem Sound.cacheRecords {before block : List (Entry Bytes)} (sound : cache.Sound (before ++ block)) :
    (cache.cacheRecords cap (recordBytes before).length block).Sound (before ++ block) := by
  induction block generalizing cache before with
  | nil => exact sound
  | cons record block ih =>
    have next : (recordBytes (before ++ [record])).length =
        (recordBytes before).length + record.bytes.length := by
      rw [recordBytes_append, List.length_append]
      exact congrArg (_ + ·) (congrArg List.length (List.append_nil _))
    have split : before ++ record :: block = before ++ [record] ++ block := by
      rw [List.append_assoc, List.singleton_append]
    have cached := @Sound.cacheIndexTermAndOffset cache _ cap _ _ _ sound
      ⟨before, record, block, rfl, rfl, rfl, rfl⟩
    rw [split] at cached
    rw [TermCache.cacheRecords, split, ← next]
    exact ih cached

theorem Sound.cacheRaftRecordBlock {before block : List (Entry Bytes)} (sound : cache.Sound before)
    (fit : ∀ record ∈ block, record.Fits) :
    (cache.cacheRaftRecordBlock cap (recordBytes block) (recordBytes before).length).Sound (before ++ block) := by
  have whole := @parse_recordBytes validSize [] block (fun _ valid => valid) fit
  rw [List.append_nil, parse_nil, List.append_nil] at whole
  rw [TermCache.cacheRaftRecordBlock, whole]
  exact Sound.cacheRecords (sound.append block)

end TermCache

/-! ## Sound readers -/

variable {Value : Type} {decode : Bytes → Option Value}

/-- Where a scan stands: the records before its position do not have what it looks for, or are what it
has collected. -/
def Scanning (decode : Bytes → Option Value) (reader : Reader Value) (before : List (Entry Bytes)) : Prop :=
  match reader.query with
  | .term index =>
      index ≠ 0 ∧ ¬(0 < reader.snapshot.1 ∧ index = reader.snapshot.1 ∧ 0 < reader.snapshot.2) ∧
        ∀ record ∈ before, record.index ≠ index
  | .range fromIndex toIndex =>
      fromIndex ≠ 0 ∧ fromIndex + reader.entries.length ≤ toIndex + 1 ∧
        (∀ record ∈ before, record.index < fromIndex + reader.entries.length) ∧
        ∀ k entry, reader.entries[k]? = some entry → ∃ record ∈ before, record.index = fromIndex + k ∧
          decode record.payload = some entry.1 ∧ record.term = entry.2

/-- A reader stands between two records of its file. -/
def Reader.Sound (decode : Bytes → Option Value) (log : Bytes) (reader : Reader Value) : Prop :=
  ∃ before after, IsLog log (before ++ after) ∧ reader.position = (recordBytes before).length ∧
    Scanning decode reader before

theorem drop_recordBytes {log : Bytes} {before after : List (Entry Bytes)} (isLog : IsLog log (before ++ after)) :
    ∃ torn : Bytes, torn.length < 20 ∧ log.drop (recordBytes before).length = recordBytes after ++ torn := by
  obtain ⟨torn, short, rfl⟩ := isLog.bytes
  exact ⟨torn, short, by rw [recordBytes_append, List.append_assoc, List.drop_left]⟩

theorem readRecord_cons {record : Entry Bytes} {after : List (Entry Bytes)} {torn : Bytes}
    (fits : record.Fits) :
    readRecord anySize (recordBytes (record :: after) ++ torn) = .record record (recordBytes after ++ torn) := by
  rw [recordBytes, List.map_cons, List.flatten_cons, List.append_assoc]
  exact readRecord_bytes fits rfl

theorem readRecord_short {torn : Bytes} (short : torn.length < 20) :
    readRecord anySize torn = .atEnd ∨ readRecord anySize torn = .cutHeader := by
  unfold readRecord
  split
  · exact .inl rfl
  · exact .inr rfl

/-- A whole record has its header. -/
theorem readHeader_of_record {bytes rest : Bytes} {record : Entry Bytes}
    (read : readRecord anySize bytes = .record record rest) :
    readHeader bytes = some (record.index, record.term, record.payload.length) := by
  have lengths := congrArg List.length (readRecord_eq_record read).1
  rw [List.length_append, Entry.length_bytes] at lengths
  rw [readRecord] at read
  dsimp only at read
  split at read
  · cases read
  split at read
  · cases read
  split at read
  · cases read
  split at read
  · cases read
  next long whole =>
    cases read
    rw [readHeader, if_neg (by omega), List.length_take, List.length_drop, min_eq_left (by omega)]

theorem length_record_append {before : List (Entry Bytes)} {record : Entry Bytes} :
    (recordBytes (before ++ [record])).length = (recordBytes before).length + record.bytes.length := by
  rw [recordBytes_append, List.length_append]
  exact congrArg (_ + ·) (congrArg List.length (List.append_nil _))

/-! ### Ranges of a log -/

theorem mapM_range'_some {α : Type} {f : Nat → Option α} {first : Nat} {values : List α}
    (each : ∀ k value, values[k]? = some value → f (first + k) = some value) :
    (List.range' first values.length).mapM f = some values := by
  induction values generalizing first with
  | nil => rfl
  | cons value values ih =>
    have here := each 0 value rfl
    have onward : ∀ k later, values[k]? = some later → f (first + 1 + k) = some later := by
      intro k later found
      rw [Nat.add_assoc, Nat.add_comm 1 k]
      exact each (k + 1) later found
    rw [Nat.add_zero] at here
    rw [List.length_cons, List.range'_succ, List.mapM_cons, here, ih onward]
    rfl

theorem mapM_eq_none_of_mem {α β : Type} {f : α → Option β} {items : List α} {item : α} (member : item ∈ items)
    (fails : f item = none) : items.mapM f = none := by
  induction items with
  | nil => cases member
  | cons head items ih =>
    rw [List.mapM_cons]
    rcases List.mem_cons.mp member with rfl | later
    · rw [fails]
      rfl
    · rw [ih later]
      cases f head <;> rfl

theorem logRange_whole {log : Bytes} {records : List (Entry Bytes)} (isLog : IsLog log records)
    {fromIndex toIndex : Nat} {entries : List (Value × Nat)} (positive : fromIndex ≠ 0)
    (ordered : fromIndex ≤ toIndex) (whole : fromIndex + entries.length = toIndex + 1)
    (each : ∀ k entry, entries[k]? = some entry → ∃ record ∈ records, record.index = fromIndex + k ∧
      decode record.payload = some entry.1 ∧ record.term = entry.2) :
    logRange decode log fromIndex toIndex = entries := by
  have size : toIndex + 1 - fromIndex = entries.length := by omega
  rw [logRange, if_neg (by omega), size, mapM_range'_some]
  · rfl
  · intro k entry found
    obtain ⟨record, member, isIndex, decodes, isTerm⟩ := each k entry found
    rw [isLog.logRecord member isIndex]
    change (decode record.payload).bind _ = _
    rw [decodes, isTerm]
    rfl

theorem logRange_missing {log : Bytes} {fromIndex toIndex index : Nat} (low : fromIndex ≤ index)
    (high : index ≤ toIndex)
    (missing : ∀ record, logRecord log index = some record → decode record.payload = none) :
    logRange decode log fromIndex toIndex = [] := by
  rw [logRange]
  split
  · rfl
  · have member : index ∈ List.range' fromIndex (toIndex + 1 - fromIndex) :=
      List.mem_range'_1.mpr ⟨low, by omega⟩
    rw [mapM_eq_none_of_mem member]
    · rfl
    · cases found : logRecord log index with
      | none => rfl
      | some record =>
        change (decode record.payload).bind _ = none
        rw [missing record found]
        rfl

/-! ### One round of a scan -/

/-- What a round goes on with, what it answers and what it caches. -/
structure ScanSound (decode : Bytes → Option Value) (log : Bytes) (reader : Reader Value)
    (scanned : CachedLog.Scanned Value × Option (Nat × Nat)) : Prop where
  onward : ∀ next, scanned.1 = .onward next → next.log = reader.log ∧ next.Sound decode log
  done : ∀ answered, scanned.1 = .done answered → answered.Exact decode
  cached : ∀ index term, scanned.2 = some (index, term) →
    InPlace (parse anySize log).1 index term reader.position

theorem scanTerm_sound {log : Bytes} {reader : Reader Value} {index : Nat}
    (isTerm : reader.query = .term index) (sound : reader.Sound decode log) :
    ScanSound decode log reader (CachedLog.scanTerm reader log index) := by
  obtain ⟨before, after, isLog, position, scanning⟩ := sound
  rw [Scanning, isTerm] at scanning
  obtain ⟨nonzero, beyond, absent⟩ := scanning
  obtain ⟨torn, short, rest⟩ := drop_recordBytes isLog
  rw [CachedLog.scanTerm, position, rest]
  cases after with
  | nil =>
    rw [show recordBytes [] ++ torn = torn from rfl, readHeader, if_pos short]
    refine ⟨fun _ absurd => (by cases absurd), fun answered isAnswer => ?_, fun _ _ absurd => (by cases absurd)⟩
    cases isAnswer
    rw [List.append_nil] at isLog
    change 0 = logTerm reader.snapshot log index
    rw [logTerm, if_neg nonzero, if_neg beyond, isLog.logRecord_none absent]
    rfl
  | cons record after =>
    have member : record ∈ before ++ record :: after := List.mem_append_right _ (.head _)
    rw [readHeader_of_record (readRecord_cons (isLog.fit record member))]
    refine ⟨fun next isNext => ?_, fun answered isAnswer => ?_, fun idx term isCached => ?_⟩
    · dsimp only at isNext
      split at isNext
      · cases isNext
      next differs =>
        cases isNext
        refine ⟨rfl, before ++ [record], after, ?_, ?_, ?_⟩
        · rw [List.append_assoc, List.singleton_append]
          exact isLog
        · rw [length_record_append, record.length_bytes, ← position]
        · rw [Scanning]
          dsimp only
          rw [isTerm]
          refine ⟨nonzero, beyond, fun earlier isEarlier => ?_⟩
          rcases List.mem_append.mp isEarlier with old | new
          · exact absent earlier old
          · rw [List.mem_singleton.mp new]
            exact differs
    · dsimp only at isAnswer
      split at isAnswer
      next same =>
        cases isAnswer
        change record.term = logTerm reader.snapshot log index
        rw [logTerm, if_neg nonzero, if_neg beyond, isLog.logRecord member same]
        rfl
      · cases isAnswer
    · cases isCached
      rw [isLog.parseAny]
      exact ⟨before, record, after, rfl, rfl, rfl, position⟩

/-- The check behind the loop, where the index that is expected is not in the log if it is missing. -/
theorem finishRange_exact {log : Bytes} {records : List (Entry Bytes)} (isLog : IsLog log records)
    {fromIndex toIndex : Nat} {entries : List (Value × Nat)} (positive : fromIndex ≠ 0)
    (inside : fromIndex + entries.length ≤ toIndex + 1)
    (each : ∀ k entry, entries[k]? = some entry → ∃ record ∈ records, record.index = fromIndex + k ∧
      decode record.payload = some entry.1 ∧ record.term = entry.2)
    (missing : fromIndex + entries.length ≤ toIndex →
      ∀ record, logRecord log (fromIndex + entries.length) = some record → decode record.payload = none) :
    (if fromIndex + entries.length = toIndex + 1 then entries else []) =
      logRange decode log fromIndex toIndex := by
  split
  next whole =>
    by_cases ordered : fromIndex ≤ toIndex
    · exact (logRange_whole isLog positive ordered whole each).symm
    · have none : entries = [] := List.length_eq_zero_iff.mp (by omega)
      rw [none, logRange, if_pos (by omega)]
  next short =>
    have low : fromIndex ≤ fromIndex + entries.length := Nat.le_add_right _ _
    exact (logRange_missing low (by omega) (missing (by omega))).symm

/-- A record before the range is passed over. -/
theorem Scanning.pass {reader : Reader Value} {before : List (Entry Bytes)} {record : Entry Bytes}
    {fromIndex toIndex position : Nat} (isRange : reader.query = .range fromIndex toIndex)
    (scanning : Scanning decode reader before) (early : record.index < fromIndex) :
    Scanning decode { reader with position } (before ++ [record]) := by
  rw [Scanning, isRange] at scanning
  obtain ⟨positive, inside, below, each⟩ := scanning
  rw [Scanning]
  dsimp only
  rw [isRange]
  refine ⟨positive, inside, fun earlier isEarlier => ?_, fun k entry isEntry => ?_⟩
  · rcases List.mem_append.mp isEarlier with old | new
    · exact below earlier old
    · rw [List.mem_singleton.mp new]
      exact early.trans_le (Nat.le_add_right _ _)
  · obtain ⟨earlier, isEarlier, facts⟩ := each k entry isEntry
    exact ⟨earlier, List.mem_append_left _ isEarlier, facts⟩

/-- The record that is expected is collected. -/
theorem Scanning.collect {reader : Reader Value} {before : List (Entry Bytes)} {record : Entry Bytes}
    {fromIndex toIndex position : Nat} {value : Value} (isRange : reader.query = .range fromIndex toIndex)
    (scanning : Scanning decode reader before) (isIndex : record.index = fromIndex + reader.entries.length)
    (high : record.index ≤ toIndex) (decodes : decode record.payload = some value) :
    Scanning decode { reader with position, entries := reader.entries ++ [(value, record.term)] }
      (before ++ [record]) := by
  rw [Scanning, isRange] at scanning
  obtain ⟨positive, -, below, each⟩ := scanning
  rw [Scanning]
  dsimp only
  rw [isRange, List.length_append, List.length_singleton]
  refine ⟨positive, by omega, fun earlier isEarlier => ?_, fun k entry isEntry => ?_⟩
  · rcases List.mem_append.mp isEarlier with old | new
    · exact (below earlier old).trans (Nat.lt_succ_self _)
    · rw [List.mem_singleton.mp new, isIndex]
      exact Nat.lt_succ_self _
  · rcases Nat.lt_or_ge k reader.entries.length with old | new
    · rw [List.getElem?_append_left old] at isEntry
      obtain ⟨earlier, isEarlier, facts⟩ := each k entry isEntry
      exact ⟨earlier, List.mem_append_left _ isEarlier, facts⟩
    · obtain ⟨bound, isEntry⟩ := List.getElem?_eq_some_iff.mp isEntry
      rw [List.length_append, List.length_singleton] at bound
      obtain rfl : k = reader.entries.length := by omega
      rw [List.getElem_concat_length rfl] at isEntry
      cases isEntry
      exact ⟨record, List.mem_append_right _ (.head _), isIndex, decodes, rfl⟩

theorem scanRange_sound {log : Bytes} {reader : Reader Value} {fromIndex toIndex : Nat}
    (isRange : reader.query = .range fromIndex toIndex) (sound : reader.Sound decode log) :
    ScanSound decode log reader (CachedLog.scanRange decode reader log fromIndex toIndex) := by
  obtain ⟨before, after, isLog, position, scanning⟩ := sound
  have facts := scanning
  rw [Scanning, isRange] at facts
  obtain ⟨positive, inside, below, each⟩ := facts
  have found : ∀ k entry, reader.entries[k]? = some entry → ∃ record ∈ before ++ after,
      record.index = fromIndex + k ∧ decode record.payload = some entry.1 ∧ record.term = entry.2 := by
    intro k entry isEntry
    obtain ⟨record, member, facts⟩ := each k entry isEntry
    exact ⟨record, List.mem_append_left _ member, facts⟩
  have finish := @finishRange_exact Value decode log _ isLog fromIndex toIndex reader.entries positive inside found
  obtain ⟨torn, short, rest⟩ := drop_recordBytes isLog
  rw [CachedLog.scanRange, position, rest]
  cases after with
  | nil =>
    have finished : ScanSound decode log reader
        (CachedLog.finishRange fromIndex toIndex reader.entries log, none) := by
      refine ⟨fun _ absurd => (by cases absurd), fun answered isAnswer => ?_, fun _ _ absurd => (by cases absurd)⟩
      cases isAnswer
      apply finish
      intro _ record isRecord
      rw [List.append_nil] at isLog
      rw [isLog.logRecord_none fun earlier member => (below earlier member).ne] at isRecord
      cases isRecord
    rw [show recordBytes [] ++ torn = torn from rfl]
    rcases readRecord_short short with atEnd | cut
    · rw [atEnd]
      exact finished
    · rw [cut]
      exact finished
  | cons record after =>
    have member : record ∈ before ++ record :: after := List.mem_append_right _ (.head _)
    have above : ∀ earlier ∈ before, earlier.index < record.index := fun earlier isEarlier =>
      (List.pairwise_append.mp isLog.ascending).2.2 earlier isEarlier record (.head _)
    have behind : ∀ later ∈ after, record.index < later.index :=
      (List.pairwise_cons.mp (List.pairwise_append.mp isLog.ascending).2.1).1
    -- Whatever lies beyond the expected index, it is not in the log.
    have skipped : fromIndex + reader.entries.length < record.index →
        logRecord log (fromIndex + reader.entries.length) = none := by
      intro beyond
      apply isLog.logRecord_none
      intro other isOther
      rcases List.mem_append.mp isOther with old | new
      · exact (below other old).ne
      · rcases List.mem_cons.mp new with rfl | later
        · exact beyond.ne'
        · exact (beyond.trans (behind other later)).ne'
    have reached : fromIndex ≤ record.index → fromIndex + reader.entries.length ≤ record.index := by
      intro low
      rcases Nat.eq_zero_or_pos reader.entries.length with none | some
      · omega
      · have last : reader.entries.length - 1 < reader.entries.length := by omega
        obtain ⟨earlier, isEarlier, isIndex, -⟩ := each _ _ (List.getElem?_eq_getElem last)
        have rises := above earlier isEarlier
        omega
    have split : before ++ record :: after = before ++ [record] ++ after := by
      rw [List.append_assoc, List.singleton_append]
    rw [readRecord_cons (isLog.fit record member)]
    dsimp only
    refine ⟨fun next isNext => ?_, fun answered isAnswer => ?_, fun idx term isCached => ?_⟩
    · split at isNext
      next early =>
        cases isNext
        refine ⟨rfl, before ++ [record], after, split ▸ isLog, ?_, scanning.pass isRange early⟩
        rw [length_record_append, ← position]
      next low =>
      split at isNext
      · cases isNext
      next high =>
      split at isNext
      · cases isNext
      next expected =>
      split at isNext
      next value decodes =>
        cases isNext
        refine ⟨rfl, before ++ [record], after, split ▸ isLog, ?_, ?_⟩
        · rw [length_record_append, ← position]
        · exact scanning.collect isRange (not_not.mp expected) (not_lt.mp high) decodes
      · cases isNext
    · split at isAnswer
      · cases isAnswer
      next low =>
      have notBelow := reached (not_lt.mp low)
      split at isAnswer
      next high =>
        cases isAnswer
        apply finish
        intro short other isOther
        rw [skipped (short.trans_lt high)] at isOther
        cases isOther
      next high =>
      split at isAnswer
      next gap =>
        cases isAnswer
        apply Eq.symm
        apply @logRange_missing Value decode log fromIndex toIndex (fromIndex + reader.entries.length)
        · exact Nat.le_add_right _ _
        · omega
        · intro other isOther
          rw [skipped (by omega)] at isOther
          cases isOther
      next expected =>
      split at isAnswer
      · cases isAnswer
      next undecoded =>
        cases isAnswer
        apply finish
        intro _ other isOther
        rw [isLog.logRecord member (not_not.mp expected)] at isOther
        cases isOther
        exact undecoded
    · cases isCached
      rw [isLog.parseAny]
      exact ⟨before, record, after, rfl, rfl, rfl, position⟩

theorem scan_sound {log : Bytes} {reader : Reader Value} (sound : reader.Sound decode log) :
    ScanSound decode log reader (CachedLog.scan decode reader log) := by
  rw [CachedLog.scan]
  split
  next isTerm => exact scanTerm_sound isTerm sound
  next isRange => exact scanRange_sound isRange sound

/-- Appends do not move what a reader has passed. -/
theorem Reader.Sound.append {log bytes : Bytes} {reader : Reader Value} {records more : List (Entry Bytes)}
    (stands : reader.Sound decode log) (isLog : IsLog log records)
    (extended : IsLog (log ++ bytes) (records ++ more)) : reader.Sound decode (log ++ bytes) := by
  obtain ⟨before, after, isLog', facts⟩ := stands
  have same : records = before ++ after := isLog.parseAny.symm.trans isLog'.parseAny
  rw [same, List.append_assoc] at extended
  exact ⟨before, after ++ more, extended, facts⟩

/-! ## Sound states -/

namespace CachedLog

/-- The caches speak of the log, unless they are about to be cleared, and readers stand in their files. -/
structure Sound (decode : Bytes → Option Value) (s : CachedLog Value) (records : List (Entry Bytes)) : Prop where
  log : IsLog s.log records
  last : ∀ record ∈ records, record.index ≤ s.lastIndex
  cache : s.phase ≠ .renamed → s.cache.Sound records
  readers : ∀ reader ∈ s.readers, reader.log ≤ s.current ∧ reader.Sound decode (s.logs reader.log)
  answers : ∀ answered ∈ s.answers, answered.Exact decode

variable {s t : CachedLog Value} {records : List (Entry Bytes)} {cap : Nat}

theorem Sound.init : Sound decode ({} : CachedLog Value) [] where
  log := .nil
  last _ absurd := by cases absurd
  cache _ := .empty
  readers _ absurd := by cases absurd
  answers _ absurd := by cases absurd

theorem Sound.answer {answered : Answered Value} (sound : Sound decode s records) (exact' : answered.Exact decode) :
    Sound decode (s.answer answered) records :=
  ⟨sound.log, sound.last, sound.cache, sound.readers, by
    intro other member
    rcases List.mem_append.mp member with old | new
    · exact sound.answers other old
    · rw [List.mem_singleton.mp new]
      exact exact'⟩

theorem Sound.open {reader : Reader Value} (sound : Sound decode s records) (isLog : reader.log = s.current)
    (stands : reader.Sound decode s.log) :
    Sound decode { s with readers := s.readers ++ [reader] } records :=
  ⟨sound.log, sound.last, sound.cache, by
    intro other member
    rcases List.mem_append.mp member with old | new
    · exact sound.readers other old
    · rw [List.mem_singleton.mp new, isLog]
      exact ⟨le_rfl, stands⟩, sound.answers⟩

theorem map_index_numberFrom (first : Nat) (entries : List (Nat × Bytes)) :
    (numberFrom first entries).map Entry.index = List.range' first entries.length := by
  apply List.ext_getElem
  · simp [numberFrom]
  · simp [numberFrom]

theorem foldl_max_le {records : List (Entry Bytes)} (last : Nat) :
    last ≤ records.foldl (fun last record => max last record.index) last ∧
      ∀ record ∈ records, record.index ≤ records.foldl (fun last record => max last record.index) last := by
  induction records generalizing last with
  | nil => exact ⟨le_rfl, fun _ absurd => by cases absurd⟩
  | cons record records ih =>
    obtain ⟨start, each⟩ := ih (max last record.index)
    refine ⟨(le_max_left _ _).trans start, fun other member => ?_⟩
    rcases List.mem_cons.mp member with rfl | later
    · exact (le_max_right _ _).trans start
    · exact each other later

/-- Readers after some bytes were appended to the log. -/
theorem Sound.readers_append {bytes : Bytes} {more : List (Entry Bytes)} (sound : Sound decode s records)
    (extended : IsLog (s.log ++ bytes) (records ++ more)) :
    ∀ reader ∈ s.readers, reader.log ≤ s.current ∧
      reader.Sound decode (Function.update s.logs s.current (s.log ++ bytes) reader.log) := by
  intro reader member
  obtain ⟨known, stands⟩ := sound.readers reader member
  refine ⟨known, ?_⟩
  by_cases isCurrent : reader.log = s.current
  · rw [isCurrent] at stands ⊢
    rw [Function.update_self]
    exact stands.append sound.log extended
  · rw [Function.update_of_ne isCurrent]
    exact stands

theorem AppendsToLog.target (appends : s.AppendsToLog) : s.handle.getD s.current = s.current := by
  cases opened : s.handle with
  | none => rfl
  | some log => exact appends log opened

theorem Sound.append {first : Nat} {entries : List (Nat × Bytes)} (sound : Sound decode s records)
    (idle : s.phase = .idle) (behind : s.lastIndex < first)
    (fit : ∀ record ∈ numberFrom first entries, record.Fits) (target : s.handle.getD s.current = s.current)
    (whole : (parse anySize s.log).2 = []) :
    Sound decode (s.append cap first entries) (records ++ numberFrom first entries) := by
  have indexes := map_index_numberFrom first entries
  have new : ∀ record ∈ numberFrom first entries, s.lastIndex < record.index := by
    intro record member
    have isIndex := List.mem_map_of_mem (f := Entry.index) member
    rw [indexes] at isIndex
    exact behind.trans_le (List.mem_range'_1.mp isIndex).1
  have ascending : (numberFrom first entries).Pairwise fun first second => first.index < second.index := by
    have sorted : (List.range' first entries.length).Pairwise (· < ·) := List.pairwise_lt_range'
    rw [← indexes] at sorted
    exact List.pairwise_map.mp sorted
  have extended := sound.log.append whole fit ascending sound.last new
  have bounds := @foldl_max_le (numberFrom first entries) s.lastIndex
  have readers := sound.readers_append extended
  rw [CachedLog.append, target]
  refine ⟨?_, ?_, fun _ => ?_, readers, sound.answers⟩
  · rw [CachedLog.log]
    dsimp only
    rw [Function.update_self]
    exact extended
  · intro record member
    rcases List.mem_append.mp member with old | isNew
    · exact (sound.last record old).trans bounds.1
    · exact bounds.2 record isNew
  · have cached := (sound.cache fun renamed => by rw [idle] at renamed; cases renamed)
    have bytes : s.logs s.current = recordBytes records := sound.log.bytes_of_whole whole
    rw [bytes]
    exact cached.cacheRaftRecordBlock fit

theorem Sound.appendFails {first persisted : Nat} {entries : List (Nat × Bytes)}
    (sound : Sound decode s records) (target : s.handle.getD s.current = s.current)
    (whole : (parse anySize s.log).2 = []) (short : persisted < 20) :
    Sound decode (s.appendFails first entries persisted) records := by
  have torn : ((recordBytes (numberFrom first entries)).take persisted).length < 20 := by
    rw [List.length_take]
    omega
  have extended := sound.log.tear whole torn
  have unchanged : records ++ [] = records := List.append_nil _
  have readers := sound.readers_append (unchanged.symm ▸ extended)
  rw [CachedLog.appendFails, target]
  refine ⟨?_, sound.last, sound.cache, readers, sound.answers⟩
  rw [CachedLog.log]
  dsimp only
  rw [Function.update_self]
  exact extended

theorem le_getLast {records : List (Entry Bytes)}
    (ascending : records.Pairwise fun first second => first.index < second.index) :
    ∀ record ∈ records, record.index ≤ (records.getLast?.map Entry.index).getD 0 := by
  intro record member
  rcases List.eq_nil_or_concat records with rfl | ⟨front, last, rfl⟩
  · cases member
  · rw [List.concat_eq_append] at ascending member ⊢
    rw [List.getLast?_concat]
    rcases List.mem_append.mp member with old | new
    · exact ((List.pairwise_append.mp ascending).2.2 record old last (.head _)).le
    · rw [List.mem_singleton.mp new]
      exact le_rfl

theorem Sound.rename {rewrite : Rewrite} (sound : Sound decode s records) :
    Sound decode (s.rename rewrite) (rewrite.kept records) := by
  have sub := Rewrite.kept_sublist rewrite records
  have kept := sound.log.sublist sub
  unfold CachedLog.rename
  rw [sound.log.parseAny]
  refine ⟨?_, ?_, fun absurd => (absurd rfl).elim, ?_, sound.answers⟩
  · rw [CachedLog.log]
    dsimp only
    rw [Function.update_self]
    exact kept
  · intro record member
    have atMost := le_getLast kept.ascending record member
    have old := sound.last record (sub.mem member)
    dsimp only
    split
    · split
      · exact atMost
      next beyond => exact atMost.trans (not_le.mp beyond).le
    · exact old
  · intro reader member
    obtain ⟨known, stands⟩ := sound.readers reader member
    refine ⟨known.trans (Nat.le_succ _), ?_⟩
    dsimp only
    rw [Function.update_of_ne (Nat.lt_succ_of_le known).ne]
    exact stands

theorem Sound.restart (sound : Sound decode s records) : Sound decode (s.restart cap) records := by
  have loaded : (parse validSize s.log).1 = records := sound.log.parse fun _ valid => valid
  have bounds := @foldl_max_le records s.snapshot.1
  have cached := @TermCache.Sound.cacheRecords {} cap [] records .empty
  rw [CachedLog.restart, TermCache.cacheRaftRecordBlock, loaded]
  exact ⟨sound.log, bounds.2, fun _ => cached, fun _ absurd => (by cases absurd), sound.answers⟩

theorem Sound.getTermForIndex {index : Nat} (sound : Sound decode s records)
    (fresh : s.phase = .renamed → s.cache.terms.find? index = none) :
    Sound decode (s.getTermForIndex index) records := by
  rw [CachedLog.getTermForIndex]
  dsimp only
  split
  next zero =>
    apply sound.answer
    rw [Answered.Exact, logTerm, if_pos zero]
  next nonzero =>
  split
  next boundary =>
    apply sound.answer
    rw [Answered.Exact, logTerm, if_neg nonzero, if_pos boundary]
  next beyond =>
  split
  next term found =>
    have settled : s.phase ≠ .renamed := by
      intro renamed
      rw [fresh renamed] at found
      cases found
    obtain ⟨offset, before, record, after, rfl, isIndex, isTerm, -⟩ := (sound.cache settled).terms index term found
    apply sound.answer
    rw [Answered.Exact, logTerm, if_neg nonzero, if_neg beyond,
      sound.log.logRecord (List.mem_append_right _ (.head _)) isIndex, ← isTerm]
    rfl
  · apply sound.open rfl
    exact ⟨[], records, sound.log, rfl, nonzero, beyond, fun _ absurd => (by cases absurd)⟩

theorem Sound.readRaftEntriesRange {fromIndex toIndex : Nat} (sound : Sound decode s records)
    (settled : s.phase ≠ .renamed ∨ fromIndex = 0 ∨ toIndex < fromIndex) :
    Sound decode (s.readRaftEntriesRange fromIndex toIndex) records := by
  rw [CachedLog.readRaftEntriesRange]
  split
  next degenerate =>
    apply sound.answer
    rw [Answered.Exact, logRange, if_pos degenerate]
  next proper =>
    have positive : fromIndex ≠ 0 := fun zero => proper (.inl zero)
    have ordered : fromIndex + 0 ≤ toIndex + 1 := by omega
    have cached := sound.cache (settled.resolve_right proper)
    apply sound.open rfl
    cases found : s.cache.offsets.find? fromIndex with
    | none =>
      refine ⟨[], records, sound.log, rfl, positive, ordered, fun _ absurd => (by cases absurd), ?_⟩
      exact fun _ _ absurd => (by cases absurd)
    | some offset =>
      obtain ⟨term, before, record, after, rfl, isIndex, -, isOffset⟩ := cached.offsets fromIndex offset found
      refine ⟨before, record :: after, sound.log, isOffset, positive, ordered, fun earlier member => ?_, ?_⟩
      · rw [← isIndex]
        exact (List.pairwise_append.mp sound.log.ascending).2.2 earlier member record (.head _)
      · exact fun _ _ absurd => (by cases absurd)

theorem Sound.advance {place : Nat} {reader : Reader Value} (sound : Sound decode s records)
    (found : s.readers[place]? = some reader)
    (inPlace : s.phase = .renamed ∨ ∀ index term, (scan decode reader (s.logs reader.log)).2 = some (index, term) →
      InPlace records index term reader.position) :
    Sound decode (s.advance cap decode place reader) records := by
  obtain ⟨known, stands⟩ := sound.readers reader (List.mem_of_getElem? found)
  have round := scan_sound stands
  rw [CachedLog.advance]
  dsimp only
  split
  next next' isNext =>
    refine ⟨sound.log, sound.last, fun settled => (sound.cache settled).cached (inPlace.resolve_left settled),
      fun other member => ?_, sound.answers⟩
    rcases List.mem_or_eq_of_mem_set member with old | rfl
    · exact sound.readers other old
    · obtain ⟨same, onward⟩ := round.onward other isNext
      rw [same]
      exact ⟨known, onward⟩
  next answered isAnswer =>
    refine Sound.answer ⟨sound.log, sound.last, fun settled => (sound.cache settled).cached
      (inPlace.resolve_left settled), fun other member => ?_, sound.answers⟩ (round.done answered isAnswer)
    exact sound.readers other (List.mem_of_mem_eraseIdx member)

def Consistent (decode : Bytes → Option Value) (s : CachedLog Value) : Prop := ∃ records, Sound decode s records

theorem step_sound {event : CacheEvent} (sound : Sound decode s records) (keeps : s.KeepsCaches decode event)
    (taken : s.step cap decode event = some t) : Consistent decode t := by
  cases event with
  | append first entries =>
    rw [step] at taken
    split at taken
    next idle =>
      split at taken
      next room =>
        cases taken
        exact ⟨_, sound.append idle room.1 room.2 keeps.1.target keeps.2⟩
      · cases taken
    · cases taken
  | appendFails first entries persisted =>
    rw [step] at taken
    split at taken
    · cases taken
      exact ⟨_, sound.appendFails keeps.1.target keeps.2.1 keeps.2.2⟩
    · cases taken
  | sync =>
    cases taken
    exact ⟨records, sound.log, sound.last, sound.cache, sound.readers, sound.answers⟩
  | rewrite rewrite =>
    rw [step] at taken
    split at taken
    next idle =>
      cases taken
      refine ⟨records, sound.log, sound.last, fun _ => sound.cache ?_, sound.readers, sound.answers⟩
      intro renamed
      rw [idle] at renamed
      cases renamed
    · cases taken
  | rename =>
    rw [step] at taken
    split at taken
    · cases taken
      exact ⟨_, sound.rename⟩
    · cases taken
  | invalidateTermCache =>
    rw [step] at taken
    split at taken
    · cases taken
      exact ⟨records, sound.log, sound.last, fun _ => .empty, sound.readers, sound.answers⟩
    · cases taken
  | snapshot index term =>
    rw [step] at taken
    split at taken
    · cases taken
      refine ⟨records, sound.log, fun record member => ?_, sound.cache, sound.readers, sound.answers⟩
      exact (sound.last record member).trans (le_max_left _ _)
    · cases taken
  | restart =>
    cases taken
    exact ⟨records, sound.restart⟩
  | getTermForIndex index =>
    cases taken
    exact ⟨records, sound.getTermForIndex keeps⟩
  | readRaftEntriesRange fromIndex toIndex =>
    rw [step] at taken
    split at taken
    next idle =>
      cases taken
      refine ⟨records, sound.readRaftEntriesRange (.inl fun renamed => ?_)⟩
      rw [idle] at renamed
      cases renamed
    · split at taken
      next degenerate =>
        cases taken
        exact ⟨records, sound.readRaftEntriesRange (.inr degenerate)⟩
      · cases taken
  | advance place =>
    obtain ⟨reader, found, rfl⟩ := Option.map_eq_some_iff.mp taken
    obtain ⟨-, stands⟩ := sound.readers reader (List.mem_of_getElem? found)
    refine ⟨records, sound.advance found (keeps.imp_right fun held index term isCached => ?_)⟩
    rcases held reader found with isCurrent | held
    · have own := (scan_sound stands).cached index term isCached
      rw [isCurrent] at own
      change InPlace (parse anySize s.log).1 index term _ at own
      rw [sound.log.parseAny] at own
      exact own
    · have own := held index term isCached
      rw [sound.log.parseAny] at own
      exact own

/-- Three records of one byte, as the leader of term 1 appends them. -/
def threeRecords : CacheEvent := .append 1 [(1, [7]), (1, [8]), (1, [9])]

/-- A range is read while the log is compacted and again afterwards. -/
def overtakenRun : List CacheEvent :=
  [
    threeRecords, .restart, .readRaftEntriesRange 1 3, .rewrite (.compactRaftLog 1), .rename,
    .invalidateTermCache, .advance 0, .advance 0, .advance 0, .advance 0, .readRaftEntriesRange 2 3,
    .advance 0, .getTermForIndex 2]

/-- The same without a reader that is overtaken, and with an append that fails. -/
def calmRun : List CacheEvent :=
  [
    threeRecords, .restart, .appendFails 4 [(1, [5])] 7, .rewrite (.compactRaftLog 1), .rename, .invalidateTermCache,
    .readRaftEntriesRange 2 3, .advance 0, .advance 0, .advance 0, .getTermForIndex 2, .getTermForIndex 1]

def byteOf (payload : Bytes) : Option UInt8 := payload.head?

abbrev stepBytes : CachedLog UInt8 → CacheEvent → Option (CachedLog UInt8) :=
  fun s event => s.step 1024 byteOf event

instance (answered : Answered UInt8) : Decidable (answered.Exact byteOf) :=
  match answered with
  | .term .. | .range .. => inferInstanceAs (Decidable (_ = _))

/-- A record that is cached, and stands behind part of another that failed. -/
def tornRun : List CacheEvent :=
  [threeRecords, .appendFails 4 [(1, [5])] 7, .append 4 [(1, [6])], .getTermForIndex 4]

/-- All readers read the log, and appends go there. -/
def quiet (s : CachedLog Value) : CacheEvent → Bool
  | .append _ _ => s.handle.all (· = s.current) && (parse anySize s.log).2 == []
  | .appendFails _ _ persisted =>
      s.handle.all (· = s.current) && (parse anySize s.log).2 == [] && decide (persisted < 20)
  | .getTermForIndex _ => match s.phase with | .renamed => false | _ => true
  | .advance _ => s.readers.all fun reader => reader.log = s.current
  | _ => true

theorem keepsCaches_of_quiet {event : CacheEvent} (isQuiet : s.quiet event = true) :
    s.KeepsCaches decode event := by
  have appends (all : s.handle.all (· = s.current) = true) : s.AppendsToLog := by
    intro log opened
    rw [opened] at all
    exact of_decide_eq_true all
  cases event with
  | append first entries =>
    obtain ⟨all, whole⟩ := Bool.and_eq_true_iff.mp isQuiet
    exact ⟨appends all, beq_iff_eq.mp whole⟩
  | appendFails first entries persisted =>
    obtain ⟨both, short⟩ := Bool.and_eq_true_iff.mp isQuiet
    obtain ⟨all, whole⟩ := Bool.and_eq_true_iff.mp both
    exact ⟨appends all, beq_iff_eq.mp whole, of_decide_eq_true short⟩
  | getTermForIndex index =>
    intro renamed
    rw [quiet, renamed] at isQuiet
    cases isQuiet
  | advance place =>
    right
    intro reader found
    left
    exact of_decide_eq_true (List.all_eq_true.mp isQuiet reader (List.mem_of_getElem? found))
  | _ => trivial

def quietRun : CachedLog UInt8 → List CacheEvent → Bool
  | _, [] => true
  | s, event :: events => s.quiet event && (stepBytes s event).all (quietRun · events)

theorem runAllowed_of_quietRun {events : List CacheEvent} {s : CachedLog UInt8}
    (isQuiet : quietRun s events = true) : RunAllowed stepBytes (fun s event => s.KeepsCaches byteOf event) s events := by
  induction events generalizing s with
  | nil => trivial
  | cons event events ih =>
    obtain ⟨here, onward⟩ := Bool.and_eq_true_iff.mp isQuiet
    refine ⟨keepsCaches_of_quiet here, fun t taken => ih ?_⟩
    rw [taken] at onward
    exact onward

end CachedLog

end PacificDb.Raft
