import PacificDb.Lib.Decimal
import PacificDb.Lib.Machine
import PacificDb.Lsm.Compaction

/-!
# SST names and the age of rows

Where the rows of an id have the same version, or none, a reader takes the one in the SST
of the greater name. A name is a clock reading and the number of the SST in its process;
flushes and compactions take it when they write their output, and publish it later.

The order of the names is that of the writes (`namesOrdered_of_reach`), as long as every
name is greater than those it has to be greater than, and no compaction names its output
after a newer row was named.
-/

namespace PacificDb.Lsm

open Lib

variable {config : LsmConfig}

/-! ## The code -/

/-- A row, and the number of the write that put it in memory, which no code reads. -/
structure StampedRow where
  doc : Json
  written : Nat

abbrev StampedTable := AList fun _ : String => StampedRow

def StampedTable.rows (table : StampedTable) : List StampedRow :=
  (sortNames table.keys).filterMap fun id => table.lookup id

/-- A running flush: its snapshot, and the name of the SST it has written. -/
structure NamingFlush where
  snapshot : StampedTable
  sstName : Option String

inductive NamingPhase where
  | selected (totalSstBytes : Nat)
  | covered (fullCoverage : Bool)
  | merged (outName : String) (rows : List StampedRow)

structure NamingCompaction where
  inputs : List String
  phase : NamingPhase

/-- One collection, as far as the names of its SSTs go. -/
structure SstNaming where
  memtable : StampedTable := ∅
  flush : Option NamingFlush := none
  published : AList (fun _ : String => List StampedRow) := ∅
  compactions : AList (fun _ : Nat => NamingCompaction) := ∅
  sstFileSequence : Nat := 0
  writes : Nat := 0

/-- Steps under the collection lock, or between two of them. `elsewhere` is a name that
another collection takes, and `restart` leaves what is published. -/
inductive NamingEvent where
  | write (doc : Json) (time : Nat)
  | flushBegin
  | flushWrite (micros : Nat)
  | flushFails
  | flushPublish
  | compactSelect (job : Nat)
  | compactCoverage (job : Nat)
  | compactMerge (job committedIndex : Nat) (clock : Nat → Nat) (micros : Nat)
  | compactPublish (job : Nat)
  | compactAbort (job : Nat)
  | elsewhere
  | restart

/-- One row of the merge. -/
def mergeStamped (config : LsmConfig) (committedIndex : Nat) (merged : StampedTable)
    (row : StampedRow × Nat) : StampedTable :=
  if !docVisibleByCommitIndex config.raft row.1.doc committedIndex then merged
  else
    let id := storageId config row.2 row.1.doc
    match merged.lookup id with
    | some current => if isCandidateNewer row.1.doc current.doc then merged.insert id row.1 else merged
    | none => merged.insert id row.1

/-- The rows of the inputs of a compaction, in the order of their names. -/
def SstNaming.inputRows (s : SstNaming) (inputs : List String) : List StampedRow :=
  inputs.flatMap fun input => (s.published.lookup input).getD []

/-- The rows of the output. -/
def SstNaming.compactedRows (config : LsmConfig) (s : SstNaming) (inputs : List String)
    (fullCoverage : Bool) (committedIndex : Nat) (clock : Nat → Nat) : List StampedRow :=
  let merged := ((s.inputRows inputs).mapIdx fun i row => (row, clock i)).foldl
    (mergeStamped config committedIndex) ∅
  merged.rows.filter fun row => !(fullCoverage && isDeletedDoc row.doc)

def SstNaming.step (config : LsmConfig) (s : SstNaming) : NamingEvent → Option SstNaming
  | .write doc time => some { s with
      memtable := s.memtable.insert (storageId config time doc) ⟨doc, s.writes⟩
      writes := s.writes + 1 }
  | .flushBegin =>
      match s.flush with
      | some _ => none
      | none =>
          if s.memtable.keys.isEmpty then none
          else some { s with memtable := ∅, flush := some ⟨s.memtable, none⟩ }
  | .flushWrite micros =>
      match s.flush with
      | some ⟨snapshot, none⟩ => some { s with
          flush := some ⟨snapshot, some (nextSstFileName micros s.sstFileSequence)⟩
          sstFileSequence := s.sstFileSequence + 1 }
      | _ => none
  | .flushFails => some { s with flush := none }
  | .flushPublish =>
      match s.flush with
      | some ⟨snapshot, some sstName⟩ => some { s with
          flush := none
          published := s.published.insert sstName snapshot.rows }
      | _ => none
  | .compactSelect job =>
      match s.compactions.lookup job with
      | some _ => none
      | none =>
          let sized := (sortNames s.published.keys).map fun name =>
            (name, config.fileSize (((s.published.lookup name).getD []).map StampedRow.doc))
          let inputs := selectSsts config sized
          if inputs.isEmpty then none
          else some { s with compactions :=
            s.compactions.insert job ⟨inputs, .selected (sized.map Prod.snd).sum⟩ }
  | .compactCoverage job =>
      match s.compactions.lookup job with
      | some ⟨inputs, .selected totalSstBytes⟩ =>
          let fullCoverage := decide (0 < totalSstBytes) && s.published.keys.length == inputs.length
          some { s with compactions := s.compactions.insert job ⟨inputs, .covered fullCoverage⟩ }
      | _ => none
  | .compactMerge job committedIndex clock micros =>
      match s.compactions.lookup job with
      | some ⟨inputs, .covered fullCoverage⟩ =>
          if inputs.all fun input => (s.published.lookup input).isSome then
            some { s with
              compactions := s.compactions.insert job ⟨inputs, .merged
                (nextSstFileName micros s.sstFileSequence)
                (s.compactedRows config inputs fullCoverage committedIndex clock)⟩
              sstFileSequence := s.sstFileSequence + 1 }
          else none
      | _ => none
  | .compactPublish job =>
      match s.compactions.lookup job with
      | some ⟨inputs, .merged outName rows⟩ =>
          -- "compaction input is no longer manifest-authoritative"
          if inputs.all fun input => (s.published.lookup input).isSome then
            some { s with
              compactions := s.compactions.erase job
              published := inputs.foldl (fun published input => published.erase input)
                (s.published.insert outName rows) }
          else some { s with compactions := s.compactions.erase job }
      | _ => none
  | .compactAbort job => some { s with compactions := s.compactions.erase job }
  | .elsewhere => some { s with sstFileSequence := s.sstFileSequence + 1 }
  | .restart => some { published := s.published, writes := s.writes }

/-! ## The property -/

/-- Rows of one id with the same version, or without one. -/
def Tied (config : LsmConfig) (row other : StampedRow) : Prop :=
  (∃ id, rowKey config row.doc = some id ∧ rowKey config other.doc = some id) ∧
    extractDocVersionScore row.doc = extractDocVersionScore other.doc

/-- Of tied rows in two SSTs the one that was written later is in the SST of the greater
name. -/
def SstNaming.NamesOrdered (config : LsmConfig) (s : SstNaming) : Prop :=
  ∀ name other rows others, s.published.lookup name = some rows → s.published.lookup other = some others →
    name ≠ other → ∀ row ∈ rows, ∀ later ∈ others, Tied config row later →
      row.written < later.written → name < other

/-! ## SSTs with a name -/

/-- Where an SST that has its name stands. -/
inductive SstPlace where
  | published (name : String)
  | flushed
  | merged (job : Nat)
deriving DecidableEq

def SstNaming.sstAt (s : SstNaming) : SstPlace → Option (String × List StampedRow)
  | .published name => (s.published.lookup name).map fun rows => (name, rows)
  | .flushed =>
      match s.flush with
      | some ⟨snapshot, some sstName⟩ => some (sstName, snapshot.rows)
      | _ => none
  | .merged job =>
      match s.compactions.lookup job with
      | some ⟨_, .merged outName rows⟩ => some (outName, rows)
      | _ => none

/-- The compaction at one place will remove the SST at the other. -/
def SstNaming.Replaces (s : SstNaming) : SstPlace → SstPlace → Prop
  | .merged job, .published name => ∃ run, s.compactions.lookup job = some run ∧ name ∈ run.inputs
  | _, _ => False

/-! ## The condition -/

/-- An SST gets a clock reading and a number that follow those of another: the clock reads
later, with as many digits, or reads the same, and the number rises with as many digits. -/
def Follows (earlier number micros sequence : Nat) : Prop :=
  (Nat.toDigits 10 earlier).length = (Nat.toDigits 10 micros).length ∧
    (earlier < micros ∨ (earlier = micros ∧
      (Nat.toDigits 10 number).length = (Nat.toDigits 10 sequence).length ∧ number < sequence))

/-- The clock and the number of a new SST follow those of every SST with a name that shares
an id and a version with it. No SST beside the inputs of a compaction has a row that was
written after a tied row of the inputs when the output gets its name. -/
def SstNaming.NamesAdvance (config : LsmConfig) (s : SstNaming) : NamingEvent → Prop
  | .flushWrite micros => ∀ flush ∈ s.flush, ∀ place name rows, s.sstAt place = some (name, rows) →
      ∀ row ∈ rows, ∀ new ∈ flush.snapshot.rows, Tied config row new →
        ∃ earlier number, name = nextSstFileName earlier number ∧
          Follows earlier number micros s.sstFileSequence
  | .compactMerge job _ _ micros => ∀ run ∈ s.compactions.lookup job, ∀ place name rows,
      s.sstAt place = some (name, rows) → (∀ input ∈ run.inputs, place ≠ .published input) →
      ∀ row ∈ rows, ∀ new ∈ s.inputRows run.inputs, Tied config row new →
        row.written ≤ new.written ∧ ∃ earlier number, name = nextSstFileName earlier number ∧
          Follows earlier number micros s.sstFileSequence
  | _ => True

/-! ## Names -/

theorem nextSstFileName_lt {earlier number micros sequence : Nat}
    (follows : Follows earlier number micros sequence) :
    nextSstFileName earlier number < nextSstFileName micros sequence := by
  obtain ⟨size, later⟩ := follows
  have text : ∀ micros sequence, (nextSstFileName micros sequence).toList =
      Nat.toDigits 10 micros ++ '_' :: (Nat.toDigits 10 sequence ++ ".sst".toList) := by
    intro micros sequence
    rw [nextSstFileName, String.toList_append, String.toList_ofList, List.append_assoc, List.cons_append]
  rw [String.lt_iff_toList_lt, text, text]
  rcases later with less | ⟨rfl, numberSize, less⟩
  · exact append_lt_append size ((toDigits_lt_iff size).mpr less)
  · apply List.append_left_lt
    rw [List.cons_lt_cons_iff]
    exact .inr ⟨rfl, append_lt_append numberSize ((toDigits_lt_iff numberSize).mpr less)⟩

/-! ## What a step does -/

section Steps

variable {s t : SstNaming}

theorem StampedTable.mem_rows {table : StampedTable} {row : StampedRow} :
    row ∈ table.rows ↔ ∃ id, table.lookup id = some row := by
  simp only [StampedTable.rows, List.mem_filterMap, mem_sortNames]
  constructor
  · rintro ⟨id, -, found⟩
    exact ⟨id, found⟩
  · rintro ⟨id, found⟩
    refine ⟨id, ?_, found⟩
    rw [← AList.mem_keys, ← AList.lookup_isSome, found]
    rfl

/-- The merge keeps rows of the inputs. -/
theorem mem_compactedRows {inputs : List String} {fullCoverage : Bool} {committedIndex : Nat}
    {clock : Nat → Nat} {row : StampedRow}
    (member : row ∈ s.compactedRows config inputs fullCoverage committedIndex clock) :
    row ∈ s.inputRows inputs := by
  have kept : ∀ (rows : List (StampedRow × Nat)) (merged : StampedTable) (id : String) (row : StampedRow),
      (rows.foldl (mergeStamped config committedIndex) merged).lookup id = some row →
        row ∈ rows.map Prod.fst ∨ merged.lookup id = some row := by
    intro rows
    induction rows with
    | nil => exact fun merged id row found => .inr found
    | cons first rows ih =>
      intro merged id row found
      rcases ih _ id row found with inRest | inMerged
      · exact .inl (.tail _ inRest)
      · have inserted : ∀ key, (merged.insert key first.1).lookup id = some row →
            row ∈ (first :: rows).map Prod.fst ∨ merged.lookup id = some row := by
          intro key looked
          rcases lookup_insert_eq_some looked with ⟨-, rfl⟩ | ⟨-, was⟩
          · exact .inl (.head _)
          · exact .inr was
        unfold mergeStamped at inMerged
        dsimp only at inMerged
        split at inMerged
        · exact .inr inMerged
        · split at inMerged
          · split at inMerged
            · exact inserted _ inMerged
            · exact .inr inMerged
          · exact inserted _ inMerged
  obtain ⟨id, found⟩ := StampedTable.mem_rows.mp (List.mem_filter.mp member).1
  rcases kept _ ∅ id row found with inInputs | absent
  · obtain ⟨⟨other, time⟩, isItem, rfl⟩ := List.mem_map.mp inInputs
    obtain ⟨i, inBounds, same⟩ := List.mem_mapIdx.mp isItem
    cases same
    exact List.getElem_mem inBounds
  · cases absent

theorem mem_inputRows {inputs : List String} {row : StampedRow} : row ∈ s.inputRows inputs ↔
    ∃ input ∈ inputs, ∃ rows, s.published.lookup input = some rows ∧ row ∈ rows := by
  rw [SstNaming.inputRows, List.mem_flatMap]
  refine exists_congr fun input => and_congr_right fun _ => ?_
  cases s.published.lookup input with
  | none => simp
  | some rows => simp

theorem lookup_foldl_erase {inputs : List String} {published : AList fun _ : String => List StampedRow}
    {name : String} {rows : List StampedRow}
    (found : (inputs.foldl (fun published input => published.erase input) published).lookup name =
      some rows) : name ∉ inputs ∧ published.lookup name = some rows := by
  induction inputs generalizing published with
  | nil => exact ⟨List.not_mem_nil, found⟩
  | cons input inputs ih =>
    obtain ⟨others, looked⟩ := ih found
    obtain ⟨other, was⟩ := lookup_erase_eq_some looked
    exact ⟨List.not_mem_cons_of_ne_of_not_mem other others, was⟩

/-! ## The invariant -/

/-- The names of two SSTs are in the order of the writes of their tied rows. -/
def Aged (config : LsmConfig) (sst other : String × List StampedRow) : Prop :=
  ∀ row ∈ sst.2, ∀ next ∈ other.2, Tied config row next →
    (row.written < next.written → sst.1 < other.1) ∧ (next.written < row.written → other.1 < sst.1)

theorem Tied.symm {row other : StampedRow} (tied : Tied config row other) : Tied config other row := by
  obtain ⟨⟨id, own, same⟩, versions⟩ := tied
  exact ⟨⟨id, same, own⟩, versions.symm⟩

theorem Aged.symm {sst other : String × List StampedRow} (aged : Aged config sst other) :
    Aged config other sst := fun row member next isNext tied =>
  (aged next isNext row member tied.symm).symm

/-- An SST that has nothing newer, and a smaller name. -/
theorem aged_of_follows {sst : String × List StampedRow} {rows : List StampedRow} {micros sequence : Nat}
    (follows : ∀ row ∈ sst.2, ∀ new ∈ rows, Tied config row new → row.written ≤ new.written ∧
      ∃ earlier number, sst.1 = nextSstFileName earlier number ∧ Follows earlier number micros sequence) :
    Aged config sst (nextSstFileName micros sequence, rows) := by
  intro row member new isNew tied
  obtain ⟨older, earlier, number, isName, later⟩ := follows row member new isNew tied
  have below := nextSstFileName_lt later
  rw [← isName] at below
  exact ⟨fun _ => below, fun newer => absurd newer older.not_gt⟩

/-- Any two SSTs with a name are aged, unless one is about to replace the other. -/
def AllAged (config : LsmConfig) (s : SstNaming) : Prop :=
  ∀ place other sst next, place ≠ other → ¬s.Replaces place other → ¬s.Replaces other place →
    s.sstAt place = some sst → s.sstAt other = some next → Aged config sst next

/-- SSTs only move. -/
theorem AllAged.move {from_ : SstPlace → SstPlace} (aged : AllAged config s)
    (same : ∀ place sst, t.sstAt place = some sst → s.sstAt (from_ place) = some sst)
    (apart : ∀ place other sst next, t.sstAt place = some sst → t.sstAt other = some next →
      from_ place = from_ other → place = other)
    (replaces : ∀ place other sst next, t.sstAt place = some sst → t.sstAt other = some next →
      s.Replaces (from_ place) (from_ other) → t.Replaces place other) : AllAged config t := by
  intro place other sst next distinct forward backward isSst isNext
  apply aged (from_ place) (from_ other) sst next
  · exact fun equal => distinct (apart place other sst next isSst isNext equal)
  · exact fun before => forward (replaces place other sst next isSst isNext before)
  · exact fun before => backward (replaces other place next sst isNext isSst before)
  · exact same place sst isSst
  · exact same other next isNext

/-- SSTs only go. -/
theorem AllAged.drop (aged : AllAged config s)
    (same : ∀ place sst, t.sstAt place = some sst → s.sstAt place = some sst)
    (runs : ∀ job sst, t.sstAt (.merged job) = some sst →
      t.compactions.lookup job = s.compactions.lookup job) : AllAged config t := by
  refine @AllAged.move _ _ _ id aged same (fun _ _ _ _ _ _ equal => equal) ?_
  intro place other sst next isSst _ replaces
  cases place with
  | merged job =>
    cases other with
    | published name =>
      obtain ⟨run, running, member⟩ := replaces
      exact ⟨run, (runs job sst isSst).trans running, member⟩
    | _ => exact replaces
  | _ => exact replaces

/-- One SST is published from the place where it waited. -/
theorem AllAged.publish {old : SstPlace} {new : String × List StampedRow} (aged : AllAged config s)
    (waited : s.sstAt old = some new) (waits : ∀ place, ¬s.Replaces place old)
    (places : ∀ place sst, t.sstAt place = some sst → (place = .published new.1 ∧ sst = new) ∨
      (place ≠ .published new.1 ∧ place ≠ old ∧ s.sstAt place = some sst))
    (replaced : ∀ other sst, other ≠ .published new.1 → t.sstAt other = some sst → ¬s.Replaces old other)
    (replaces : ∀ place other, place ≠ old → s.Replaces place other → t.Replaces place other) :
    AllAged config t := by
  refine @AllAged.move _ _ _ (fun place => if place = .published new.1 then old else place) aged ?_ ?_ ?_
  · intro place sst isSst
    rcases places place sst isSst with ⟨rfl, rfl⟩ | ⟨other, -, was⟩
    · rw [if_pos rfl]
      exact waited
    · rw [if_neg other]
      exact was
  · intro place other sst next isSst isNext equal
    rcases places place sst isSst with ⟨rfl, -⟩ | ⟨placeOther, placeMoved, -⟩ <;>
      rcases places other next isNext with ⟨rfl, -⟩ | ⟨otherOther, otherMoved, -⟩
    · rfl
    · rw [if_pos rfl, if_neg otherOther] at equal
      exact absurd equal.symm otherMoved
    · rw [if_neg placeOther, if_pos rfl] at equal
      exact absurd equal placeMoved
    · rw [if_neg placeOther, if_neg otherOther] at equal
      exact equal
  · intro place other sst next isSst isNext before
    rcases places place sst isSst with ⟨rfl, -⟩ | ⟨placeOther, placeMoved, -⟩ <;>
      rcases places other next isNext with ⟨rfl, -⟩ | ⟨otherOther, -, -⟩
    · rw [if_pos rfl] at before
      exact absurd before (waits old)
    · rw [if_pos rfl, if_neg otherOther] at before
      exact absurd before (replaced other next otherOther isNext)
    · rw [if_neg placeOther, if_pos rfl] at before
      exact absurd before (waits place)
    · rw [if_neg placeOther, if_neg otherOther] at before
      exact replaces place other placeMoved before

/-- One SST gets its name. -/
theorem AllAged.name {place : SstPlace} {new : String × List StampedRow} (aged : AllAged config s)
    (isNew : t.sstAt place = some new)
    (same : ∀ other sst, other ≠ place → t.sstAt other = some sst → s.sstAt other = some sst)
    (runs : ∀ job, .merged job ≠ place → t.compactions.lookup job = s.compactions.lookup job)
    (older : ∀ other sst, other ≠ place → s.sstAt other = some sst → ¬t.Replaces place other →
      Aged config sst new) : AllAged config t := by
  have replaces : ∀ first second, first ≠ place → s.Replaces first second → t.Replaces first second := by
    intro first second distinct before
    cases first with
    | merged job =>
      cases second with
      | published name =>
        obtain ⟨run, running, member⟩ := before
        exact ⟨run, (runs job distinct).trans running, member⟩
      | _ => exact before
    | _ => exact before
  intro first second sst next distinct forward backward isSst isNext
  by_cases firstNew : first = place
  · subst firstNew
    rw [isNew] at isSst
    cases isSst
    have secondOld : second ≠ first := Ne.symm distinct
    exact (older second next secondOld (same second next secondOld isNext) forward).symm
  · by_cases secondNew : second = place
    · subst secondNew
      rw [isNew] at isNext
      cases isNext
      exact older first sst firstNew (same first sst firstNew isSst) backward
    · exact aged first second sst next distinct (fun before => forward (replaces _ _ firstNew before))
        (fun before => backward (replaces _ _ secondNew before)) (same first sst firstNew isSst)
        (same second next secondNew isNext)

/-- Rows in SSTs are older than those of a running flush, and these than those in memory. -/
structure InOrder (config : LsmConfig) (s : SstNaming) : Prop where
  aged : AllAged config s
  settled : ∀ place sst, place ≠ .flushed → s.sstAt place = some sst → ∀ row ∈ sst.2,
    (∀ flush ∈ s.flush, ∀ new ∈ flush.snapshot.rows, row.written < new.written) ∧
      (∀ id new, s.memtable.lookup id = some new → row.written < new.written) ∧ row.written < s.writes
  snapshot : ∀ flush ∈ s.flush, ∀ row ∈ flush.snapshot.rows,
    (∀ id new, s.memtable.lookup id = some new → row.written < new.written) ∧ row.written < s.writes
  memory : ∀ id row, s.memtable.lookup id = some row → row.written < s.writes

theorem inOrder_write (inOrder : InOrder config s) (doc : Json) (time : Nat) :
    InOrder config { s with
      memtable := s.memtable.insert (storageId config time doc) ⟨doc, s.writes⟩
      writes := s.writes + 1 } := by
  have newest : ∀ {row : StampedRow}, (∀ id new, s.memtable.lookup id = some new →
      row.written < new.written) → row.written < s.writes →
      ∀ id new, (s.memtable.insert (storageId config time doc) ⟨doc, s.writes⟩).lookup id = some new →
        row.written < new.written := by
    intro row below bound id new found
    rcases lookup_insert_eq_some found with ⟨-, rfl⟩ | ⟨-, was⟩
    · exact bound
    · exact below id new was
  refine ⟨inOrder.aged, ?_, ?_, ?_⟩
  · intro place sst moved isSst row member
    obtain ⟨flushed, below, bound⟩ := inOrder.settled place sst moved isSst row member
    exact ⟨flushed, newest below bound, Nat.lt_succ_of_lt bound⟩
  · intro flush isFlush row member
    obtain ⟨below, bound⟩ := inOrder.snapshot flush isFlush row member
    exact ⟨newest below bound, Nat.lt_succ_of_lt bound⟩
  · intro id row found
    rcases lookup_insert_eq_some found with ⟨-, rfl⟩ | ⟨-, was⟩
    · exact Nat.lt_succ_self _
    · exact Nat.lt_succ_of_lt (inOrder.memory id row was)

/-- Compactions that come, go or have no name yet. -/
theorem InOrder.compactions (inOrder : InOrder config s) {compactions : AList fun _ : Nat => NamingCompaction}
    (same : ∀ job inputs outName rows, compactions.lookup job = some ⟨inputs, .merged outName rows⟩ →
      s.compactions.lookup job = some ⟨inputs, .merged outName rows⟩) :
    InOrder config { s with compactions } := by
  have places : ∀ place sst, SstNaming.sstAt { s with compactions } place = some sst →
      s.sstAt place = some sst := by
    intro place sst isSst
    cases place with
    | merged job =>
      dsimp only [SstNaming.sstAt] at isSst
      split at isSst
      next inputs outName rows running =>
        cases isSst
        rw [SstNaming.sstAt, same job inputs outName rows running]
      next => cases isSst
    | _ => exact isSst
  refine ⟨inOrder.aged.drop places fun job sst isSst => ?_, ?_, inOrder.snapshot, inOrder.memory⟩
  · dsimp only [SstNaming.sstAt] at isSst
    split at isSst
    next inputs outName rows running => exact running.trans (same job inputs outName rows running).symm
    next => cases isSst
  · intro place sst moved isSst
    exact inOrder.settled place sst moved (places place sst isSst)

theorem inOrder_flushBegin (inOrder : InOrder config s) (idle : s.flush = none) :
    InOrder config { s with memtable := ∅, flush := some ⟨s.memtable, none⟩ } := by
  have places : ∀ place, SstNaming.sstAt { s with memtable := ∅, flush := some ⟨s.memtable, none⟩ } place =
      s.sstAt place := by
    intro place
    cases place with
    | flushed =>
      dsimp only [SstNaming.sstAt]
      rw [idle]
    | _ => rfl
  refine ⟨inOrder.aged.drop (fun place sst isSst => (places place).symm.trans isSst) fun _ _ _ => rfl,
    ?_, ?_, nofun⟩
  · intro place sst moved isSst row member
    rw [places] at isSst
    obtain ⟨-, below, bound⟩ := inOrder.settled place sst moved isSst row member
    refine ⟨?_, nofun, bound⟩
    intro flush isFlush new isNew
    cases isFlush
    obtain ⟨id, found⟩ := StampedTable.mem_rows.mp isNew
    exact below id new found
  · intro flush isFlush row member
    cases isFlush
    obtain ⟨id, found⟩ := StampedTable.mem_rows.mp member
    exact ⟨nofun, inOrder.memory id row found⟩

theorem inOrder_flushWrite {micros : Nat} (inOrder : InOrder config s) {snapshot : StampedTable}
    (running : s.flush = some ⟨snapshot, none⟩) (advance : s.NamesAdvance config (.flushWrite micros)) :
    InOrder config { s with
      flush := some ⟨snapshot, some (nextSstFileName micros s.sstFileSequence)⟩
      sstFileSequence := s.sstFileSequence + 1 } := by
  refine ⟨@AllAged.name _ _ _ .flushed _ inOrder.aged rfl ?_ (fun _ _ => rfl) ?_, ?_, ?_, inOrder.memory⟩
  · intro other sst moved isSst
    cases other with
    | flushed => exact absurd rfl moved
    | _ => exact isSst
  · intro other sst moved isSst _
    apply aged_of_follows
    intro row member new isNew tied
    have older := (inOrder.settled other sst moved isSst row member).1 ⟨snapshot, none⟩ running new isNew
    exact ⟨older.le, advance _ running other sst.1 sst.2 isSst row member new isNew tied⟩
  · intro place sst moved isSst row member
    have before : s.sstAt place = some sst := by
      cases place with
      | flushed => exact absurd rfl moved
      | _ => exact isSst
    obtain ⟨flushed, below⟩ := inOrder.settled place sst moved before row member
    refine ⟨?_, below⟩
    intro flush isFlush
    cases isFlush
    exact flushed ⟨snapshot, none⟩ running
  · intro flush isFlush
    cases isFlush
    exact inOrder.snapshot ⟨snapshot, none⟩ running

theorem inOrder_flushFails (inOrder : InOrder config s) : InOrder config { s with flush := none } := by
  have places : ∀ place sst, SstNaming.sstAt { s with flush := none } place = some sst →
      s.sstAt place = some sst := by
    intro place sst isSst
    cases place with
    | flushed => cases isSst
    | _ => exact isSst
  refine ⟨inOrder.aged.drop places fun _ _ _ => rfl, ?_, nofun, inOrder.memory⟩
  intro place sst moved isSst row member
  exact ⟨nofun, (inOrder.settled place sst moved (places place sst isSst) row member).2⟩

theorem inOrder_flushPublish (inOrder : InOrder config s) {snapshot : StampedTable} {sstName : String}
    (running : s.flush = some ⟨snapshot, some sstName⟩) :
    InOrder config { s with flush := none, published := s.published.insert sstName snapshot.rows } := by
  have wasFlushed : s.sstAt .flushed = some (sstName, snapshot.rows) := by rw [SstNaming.sstAt, running]
  -- an SST is where it was, but for the one that was flushed
  have places : ∀ place sst,
      SstNaming.sstAt { s with flush := none, published := s.published.insert sstName snapshot.rows }
        place = some sst →
      (place = .published sstName ∧ sst = (sstName, snapshot.rows)) ∨
        (place ≠ .published sstName ∧ place ≠ .flushed ∧ s.sstAt place = some sst) := by
    intro place sst isSst
    cases place with
    | published name =>
      obtain ⟨rows, found, rfl⟩ := Option.map_eq_some_iff.mp isSst
      rcases lookup_insert_eq_some found with ⟨rfl, rfl⟩ | ⟨other, was⟩
      · exact .inl ⟨rfl, rfl⟩
      · refine .inr ⟨fun same => other (SstPlace.published.inj same), nofun, ?_⟩
        rw [SstNaming.sstAt, was]
        rfl
    | flushed => cases isSst
    | merged job => exact .inr ⟨nofun, nofun, isSst⟩
  have waits : ∀ place, ¬s.Replaces place .flushed := by
    intro place
    cases place <;> exact id
  refine ⟨inOrder.aged.publish wasFlushed waits places (fun _ _ _ _ => id) fun _ _ _ before => before,
    ?_, nofun, inOrder.memory⟩
  · intro place sst _ isSst row member
    refine ⟨nofun, ?_⟩
    rcases places place sst isSst with ⟨-, rfl⟩ | ⟨-, moved, was⟩
    · exact inOrder.snapshot _ running row member
    · exact (inOrder.settled place sst moved was row member).2

theorem inOrder_compactMerge {job committedIndex micros : Nat} {clock : Nat → Nat}
    (inOrder : InOrder config s) {inputs : List String} {fullCoverage : Bool}
    (running : s.compactions.lookup job = some ⟨inputs, .covered fullCoverage⟩)
    (advance : s.NamesAdvance config (.compactMerge job committedIndex clock micros)) :
    InOrder config { s with
      compactions := s.compactions.insert job ⟨inputs, .merged
        (nextSstFileName micros s.sstFileSequence)
        (s.compactedRows config inputs fullCoverage committedIndex clock)⟩
      sstFileSequence := s.sstFileSequence + 1 } := by
  generalize isRows : s.compactedRows config inputs fullCoverage committedIndex clock = outRows
  generalize isName : nextSstFileName micros s.sstFileSequence = outName
  have fromInputs : ∀ row ∈ outRows, row ∈ s.inputRows inputs := by
    intro row member
    rw [← isRows] at member
    exact mem_compactedRows member
  have inserted : (s.compactions.insert job ⟨inputs, .merged outName outRows⟩).lookup job =
      some ⟨inputs, .merged outName outRows⟩ := AList.lookup_insert _
  have places : ∀ place sst, place ≠ .merged job → SstNaming.sstAt { s with
      compactions := s.compactions.insert job ⟨inputs, .merged outName outRows⟩
      sstFileSequence := s.sstFileSequence + 1 } place = some sst → s.sstAt place = some sst := by
    intro place sst other isSst
    cases place with
    | merged id =>
      have apart : id ≠ job := fun same => other (congrArg SstPlace.merged same)
      dsimp only [SstNaming.sstAt] at isSst
      rw [AList.lookup_insert_ne apart] at isSst
      exact isSst
    | _ => exact isSst
  refine ⟨@AllAged.name _ _ _ (.merged job) (outName, outRows) inOrder.aged ?_
    (fun other sst apart isSst => places other sst apart isSst) ?_ ?_, ?_, inOrder.snapshot, inOrder.memory⟩
  · dsimp only [SstNaming.sstAt]
    rw [inserted]
  · intro id other
    exact AList.lookup_insert_ne fun same => other (congrArg SstPlace.merged same)
  · intro other sst _ isSst stays
    rw [← isName]
    apply aged_of_follows
    intro row member new isNew tied
    refine advance _ running other sst.1 sst.2 isSst (fun input isInput same => ?_) row member new
      (fromInputs new isNew) tied
    subst same
    exact stays ⟨_, inserted, isInput⟩
  · intro place sst moved isSst row member
    by_cases own : place = .merged job
    · subst own
      dsimp only [SstNaming.sstAt] at isSst
      rw [inserted] at isSst
      cases isSst
      obtain ⟨input, -, rows, found, inRows⟩ := mem_inputRows.mp (fromInputs row member)
      have isInput : s.sstAt (.published input) = some (input, rows) := by
        rw [SstNaming.sstAt, found]
        rfl
      exact inOrder.settled (.published input) _ (fun same => by cases same) isInput row inRows
    · exact inOrder.settled place sst moved (places place sst own isSst) row member

theorem inOrder_compactPublish {job : Nat} (inOrder : InOrder config s) {inputs : List String}
    {outName : String} {outRows : List StampedRow}
    (running : s.compactions.lookup job = some ⟨inputs, .merged outName outRows⟩) :
    InOrder config { s with
      compactions := s.compactions.erase job
      published := inputs.foldl (fun published input => published.erase input)
        (s.published.insert outName outRows) } := by
  have wasMerged : s.sstAt (.merged job) = some (outName, outRows) := by rw [SstNaming.sstAt, running]
  -- an SST is where it was, but for the output, and no input is left
  have places : ∀ place sst, SstNaming.sstAt { s with
      compactions := s.compactions.erase job
      published := inputs.foldl (fun published input => published.erase input)
        (s.published.insert outName outRows) } place = some sst →
      (place = .published outName ∧ sst = (outName, outRows)) ∨
        (place ≠ .published outName ∧ place ≠ .merged job ∧
          (∀ input ∈ inputs, place ≠ .published input) ∧ s.sstAt place = some sst) := by
    intro place sst isSst
    cases place with
    | published name =>
      obtain ⟨rows, found, rfl⟩ := Option.map_eq_some_iff.mp isSst
      obtain ⟨noInput, inserted⟩ := lookup_foldl_erase found
      rcases lookup_insert_eq_some inserted with ⟨rfl, rfl⟩ | ⟨other, was⟩
      · exact .inl ⟨rfl, rfl⟩
      · refine .inr ⟨fun same => other (SstPlace.published.inj same), nofun, ?_, ?_⟩
        · intro input member same
          exact noInput (SstPlace.published.inj same ▸ member)
        · rw [SstNaming.sstAt, was]
          rfl
    | flushed => exact .inr ⟨nofun, nofun, fun _ _ => nofun, isSst⟩
    | merged id =>
      dsimp only [SstNaming.sstAt] at isSst
      split at isSst
      next others name rows found =>
        cases isSst
        obtain ⟨apart, was⟩ := lookup_erase_eq_some found
        refine .inr ⟨nofun, fun same => apart (SstPlace.merged.inj same), fun _ _ => nofun, ?_⟩
        rw [SstNaming.sstAt, was]
      next => cases isSst
  have waits : ∀ place, ¬s.Replaces place (.merged job) := by
    intro place
    cases place <;> exact id
  refine ⟨inOrder.aged.publish wasMerged waits (fun place sst isSst => ?_) ?_ ?_, ?_,
    inOrder.snapshot, inOrder.memory⟩
  · rcases places place sst isSst with new | ⟨other, moved, -, was⟩
    · exact .inl new
    · exact .inr ⟨other, moved, was⟩
  · intro other sst distinct isSst replaced
    rcases places other sst isSst with ⟨isNew, -⟩ | ⟨-, -, noInput, -⟩
    · exact distinct isNew
    · cases other with
      | published name =>
        obtain ⟨run, isRun, member⟩ := replaced
        rw [running] at isRun
        cases isRun
        exact noInput name member rfl
      | _ => cases replaced
  · intro place other moved replaced
    cases place with
    | merged id =>
      cases other with
      | published name =>
        obtain ⟨run, isRun, member⟩ := replaced
        refine ⟨run, ?_, member⟩
        dsimp only
        rw [AList.lookup_erase_ne fun same => moved (congrArg SstPlace.merged same)]
        exact isRun
      | _ => cases replaced
    | _ => cases replaced
  · intro place sst moved isSst row member
    rcases places place sst isSst with ⟨-, rfl⟩ | ⟨-, -, -, was⟩
    · exact inOrder.settled (.merged job) _ (fun same => by cases same) wasMerged row member
    · exact inOrder.settled place sst moved was row member

/-- Every step keeps the order of the names that are there, and brings a new name into it. -/
theorem InOrder.step {e : NamingEvent} (inOrder : InOrder config s) (advance : s.NamesAdvance config e)
    (taken : s.step config e = some t) : InOrder config t := by
  cases e with
  | write doc time =>
    cases taken
    exact inOrder_write inOrder doc time
  | flushBegin =>
    dsimp only [SstNaming.step] at taken
    split at taken
    · cases taken
    next idle =>
      split at taken
      · cases taken
      · cases taken
        exact inOrder_flushBegin inOrder idle
  | flushWrite micros =>
    dsimp only [SstNaming.step] at taken
    split at taken
    next snapshot running =>
      cases taken
      exact inOrder_flushWrite inOrder running advance
    next => cases taken
  | flushFails =>
    cases taken
    exact inOrder_flushFails inOrder
  | flushPublish =>
    dsimp only [SstNaming.step] at taken
    split at taken
    next snapshot sstName running =>
      cases taken
      exact inOrder_flushPublish inOrder running
    next => cases taken
  | compactSelect job =>
    dsimp only [SstNaming.step] at taken
    split at taken
    · cases taken
    next fresh =>
      split at taken
      · cases taken
      · cases taken
        apply inOrder.compactions
        intro other inputs outName rows found
        rcases lookup_insert_eq_some found with ⟨-, absurd⟩ | ⟨-, was⟩
        · cases absurd
        · exact was
  | compactCoverage job =>
    dsimp only [SstNaming.step] at taken
    split at taken
    next inputs totalSstBytes running =>
      cases taken
      apply inOrder.compactions
      intro other inputs outName rows found
      rcases lookup_insert_eq_some found with ⟨-, absurd⟩ | ⟨-, was⟩
      · cases absurd
      · exact was
    next => cases taken
  | compactMerge job committedIndex clock micros =>
    dsimp only [SstNaming.step] at taken
    split at taken
    next inputs fullCoverage running =>
      split at taken
      · cases taken
        exact inOrder_compactMerge inOrder running advance
      · cases taken
    next => cases taken
  | compactPublish job =>
    dsimp only [SstNaming.step] at taken
    split at taken
    next inputs outName rows running =>
      split at taken
      · cases taken
        exact inOrder_compactPublish inOrder running
      · cases taken
        exact inOrder.compactions fun other inputs outName rows found => (lookup_erase_eq_some found).2
    next => cases taken
  | compactAbort job =>
    cases taken
    exact inOrder.compactions fun other inputs outName rows found => (lookup_erase_eq_some found).2
  | elsewhere =>
    cases taken
    exact ⟨inOrder.aged, inOrder.settled, inOrder.snapshot, inOrder.memory⟩
  | restart =>
    cases taken
    have places : ∀ place sst,
        SstNaming.sstAt { published := s.published, writes := s.writes } place = some sst →
          s.sstAt place = some sst ∧ ∃ name, place = .published name := by
      intro place sst isSst
      cases place with
      | published name => exact ⟨isSst, name, rfl⟩
      | _ => cases isSst
    refine ⟨inOrder.aged.drop (fun place sst isSst => (places place sst isSst).1) ?_, ?_, nofun, nofun⟩
    · intro job sst isSst
      cases isSst
    · intro place sst moved isSst row member
      exact ⟨nofun, nofun, (inOrder.settled place sst moved (places place sst isSst).1 row member).2.2⟩

end Steps

/-! ## Whole runs -/

/-- In every run in which the names advance, the names of the published SSTs are in the
order of the writes. -/
theorem namesOrdered_of_reach (config : LsmConfig) (s : SstNaming)
    (reached : Reach (SstNaming.step config) (SstNaming.NamesAdvance config) {} s) :
    s.NamesOrdered config := by
  have start : InOrder config {} := by
    refine ⟨?_, ?_, nofun, nofun⟩
    · intro place other sst next _ _ _ isSst
      cases place <;> cases isSst
    · intro place sst _ isSst
      cases place <;> cases isSst
  have inOrder := reached.invariant start fun before advance taken => before.step advance taken
  intro name other rows others isRows isOthers apart row member later isLater tied newer
  have aged := inOrder.aged (.published name) (.published other) (name, rows) (other, others)
    (fun same => apart (SstPlace.published.inj same)) nofun nofun (by rw [SstNaming.sstAt, isRows]; rfl)
    (by rw [SstNaming.sstAt, isOthers]; rfl)
  exact (aged row member later isLater tied).1 newer

/-! ## Two flushes -/

/-- A document without a version. -/
def undatedDoc (x : Int) : Json := .object [("id", .string "a"), ("x", .integer x)]

/-- The document is written and flushed, twice, with the clock at these readings. -/
def writtenTwice (first second : Nat) : List NamingEvent :=
  [.write (undatedDoc 1) 0, .flushBegin, .flushWrite first, .flushPublish,
    .write (undatedDoc 2) 0, .flushBegin, .flushWrite second, .flushPublish]

def flushedOnce (first : Nat) : AList fun _ : String => List StampedRow :=
  (∅ : AList fun _ : String => List StampedRow).insert (nextSstFileName first 0) [⟨undatedDoc 1, 0⟩]

def flushedTwice (first second : Nat) : SstNaming where
  published := (flushedOnce first).insert (nextSstFileName second 1) [⟨undatedDoc 2, 1⟩]
  sstFileSequence := 2
  writes := 2

theorem run_writtenTwice (first second : Nat) :
    run (SstNaming.step standalone) {} (writtenTwice first second) =
      some (flushedTwice first second) := by
  rfl

/-- The clock was set back between the flushes: the older row is in the SST of the greater
name. -/
theorem namesOrdered_not_clockSetBack : ¬∀ s,
    Reach (SstNaming.step standalone) (fun _ _ => True) {} s → s.NamesOrdered standalone := by
  intro ordered
  have reached : Reach (SstNaming.step standalone) (fun _ _ => True) {} (flushedTwice 2000 1000) :=
    Reach.refl.of_run (fun _ _ _ => trivial) (run_writtenTwice 2000 1000)
  have tied : Tied standalone ⟨undatedDoc 1, 0⟩ ⟨undatedDoc 2, 1⟩ := ⟨⟨"a", by rfl, by rfl⟩, by rfl⟩
  have less := ordered _ reached "2000_0.sst" "1000_1.sst" [⟨undatedDoc 1, 0⟩] [⟨undatedDoc 2, 1⟩] (by rfl)
    (by rfl) (by decide) _ (.head _) _ (.head _) tied Nat.zero_lt_one
  exact absurd less (by decide)

/-- With the clock going on, the names are in order. -/
theorem namesOrdered_of_reach_clockAdvances : (flushedTwice 2000 3000).NamesOrdered standalone := by
  refine namesOrdered_of_reach standalone _ (Reach.refl.of_runAllowed ?_ (run_writtenTwice 2000 3000))
  refine ⟨trivial, fun _ wrote => ?_⟩
  cases wrote
  refine ⟨trivial, fun _ began => ?_⟩
  cases began
  refine ⟨?_, fun _ named => ?_⟩
  · intro flush _ place name rows isSst
    cases place <;> cases isSst
  cases named
  refine ⟨trivial, fun _ published => ?_⟩
  cases published
  refine ⟨trivial, fun _ wrote => ?_⟩
  cases wrote
  refine ⟨trivial, fun _ began => ?_⟩
  cases began
  refine ⟨?_, fun _ named => ?_⟩
  · intro flush _ place name rows isSst row member new isNew tied
    cases place with
    | published other =>
      obtain ⟨found, inserted, same⟩ := Option.map_eq_some_iff.mp isSst
      cases same
      rcases lookup_insert_eq_some inserted with ⟨rfl, -⟩ | ⟨-, absent⟩
      · exact ⟨2000, 0, rfl, by decide, .inl (by decide)⟩
      · cases absent
    | flushed => cases isSst
    | merged job => cases isSst
  cases named
  exact ⟨trivial, fun _ _ => trivial⟩

end PacificDb.Lsm
