import PacificDb.Raft.LogFile
import PacificDb.Raft.Position

/-!
# Restart

`loadBinaryRaftLogEntries` reads `log.bin` and cuts a torn tail off it;
`replayRaftLog` applies what is committed behind the snapshot. The node takes
part again only if that got through, and then the state machine has every entry
from the snapshot to the commit index, unless the last shutdown was a clean one.
-/

namespace PacificDb.Raft

open Lib

variable {Value : Type}

structure PersistedRaftEntry (Value : Type) where
  index : Nat
  term : Nat
  payload : Value
  startOffset : Nat := 0
  endOffset : Nat := 0
  deriving Repr, DecidableEq

/-- Why recovery is refused. -/
inductive RecoveryFailure where
  | snapshotMetadata
  | truncatedHeader
  | truncatedPayload (index : Nat)
  | invalidSize (index : Nat)
  | invalidPayload
  | tailSync
  | commitNotCovered (durableCommit available : Nat)
  | gap (expected next : Nat)
  | applyFailed (index : Nat)
  | endsBeforeCommit (commit : Nat)
  | persist
  deriving Repr, DecidableEq

/-! ## Loading -/

/-- What the loader returns or throws, and `log.bin` as it leaves it. -/
structure Loaded (Value : Type) where
  entries : Except RecoveryFailure (List (PersistedRaftEntry Value))
  file : Bytes

/-- What the loader is given, and whether its sync of a cut file works. -/
structure LoadRequest where
  durableStateKnown : Bool
  durableCommitIndex : Nat
  snapshotIndex : Nat
  syncs : Bool := true

/-- `completeIndex` of `discardTornTail`. -/
def completeIndex (entries : List (PersistedRaftEntry Value)) : Nat :=
  (entries.getLast?.map PersistedRaftEntry.index).getD 0

/-- The durable commit marker or the snapshot covers everything that is kept. -/
def LoadRequest.mayDiscard (request : LoadRequest) (entries : List (PersistedRaftEntry Value)) :
    Bool :=
  request.durableStateKnown &&
    decide (request.durableCommitIndex ≤ max (completeIndex entries) request.snapshotIndex)

def LoadRequest.discardTornTail (request : LoadRequest) (file : Bytes) (start : Nat)
    (entries : List (PersistedRaftEntry Value)) (reason : RecoveryFailure) : Loaded Value :=
  if request.mayDiscard entries then
    { entries := if request.syncs then .ok entries else .error .tailSync
      file := file.take start }
  else { entries := .error reason, file }

section Load

variable (decode : Bytes → Option Value) (request : LoadRequest) (file : Bytes)

/-- The record loop. The fuel is the number of bytes left. -/
def loadLoop : Nat → List (PersistedRaftEntry Value) → Nat → Bytes → Loaded Value
  | 0, entries, _, _ => { entries := .ok entries, file }
  | fuel + 1, entries, start, bytes =>
      match readRecord validSize bytes with
      | .atEnd => { entries := .ok entries, file }
      | .cutHeader => request.discardTornTail file start entries .truncatedHeader
      | .badSize index => { entries := .error (.invalidSize index), file }
      | .cutPayload index => request.discardTornTail file start entries (.truncatedPayload index)
      | .record record rest =>
          match decode record.payload with
          | none => { entries := .error .invalidPayload, file }
          | some payload =>
              let entryEnd := start + record.bytes.length
              loadLoop fuel
                (entries ++ [{ index := record.index, term := record.term, payload
                               startOffset := start, endOffset := entryEnd }])
                entryEnd rest

def loadBinaryRaftLogEntries : Loaded Value := loadLoop decode request file (file.length + 1) [] 0 file

end Load

/-! ## Replaying -/

/-- An entry of the older text log, with the index and term it may carry. -/
structure LegacyEntry (Value : Type) where
  index : Option Nat
  term : Option Nat
  payload : Value

/-- The indexes of legacy entries: their own, or the next number. -/
def legacyEntries (currentTerm : Nat) : Nat → List (LegacyEntry Value) → List (PersistedRaftEntry Value)
  | _, [] => []
  | syntheticIndex, entry :: rest =>
      let own := entry.index.getD 0
      let index := if own = 0 then syntheticIndex + 1 else own
      { index, term := entry.term.getD currentTerm, payload := entry.payload } ::
        legacyEntries currentTerm (max syntheticIndex index) rest

/-- What a restart finds on disk, and how its writes go. -/
structure RecoveryInput (Node Value : Type) where
  /-- `.snapshot`: none, or what its metadata says if it can be trusted. -/
  snapshot : Option (Except Unit (Nat × Nat)) := none
  /-- `consensus_state.json`, if its checksum and its progress are valid. -/
  consensus : Option (ConsensusState Node) := none
  progress : ∀ state, consensus = some state → state.lastApplied ≤ state.commitIndex
  cleanShutdown : Bool := false
  logBin : Bytes := []
  legacyLog : List (LegacyEntry Value) := []
  tailSyncs : Bool := true
  persists : Bool := true

structure Recovered (Value : Type) where
  recoveryComplete : Bool
  failure : Option RecoveryFailure := none
  /-- The entries given to the state machine, in order. -/
  applied : List (PersistedRaftEntry Value) := []
  lastApplied : Nat
  commitIndex : Nat
  lastIndex : Nat
  lastEntryTerm : Nat
  lastAppliedOffset : Nat := 0
  file : Bytes

structure ReplayState (Value : Type) where
  replayedApplied : Nat
  replayedOffset : Nat := 0
  applied : List (PersistedRaftEntry Value) := []

/-- The apply loop: `expectedIndex` is one more than `replayedApplied`. -/
def replayLoop (apply : List (PersistedRaftEntry Value) → PersistedRaftEntry Value → Bool)
    (usedBinaryLog : Bool) (restoredCommitIndex : Nat) :
    ReplayState Value → List (PersistedRaftEntry Value) →
      Except (RecoveryFailure × ReplayState Value) (ReplayState Value)
  | state, [] => .ok state
  | state, persisted :: rest =>
      if restoredCommitIndex < persisted.index then
        replayLoop apply usedBinaryLog restoredCommitIndex state rest
      else if persisted.index ≤ state.replayedApplied then
        replayLoop apply usedBinaryLog restoredCommitIndex
          { state with
            replayedOffset := if usedBinaryLog then persisted.endOffset else state.replayedOffset }
          rest
      else if persisted.index ≠ state.replayedApplied + 1 then
        .error (.gap (state.replayedApplied + 1) persisted.index, state)
      else if apply state.applied persisted then
        replayLoop apply usedBinaryLog restoredCommitIndex
          { replayedApplied := persisted.index
            replayedOffset := if usedBinaryLog then persisted.endOffset else state.replayedOffset
            applied := state.applied ++ [persisted] }
          rest
      else .error (.applyFailed persisted.index, state)

/-- The entry with the largest index; of several, the last. -/
def lastPosition (entries : List (PersistedRaftEntry Value)) : Nat × Nat :=
  entries.foldl (fun last entry => if last.1 ≤ entry.index then (entry.index, entry.term) else last)
    (0, 0)

section Replay

variable {Node : Type} (decode : Bytes → Option Value)
  (apply : List (PersistedRaftEntry Value) → PersistedRaftEntry Value → Bool)

/-- `commitIndex_` once the snapshot metadata are in. -/
def RecoveryInput.restoredCommit (input : RecoveryInput Node Value) (snapshotIndex : Nat) : Nat :=
  max (input.consensus.getD {}).commitIndex snapshotIndex

/-- `lastApplied_` once the snapshot metadata are in. -/
def RecoveryInput.restoredApplied (input : RecoveryInput Node Value) (snapshotIndex : Nat) : Nat :=
  max (input.consensus.getD {}).lastApplied snapshotIndex

/-- Recovery stops before it knows the entries of the log. -/
def fenced (input : RecoveryInput Node Value) (snapshotIndex snapshotTerm : Nat) (file : Bytes)
    (failure : RecoveryFailure) : Recovered Value where
  recoveryComplete := false
  failure := some failure
  lastApplied := input.restoredApplied snapshotIndex
  commitIndex := input.restoredCommit snapshotIndex
  lastIndex := snapshotIndex
  lastEntryTerm := snapshotTerm
  file := file

/-- Neither log has an entry. -/
def replayNothing (input : RecoveryInput Node Value) (snapshotIndex snapshotTerm : Nat)
    (file : Bytes) : Recovered Value :=
  let commitIndex := input.restoredCommit snapshotIndex
  if snapshotIndex < commitIndex then
    fenced input snapshotIndex snapshotTerm file (.commitNotCovered commitIndex snapshotIndex)
  else if 0 < snapshotIndex then
    { recoveryComplete := input.persists
      failure := if input.persists then none else some .persist
      lastApplied := snapshotIndex
      commitIndex := snapshotIndex
      lastIndex := snapshotIndex
      lastEntryTerm := snapshotTerm
      file }
  else
    { recoveryComplete := true
      lastApplied := input.restoredApplied snapshotIndex
      commitIndex
      lastIndex := snapshotIndex
      lastEntryTerm := snapshotTerm
      file }

/-- The log has entries: `trimRaftLog` after the loop writes the same records. -/
def replayEntries (input : RecoveryInput Node Value) (snapshotIndex snapshotTerm : Nat)
    (file : Bytes) (usedBinaryLog : Bool) (entries : List (PersistedRaftEntry Value)) :
    Recovered Value :=
  let known := input.consensus.isSome
  let durableCommitIndex := input.restoredCommit snapshotIndex
  let persistedApplied := input.restoredApplied snapshotIndex
  let (maxIndex, lastLogTerm) := lastPosition entries
  let available := max maxIndex snapshotIndex
  if known && decide (available < durableCommitIndex) then
    fenced input snapshotIndex snapshotTerm file (.commitNotCovered durableCommitIndex available)
  else
    let restoredCommitIndex := if known then durableCommitIndex else available
    let cleanAppliedPrefix :=
      input.cleanShutdown && known && persistedApplied == restoredCommitIndex
    let position : Recovered Value :=
      { recoveryComplete := false
        lastApplied := persistedApplied
        commitIndex := max durableCommitIndex restoredCommitIndex
        lastIndex := max snapshotIndex maxIndex
        lastEntryTerm := if snapshotIndex < maxIndex then lastLogTerm else snapshotTerm
        file }
    match replayLoop apply usedBinaryLog restoredCommitIndex
        { replayedApplied := if cleanAppliedPrefix then persistedApplied else snapshotIndex }
        entries with
    | .error (failure, state) =>
        { position with
          failure := some failure
          applied := state.applied
          lastApplied := match failure with
            | .applyFailed _ => state.replayedApplied
            | _ => persistedApplied }
    | .ok state =>
        if state.replayedApplied < restoredCommitIndex then
          { position with
            failure := some (.endsBeforeCommit restoredCommitIndex)
            applied := state.applied }
        else
          { position with
            recoveryComplete := input.persists
            failure := if input.persists then none else some .persist
            applied := state.applied
            lastApplied := state.replayedApplied
            lastAppliedOffset := if usedBinaryLog then state.replayedOffset else 0 }

/-- `replayRaftLog` behind the snapshot metadata, in a new process. -/
def replayFrom (input : RecoveryInput Node Value) (snapshotIndex snapshotTerm : Nat) :
    Recovered Value :=
  let loaded := loadBinaryRaftLogEntries decode
    { durableStateKnown := input.consensus.isSome
      durableCommitIndex := input.restoredCommit snapshotIndex
      snapshotIndex
      syncs := input.tailSyncs } input.logBin
  match loaded.entries with
  | .error failure => fenced input snapshotIndex snapshotTerm loaded.file failure
  | .ok binary =>
      let usedBinaryLog := !binary.isEmpty
      let entries := if usedBinaryLog then binary
        else legacyEntries (input.consensus.getD {}).currentTerm 0 input.legacyLog
      if entries.isEmpty then replayNothing input snapshotIndex snapshotTerm loaded.file
      else replayEntries apply input snapshotIndex snapshotTerm loaded.file usedBinaryLog entries

/-- `replayRaftLog`. -/
def replayRaftLog (input : RecoveryInput Node Value) : Recovered Value :=
  match input.snapshot with
  | none => replayFrom decode apply input 0 0
  | some (.ok (snapshotIndex, snapshotTerm)) => replayFrom decode apply input snapshotIndex snapshotTerm
  | some (.error _) =>
      let state := input.consensus.getD {}
      { recoveryComplete := false, failure := some .snapshotMetadata
        lastApplied := state.lastApplied, commitIndex := state.commitIndex
        lastIndex := 0, lastEntryTerm := 0, file := input.logBin }

end Replay

/-! ## What the loader reads -/

/-- A persisted entry is the record, decoded. -/
def DecodedAs (decode : Bytes → Option Value) (entry : PersistedRaftEntry Value)
    (record : Entry Bytes) : Prop :=
  entry.index = record.index ∧ entry.term = record.term ∧ decode record.payload = some entry.payload

/-- The index of the last whole record. -/
def lastWholeIndex (records : List (Entry Bytes)) : Nat :=
  (records.getLast?.map Entry.index).getD 0

theorem map_index_decoded {decode : Bytes → Option Value}
    {entries : List (PersistedRaftEntry Value)} {records : List (Entry Bytes)}
    (decoded : List.Forall₂ (DecodedAs decode) entries records) :
    entries.map PersistedRaftEntry.index = records.map Entry.index := by
  induction decoded with
  | nil => rfl
  | cons head _ ih => rw [List.map_cons, List.map_cons, head.1, ih]

theorem completeIndex_eq {decode : Bytes → Option Value} {entries : List (PersistedRaftEntry Value)}
    {records : List (Entry Bytes)} (decoded : List.Forall₂ (DecodedAs decode) entries records) :
    completeIndex entries = lastWholeIndex records := by
  rw [completeIndex, lastWholeIndex, ← List.getLast?_map, map_index_decoded decoded,
    List.getLast?_map]

/-- The loader's answer, in terms of the whole records of the file. -/
structure LoadSpec (decode : Bytes → Option Value) (request : LoadRequest) (file : Bytes)
    (loaded : Loaded Value) : Prop where
  entries : ∀ entries, loaded.entries = .ok entries →
    List.Forall₂ (DecodedAs decode) entries (parse validSize file).1
  file : loaded.file = file ∨ (request.durableStateKnown = true ∧
    request.durableCommitIndex ≤
      max (lastWholeIndex (parse validSize file).1) request.snapshotIndex ∧
    file = loaded.file ++ (parse validSize file).2)

section Loading

variable {decode : Bytes → Option Value} {request : LoadRequest}

theorem discardTornTail_spec {entries : List (PersistedRaftEntry Value)}
    {records : List (Entry Bytes)} {done torn : Bytes} {reason : RecoveryFailure}
    (whole : parse validSize (done ++ torn) = (records, torn))
    (decoded : List.Forall₂ (DecodedAs decode) entries records) :
    LoadSpec decode request (done ++ torn)
      (request.discardTornTail (done ++ torn) done.length entries reason) := by
  unfold LoadRequest.discardTornTail
  split
  next may =>
    have both := Bool.and_eq_true_iff.mp may
    constructor
    · intro found ok
      dsimp only at ok
      split at ok
      · cases ok
        rw [whole]
        exact decoded
      · cases ok
    · refine .inr ⟨both.1, ?_, ?_⟩
      · rw [whole, ← completeIndex_eq decoded]
        exact of_decide_eq_true both.2
      · rw [whole, List.take_left' rfl]
  next =>
    constructor
    · intro found ok
      cases ok
    · exact .inl rfl

theorem loadLoop_spec {fuel : Nat} {entries : List (PersistedRaftEntry Value)}
    {records : List (Entry Bytes)} {done bytes : Bytes} (enough : bytes.length < fuel)
    (whole : parse validSize (done ++ bytes) =
      (records ++ (parse validSize bytes).1, (parse validSize bytes).2))
    (decoded : List.Forall₂ (DecodedAs decode) entries records) :
    LoadSpec decode request (done ++ bytes)
      (loadLoop decode request (done ++ bytes) fuel entries done.length bytes) := by
  induction fuel generalizing entries records done bytes with
  | zero => exact absurd enough (Nat.not_lt_zero _)
  | succ fuel ih =>
    rw [loadLoop]
    -- every answer but a whole record ends the loop with the records read so far
    have ends (stop : ∀ entry rest, readRecord validSize bytes ≠ .record entry rest) :
        parse validSize (done ++ bytes) = (records, bytes) := by
      rw [whole, parse_stop stop, List.append_nil]
    cases read : readRecord validSize bytes with
    | atEnd =>
      have stop := ends fun entry rest same => by rw [read] at same; cases same
      refine ⟨fun found ok => ?_, .inl rfl⟩
      cases ok
      rw [stop]
      exact decoded
    | cutHeader =>
      have stop := ends fun entry rest same => by rw [read] at same; cases same
      exact discardTornTail_spec stop decoded
    | badSize index =>
      refine ⟨fun found ok => ?_, .inl rfl⟩
      cases ok
    | cutPayload index =>
      have stop := ends fun entry rest same => by rw [read] at same; cases same
      exact discardTornTail_spec stop decoded
    | record record rest =>
      dsimp only
      cases payload : decode record.payload with
      | none =>
        refine ⟨fun found ok => ?_, .inl rfl⟩
        cases ok
      | some value =>
        obtain ⟨rfl, -⟩ := readRecord_eq_record read
        have shorter := readRecord_length read
        dsimp only
        rw [← List.length_append, ← List.append_assoc]
        refine @ih _ (records ++ [record]) (done ++ record.bytes) rest (by omega) ?_ ?_
        · rw [List.append_assoc, whole, parse_record read, List.append_assoc]
          rfl
        · exact List.rel_append decoded (.cons ⟨rfl, rfl, payload⟩ .nil)

theorem loadBinaryRaftLogEntries_spec (file : Bytes) :
    LoadSpec decode request file (loadBinaryRaftLogEntries decode request file) :=
  @loadLoop_spec _ _ _ (file.length + 1) [] [] [] file (Nat.lt_succ_self _) rfl .nil

/-- The loader on whole records that decode, with a torn tail behind them. -/
theorem loadLoop_records {fuel : Nat} {entries : List (PersistedRaftEntry Value)}
    {before records : List (Entry Bytes)} {done torn : Bytes}
    (fit : ∀ record ∈ records, record.Fits) (tail : TornTail torn)
    (decodes : ∀ record ∈ records, (decode record.payload).isSome = true)
    (syncs : request.syncs = true) (enough : records.length < fuel)
    (decoded : List.Forall₂ (DecodedAs decode) entries before) :
    ∃ all, List.Forall₂ (DecodedAs decode) all (before ++ records) ∧
      ((torn = [] ∨ request.mayDiscard all = true) ∧
          loadLoop decode request (done ++ (recordBytes records ++ torn)) fuel entries done.length
            (recordBytes records ++ torn) = ⟨.ok all, done ++ recordBytes records⟩ ∨
        (torn ≠ [] ∧ request.mayDiscard all = false) ∧
          ∃ failure, loadLoop decode request (done ++ (recordBytes records ++ torn)) fuel entries
            done.length (recordBytes records ++ torn) =
              ⟨.error failure, done ++ (recordBytes records ++ torn)⟩) := by
  induction records generalizing fuel entries before done with
  | nil =>
    obtain ⟨fuel, rfl⟩ : ∃ n, fuel = n + 1 := ⟨fuel - 1, by rw [List.length_nil] at enough; omega⟩
    rw [List.append_nil]
    refine ⟨entries, decoded, ?_⟩
    have nothing : recordBytes [] = [] := rfl
    rw [nothing, List.nil_append, List.append_nil, loadLoop]
    have cut (reason : RecoveryFailure) (some : torn ≠ []) :
        (torn = [] ∨ request.mayDiscard entries = true) ∧
            request.discardTornTail (done ++ torn) done.length entries reason =
              ⟨.ok entries, done⟩ ∨
          (torn ≠ [] ∧ request.mayDiscard entries = false) ∧
            ∃ failure, request.discardTornTail (done ++ torn) done.length entries reason =
              ⟨.error failure, done ++ torn⟩ := by
      rw [LoadRequest.discardTornTail]
      cases may : request.mayDiscard entries with
      | true =>
        rw [if_pos rfl, syncs, if_pos rfl, List.take_left' rfl]
        exact .inl ⟨.inr rfl, rfl⟩
      | false =>
        rw [if_neg Bool.false_ne_true]
        exact .inr ⟨⟨some, rfl⟩, reason, rfl⟩
    have some (read : readRecord validSize torn ≠ .atEnd) : torn ≠ [] := fun none => by
      rw [none] at read
      exact read rfl
    rcases tail.readRecord (fun _ valid => valid) with ⟨same, none⟩ | same | ⟨index, same⟩
    · rw [same, none, List.append_nil]
      exact .inl ⟨.inl rfl, rfl⟩
    · rw [same]
      exact cut _ (some (by rw [same]; nofun))
    · rw [same]
      exact cut _ (some (by rw [same]; nofun))
  | cons record records ih =>
    obtain ⟨fuel, rfl⟩ : ∃ n, fuel = n + 1 := ⟨fuel - 1, by rw [List.length_cons] at enough; omega⟩
    obtain ⟨fits, fit⟩ := List.forall_mem_cons.mp fit
    obtain ⟨decodesHead, decodes⟩ := List.forall_mem_cons.mp decodes
    obtain ⟨payload, found⟩ := Option.isSome_iff_exists.mp decodesHead
    have bytes : recordBytes (record :: records) = record.bytes ++ recordBytes records := rfl
    rw [bytes, List.append_assoc, loadLoop, readRecord_bytes fits fits.size]
    dsimp only
    rw [found]
    dsimp only
    rw [← List.length_append, ← List.append_assoc, ← List.append_assoc done]
    obtain ⟨all, decodedAll, loaded⟩ := @ih fuel
      (entries ++ [{ index := record.index, term := record.term, payload
                     startOffset := done.length, endOffset := (done ++ record.bytes).length }])
      (before ++ [record]) (done ++ record.bytes) fit decodes
      (by rw [List.length_cons] at enough; omega)
      (List.rel_append decoded (.cons ⟨rfl, rfl, found⟩ .nil))
    rw [List.append_assoc] at decodedAll
    exact ⟨all, decodedAll, loaded⟩

theorem loadBinaryRaftLogEntries_records {records : List (Entry Bytes)} {torn : Bytes}
    (fit : ∀ record ∈ records, record.Fits) (tail : TornTail torn)
    (decodes : ∀ record ∈ records, (decode record.payload).isSome = true)
    (syncs : request.syncs = true) :
    ∃ entries, List.Forall₂ (DecodedAs decode) entries records ∧
      ((torn = [] ∨ request.mayDiscard entries = true) ∧
          loadBinaryRaftLogEntries decode request (recordBytes records ++ torn) =
            ⟨.ok entries, recordBytes records⟩ ∨
        (torn ≠ [] ∧ request.mayDiscard entries = false) ∧
          ∃ failure, loadBinaryRaftLogEntries decode request (recordBytes records ++ torn) =
            ⟨.error failure, recordBytes records ++ torn⟩) := by
  have enough : records.length < (recordBytes records ++ torn).length + 1 := by
    have bound := length_le_recordBytes records
    rw [List.length_append]
    omega
  exact @loadLoop_records _ _ _ _ [] [] records [] torn fit tail decodes syncs enough .nil

end Loading

/-! ## What the replay applies -/

section Replaying

variable {Node : Type} {decode : Bytes → Option Value}
  {apply : List (PersistedRaftEntry Value) → PersistedRaftEntry Value → Bool}

/-- The replay has applied what follows `base`, in order, up to `replayedApplied`. -/
structure AppliedFrom (base : Nat) (state : ReplayState Value) : Prop where
  reached : base ≤ state.replayedApplied
  indexes : state.applied.map PersistedRaftEntry.index =
    List.range' (base + 1) (state.replayedApplied - base)

theorem AppliedFrom.snoc {base : Nat} {state : ReplayState Value}
    {persisted : PersistedRaftEntry Value} (applied : AppliedFrom base state)
    (next : persisted.index = state.replayedApplied + 1) (offset : Nat) :
    AppliedFrom base
      { replayedApplied := persisted.index, replayedOffset := offset
        applied := state.applied ++ [persisted] } := by
  have reached := applied.reached
  constructor
  · dsimp only
    omega
  · dsimp only
    rw [List.map_append, applied.indexes, next,
      show state.replayedApplied + 1 - base = state.replayedApplied - base + 1 by omega,
      List.range'_concat]
    congr 1
    rw [List.map_singleton, next, Nat.one_mul]
    congr 1
    omega

theorem replayLoop_ok {usedBinaryLog : Bool} {commit base : Nat} {state after : ReplayState Value}
    {entries : List (PersistedRaftEntry Value)} (applied : AppliedFrom base state)
    (ok : replayLoop apply usedBinaryLog commit state entries = .ok after) :
    AppliedFrom base after ∧ after.replayedApplied ≤ max commit state.replayedApplied ∧
      ∃ more, after.applied = state.applied ++ more ∧ more.Sublist entries := by
  induction entries generalizing state with
  | nil =>
    cases ok
    exact ⟨applied, le_max_right _ _, [], (List.append_nil _).symm, .slnil⟩
  | cons persisted rest ih =>
    rw [replayLoop] at ok
    split at ok
    · obtain ⟨from_base, bound, more, same, sub⟩ := ih applied ok
      exact ⟨from_base, bound, more, same, sub.cons _⟩
    next committed =>
      split at ok
      · have skipped : AppliedFrom base { state with replayedOffset :=
            if usedBinaryLog then persisted.endOffset else state.replayedOffset } :=
          ⟨applied.reached, applied.indexes⟩
        obtain ⟨from_base, bound, more, same, sub⟩ := ih skipped ok
        exact ⟨from_base, bound, more, same, sub.cons _⟩
      next beyond =>
        split at ok
        · cases ok
        next following =>
          split at ok
          · have next : persisted.index = state.replayedApplied + 1 := not_not.mp following
            obtain ⟨from_base, bound, more, same, sub⟩ := ih (applied.snoc next _) ok
            refine ⟨from_base, ?_, persisted :: more, ?_, sub.cons_cons _⟩
            · dsimp only at bound
              omega
            · rw [same, List.append_assoc]
              rfl
          · cases ok

/-- The index and term of the snapshot on disk, zero if there is none. -/
def RecoveryInput.snapshotIndex (input : RecoveryInput Node Value) : Nat :=
  match input.snapshot with
  | some (.ok (index, _)) => index
  | _ => 0

/-- The last shutdown was clean and everything committed was applied by then. -/
def RecoveryInput.CleanAppliedPrefix (input : RecoveryInput Node Value) : Prop :=
  input.cleanShutdown = true ∧ ∃ state, input.consensus = some state ∧
    max state.lastApplied input.snapshotIndex = max state.commitIndex input.snapshotIndex

/-- The entries of the log: those of the whole records of `log.bin`, or of the
older log if it has none. -/
def RecoveryInput.LogEntries (decode : Bytes → Option Value) (input : RecoveryInput Node Value)
    (entries : List (PersistedRaftEntry Value)) : Prop :=
  List.Forall₂ (DecodedAs decode) entries (parse validSize input.logBin).1 ∨
    ((parse validSize input.logBin).1 = [] ∧
      entries = legacyEntries (input.consensus.getD {}).currentTerm 0 input.legacyLog)

/-- What a recovery that got through has done. -/
structure RecoverySpec (decode : Bytes → Option Value) (input : RecoveryInput Node Value)
    (recovered : Recovered Value) : Prop where
  lastApplied : recovered.lastApplied = recovered.commitIndex
  commitIndex : ∀ state, input.consensus = some state →
    recovered.commitIndex = max state.commitIndex input.snapshotIndex
  clean : input.CleanAppliedPrefix → recovered.applied = []
  applied : ¬input.CleanAppliedPrefix → recovered.applied.map PersistedRaftEntry.index =
    List.range' (input.snapshotIndex + 1) (recovered.commitIndex - input.snapshotIndex)
  fromLog : ∃ entries, input.LogEntries decode entries ∧ recovered.applied.Sublist entries

theorem replayLoop_clean {usedBinaryLog : Bool} {commit : Nat} {state after : ReplayState Value}
    {entries : List (PersistedRaftEntry Value)}
    (ok : replayLoop apply usedBinaryLog commit state entries = .ok after)
    (all : commit ≤ state.replayedApplied) :
    after.applied = state.applied := by
  induction entries generalizing state with
  | nil =>
    cases ok
    rfl
  | cons persisted rest ih =>
    rw [replayLoop] at ok
    split at ok
    · exact ih ok all
    next committed =>
      rw [if_pos (show persisted.index ≤ state.replayedApplied by omega)] at ok
      have kept := ih ok all
      exact kept

theorem restoredApplied_le (input : RecoveryInput Node Value) (snapshotIndex : Nat) :
    input.restoredApplied snapshotIndex ≤ input.restoredCommit snapshotIndex := by
  have progress : (input.consensus.getD {}).lastApplied ≤ (input.consensus.getD {}).commitIndex := by
    cases known : input.consensus with
    | none => exact le_rfl
    | some state => exact input.progress state known
  exact max_le_max_right _ progress

theorem replayNothing_complete {input : RecoveryInput Node Value} {snapshotTerm : Nat} {file : Bytes}
    {entries : List (PersistedRaftEntry Value)} (log : input.LogEntries decode entries)
    (complete : (replayNothing input input.snapshotIndex snapshotTerm file).recoveryComplete = true) :
    RecoverySpec decode input (replayNothing input input.snapshotIndex snapshotTerm file) := by
  have applied := restoredApplied_le input input.snapshotIndex
  have base : input.snapshotIndex ≤ input.restoredCommit input.snapshotIndex := le_max_right _ _
  have durable (state : ConsensusState Node) (known : input.consensus = some state) :
      input.restoredCommit input.snapshotIndex = max state.commitIndex input.snapshotIndex := by
    rw [RecoveryInput.restoredCommit, known, Option.getD_some]
  have log : ∃ entries, input.LogEntries decode entries ∧
      ([] : List (PersistedRaftEntry Value)).Sublist entries := ⟨entries, log, List.nil_sublist _⟩
  unfold replayNothing at complete ⊢
  dsimp only at complete ⊢
  split at complete
  · cases complete
  next covered =>
    rw [if_neg covered]
    split at complete
    next positive =>
      rw [if_pos positive]
      refine ⟨rfl, fun state known => ?_, fun _ => rfl, fun _ => ?_, log⟩
      · dsimp only
        rw [← durable state known]
        omega
      · dsimp only
        rw [Nat.sub_self]
        rfl
    next zero =>
      rw [if_neg zero]
      refine ⟨?_, durable, fun _ => rfl, fun _ => ?_, log⟩
      · dsimp only
        omega
      · dsimp only
        rw [show input.restoredCommit input.snapshotIndex - input.snapshotIndex = 0 by omega]
        rfl

theorem replayEntries_complete {input : RecoveryInput Node Value} {snapshotTerm : Nat} {file : Bytes}
    {usedBinaryLog : Bool} {entries : List (PersistedRaftEntry Value)}
    (log : input.LogEntries decode entries)
    (complete : (replayEntries apply input input.snapshotIndex snapshotTerm file usedBinaryLog
      entries).recoveryComplete = true) :
    RecoverySpec decode input
      (replayEntries apply input input.snapshotIndex snapshotTerm file usedBinaryLog entries) := by
  have appliedLe := restoredApplied_le input input.snapshotIndex
  have base : input.snapshotIndex ≤ input.restoredCommit input.snapshotIndex := le_max_right _ _
  have baseApplied : input.snapshotIndex ≤ input.restoredApplied input.snapshotIndex :=
    le_max_right _ _
  unfold replayEntries at complete ⊢
  dsimp only at complete ⊢
  generalize lastPosition entries = position at complete ⊢
  obtain ⟨maxIndex, lastLogTerm⟩ := position
  dsimp only at complete ⊢
  split at complete
  · cases complete
  next covered =>
    rw [if_neg covered]
    generalize restored : (if input.consensus.isSome = true then
      input.restoredCommit input.snapshotIndex else max maxIndex input.snapshotIndex) = commit
      at complete ⊢
    have durable (state : ConsensusState Node) (known : input.consensus = some state) :
        commit = max state.commitIndex input.snapshotIndex := by
      rw [← restored, known, Option.isSome_some, if_pos rfl, RecoveryInput.restoredCommit, known,
        Option.getD_some]
    have baseCommit : input.snapshotIndex ≤ commit ∧
        input.restoredCommit input.snapshotIndex ≤ commit := by
      cases known : input.consensus with
      | some state =>
        rw [known, Option.isSome_some, if_pos rfl] at restored
        omega
      | none =>
        have zero : input.restoredCommit input.snapshotIndex = input.snapshotIndex := by
          rw [RecoveryInput.restoredCommit, known]
          exact Nat.zero_max _
        rw [known, Option.isSome_none, if_neg Bool.false_ne_true] at restored
        omega
    generalize cleanEq : (input.cleanShutdown && input.consensus.isSome &&
      input.restoredApplied input.snapshotIndex == commit) = clean at complete ⊢
    have cleanIff : clean = true ↔ input.CleanAppliedPrefix := by
      rw [← cleanEq, Bool.and_eq_true_iff, Bool.and_eq_true_iff, beq_iff_eq,
        RecoveryInput.CleanAppliedPrefix, RecoveryInput.restoredApplied, and_assoc]
      refine and_congr_right fun _ => ?_
      cases known : input.consensus with
      | none => simp
      | some state => simp [durable state known]
    cases replayed : replayLoop apply usedBinaryLog commit
      { replayedApplied := if clean then input.restoredApplied input.snapshotIndex
          else input.snapshotIndex } entries with
    | error failed =>
      obtain ⟨failure, state⟩ := failed
      rw [replayed] at complete
      cases complete
    | ok state =>
      rw [replayed] at complete
      dsimp only at complete ⊢
      split at complete
      · cases complete
      next reached =>
        rw [if_neg reached]
        have reached := Nat.le_of_not_lt reached
        cases clean with
        | true =>
          have all : input.restoredApplied input.snapshotIndex = commit := by
            have both := (Bool.and_eq_true_iff.mp cleanEq).2
            exact beq_iff_eq.mp both
          have kept := replayLoop_clean replayed all.ge
          obtain ⟨-, bound, -⟩ := @replayLoop_ok _ _ _ _ commit _ _ _
            ⟨all.ge, by rw [if_pos rfl, all, Nat.sub_self]; rfl⟩ replayed
          rw [if_pos rfl, all] at bound
          dsimp only at bound
          refine ⟨?_, fun state known => ?_, fun _ => kept, fun none => ?_, entries, log, ?_⟩
          · dsimp only
            omega
          · dsimp only
            rw [← durable state known]
            omega
          · exact absurd (cleanIff.mp rfl) none
          · dsimp only
            rw [kept]
            exact List.nil_sublist _
        | false =>
          obtain ⟨applied, bound, more, same, sub⟩ := @replayLoop_ok _ _ _ _ input.snapshotIndex _ _ _
            ⟨le_rfl, by rw [if_neg Bool.false_ne_true, Nat.sub_self]; rfl⟩ replayed
          rw [if_neg Bool.false_ne_true] at bound
          dsimp only at bound
          have last : state.replayedApplied = commit := by omega
          refine ⟨?_, fun state known => ?_, fun clean => ?_, fun _ => ?_, entries, log, ?_⟩
          · dsimp only
            omega
          · dsimp only
            rw [← durable state known]
            omega
          · exact absurd (cleanIff.mpr clean) Bool.false_ne_true
          · dsimp only
            rw [applied.indexes, last, max_eq_right baseCommit.2]
          · dsimp only
            rw [same, List.nil_append]
            exact sub

theorem replayFrom_complete {input : RecoveryInput Node Value} {snapshotTerm : Nat}
    (complete : (replayFrom decode apply input input.snapshotIndex
      snapshotTerm).recoveryComplete = true) :
    RecoverySpec decode input (replayFrom decode apply input input.snapshotIndex snapshotTerm) := by
  have spec := @loadBinaryRaftLogEntries_spec _ decode
    { durableStateKnown := input.consensus.isSome
      durableCommitIndex := input.restoredCommit input.snapshotIndex
      snapshotIndex := input.snapshotIndex
      syncs := input.tailSyncs } input.logBin
  unfold replayFrom at complete ⊢
  dsimp only at complete ⊢
  generalize loadBinaryRaftLogEntries decode _ input.logBin = loaded at spec complete ⊢
  cases found : loaded.entries with
  | error failure =>
    rw [found] at complete
    cases complete
  | ok binary =>
    rw [found] at complete
    dsimp only at complete ⊢
    have decoded := spec.entries binary found
    have log : input.LogEntries decode (if (!binary.isEmpty) = true then binary
        else legacyEntries (input.consensus.getD {}).currentTerm 0 input.legacyLog) := by
      cases binary with
      | nil => exact .inr ⟨List.forall₂_nil_left_iff.mp decoded, rfl⟩
      | cons entry rest => exact .inl decoded
    generalize (if (!binary.isEmpty) = true then binary
      else legacyEntries (input.consensus.getD {}).currentTerm 0 input.legacyLog) = entries
      at log complete ⊢
    split at complete
    next none =>
      rw [if_pos none]
      exact replayNothing_complete log complete
    next some =>
      rw [if_neg some]
      exact replayEntries_complete log complete

theorem replayNothing_file (input : RecoveryInput Node Value) (snapshotIndex snapshotTerm : Nat)
    (file : Bytes) : (replayNothing input snapshotIndex snapshotTerm file).file = file := by
  unfold replayNothing
  dsimp only
  split
  · rfl
  · split
    all_goals rfl

theorem replayEntries_file (input : RecoveryInput Node Value) (snapshotIndex snapshotTerm : Nat)
    (file : Bytes) (usedBinaryLog : Bool) (entries : List (PersistedRaftEntry Value)) :
    (replayEntries apply input snapshotIndex snapshotTerm file usedBinaryLog entries).file = file := by
  unfold replayEntries
  dsimp only
  split
  · rfl
  · split
    · rfl
    next state _ =>
      generalize (if input.consensus.isSome = true then input.restoredCommit snapshotIndex
        else max (lastPosition entries).1 snapshotIndex) = commit
      split
      all_goals rfl

theorem replayFrom_file (input : RecoveryInput Node Value) (snapshotIndex snapshotTerm : Nat) :
    (replayFrom decode apply input snapshotIndex snapshotTerm).file =
      (loadBinaryRaftLogEntries decode
        { durableStateKnown := input.consensus.isSome
          durableCommitIndex := input.restoredCommit snapshotIndex
          snapshotIndex
          syncs := input.tailSyncs } input.logBin).file := by
  unfold replayFrom
  dsimp only
  generalize loadBinaryRaftLogEntries decode _ input.logBin = loaded
  cases loaded.entries with
  | error failure => rfl
  | ok binary =>
    dsimp only
    generalize (if (!binary.isEmpty) = true then binary
      else legacyEntries (input.consensus.getD {}).currentTerm 0 input.legacyLog) = entries
    split
    · exact replayNothing_file _ _ _ _
    · exact replayEntries_file _ _ _ _ _ _

/-- A node takes part after a restart only if the state machine has every entry
from the snapshot to the durable commit index, each once and in order; nothing is
applied again after a clean shutdown. A tail is cut off only if it has no whole
record and what stands before it, or the snapshot, reaches the commit index. -/
theorem replayRaftLog_spec (input : RecoveryInput Node Value) :
    ((replayRaftLog decode apply input).recoveryComplete = true →
      RecoverySpec decode input (replayRaftLog decode apply input)) ∧
    ((replayRaftLog decode apply input).file ≠ input.logBin →
      ∃ state, input.consensus = some state ∧
        state.commitIndex ≤ max (lastWholeIndex (parse validSize input.logBin).1) input.snapshotIndex ∧
        input.logBin =
          (replayRaftLog decode apply input).file ++ (parse validSize input.logBin).2) := by
  have discards (snapshotTerm : Nat)
      (cut : (replayFrom decode apply input input.snapshotIndex snapshotTerm).file ≠ input.logBin) :
      ∃ state, input.consensus = some state ∧
        state.commitIndex ≤ max (lastWholeIndex (parse validSize input.logBin).1) input.snapshotIndex ∧
        input.logBin = (replayFrom decode apply input input.snapshotIndex snapshotTerm).file ++
          (parse validSize input.logBin).2 := by
    rw [replayFrom_file] at cut ⊢
    rcases (loadBinaryRaftLogEntries_spec input.logBin).file with same | ⟨known, reaches, split⟩
    · exact absurd same cut
    · obtain ⟨state, found⟩ := Option.isSome_iff_exists.mp known
      refine ⟨state, found, ?_, split⟩
      dsimp only at reaches
      rw [RecoveryInput.restoredCommit, found, Option.getD_some] at reaches
      omega
  unfold replayRaftLog
  cases found : input.snapshot with
  | none =>
    have zero : input.snapshotIndex = 0 := by rw [RecoveryInput.snapshotIndex, found]
    dsimp only
    rw [← zero]
    exact ⟨replayFrom_complete, discards input.snapshotIndex⟩
  | some metadata =>
    cases metadata with
    | error _ => exact ⟨fun complete => (nomatch complete), fun cut => absurd rfl cut⟩
    | ok position =>
      obtain ⟨index, term⟩ := position
      have same : input.snapshotIndex = index := by rw [RecoveryInput.snapshotIndex, found]
      dsimp only
      rw [← same]
      exact ⟨replayFrom_complete, discards term⟩

/-! ## A log without gaps -/

theorem replayLoop_beyond {usedBinaryLog : Bool} {commit : Nat} {state : ReplayState Value}
    {entries : List (PersistedRaftEntry Value)} (beyond : ∀ entry ∈ entries, commit < entry.index) :
    replayLoop apply usedBinaryLog commit state entries = .ok state := by
  induction entries with
  | nil => rfl
  | cons entry entries ih =>
    obtain ⟨head, beyond⟩ := List.forall_mem_cons.mp beyond
    rw [replayLoop, if_pos head, ih beyond]

theorem replayLoop_consecutive (works : ∀ applied entry, apply applied entry = true)
    {usedBinaryLog : Bool} {commit : Nat} {state : ReplayState Value}
    {entries : List (PersistedRaftEntry Value)}
    (indexes : entries.map PersistedRaftEntry.index =
      List.range' (state.replayedApplied + 1) entries.length)
    (below : state.replayedApplied ≤ commit) :
    ∃ after, replayLoop apply usedBinaryLog commit state entries = .ok after ∧
      after.applied = state.applied ++ entries.take (commit - state.replayedApplied) ∧
      after.replayedApplied = min commit (state.replayedApplied + entries.length) := by
  induction entries generalizing state with
  | nil =>
    refine ⟨state, rfl, ?_, ?_⟩
    · rw [List.take_nil, List.append_nil]
    · rw [List.length_nil]
      omega
  | cons entry entries ih =>
    by_cases done : state.replayedApplied = commit
    · refine ⟨state, replayLoop_beyond fun other member => ?_, ?_, ?_⟩
      · have place : other.index ∈ (entry :: entries).map PersistedRaftEntry.index :=
          List.mem_map_of_mem member
        rw [indexes, List.mem_range'_1] at place
        omega
      · rw [done, Nat.sub_self, List.take_zero, List.append_nil]
      · omega
    · rw [List.map_cons, List.length_cons, List.range'_succ, List.cons.injEq] at indexes
      obtain ⟨head, indexes⟩ := indexes
      rw [replayLoop, if_neg (by omega), if_neg (by omega), if_neg (not_not.mpr head),
        if_pos (works _ _)]
      obtain ⟨after, ran, applied, last⟩ := @ih
        { replayedApplied := entry.index
          replayedOffset := if usedBinaryLog then entry.endOffset else state.replayedOffset
          applied := state.applied ++ [entry] }
        (by rw [indexes, head]) (by dsimp only; omega)
      refine ⟨after, ran, ?_, ?_⟩
      · rw [applied, head, List.append_assoc,
          show commit - state.replayedApplied = commit - (state.replayedApplied + 1) + 1 by omega,
          List.take_succ_cons]
        rfl
      · rw [last, head, List.length_cons]
        dsimp only
        omega

theorem lastPosition_consecutive {entries : List (PersistedRaftEntry Value)}
    (indexes : entries.map PersistedRaftEntry.index = List.range' 1 entries.length) :
    (lastPosition entries).1 = entries.length := by
  have fold (base : Nat) (term : Nat) (entries : List (PersistedRaftEntry Value))
      (indexes : entries.map PersistedRaftEntry.index = List.range' (base + 1) entries.length) :
      (entries.foldl (fun last entry => if last.1 ≤ entry.index then (entry.index, entry.term)
        else last) (base, term)).1 = base + entries.length := by
    induction entries generalizing base term with
    | nil => rfl
    | cons entry entries ih =>
      rw [List.map_cons, List.length_cons, List.range'_succ, List.cons.injEq] at indexes
      obtain ⟨head, indexes⟩ := indexes
      rw [List.foldl_cons, if_pos (by dsimp only; omega), head, ih _ _ indexes, List.length_cons]
      omega
  rw [lastPosition, fold 0 0 entries indexes, Nat.zero_add]

/-- The apply loop over a log without gaps that reaches the commit index. -/
theorem replayEntries_consecutive {input : RecoveryInput Node Value}
    (works : ∀ applied entry, apply applied entry = true) (dirty : input.cleanShutdown = false)
    (persists : input.persists = true) {file : Bytes} {entries : List (PersistedRaftEntry Value)}
    (indexes : entries.map PersistedRaftEntry.index = List.range' 1 entries.length)
    (reached : input.restoredCommit 0 ≤ entries.length) {commit : Nat}
    (isCommit : commit = if input.consensus.isSome = true then input.restoredCommit 0
      else entries.length) :
    let recovered := replayEntries apply input 0 0 file true entries
    recovered.recoveryComplete = true ∧ recovered.lastIndex = entries.length ∧
      recovered.commitIndex = commit ∧ recovered.applied = entries.take commit := by
  have last := lastPosition_consecutive indexes
  have below : commit ≤ entries.length ∧ input.restoredCommit 0 ≤ commit := by
    cases known : input.consensus with
    | some state =>
      rw [known, Option.isSome_some, if_pos rfl] at isCommit
      omega
    | none =>
      rw [known, Option.isSome_none, if_neg Bool.false_ne_true] at isCommit
      omega
  unfold replayEntries
  dsimp only
  generalize lastPosition entries = position at last ⊢
  obtain ⟨maxIndex, lastLogTerm⟩ := position
  dsimp only at last ⊢
  have covered : (input.consensus.isSome &&
      decide (max maxIndex 0 < input.restoredCommit 0)) = false := by
    rw [decide_eq_false (by omega), Bool.and_false]
  rw [covered, if_neg Bool.false_ne_true, last, Nat.max_zero, ← isCommit, dirty, Bool.false_and,
    Bool.false_and, if_neg Bool.false_ne_true]
  obtain ⟨after, ran, applied, replayed⟩ := @replayLoop_consecutive _ apply works true commit
    { replayedApplied := 0 } entries indexes (Nat.zero_le _)
  dsimp only at applied replayed
  rw [ran]
  dsimp only
  rw [if_neg (by omega)]
  refine ⟨persists, Nat.zero_max _, max_eq_right below.2, ?_⟩
  rw [applied, List.nil_append, Nat.sub_zero]

/-- What was committed is in the log; without a durable commit index the log has no
torn tail. -/
def RecoveryInput.Covered (input : RecoveryInput Node Value) (records : List (Entry Bytes))
    (torn : Bytes) : Prop :=
  match input.consensus with
  | some state => state.commitIndex ≤ records.length
  | none => torn = []

/-- The restart of a node without a snapshot, if its own reads, writes and
applications work. -/
structure PlainRestart (decode : Bytes → Option Value)
    (apply : List (PersistedRaftEntry Value) → PersistedRaftEntry Value → Bool)
    (input : RecoveryInput Node Value) (records : List (Entry Bytes)) (torn : Bytes) : Prop where
  snapshot : input.snapshot = none
  dirty : input.cleanShutdown = false
  legacy : input.legacyLog = []
  syncs : input.tailSyncs = true
  persists : input.persists = true
  works : ∀ applied entry, apply applied entry = true
  logBin : input.logBin = recordBytes records ++ torn
  fit : ∀ record ∈ records, record.Fits
  tail : TornTail torn
  decodes : ∀ record ∈ records, (decode record.payload).isSome = true
  indexes : records.map Entry.index = List.range' 1 records.length

namespace PlainRestart

variable {input : RecoveryInput Node Value} {records : List (Entry Bytes)} {torn : Bytes}

theorem lastWholeIndex (plain : PlainRestart decode apply input records torn) :
    lastWholeIndex records = records.length := by
  rw [Raft.lastWholeIndex]
  cases last : records.getLast? with
  | none =>
    rw [List.getLast?_eq_none_iff.mp last]
    rfl
  | some record =>
    have place := index_getLast plain.indexes last
    rw [Option.map_some, Option.getD_some]
    omega

theorem replayRaftLog (plain : PlainRestart decode apply input records torn) :
    replayRaftLog decode apply input = replayFrom decode apply input 0 0 := by
  rw [Raft.replayRaftLog, plain.snapshot]

theorem restoredCommit (input : RecoveryInput Node Value) :
    input.restoredCommit 0 = (input.consensus.getD {}).commitIndex := Nat.max_zero _

/-- A restart that finds what was committed applies it and takes the whole log. -/
theorem complete (plain : PlainRestart decode apply input records torn)
    (covered : input.Covered records torn) :
    let recovered := Raft.replayRaftLog decode apply input
    recovered.recoveryComplete = true ∧ recovered.file = recordBytes records ∧
      recovered.lastIndex = records.length ∧
      recovered.commitIndex = (input.consensus.map ConsensusState.commitIndex).getD records.length ∧
      List.Forall₂ (DecodedAs decode) recovered.applied (records.take recovered.commitIndex) := by
  dsimp only
  rw [plain.replayRaftLog, replayFrom, plain.logBin]
  obtain ⟨entries, decoded, loaded⟩ := @loadBinaryRaftLogEntries_records _ decode
    { durableStateKnown := input.consensus.isSome
      durableCommitIndex := input.restoredCommit 0
      snapshotIndex := 0
      syncs := input.tailSyncs } records torn plain.fit plain.tail plain.decodes plain.syncs
  have commit : input.Covered records torn → (input.consensus.getD {}).commitIndex ≤ records.length := by
    intro covered
    rw [RecoveryInput.Covered] at covered
    cases known : input.consensus with
    | none => exact Nat.zero_le _
    | some state =>
      rw [known] at covered
      exact covered
  have commit := commit covered
  have ok : loadBinaryRaftLogEntries decode
      { durableStateKnown := input.consensus.isSome
        durableCommitIndex := input.restoredCommit 0
        snapshotIndex := 0
        syncs := input.tailSyncs } (recordBytes records ++ torn) =
      ⟨.ok entries, recordBytes records⟩ := by
    rcases loaded with ⟨-, ok⟩ | ⟨⟨some, refused⟩, -⟩
    · exact ok
    · rw [RecoveryInput.Covered] at covered
      cases known : input.consensus with
      | none =>
        rw [known] at covered
        exact absurd covered some
      | some state =>
        rw [LoadRequest.mayDiscard, completeIndex_eq decoded, plain.lastWholeIndex, restoredCommit,
          known, Option.isSome_some, Bool.true_and, decide_eq_false_iff_not] at refused
        rw [known] at commit
        dsimp only at refused
        omega
  rw [ok]
  dsimp only
  have base : input.restoredCommit 0 = (input.consensus.getD {}).commitIndex := restoredCommit input
  have final : (input.consensus.map ConsensusState.commitIndex).getD records.length =
      if input.consensus.isSome = true then input.restoredCommit 0 else records.length := by
    rw [base]
    cases input.consensus <;> rfl
  have indexes := map_index_decoded decoded
  rw [plain.indexes, ← decoded.length_eq] at indexes
  have size := decoded.length_eq
  cases entries with
  | nil =>
    have none : records = [] := List.forall₂_nil_left_iff.mp decoded
    rw [none, List.length_nil] at commit final
    rw [plain.legacy, none]
    have zero : input.restoredCommit 0 = 0 := by omega
    have plainly : replayNothing input 0 0 (recordBytes []) =
        { recoveryComplete := true
          lastApplied := input.restoredApplied 0
          commitIndex := input.restoredCommit 0
          lastIndex := 0
          lastEntryTerm := 0
          file := recordBytes [] } := by
      rw [replayNothing]
      rw [if_neg (by omega), if_neg (Nat.lt_irrefl 0)]
    rw [show (legacyEntries (input.consensus.getD {}).currentTerm 0
      ([] : List (LegacyEntry Value))) = [] from rfl]
    simp only [List.isEmpty_nil, Bool.not_true, Bool.false_eq_true, if_false, if_true]
    rw [plainly]
    refine ⟨rfl, rfl, rfl, ?_, ?_⟩
    · rw [List.length_nil, final, zero]
      split
      all_goals rfl
    · rw [List.take_nil]
      exact .nil
  | cons entry entries =>
    simp only [List.isEmpty_cons, Bool.not_false, if_true, Bool.false_eq_true, if_false]
    obtain ⟨isComplete, lastIndex, commitIndex, applied⟩ :=
      @replayEntries_consecutive _ _ apply input plain.works plain.dirty plain.persists
        (recordBytes records) (entry :: entries) indexes (by omega) _ rfl
    refine ⟨isComplete, replayEntries_file _ _ _ _ _ _, ?_, ?_, ?_⟩
    · rw [lastIndex, size]
    · rw [commitIndex, final, size]
    · rw [applied, commitIndex]
      exact List.forall₂_take _ decoded

/-- A restart that misses something committed refuses to go on, and leaves the log
as it is. -/
theorem refused (plain : PlainRestart decode apply input records torn)
    (missing : ¬input.Covered records torn) :
    let recovered := Raft.replayRaftLog decode apply input
    recovered.recoveryComplete = false ∧ recovered.applied = [] ∧ recovered.file = input.logBin := by
  dsimp only
  rw [plain.replayRaftLog, replayFrom, plain.logBin]
  obtain ⟨entries, decoded, loaded⟩ := @loadBinaryRaftLogEntries_records _ decode
    { durableStateKnown := input.consensus.isSome
      durableCommitIndex := input.restoredCommit 0
      snapshotIndex := 0
      syncs := input.tailSyncs } records torn plain.fit plain.tail plain.decodes plain.syncs
  rcases loaded with ⟨why, ok⟩ | ⟨-, failure, fails⟩
  · have wholeEnd : torn = [] ∧ input.consensus.isSome = true ∧
        records.length < input.restoredCommit 0 := by
      rw [restoredCommit]
      rw [RecoveryInput.Covered] at missing
      rw [LoadRequest.mayDiscard, completeIndex_eq decoded, plain.lastWholeIndex, restoredCommit,
        Bool.and_eq_true_iff, decide_eq_true_eq] at why
      cases known : input.consensus with
      | none =>
        rw [known] at missing why
        rcases why with none | ⟨isKnown, -⟩
        · exact absurd none missing
        · cases isKnown
      | some state =>
        rw [known] at missing why
        dsimp only [Option.getD_some] at missing why ⊢
        rcases why with none | ⟨-, reaches⟩
        · exact ⟨none, rfl, by omega⟩
        · omega
    obtain ⟨whole, known, short⟩ := wholeEnd
    have size := decoded.length_eq
    have indexes := map_index_decoded decoded
    rw [plain.indexes, ← size] at indexes
    rw [ok, whole, List.append_nil]
    dsimp only
    cases entries with
    | nil =>
      rw [plain.legacy, show (legacyEntries (input.consensus.getD {}).currentTerm 0
        ([] : List (LegacyEntry Value))) = [] from rfl]
      simp only [List.isEmpty_nil, Bool.not_true, Bool.false_eq_true, if_false, if_true]
      rw [replayNothing]
      rw [if_pos (by omega)]
      exact ⟨rfl, rfl, rfl⟩
    | cons entry entries =>
      simp only [List.isEmpty_cons, Bool.not_false, if_true, Bool.false_eq_true, if_false]
      have last := lastPosition_consecutive indexes
      have behind : (input.consensus.isSome && decide (max (lastPosition (entry :: entries)).1 0 <
          input.restoredCommit 0)) = true := by
        rw [known, last, Bool.true_and, decide_eq_true_eq]
        omega
      rw [replayEntries]
      dsimp only
      rw [if_pos behind]
      exact ⟨rfl, rfl, rfl⟩
  · rw [fails]
    exact ⟨rfl, rfl, rfl⟩

end PlainRestart

end Replaying

/-- A log of two records, both committed and applied, and some bytes of a third. -/
def tornStart : RecoveryInput (Fin 1) Bytes where
  consensus := some { currentTerm := 1, commitIndex := 2, lastApplied := 2 }
  progress := by
    intro state known
    cases known
    exact le_rfl
  logBin := recordBytes [⟨1, 1, [7]⟩, ⟨2, 1, [8]⟩] ++ [3, 0, 0]

theorem replayRaftLog_tornStart :
    let recovered := replayRaftLog some (fun _ _ => true) tornStart
    recovered.recoveryComplete = true ∧ recovered.lastApplied = 2 ∧
      recovered.applied.map PersistedRaftEntry.index = [1, 2] ∧
      tornStart.logBin = recovered.file ++ [3, 0, 0] := by
  have complete : (replayRaftLog some (fun _ _ => true) tornStart).recoveryComplete = true := by
    decide
  obtain ⟨spec, discard⟩ := @replayRaftLog_spec _ _ some (fun _ _ => true) tornStart
  have dirty : ¬tornStart.CleanAppliedPrefix := fun clean => Bool.false_ne_true clean.1
  have commit := (spec complete).commitIndex _ rfl
  have applied := (spec complete).applied dirty
  rw [commit] at applied
  obtain ⟨_, -, -, cut⟩ := discard (by decide)
  exact ⟨complete, (spec complete).lastApplied.trans commit, applied, cut⟩

/-- The same disk after a clean shutdown: the node takes part, and nothing was
applied by this process. -/
theorem replayRaftLog_clean_applies_nothing :
    let recovered := replayRaftLog some (fun _ _ => true) { tornStart with cleanShutdown := true }
    recovered.recoveryComplete = true ∧ recovered.commitIndex = 2 ∧
      recovered.applied.map PersistedRaftEntry.index ≠ List.range' 1 2 := by
  decide

end PacificDb.Raft
