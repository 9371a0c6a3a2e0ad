import PacificDb.Lib.Machine
import PacificDb.Raft.Position
import PacificDb.Raft.Replay

/-!
# Writes without peers

The standalone path of `replicateAndApply` appends, syncs, publishes the commit
index in `consensus_state.json` and applies; if anything fails before the commit is
published it cuts the file back. A caller gets true, false or the error
`write_outcome_unknown`. Here the calls and the restarts of one node are a machine,
and what a restart replays is compared with what the callers were told.
-/

namespace PacificDb.Raft

open Lib

variable {Value : Type}

inductive WriteOutcome where
  | returnedTrue
  | returnedFalse
  | outcomeUnknown
  /-- `encodeRaftLogPayload` throws before anything is written. -/
  | payloadRejected
  deriving Repr, DecidableEq

structure StandaloneCall (Value : Type) where
  value : Value
  outcome : WriteOutcome
  deriving DecidableEq

/-- How the steps of one call go. -/
structure StandaloneFaults where
  sizeKnown : Bool := true
  failsAfter : Option Nat := none
  syncs : Bool := true
  persist : NodeState.Write := .durable
  resizes : Bool := true
  rollbackSyncs : Bool := true
  applies : Bool := true
  deriving Repr, DecidableEq

/-- A node without peers. -/
structure Standalone (Value : Type) where
  leader : Bool := true
  lastIndex : Nat := 0
  /-- `log.bin`. -/
  file : Bytes := []
  /-- Bytes cut off the file without a sync: a crash may bring them back. -/
  lost : Bytes := []
  /-- So many bytes of `log.bin` survive a crash. -/
  durable : Nat := 0
  /-- The commit index in `consensus_state.json`, if there is one. -/
  commitIndex : Option Nat := none
  /-- The one after a rename that a crash may undo. -/
  renamedCommit : Option Nat := none
  calls : List (StandaloneCall Value) := []
  /-- The bytes of the copy of `log.bin` that the last restart made. -/
  rewritten : Nat := 0
  /-- The number of calls made before a crash last cut such a copy. -/
  cutAt : Nat := 0
  deriving DecidableEq

/-- `encodeRaftLogPayload`, `decodeRaftPayload`, and whether the sync of the log is
left to a background thread. -/
structure StandaloneConfig (Value : Type) where
  encode : Value → Option Bytes
  decode : Bytes → Option Value
  asyncLogFsync : Bool := false

namespace Standalone

/-- The rollback of a rejected append. -/
def rollBack (faults : StandaloneFaults) (startOffset : Nat) (node : Standalone Value) :
    Standalone Value × WriteOutcome :=
  if faults.resizes then
    let node := { node with file := node.file.take startOffset }
    if faults.rollbackSyncs then
      ({ node with lost := [], durable := startOffset }, .returnedFalse)
    else
      ({ node with leader := false, durable := min node.durable startOffset }, .outcomeUnknown)
  else ({ node with leader := false }, .outcomeUnknown)

/-- The standalone path for an encoded payload. The bytes that a rollback cuts off
are remembered as `lost` until a sync. -/
def appendAndPublish (asyncLogFsync : Bool) (faults : StandaloneFaults) (term : Nat) (payload : Bytes)
    (node : Standalone Value) : Standalone Value × WriteOutcome :=
  let startOffset := node.file.length
  let index := node.lastIndex + 1
  let bytes := Entry.bytes { index, term, payload }
  match faults.failsAfter with
  | some persisted =>
      rollBack faults startOffset
        { node with file := node.file ++ bytes.take persisted
                    lost := if faults.resizes then bytes.take persisted else [] }
  | none =>
      let appended := { node with file := node.file ++ bytes }
      let cut := { appended with lost := if faults.resizes then bytes else [] }
      if !asyncLogFsync && !faults.syncs then rollBack faults startOffset { cut with leader := false }
      else
        let durable := if asyncLogFsync then node.durable else appended.file.length
        match faults.persist with
        | .failed => rollBack faults startOffset { cut with durable }
        | .uncertain =>
            ({ appended with leader := false, durable, renamedCommit := some index }, .outcomeUnknown)
        | .durable =>
            ({ appended with durable, commitIndex := some index, lastIndex := index },
              if faults.applies then .returnedTrue else .outcomeUnknown)

/-- `replicateAndApply` on a node without peers. -/
def replicateAndApply (config : StandaloneConfig Value) (faults : StandaloneFaults) (term : Nat)
    (value : Value) (node : Standalone Value) : Standalone Value × WriteOutcome :=
  if !node.leader then (node, .returnedFalse)
  else
    match config.encode value with
    | none => (node, .payloadRejected)
    | some payload =>
        if !faults.sizeKnown then (node, .returnedFalse)
        else node.appendAndPublish config.asyncLogFsync faults term payload

/-! ## Restarts -/

/-- What a crash leaves: at least the bytes that are durable, and one of the
consensus states that may be on disk. -/
structure Crash where
  keep : Nat
  useRenamed : Bool
  /-- `lastApplied` of `consensus_state.json`. -/
  checkpoint : Nat
  deriving Repr, DecidableEq

/-- The copy that the last restart made survives the crash. -/
def Keeps (node : Standalone Value) (crash : Crash) : Prop :=
  node.rewritten ≤ max node.durable crash.keep

instance (node : Standalone Value) (crash : Crash) : Decidable (node.Keeps crash) :=
  inferInstanceAs (Decidable (_ ≤ _))

def consensus (crash : Crash) (node : Standalone Value) : Option Nat :=
  if crash.useRenamed then node.renamedCommit.or node.commitIndex else node.commitIndex

/-- What the restart finds. -/
def recoveryInput (crash : Crash) (node : Standalone Value) : RecoveryInput Unit Value where
  consensus := (node.consensus crash).map fun commitIndex =>
    { commitIndex, lastApplied := min crash.checkpoint commitIndex }
  progress := by
    intro state known
    obtain ⟨commit, -, rfl⟩ := Option.map_eq_some_iff.mp known
    exact min_le_right _ _
  logBin := (node.file ++ node.lost).take (max node.durable crash.keep)

/-- The replay of a restart whose own reads and writes work. -/
def recover (config : StandaloneConfig Value) (crash : Crash) (node : Standalone Value) :
    Recovered Value :=
  replayRaftLog config.decode (fun _ _ => true) (node.recoveryInput crash)

/-- The new process: `trimRaftLog` has written the log again and nothing has synced
it yet. -/
def restart (config : StandaloneConfig Value) (crash : Crash) (node : Standalone Value) :
    Standalone Value :=
  let recovered := node.recover config crash
  { leader := recovered.recoveryComplete
    lastIndex := recovered.lastIndex
    file := recovered.file
    durable := if recovered.recoveryComplete then 0 else recovered.file.length
    commitIndex := if recovered.recoveryComplete && !recovered.file.isEmpty then
        some recovered.commitIndex
      else node.consensus crash
    calls := node.calls
    rewritten := if recovered.recoveryComplete then recovered.file.length else 0
    cutAt := if node.Keeps crash then node.cutAt else node.calls.length }

end Standalone

inductive StandaloneEvent (Value : Type) where
  | write (term : Nat) (value : Value) (faults : StandaloneFaults)
  | restart (crash : Standalone.Crash)

namespace Standalone

/-- Terms and indexes stay within 64 bits. -/
def step (config : StandaloneConfig Value) (node : Standalone Value) :
    StandaloneEvent Value → Option (Standalone Value)
  | .write term value faults =>
      if term < 2 ^ 64 ∧ node.lastIndex + 1 < 2 ^ 64 then
        let (after, outcome) := node.replicateAndApply config faults term value
        some { after with calls := after.calls ++ [{ value, outcome }] }
      else none
  | .restart crash => some (node.restart config crash)

/-! ## What the log holds -/

/-- What the codec promises: what it encodes fits a record and decodes again. -/
structure Codec (config : StandaloneConfig Value) : Prop where
  size : ∀ value payload, config.encode value = some payload → validSize payload.length = true
  decodes : ∀ value payload, config.encode value = some payload → config.decode payload = some value

/-- The call may have put its record into the log. -/
def Wrote (config : StandaloneConfig Value) (calls : List (StandaloneCall Value))
    (owned : Entry Bytes × Nat) : Prop :=
  ∃ call, calls[owned.2]? = some call ∧ config.encode call.value = some owned.1.payload ∧
    call.outcome ≠ .returnedFalse ∧ call.outcome ≠ .payloadRejected

/-- A commit index that may be on disk. -/
def MayCommit (node : Standalone Value) (commit : Nat) : Prop :=
  node.commitIndex = some commit ∨ node.renamedCommit = some commit

/-- The longest log that a crash can leave, each record with the number of the call
that wrote it. -/
structure Invariant (config : StandaloneConfig Value) (node : Standalone Value)
    (all : List (Entry Bytes × Nat)) : Prop where
  fit : ∀ owned ∈ all, owned.1.Fits
  indexes : (all.map Prod.fst).map Entry.index = List.range' 1 (all.map Prod.fst).length
  owners : (all.map Prod.snd).Pairwise (· < ·)
  wrote : ∀ owned ∈ all, Wrote config node.calls owned
  bytes : ∃ n, node.file ++ node.lost = (recordBytes (all.map Prod.fst)).take n
  durable : max node.durable node.rewritten ≤ (node.file ++ node.lost).length
  /-- A call that returned true since a copy was cut is committed, and what is
  committed is on disk or in the copy. -/
  acknowledged : ∀ id call, node.calls[id]? = some call → node.cutAt ≤ id →
    call.outcome = .returnedTrue → node.commitIndex.isSome = true ∧
      ∃ place, (all.map Prod.snd)[place]? = some id ∧ ∀ commit, node.MayCommit commit →
        place < commit ∧ commit ≤ all.length ∧
        (recordBytes ((all.map Prod.fst).take commit)).length ≤ max node.durable node.rewritten
  rejected : ∀ call ∈ node.calls, call.outcome = .payloadRejected → config.encode call.value = none
  leading : node.leader = true → node.file = recordBytes (all.map Prod.fst) ∧ node.lost = [] ∧
    node.lastIndex = all.length ∧ node.renamedCommit = none ∧
    ∀ commit, node.commitIndex = some commit → commit ≤ all.length

/-- A replayed entry is the value of a call that did not return false. -/
def ReplayOf (node : Standalone Value) (entry : PersistedRaftEntry Value) (id : Nat) : Prop :=
  ∃ call, node.calls[id]? = some call ∧ entry.payload = call.value ∧
    call.outcome ≠ .returnedFalse ∧ call.outcome ≠ .payloadRejected

namespace Invariant

variable {config : StandaloneConfig Value} {node after : Standalone Value}
  {all : List (Entry Bytes × Nat)}

theorem length_recordBytes_take_le (records : List (Entry Bytes)) (n : Nat) :
    (recordBytes (records.take n)).length ≤ (recordBytes records).length := by
  have whole := recordBytes_append (records.take n) (records.drop n)
  rw [List.take_append_drop] at whole
  rw [whole, List.length_append]
  exact Nat.le_add_right _ _

theorem owner_lt (inv : Invariant config node all) {owned : Entry Bytes × Nat} (member : owned ∈ all) :
    owned.2 < node.calls.length := by
  obtain ⟨call, found, -⟩ := inv.wrote owned member
  exact (List.getElem?_eq_some_iff.mp found).1

theorem wrote_append {calls : List (StandaloneCall Value)} {owned : Entry Bytes × Nat}
    (wrote : Wrote config calls owned) (call : StandaloneCall Value) :
    Wrote config (calls ++ [call]) owned := by
  obtain ⟨other, found, rest⟩ := wrote
  exact ⟨other, List.getElem?_append_left (List.getElem?_eq_some_iff.mp found).1 ▸ found, rest⟩

/-- The calls after one more call: an old one, or the new one. -/
theorem calls_append {calls : List (StandaloneCall Value)} {call other : StandaloneCall Value}
    {id : Nat} (found : (calls ++ [call])[id]? = some other) :
    calls[id]? = some other ∨ id = calls.length ∧ other = call := by
  rcases Nat.lt_or_ge id calls.length with old | new
  · rw [List.getElem?_append_left old] at found
    exact .inl found
  · rw [List.getElem?_append_right new] at found
    have place := (List.getElem?_eq_some_iff.mp found).1
    rw [List.length_singleton] at place
    have zero : id - calls.length = 0 := by omega
    rw [zero] at found
    exact .inr ⟨by omega, (Option.some.inj found).symm⟩

/-- A call that leaves no record: the file is as before, and no less of it is on
disk. -/
theorem leave (inv : Invariant config node all) {value : Value} {outcome : WriteOutcome}
    (calls : after.calls = node.calls ++ [⟨value, outcome⟩])
    (unacknowledged : outcome ≠ .returnedTrue)
    (rejected : outcome = .payloadRejected → config.encode value = none)
    (leader : after.leader = true → node.leader = true) (lastIndex : after.lastIndex = node.lastIndex)
    (file : after.file = node.file) (lost : after.lost = node.lost)
    (durable : node.durable ≤ after.durable ∧ after.durable ≤ (node.file ++ node.lost).length)
    (commitIndex : after.commitIndex = node.commitIndex)
    (renamedCommit : after.renamedCommit = node.renamedCommit)
    (copy : after.rewritten = node.rewritten ∧ after.cutAt = node.cutAt) :
    Invariant config after all where
  fit := inv.fit
  indexes := inv.indexes
  owners := inv.owners
  wrote owned member := by
    rw [calls]
    exact wrote_append (inv.wrote owned member) _
  bytes := by
    rw [file, lost]
    exact inv.bytes
  durable := by
    rw [file, lost, copy.1]
    exact max_le durable.2 ((le_max_right _ _).trans inv.durable)
  acknowledged id call found since isTrue := by
    rw [calls] at found
    rw [copy.2] at since
    rcases calls_append found with old | ⟨-, rfl⟩
    · obtain ⟨known, place, owner, safe⟩ := inv.acknowledged id call old since isTrue
      refine ⟨by rw [commitIndex]; exact known, place, owner, fun commit may => ?_⟩
      rw [MayCommit, commitIndex, renamedCommit] at may
      obtain ⟨before, inside, onDisk⟩ := safe commit may
      rw [copy.1]
      exact ⟨before, inside, onDisk.trans (max_le_max_right _ durable.1)⟩
    · exact absurd isTrue unacknowledged
  rejected call member isRejected := by
    rw [calls] at member
    rcases List.mem_append.mp member with old | new
    · exact inv.rejected call old isRejected
    · obtain rfl := List.mem_singleton.mp new
      exact rejected isRejected
  leading leads := by
    rw [file, lost, lastIndex, renamedCommit, commitIndex]
    exact inv.leading (leader leads)

/-- A call of a leading node that may have left its record, or part of it. -/
theorem grow (inv : Invariant config node all) (leads : node.leader = true) {value : Value}
    {outcome : WriteOutcome} {term : Nat} {payload : Bytes} {k : Nat}
    (fits : (⟨node.lastIndex + 1, term, payload⟩ : Entry Bytes).Fits)
    (encoded : config.encode value = some payload)
    (calls : after.calls = node.calls ++ [⟨value, outcome⟩])
    (kept : outcome ≠ .returnedFalse ∧ outcome ≠ .payloadRejected)
    (bytes : after.file ++ after.lost =
      node.file ++ (⟨node.lastIndex + 1, term, payload⟩ : Entry Bytes).bytes.take k)
    (durable : min node.durable node.file.length ≤ after.durable ∧
      after.durable ≤ (after.file ++ after.lost).length)
    (commits : (after.commitIndex = node.commitIndex ∧ after.renamedCommit = none ∧
        outcome ≠ .returnedTrue) ∨
      ((after.commitIndex = node.commitIndex ∧ after.renamedCommit = some (node.lastIndex + 1) ∧
          outcome ≠ .returnedTrue) ∨
        (after.commitIndex = some (node.lastIndex + 1) ∧ after.renamedCommit = none)) ∧
      node.file.length + (⟨node.lastIndex + 1, term, payload⟩ : Entry Bytes).bytes.length ≤
        after.durable)
    (leader : after.leader = true → after.lost = [] ∧ after.lastIndex = node.lastIndex + 1 ∧
      after.file = node.file ++ (⟨node.lastIndex + 1, term, payload⟩ : Entry Bytes).bytes ∧
      after.commitIndex = some (node.lastIndex + 1) ∧ after.renamedCommit = none)
    (copy : after.rewritten = node.rewritten ∧ after.cutAt = node.cutAt) :
    Invariant config after (all ++ [(⟨node.lastIndex + 1, term, payload⟩, node.calls.length)]) := by
  obtain ⟨file, lost, lastIndex, renamed, commit⟩ := inv.leading leads
  generalize isRecord : (⟨node.lastIndex + 1, term, payload⟩ : Entry Bytes) = record at *
  have index : record.index = all.length + 1 := by rw [← isRecord, ← lastIndex]
  have isPayload : record.payload = payload := by rw [← isRecord]
  have records : (all ++ [(record, node.calls.length)]).map Prod.fst =
      all.map Prod.fst ++ [record] := by rw [List.map_append]; rfl
  have owners : (all ++ [(record, node.calls.length)]).map Prod.snd =
      all.map Prod.snd ++ [node.calls.length] := by rw [List.map_append]; rfl
  have log : recordBytes (all.map Prod.fst ++ [record]) = node.file ++ record.bytes := by
    rw [recordBytes_append, file]
    exact congrArg (recordBytes (all.map Prod.fst) ++ ·) (List.append_nil _)
  constructor
  case fit =>
    intro owned member
    rcases List.mem_append.mp member with old | new
    · exact inv.fit owned old
    · obtain rfl := List.mem_singleton.mp new
      exact fits
  case indexes =>
    rw [records]
    refine consecutive_append inv.indexes ?_
    rw [List.map_singleton, List.length_singleton, List.range'_one, index, List.length_map,
      Nat.add_comm]
  case owners =>
    rw [owners, List.pairwise_append]
    refine ⟨inv.owners, List.pairwise_singleton _ _, fun owner member last isLast => ?_⟩
    obtain ⟨owned, isOwned, rfl⟩ := List.mem_map.mp member
    obtain rfl := List.mem_singleton.mp isLast
    exact inv.owner_lt isOwned
  case wrote =>
    intro owned member
    rw [calls]
    rcases List.mem_append.mp member with old | new
    · exact wrote_append (inv.wrote owned old) _
    · obtain rfl := List.mem_singleton.mp new
      refine ⟨⟨value, outcome⟩, ?_, by rw [isPayload]; exact encoded, kept⟩
      rw [List.getElem?_append_right le_rfl, Nat.sub_self]
      rfl
  case bytes =>
    refine ⟨node.file.length + k, ?_⟩
    rw [bytes, records, log, List.take_length_add_append]
  case durable =>
    have before := inv.durable
    rw [lost, List.append_nil] at before
    rw [copy.1, bytes, List.length_append]
    rw [bytes, List.length_append] at durable
    omega
  case acknowledged =>
    intro id call found since isTrue
    rw [calls] at found
    rw [copy.2] at since
    rw [copy.1, records, owners, List.length_append, List.length_singleton]
    have size : (all.map Prod.snd).length = all.length := List.length_map _
    -- the new commit index covers the whole log, which is then on disk
    have newCommit (onDisk : node.file.length + record.bytes.length ≤ after.durable) {commit : Nat}
        (same : node.lastIndex + 1 = commit) : commit ≤ all.length + 1 ∧
          (recordBytes ((all.map Prod.fst ++ [record]).take commit)).length ≤
            max after.durable node.rewritten := by
      refine ⟨by omega, le_trans ?_ (le_max_left _ _)⟩
      rw [List.take_of_length_le (by
        rw [List.length_append, List.length_map, List.length_singleton]
        omega), log, List.length_append]
      exact onDisk
    rcases calls_append found with old | ⟨isNew, rfl⟩
    · obtain ⟨known, place, owner, safe⟩ := inv.acknowledged id call old since isTrue
      have inside := (List.getElem?_eq_some_iff.mp owner).1
      have oldCommit {commit : Nat} (same : node.commitIndex = some commit) :
          place < commit ∧ commit ≤ all.length + 1 ∧
            (recordBytes ((all.map Prod.fst ++ [record]).take commit)).length ≤
              max after.durable node.rewritten := by
        obtain ⟨before, covered, onDisk⟩ := safe commit (.inl same)
        refine ⟨before, by omega, ?_⟩
        have prefixBytes := length_recordBytes_take_le (all.map Prod.fst) commit
        rw [← file] at prefixBytes
        rw [List.take_append_of_le_length (by rw [List.length_map]; exact covered)]
        omega
      have placed : (all.map Prod.snd ++ [node.calls.length])[place]? = some id := by
        rw [List.getElem?_append_left inside]
        exact owner
      rcases commits with ⟨same, none, -⟩ | ⟨⟨same, uncertain, -⟩ | ⟨published, none⟩, onDisk⟩
      · refine ⟨by rw [same]; exact known, place, placed, fun commit may => ?_⟩
        rcases may with may | may
        · exact oldCommit (same ▸ may)
        · rw [none] at may
          cases may
      · refine ⟨by rw [same]; exact known, place, placed, fun commit may => ?_⟩
        rcases may with may | may
        · exact oldCommit (same ▸ may)
        · rw [uncertain] at may
          have same := Option.some.inj may
          exact ⟨by omega, newCommit onDisk same⟩
      · refine ⟨by rw [published]; rfl, place, placed, fun commit may => ?_⟩
        rcases may with may | may
        · rw [published] at may
          have same := Option.some.inj may
          exact ⟨by omega, newCommit onDisk same⟩
        · rw [none] at may
          cases may
    · rcases commits with ⟨-, -, other⟩ | ⟨⟨-, -, other⟩ | ⟨published, none⟩, onDisk⟩
      · exact absurd isTrue other
      · exact absurd isTrue other
      · refine ⟨by rw [published]; rfl, all.length, ?_, fun commit may => ?_⟩
        · rw [List.getElem?_append_right size.le, size, Nat.sub_self, isNew]
          rfl
        · rcases may with may | may
          · rw [published] at may
            have same := Option.some.inj may
            exact ⟨by omega, newCommit onDisk same⟩
          · rw [none] at may
            cases may
  case rejected =>
    intro call member isRejected
    rw [calls] at member
    rcases List.mem_append.mp member with old | new
    · exact inv.rejected call old isRejected
    · obtain rfl := List.mem_singleton.mp new
      exact absurd isRejected kept.2
  case leading =>
    intro stillLeads
    obtain ⟨noneLost, last, whole, published, certain⟩ := leader stillLeads
    refine ⟨by rw [records, log, whole], noneLost, ?_, certain, fun other same => ?_⟩
    · rw [last, List.length_append, List.length_singleton, lastIndex]
    · rw [published] at same
      have same := Option.some.inj same
      rw [List.length_append, List.length_singleton]
      omega

/-- A rollback behind an append of so many bytes of the record, of which some may
be on disk. -/
theorem rollBack (inv : Invariant config node all) (leads : node.leader = true) {value : Value}
    {term : Nat} {payload : Bytes} (k : Nat) {faults : StandaloneFaults} (stillLeads : Bool)
    (durable : Nat) (fits : (⟨node.lastIndex + 1, term, payload⟩ : Entry Bytes).Fits)
    (encoded : config.encode value = some payload)
    (onDisk : node.durable ≤ durable ∧ durable ≤ node.file.length +
      ((⟨node.lastIndex + 1, term, payload⟩ : Entry Bytes).bytes.take k).length) :
    let taken := (⟨node.lastIndex + 1, term, payload⟩ : Entry Bytes).bytes.take k
    let result := Standalone.rollBack faults node.file.length
      { node with
        file := node.file ++ taken
        lost := if faults.resizes then taken else []
        leader := stillLeads
        durable }
    ∃ all, Invariant config
      { result.1 with calls := result.1.calls ++ [⟨value, result.2⟩] } all := by
  obtain ⟨file, lost, -⟩ := inv.leading leads
  have bound := (le_max_left _ _).trans inv.durable
  rw [lost, List.append_nil] at bound
  dsimp only
  generalize cut : (⟨node.lastIndex + 1, term, payload⟩ : Entry Bytes).bytes.take k = taken at onDisk
  unfold Standalone.rollBack
  cases faults.resizes with
  | true =>
    rw [if_pos rfl, if_pos rfl]
    dsimp only
    rw [List.take_left' rfl]
    cases faults.rollbackSyncs with
    | true =>
      rw [if_pos rfl]
      refine ⟨all, inv.leave rfl nofun nofun (fun _ => leads) rfl rfl lost.symm
        ⟨bound, ?_⟩ rfl rfl ⟨rfl, rfl⟩⟩
      rw [lost, List.append_nil]
    | false =>
      rw [if_neg Bool.false_ne_true]
      refine ⟨_, inv.grow leads fits encoded rfl ⟨nofun, nofun⟩ (by rw [cut]) ?_
        (.inl ⟨rfl, (inv.leading leads).2.2.2.1, nofun⟩) nofun ⟨rfl, rfl⟩⟩
      dsimp only
      rw [List.length_append]
      omega
  | false =>
    rw [if_neg Bool.false_ne_true, if_neg Bool.false_ne_true]
    refine ⟨_, inv.grow leads fits encoded rfl ⟨nofun, nofun⟩
      (by rw [cut]; exact List.append_nil _) ?_
      (.inl ⟨rfl, (inv.leading leads).2.2.2.1, nofun⟩) nofun ⟨rfl, rfl⟩⟩
    dsimp only
    rw [List.append_nil, List.length_append]
    omega

theorem appendAndPublish (sync : config.asyncLogFsync = false) (inv : Invariant config node all)
    (leads : node.leader = true) {term : Nat} {value : Value} {payload : Bytes}
    {faults : StandaloneFaults}
    (fits : (⟨node.lastIndex + 1, term, payload⟩ : Entry Bytes).Fits)
    (encoded : config.encode value = some payload) :
    let result := node.appendAndPublish config.asyncLogFsync faults term payload
    ∃ all, Invariant config
      { result.1 with calls := result.1.calls ++ [⟨value, result.2⟩] } all := by
  obtain ⟨-, lost, -, certain, -⟩ := inv.leading leads
  have bound := (le_max_left _ _).trans inv.durable
  rw [lost, List.append_nil] at bound
  unfold Standalone.appendAndPublish
  dsimp only
  have whole := List.take_length (l := (⟨node.lastIndex + 1, term, payload⟩ : Entry Bytes).bytes)
  cases faults.failsAfter with
  | some persisted =>
    exact inv.rollBack leads persisted node.leader node.durable fits encoded ⟨le_rfl, by omega⟩
  | none =>
    dsimp only
    rw [sync]
    cases faults.syncs with
    | false =>
      have rolled := @rollBack _ config node all inv leads value term payload
        (⟨node.lastIndex + 1, term, payload⟩ : Entry Bytes).bytes.length faults false
        node.durable fits encoded ⟨le_rfl, by omega⟩
      rw [whole] at rolled
      exact rolled
    | true =>
      rw [if_neg (by decide), if_neg Bool.false_ne_true]
      have full : (node.file ++ (⟨node.lastIndex + 1, term, payload⟩ : Entry Bytes).bytes).length =
          node.file.length + (⟨node.lastIndex + 1, term, payload⟩ : Entry Bytes).bytes.length :=
        List.length_append
      have reaches : min node.durable node.file.length ≤
          (node.file ++ (⟨node.lastIndex + 1, term, payload⟩ : Entry Bytes).bytes).length := by
        omega
      have asWritten : (node.file ++ (⟨node.lastIndex + 1, term, payload⟩ : Entry Bytes).bytes) ++
          node.lost = node.file ++ (⟨node.lastIndex + 1, term, payload⟩ : Entry Bytes).bytes.take
            (⟨node.lastIndex + 1, term, payload⟩ : Entry Bytes).bytes.length := by
        rw [lost, List.append_nil, whole]
      cases faults.persist with
      | failed =>
        have rolled := @rollBack _ config node all inv leads value term payload
          (⟨node.lastIndex + 1, term, payload⟩ : Entry Bytes).bytes.length faults node.leader
          (node.file ++ (⟨node.lastIndex + 1, term, payload⟩ : Entry Bytes).bytes).length
          fits encoded ⟨by omega, by rw [whole]; omega⟩
        rw [whole] at rolled
        exact rolled
      | uncertain =>
        refine ⟨_, inv.grow leads fits encoded rfl ⟨nofun, nofun⟩ asWritten ⟨reaches, ?_⟩
          (.inr ⟨.inl ⟨rfl, rfl, nofun⟩, full.ge⟩) nofun ⟨rfl, rfl⟩⟩
        dsimp only
        rw [lost, List.append_nil]
      | durable =>
        refine ⟨_, inv.grow leads fits encoded rfl ?_ asWritten ⟨reaches, ?_⟩
          (.inr ⟨.inr ⟨rfl, certain⟩, full.ge⟩)
          (fun _ => ⟨lost, rfl, rfl, rfl, certain⟩) ⟨rfl, rfl⟩⟩
        · dsimp only
          split
          · exact ⟨nofun, nofun⟩
          · exact ⟨nofun, nofun⟩
        · dsimp only
          rw [lost, List.append_nil]

theorem write (codec : Codec config) (sync : config.asyncLogFsync = false)
    (inv : Invariant config node all) {term : Nat} {value : Value} {faults : StandaloneFaults}
    (small : term < 2 ^ 64 ∧ node.lastIndex + 1 < 2 ^ 64) :
    ∃ all, Invariant config
      { (node.replicateAndApply config faults term value).1 with
        calls := (node.replicateAndApply config faults term value).1.calls ++
          [⟨value, (node.replicateAndApply config faults term value).2⟩] } all := by
  have bound := (le_max_left _ _).trans inv.durable
  unfold Standalone.replicateAndApply
  cases leads : node.leader with
  | false =>
    exact ⟨all, inv.leave rfl nofun nofun (fun same => absurd same (by simp [leads])) rfl rfl rfl
      ⟨le_rfl, bound⟩ rfl rfl ⟨rfl, rfl⟩⟩
  | true =>
    rw [if_neg (by decide)]
    cases encoded : config.encode value with
    | none =>
      exact ⟨all, inv.leave rfl nofun (fun _ => encoded) (fun _ => leads) rfl rfl rfl
        ⟨le_rfl, bound⟩ rfl rfl ⟨rfl, rfl⟩⟩
    | some payload =>
      dsimp only
      cases faults.sizeKnown with
      | false =>
        exact ⟨all, inv.leave rfl nofun nofun (fun _ => leads) rfl rfl rfl
          ⟨le_rfl, bound⟩ rfl rfl ⟨rfl, rfl⟩⟩
      | true =>
        rw [if_neg (by decide)]
        have fits : (⟨node.lastIndex + 1, term, payload⟩ : Entry Bytes).Fits :=
          ⟨small.2, small.1, codec.size value payload encoded⟩
        exact inv.appendAndPublish sync leads fits encoded

/-! ## What a restart replays -/

/-- What a crash leaves of the log: its first records and a torn tail, and, if the copy of
the last restart survives, all records whose bytes are durable or in it. -/
theorem crashed (codec : Codec config) (inv : Invariant config node all) (crash : Crash) :
    ∃ m torn, m ≤ all.length ∧
      PlainRestart config.decode (fun _ _ => true) (node.recoveryInput crash)
        ((all.map Prod.fst).take m) torn ∧
      (node.Keeps crash → ∀ n ≤ all.length,
        (recordBytes ((all.map Prod.fst).take n)).length ≤ max node.durable node.rewritten → n ≤ m) := by
  obtain ⟨n, bytes⟩ := inv.bytes
  have fit : ∀ record ∈ all.map Prod.fst, record.Fits := by
    intro record member
    obtain ⟨owned, isOwned, rfl⟩ := List.mem_map.mp member
    exact inv.fit owned isOwned
  have durable := inv.durable
  rw [bytes, List.length_take] at durable
  obtain ⟨m, torn, inside, split, tail, whole⟩ :=
    take_recordBytes fit (min (max node.durable crash.keep) n)
  rw [List.length_map] at inside whole
  refine ⟨m, torn, inside, ?_, fun keeps count le onDisk => (whole count le).mp ?_⟩
  case refine_2 =>
    rw [Keeps] at keeps
    omega
  refine ⟨rfl, rfl, rfl, rfl, rfl, fun _ _ => rfl, ?_, ?_, tail, ?_, consecutive_take inv.indexes m⟩
  · rw [← split, ← List.take_take, ← bytes]
    rfl
  · exact fun record member => fit record (List.mem_of_mem_take member)
  · intro record member
    obtain ⟨owned, isOwned, rfl⟩ := List.mem_map.mp (List.mem_of_mem_take member)
    obtain ⟨call, -, encoded, -⟩ := inv.wrote owned isOwned
    rw [codec.decodes call.value _ encoded]
    rfl

theorem replayOf (codec : Codec config) (inv : Invariant config node all)
    {entries : List (PersistedRaftEntry Value)} {owned : List (Entry Bytes × Nat)}
    (part : ∀ one ∈ owned, one ∈ all)
    (decoded : List.Forall₂ (DecodedAs config.decode) entries (owned.map Prod.fst)) :
    List.Forall₂ (ReplayOf node) entries (owned.map Prod.snd) := by
  induction owned generalizing entries with
  | nil =>
    rw [List.map_nil, List.forall₂_nil_right_iff] at decoded
    rw [decoded]
    exact .nil
  | cons one owned ih =>
    obtain ⟨isPart, part⟩ := List.forall_mem_cons.mp part
    obtain ⟨entry, rest, head, tail, rfl⟩ := List.forall₂_cons_right_iff.mp decoded
    obtain ⟨call, found, encoded, kept⟩ := inv.wrote one isPart
    refine .cons ⟨call, found, ?_, kept⟩ (ih part tail)
    have same := head.2.2
    rw [codec.decodes call.value _ encoded] at same
    exact (Option.some.inj same).symm

theorem recoveryInput_consensus {crash : Crash} {commit : Nat} (known : node.consensus crash = some commit) :
    (node.recoveryInput crash).consensus =
      some { commitIndex := commit, lastApplied := min crash.checkpoint commit } := by
  change Option.map _ (node.consensus crash) = _
  rw [known]
  rfl

/-- After a call that returned true, every commit index that may be found is that of
a log which is on disk or in the copy. -/
theorem committed (inv : Invariant config node all) (crash : Crash) {id : Nat}
    {call : StandaloneCall Value} (found : node.calls[id]? = some call)
    (since : node.cutAt ≤ id) (isTrue : call.outcome = .returnedTrue) :
    ∃ place commit, (all.map Prod.snd)[place]? = some id ∧ place < commit ∧ commit ≤ all.length ∧
      (recordBytes ((all.map Prod.fst).take commit)).length ≤ max node.durable node.rewritten ∧
      node.consensus crash = some commit := by
  obtain ⟨known, place, owner, safe⟩ := inv.acknowledged id call found since isTrue
  obtain ⟨first, isFirst⟩ := Option.isSome_iff_exists.mp known
  obtain ⟨commit, isCommit, may⟩ : ∃ commit, node.consensus crash = some commit ∧
      node.MayCommit commit := by
    rw [Standalone.consensus]
    split
    · cases renamed : node.renamedCommit with
      | none => exact ⟨first, isFirst, .inl isFirst⟩
      | some other => exact ⟨other, rfl, .inr renamed⟩
    · exact ⟨first, isFirst, .inl isFirst⟩
  obtain ⟨before, within, bytes⟩ := safe commit may
  exact ⟨place, commit, owner, before, within, bytes, isCommit⟩

/-- What a restart replays are values of calls that did not return false, in the
order of the calls, and among them every one that returned true since a copy was cut, if the
crash cuts none. -/
theorem replays (codec : Codec config) (inv : Invariant config node all) (crash : Crash) :
    ∃ ids : List Nat, ids.Pairwise (· < ·) ∧
      List.Forall₂ (ReplayOf node) (node.recover config crash).applied ids ∧
      (node.Keeps crash → ∀ id call, node.calls[id]? = some call → node.cutAt ≤ id →
        call.outcome = .returnedTrue → id ∈ ids) := by
  obtain ⟨m, torn, inside, plain, onDisk⟩ := inv.crashed codec crash
  by_cases covered : (node.recoveryInput crash).Covered ((all.map Prod.fst).take m) torn
  · obtain ⟨-, -, -, commitIndex, applied⟩ := plain.complete covered
    change List.Forall₂ _ (node.recover config crash).applied
      (((all.map Prod.fst).take m).take (node.recover config crash).commitIndex) at applied
    change (node.recover config crash).commitIndex = _ at commitIndex
    rw [← List.map_take, ← List.map_take] at applied
    generalize (node.recover config crash).commitIndex = commit at commitIndex applied
    refine ⟨((all.take m).take commit).map Prod.snd, ?_, ?_,
      fun keeps id call found since isTrue => ?_⟩
    · rw [List.map_take, List.map_take]
      exact inv.owners.sublist ((List.take_sublist _ _).trans (List.take_sublist _ _))
    · exact inv.replayOf codec
        (fun one member => List.mem_of_mem_take (List.mem_of_mem_take member)) applied
    · obtain ⟨place, durable, owner, before, within, bytes, known⟩ :=
        inv.committed crash found since isTrue
      have reached := onDisk keeps durable within bytes
      have same : commit = durable := by
        rw [commitIndex, recoveryInput_consensus known]
        rfl
      rw [List.map_take, List.map_take, List.mem_iff_getElem?]
      refine ⟨place, ?_⟩
      rw [List.getElem?_take_of_lt (by omega), List.getElem?_take_of_lt (by omega)]
      exact owner
  · obtain ⟨-, none, -⟩ := plain.refused covered
    change (node.recover config crash).applied = [] at none
    refine ⟨[], .nil, by rw [none]; exact .nil, fun keeps id call found since isTrue => ?_⟩
    obtain ⟨place, durable, owner, before, within, bytes, known⟩ :=
      inv.committed crash found since isTrue
    refine absurd ?_ covered
    rw [RecoveryInput.Covered, recoveryInput_consensus known]
    dsimp only
    rw [List.length_take, List.length_map]
    have reached := onDisk keeps durable within bytes
    omega

theorem restart (codec : Codec config) (inv : Invariant config node all) (crash : Crash) :
    ∃ all, Invariant config (node.restart config crash) all := by
  obtain ⟨m, torn, inside, plain, onDisk⟩ := inv.crashed codec crash
  have keepsOf {id : Nat} {call : StandaloneCall Value} (found : node.calls[id]? = some call)
      (since : (node.restart config crash).cutAt ≤ id) : node.Keeps crash ∧ node.cutAt ≤ id := by
    change (if node.Keeps crash then node.cutAt else node.calls.length) ≤ id at since
    split at since
    next keeps => exact ⟨keeps, since⟩
    next => exact absurd (List.getElem?_eq_some_iff.mp found).1 since.not_gt
  by_cases covered : (node.recoveryInput crash).Covered ((all.map Prod.fst).take m) torn
  · obtain ⟨isComplete, file, lastIndex, commitIndex, -⟩ := plain.complete covered
    change (node.recover config crash).recoveryComplete = true at isComplete
    change (node.recover config crash).file = _ at file
    change (node.recover config crash).lastIndex = _ at lastIndex
    change (node.recover config crash).commitIndex = _ at commitIndex
    refine ⟨all.take m, ?_⟩
    constructor
    case fit => exact fun owned member => inv.fit owned (List.mem_of_mem_take member)
    case indexes =>
      rw [List.map_take]
      exact consecutive_take inv.indexes m
    case owners =>
      rw [List.map_take]
      exact inv.owners.sublist (List.take_sublist _ _)
    case wrote => exact fun owned member => inv.wrote owned (List.mem_of_mem_take member)
    case bytes =>
      refine ⟨(recordBytes ((all.take m).map Prod.fst)).length, ?_⟩
      rw [List.take_length, List.map_take]
      exact (List.append_nil _).trans file
    case durable =>
      rw [Standalone.restart]
      dsimp only
      rw [isComplete, if_pos rfl, if_pos rfl, List.append_nil, Nat.zero_max]
    case acknowledged =>
      intro id call found since isTrue
      obtain ⟨keeps, since⟩ := keepsOf found since
      obtain ⟨place, commit, owner, before, within, bytes, known⟩ :=
        inv.committed crash found since isTrue
      have reached := onDisk keeps commit within bytes
      have recovered : (node.recover config crash).commitIndex = commit := by
        rw [commitIndex, recoveryInput_consensus known]
        rfl
      have isCommit : (node.restart config crash).commitIndex = some commit := by
        rw [Standalone.restart, recovered, known]
        exact ite_self _
      refine ⟨by rw [isCommit]; rfl, place, ?_, fun other may => ?_⟩
      · rw [List.map_take, List.getElem?_take_of_lt (by omega)]
        exact owner
      · rcases may with may | may
        · obtain rfl := Option.some.inj (isCommit.symm.trans may)
          have copy := length_recordBytes_take_le ((all.map Prod.fst).take m) commit
          rw [← file, ← List.map_take] at copy
          refine ⟨before, by rw [List.length_take]; omega, copy.trans ?_⟩
          rw [Standalone.restart]
          dsimp only
          rw [isComplete, if_pos rfl, if_pos rfl]
          exact le_max_right _ _
        · cases may
    case rejected => exact inv.rejected
    case leading =>
      intro _
      refine ⟨by rw [List.map_take]; exact file, rfl, ?_, rfl, fun commit known => ?_⟩
      · refine lastIndex.trans ?_
        rw [List.length_take, List.length_take, List.length_map]
      · have size : ((all.map Prod.fst).take m).length = (all.take m).length := by
          rw [List.length_take, List.length_take, List.length_map]
        have onDiskCommit {other : Nat} (same : node.consensus crash = some other) :
            other ≤ (all.take m).length := by
          have known : (node.recoveryInput crash).consensus =
              some { commitIndex := other, lastApplied := min crash.checkpoint other } := by
            change Option.map _ (node.consensus crash) = _
            rw [same]
            rfl
          rw [RecoveryInput.Covered, known, size] at covered
          exact covered
        rw [Standalone.restart] at known
        dsimp only at known
        split at known
        · have same := Option.some.inj known
          rw [← same, commitIndex]
          change ((Option.map _ (node.consensus crash)).map _).getD _ ≤ _
          cases isCommit : node.consensus crash with
          | none => exact size.le
          | some other => exact onDiskCommit isCommit
        · exact onDiskCommit known
  · obtain ⟨refused, -, file⟩ := plain.refused covered
    change (node.recover config crash).recoveryComplete = false at refused
    change (node.recover config crash).file = _ at file
    refine ⟨all, inv.fit, inv.indexes, inv.owners, inv.wrote, ?_, ?_, ?_, inv.rejected,
      fun leads => ?_⟩
    · obtain ⟨n, bytes⟩ := inv.bytes
      refine ⟨min (max node.durable crash.keep) n, ?_⟩
      rw [← List.take_take, ← bytes]
      exact (List.append_nil _).trans file
    · rw [Standalone.restart]
      dsimp only
      rw [refused, if_neg Bool.false_ne_true, if_neg Bool.false_ne_true, List.append_nil, Nat.max_zero]
    · intro id call found since isTrue
      obtain ⟨keeps, since⟩ := keepsOf found since
      obtain ⟨place, commit, owner, before, within, bytes, known⟩ :=
        inv.committed crash found since isTrue
      refine absurd ?_ covered
      rw [RecoveryInput.Covered, recoveryInput_consensus known]
      dsimp only
      rw [List.length_take, List.length_map]
      have reached := onDisk keeps commit within bytes
      omega
    · change (node.recover config crash).recoveryComplete = true at leads
      rw [refused] at leads
      cases leads

end Invariant

variable {config : StandaloneConfig Value} {node : Standalone Value}

/-- In every run of writes and restarts, whatever fails in a write and wherever a
crash comes: a restart replays, in the order of the calls, values of calls that did
not return false, and among them the value of every call that returned true, unless
some crash since cut the unsynced copy of a restart; and a call throws another error
than `write_outcome_unknown` only for a value that cannot be encoded. -/
theorem outcomes_of_reach (codec : Codec config) (sync : config.asyncLogFsync = false)
    (reached : Reach (step config) (fun _ _ => True) {} node) (crash : Crash) :
    (∃ ids : List Nat, ids.Pairwise (· < ·) ∧
      List.Forall₂ (ReplayOf node) (node.recover config crash).applied ids ∧
      (node.Keeps crash → ∀ id call, node.calls[id]? = some call → node.cutAt ≤ id →
        call.outcome = .returnedTrue → id ∈ ids)) ∧
    ∀ call ∈ node.calls, call.outcome = .payloadRejected → config.encode call.value = none := by
  have start : ∃ all, Invariant config {} all := by
    exact ⟨[], nofun, rfl, .nil, nofun, ⟨0, rfl⟩, le_rfl, nofun, nofun,
      fun _ => ⟨rfl, rfl, rfl, rfl, nofun⟩⟩
  have inv : ∃ all, Invariant config node all := by
    induction reached with
    | refl => exact start
    | @tail s t event _ _ taken ih =>
      obtain ⟨all, inv⟩ := ih
      cases event with
      | write term value faults =>
        simp only [step, Option.ite_none_right_eq_some] at taken
        obtain ⟨small, same⟩ := taken
        obtain rfl := Option.some.inj same
        exact inv.write codec sync small
      | restart crash =>
        obtain rfl := Option.some.inj taken
        exact inv.restart codec crash
  obtain ⟨all, inv⟩ := inv
  exact ⟨inv.replays codec crash, inv.rejected⟩

/-- Values are their own encoding, if they are of a supported size. -/
def identityConfig : StandaloneConfig Bytes where
  encode value := if validSize value.length then some value else none
  decode := some

theorem identityCodec : Codec identityConfig where
  size value payload encoded := by
    simp only [identityConfig, Option.ite_none_right_eq_some] at encoded
    obtain ⟨valid, same⟩ := encoded
    obtain rfl := Option.some.inj same
    exact valid
  decodes value payload encoded := by
    simp only [identityConfig, Option.ite_none_right_eq_some] at encoded
    exact encoded.2.symm

/-- A write that succeeds, a restart, a write that is rolled back because its commit could not
be published, and one more. -/
def rolledBackWrites : List (StandaloneEvent Bytes) :=
  [.write 1 [7] {}, .restart ⟨0, false, 0⟩, .write 1 [8] { persist := .failed }, .write 1 [9] {}]

def rolledBackNode : Standalone Bytes where
  lastIndex := 2
  file := Entry.bytes ⟨1, 1, [7]⟩ ++ Entry.bytes ⟨2, 1, [9]⟩
  durable := 42
  commitIndex := some 2
  calls := [⟨[7], .returnedTrue⟩, ⟨[8], .returnedFalse⟩, ⟨[9], .returnedTrue⟩]
  rewritten := 21

theorem outcomes_of_reach_rolledBack :
    run (step identityConfig) {} rolledBackWrites = some rolledBackNode ∧
      (rolledBackNode.recover identityConfig ⟨0, false, 0⟩).applied.map PersistedRaftEntry.payload =
        [[7], [9]] ∧
      ∃ ids : List Nat, ids.Pairwise (· < ·) ∧ 0 ∈ ids ∧ 2 ∈ ids ∧
        List.Forall₂ (ReplayOf rolledBackNode)
          (rolledBackNode.recover identityConfig ⟨0, false, 0⟩).applied ids := by
  have runs : run (step identityConfig) {} rolledBackWrites = some rolledBackNode := by
    decide
  obtain ⟨ids, sorted, replayed, all⟩ := (outcomes_of_reach identityCodec rfl
    (Reach.refl.of_run (fun _ _ _ => trivial) runs) ⟨0, false, 0⟩).1
  have keeps : rolledBackNode.Keeps ⟨0, false, 0⟩ := by decide
  exact ⟨runs, by decide, ids, sorted, all keeps 0 _ rfl (Nat.zero_le _) rfl,
    all keeps 2 _ rfl (Nat.zero_le _) rfl, replayed⟩

/-- The log is synced in the background: the write returns true before that. -/
def unsyncedNode : Standalone Bytes where
  lastIndex := 1
  file := Entry.bytes ⟨1, 1, [7]⟩
  commitIndex := some 1
  calls := [⟨[7], .returnedTrue⟩]

/-- A value that is too large is refused by another error. If the sync of the log is left to
a background thread, a write that returned true may be gone. And one that a restart has
replayed is gone if the next crash cuts the copy that the restart made. -/
theorem standalone_other_outcomes :
    (∃ value : Bytes, (replicateAndApply identityConfig {} 1 value ({} : Standalone Bytes)).2 =
      .payloadRejected) ∧
    (run (step { identityConfig with asyncLogFsync := true }) {} [.write 1 [7] {}] =
        some unsyncedNode ∧
      (unsyncedNode.recover { identityConfig with asyncLogFsync := true } ⟨0, false, 0⟩).applied = []) ∧
    run (step identityConfig) {} [.write 1 [7] {}, .restart ⟨0, false, 0⟩] =
        some { unsyncedNode with rewritten := 21 } ∧
      (recover identityConfig ⟨0, false, 0⟩ { unsyncedNode with rewritten := 21 }).applied = [] := by
  refine ⟨?_, ⟨by decide, ?_⟩, by decide, ?_⟩
  · obtain ⟨value, size⟩ : ∃ value : Bytes, value.length = kMaxRaftPayloadBytes + 1 :=
      ⟨_, List.length_replicate (a := 0)⟩
    refine ⟨value, ?_⟩
    have invalid : validSize value.length = false := by
      rw [size]
      decide
    have rejected : identityConfig.encode value = none := if_neg (by simp [invalid])
    rw [replicateAndApply, rejected]
    rfl
  · rw [← List.length_eq_zero_iff]
    decide
  · rw [← List.length_eq_zero_iff]
    decide

end Standalone

end PacificDb.Raft
