import PacificDb.Lsm.Snapshot
import PacificDb.Raft.Replay

/-!
# Snapshot installation on a follower

A leader brings a follower up to date with a snapshot, whole (`install_snapshot`) or
in chunks (`install_snapshot_complete`). The first handler applies the snapshot and
then makes it the node's `.snapshot` file; the second replaces the file first. A clean
restart does not apply the file again but takes its index as applied, so that a
chunked installation that fails in `applySnapshot` leaves a node that has skipped
entries.
-/

namespace PacificDb.Raft

open Lsm

variable {Node Value : Type}

/-! ## The handlers -/

/-- What became of the `.snapshot` file: not replaced, replaced without its checksum,
or replaced. -/
inductive FileOutcome where
  | kept
  | untrusted
  | replaced
  deriving Repr, DecidableEq

structure InstallNode where
  lastApplied : Nat := 0
  /-- What the metadata of `.snapshot` say. -/
  snapshot : Option (Except Unit (Nat × Nat)) := none
  lsm : LsmRoot := {}

/-- One installation and how its calls go. Snapshots of index 0 are refused. -/
structure Install where
  config : SnapshotConfig
  chunked : Bool
  /-- The transfer is complete and `validateRaftSnapshot` accepts it. -/
  valid : Bool
  included : Nat
  includedTerm : Nat
  payload : Json
  fault : SnapshotFault
  /-- `runPendingIndexRebuild`. -/
  rebuilds : Bool
  file : FileOutcome
  boundary : valid = true → 0 < included

namespace Install

def publish (install : Install) (node : InstallNode) : InstallNode :=
  match install.file with
  | .kept => node
  | .untrusted => { node with snapshot := some (.error ()) }
  | .replaced => { node with snapshot := some (.ok (install.included, install.includedTerm)) }

/-- `DatabaseEngine::applySnapshot`. -/
def apply (install : Install) (node : InstallNode) : InstallNode × Bool :=
  let (lsm, applied) := applySnapshot install.config install.fault install.payload node.lsm
  ({ node with lsm }, applied && install.rebuilds)

/-- The handler of `install_snapshot_complete` behind the transfer. -/
def installChunked (install : Install) (node : InstallNode) : InstallNode × Bool :=
  match install.file with
  | .replaced =>
      let (applied, done) := install.apply (install.publish node)
      if done then ({ applied with lastApplied := install.included }, true) else (applied, false)
  | _ => (install.publish node, false)

/-- The handler of `install_snapshot`. -/
def installWhole (install : Install) (node : InstallNode) : InstallNode × Bool :=
  let (applied, done) := install.apply node
  if !done then (applied, false)
  else
    match install.file with
    | .replaced => ({ install.publish applied with lastApplied := install.included }, true)
    | _ => (install.publish applied, false)

def run (install : Install) (node : InstallNode) : InstallNode × Bool :=
  if !install.valid then (node, false)
  else if install.included ≤ node.lastApplied then (node, true)
  else if install.chunked then install.installChunked node
  else install.installWhole node

end Install

/-! ## What a restart counts as applied -/

section Counted

variable {decode : Bytes → Option Value}
  {apply : List (PersistedRaftEntry Value) → PersistedRaftEntry Value → Bool}

/-- `i` was applied before, or is applied now. -/
def Counted (before : Nat) (applied : List (PersistedRaftEntry Value)) (i : Nat) : Prop :=
  i ≤ before ∨ ∃ entry ∈ applied, entry.index = i

/-- The state in which the loop ends or stops. -/
def stoppedAt : Except (RecoveryFailure × ReplayState Value) (ReplayState Value) → ReplayState Value
  | .ok state => state
  | .error (_, state) => state

/-- The loop counts what it started from and what it applies. -/
theorem counted_replayLoop {usedBinaryLog : Bool} {restoredCommitIndex before : Nat}
    {entries : List (PersistedRaftEntry Value)} {state after : ReplayState Value}
    (start : ∀ i ≤ state.replayedApplied, Counted before state.applied i)
    (stops : stoppedAt (replayLoop apply usedBinaryLog restoredCommitIndex state entries) = after) :
    ∀ i ≤ after.replayedApplied, Counted before after.applied i := by
  induction entries generalizing state with
  | nil =>
    obtain rfl : state = after := stops
    exact start
  | cons persisted rest ih =>
    rw [replayLoop] at stops
    split at stops
    · exact ih start stops
    · split at stops
      · have kept := fun ok => ih ok stops
        exact kept start
      · split at stops
        · obtain rfl : state = after := stops
          exact start
        next next =>
          rw [not_not] at next
          split at stops
          · have grows : ∀ i ≤ persisted.index, Counted before (state.applied ++ [persisted]) i := by
              intro i below
              rcases Nat.lt_or_ge state.replayedApplied i with new | old
              · exact .inr ⟨persisted, List.mem_append_right _ (.head _), by omega⟩
              · refine (start i old).imp_right ?_
                rintro ⟨entry, member, isEntry⟩
                exact ⟨entry, List.mem_append_left _ member, isEntry⟩
            have kept := fun ok => ih ok stops
            exact kept grows
          · obtain rfl : state = after := stops
            exact start

/-- What a recovery counts: nothing beyond what it found as applied, but for the
entries that it applies. -/
def CountsSound (before : Nat) (recovered : Recovered Value) : Prop :=
  ∀ i ≤ recovered.lastApplied, Counted before recovered.applied i

theorem countsSound_replayEntries (input : RecoveryInput Node Value) (snapshotIndex snapshotTerm : Nat)
    (file : Bytes) (usedBinaryLog : Bool) (entries : List (PersistedRaftEntry Value)) :
    CountsSound (input.restoredApplied snapshotIndex)
      (replayEntries apply input snapshotIndex snapshotTerm file usedBinaryLog entries) := by
  have base : snapshotIndex ≤ input.restoredApplied snapshotIndex := le_max_right _ _
  unfold replayEntries
  dsimp only
  split
  · exact fun i below => .inl below
  · generalize (if input.consensus.isSome = true then input.restoredCommit snapshotIndex
      else max (lastPosition entries).1 snapshotIndex) = restored
    have low : (if (input.cleanShutdown && input.consensus.isSome &&
        input.restoredApplied snapshotIndex == restored) = true then input.restoredApplied snapshotIndex
        else snapshotIndex) ≤ input.restoredApplied snapshotIndex := by split <;> omega
    generalize (if (input.cleanShutdown && input.consensus.isSome &&
        input.restoredApplied snapshotIndex == restored) = true then input.restoredApplied snapshotIndex
        else snapshotIndex) = start at low ⊢
    have starts : ∀ i ≤ ({ replayedApplied := start } : ReplayState Value).replayedApplied,
        Counted (input.restoredApplied snapshotIndex) ([] : List (PersistedRaftEntry Value)) i :=
      fun i below => .inl (le_trans below low)
    split
    next failure state stopped =>
      have here := counted_replayLoop starts (congrArg stoppedAt stopped)
      intro i below
      dsimp only at below ⊢
      split at below
      · exact here i below
      · exact .inl below
    next state done =>
      have here := counted_replayLoop starts (congrArg stoppedAt done)
      split
      · exact fun i below => .inl below
      · exact here

theorem countsSound_replayNothing (input : RecoveryInput Node Value) (snapshotIndex snapshotTerm : Nat)
    (file : Bytes) : CountsSound (input.restoredApplied snapshotIndex)
      (replayNothing input snapshotIndex snapshotTerm file) := by
  unfold replayNothing
  dsimp only
  split
  · exact fun i below => .inl below
  · split
    · exact fun i below => .inl (le_trans below (le_max_right _ _))
    · exact fun i below => .inl below

theorem countsSound_replayFrom (input : RecoveryInput Node Value) (snapshotIndex snapshotTerm : Nat) :
    CountsSound (input.restoredApplied snapshotIndex)
      (replayFrom decode apply input snapshotIndex snapshotTerm) := by
  unfold replayFrom
  dsimp only
  split
  · exact fun i below => .inl below
  next binary loaded =>
    generalize (if (!binary.isEmpty) = true then binary else
      legacyEntries (input.consensus.getD {}).currentTerm 0 input.legacyLog) = entries
    split
    · exact countsSound_replayNothing input snapshotIndex snapshotTerm _
    · exact countsSound_replayEntries input snapshotIndex snapshotTerm _ _ _

/-- The index of the snapshot file and the persisted progress are all that a restart
takes as applied. -/
theorem countsSound_replayRaftLog (input : RecoveryInput Node Value) {before : Nat}
    (progress : ∀ state, input.consensus = some state → state.lastApplied ≤ before)
    (file : ∀ index term, input.snapshot = some (.ok (index, term)) → index ≤ before) :
    CountsSound before (replayRaftLog decode apply input) := by
  have persisted : (input.consensus.getD {}).lastApplied ≤ before := by
    cases known : input.consensus with
    | none => exact Nat.zero_le _
    | some state => exact progress state known
  have weaken : ∀ {recovered : Recovered Value} {index : Nat}, index ≤ before →
      CountsSound (input.restoredApplied index) recovered → CountsSound before recovered :=
    fun small sound i below => (sound i below).imp_left fun old => old.trans (max_le persisted small)
  unfold replayRaftLog
  split
  · exact weaken (Nat.zero_le _) (countsSound_replayFrom input 0 0)
  next index term found => exact weaken (file index term found) (countsSound_replayFrom input index term)
  · exact fun i below => .inl (le_trans below persisted)

end Counted

/-! ## When a failed installation is harmless -/

/-- The node before an installation: what is applied is in the LSM, and `.snapshot` is
of an applied index. -/
structure InstallNode.Ok (node : InstallNode) : Prop where
  named : node.lsm.Named
  file : ∀ index term, node.snapshot = some (.ok (index, term)) → index ≤ node.lastApplied

namespace Install

variable {install : Install}

/-- The effects of the entries up to `i` are in the LSM after the installation: the
LSM is as it was, or `applySnapshot` has got through. -/
def InLsm (install : Install) (node : InstallNode) (i : Nat) : Prop :=
  ((install.run node).1.lsm.published = node.lsm.published ∧ i ≤ node.lastApplied) ∨
    ((applySnapshot install.config install.fault install.payload node.lsm).2 = true ∧
      i ≤ install.included)

/-- After a failed installation no clean restart counts an entry as applied whose
effects are not in the LSM. -/
def RestartSound (Node Value : Type) (install : Install) : Prop :=
  ∀ node : InstallNode, node.Ok → (install.run node).2 = false →
    ∀ (decode : Bytes → Option Value)
      (apply : List (PersistedRaftEntry Value) → PersistedRaftEntry Value → Bool)
      (input : RecoveryInput Node Value), input.snapshot = (install.run node).1.snapshot →
        input.cleanShutdown = true →
        (∀ state, input.consensus = some state → state.lastApplied ≤ (install.run node).1.lastApplied) →
          ∀ i ≤ (replayRaftLog decode apply input).lastApplied, 0 < i →
            install.InLsm node i ∨ ∃ entry ∈ (replayRaftLog decode apply input).applied, entry.index = i

/-- The condition: `applySnapshot` does not fail behind the first directory it moves,
and a chunked installation that has replaced `.snapshot` does not fail in it at all. -/
def Harmless (install : Install) : Prop :=
  (FailsEarly install.config install.fault install.payload ∨
    ∀ staged, install.config.unpack install.payload = .ok staged →
      ¬FailsLate install.config install.fault install.payload staged) ∧
  (install.valid = true → install.chunked = true → install.file = .replaced →
    ¬FailsEarly install.config install.fault install.payload ∧
      ∀ after left, install.fault ≠ .moveOut after left)

/-- A restart that counts nothing beyond `before` is fine if the LSM has that much. -/
theorem restart_of_before {node : InstallNode} {before : Nat} {decode : Bytes → Option Value}
    {apply : List (PersistedRaftEntry Value) → PersistedRaftEntry Value → Bool}
    {input : RecoveryInput Node Value} (same : input.snapshot = (install.run node).1.snapshot)
    (progress : ∀ state, input.consensus = some state →
      state.lastApplied ≤ (install.run node).1.lastApplied)
    (applied : (install.run node).1.lastApplied ≤ before)
    (file : ∀ index term, (install.run node).1.snapshot = some (.ok (index, term)) → index ≤ before)
    (held : ∀ i ≤ before, install.InLsm node i) :
    ∀ i ≤ (replayRaftLog decode apply input).lastApplied, 0 < i →
      install.InLsm node i ∨ ∃ entry ∈ (replayRaftLog decode apply input).applied, entry.index = i := by
  intro i below _
  refine (countsSound_replayRaftLog input (fun state known => (progress state known).trans applied)
    (fun index term found => file index term (same ▸ found)) i below).imp_left (held i)

/-- What a failed installation leaves: the progress always, and either everything, or
the file of the snapshot and what `applySnapshot` made of the LSM, or the latter only. -/
theorem run_failed {node : InstallNode} (failed : (install.run node).2 = false) :
    (install.run node).1.lastApplied = node.lastApplied ∧
      (((install.run node).1.lsm = node.lsm ∧
          ((install.run node).1.snapshot = node.snapshot ∨
            (install.run node).1.snapshot = some (.error ()))) ∨
        (node.lastApplied < install.included ∧
          (install.run node).1.lsm =
            (applySnapshot install.config install.fault install.payload node.lsm).1 ∧
          ((install.valid = true ∧ install.chunked = true ∧ install.file = .replaced ∧
              (install.run node).1.snapshot = some (.ok (install.included, install.includedTerm))) ∨
            (install.run node).1.snapshot = node.snapshot ∨
            (install.run node).1.snapshot = some (.error ())))) := by
  cases valid : install.valid with
  | false =>
    have result : install.run node = (node, false) := by simp [run, valid]
    rw [result]
    exact ⟨rfl, .inl ⟨rfl, .inl rfl⟩⟩
  | true =>
    by_cases known : install.included ≤ node.lastApplied
    · simp [run, valid, known] at failed
    have below := not_le.mp known
    cases chunked : install.chunked with
    | true =>
      have result : install.run node = install.installChunked node := by
        simp [run, valid, known, chunked]
      rw [result] at failed ⊢
      unfold installChunked publish at failed ⊢
      cases file : install.file with
      | kept => exact ⟨rfl, .inl ⟨rfl, .inl rfl⟩⟩
      | untrusted => exact ⟨rfl, .inl ⟨rfl, .inr rfl⟩⟩
      | replaced =>
        rw [file] at failed
        dsimp only [apply] at failed ⊢
        split at failed
        · cases failed
        next stopped =>
          rw [if_neg stopped]
          exact ⟨rfl, .inr ⟨below, rfl, .inl ⟨rfl, rfl, rfl, rfl⟩⟩⟩
    | false =>
      have result : install.run node = install.installWhole node := by
        simp [run, valid, known, chunked]
      rw [result] at failed ⊢
      unfold installWhole publish apply at failed ⊢
      dsimp only at failed ⊢
      cases done : (applySnapshot install.config install.fault install.payload node.lsm).2 &&
        install.rebuilds with
      | false => exact ⟨rfl, .inr ⟨below, rfl, .inr (.inl rfl)⟩⟩
      | true =>
        cases file : install.file with
        | kept => exact ⟨rfl, .inr ⟨below, rfl, .inr (.inl rfl)⟩⟩
        | untrusted => exact ⟨rfl, .inr ⟨below, rfl, .inr (.inr rfl)⟩⟩
        | replaced =>
          rw [done, file] at failed
          cases failed

theorem restartSound_of_harmless (harmless : install.Harmless) : RestartSound Node Value install := by
  intro node ok failed decode apply input same _ progress
  obtain ⟨kept, outcome⟩ := run_failed failed
  have oldFile : ((install.run node).1.snapshot = node.snapshot ∨
      (install.run node).1.snapshot = some (.error ())) →
      ∀ index term, (install.run node).1.snapshot = some (.ok (index, term)) →
        index ≤ node.lastApplied := by
    rintro (old | untrusted) index term found
    · exact ok.file index term (old ▸ found)
    · rw [untrusted] at found
      cases found
  rcases outcome with ⟨lsm, file⟩ | ⟨below, lsm, file⟩
  · exact restart_of_before same progress kept.le (oldFile file)
      fun i small => .inl ⟨by rw [lsm], small⟩
  · cases applied : (applySnapshot install.config install.fault install.payload node.lsm).2 with
    | true =>
      -- The LSM has the snapshot; the index of either file is within it.
      refine restart_of_before same progress (kept.trans_le below.le) (fun index term found => ?_)
        fun i small => .inr ⟨applied, small⟩
      rcases file with ⟨-, -, -, replaced⟩ | old
      · rw [replaced] at found
        cases found
        exact le_rfl
      · exact (oldFile old index term found).trans below.le
    | false =>
      have unchanged := failureChangesNothing_iff.mpr harmless.1 node.lsm ok.named applied
      rcases file with ⟨valid, chunked, replaced, -⟩ | old
      · -- A chunked installation that replaced the file does not fail in `applySnapshot`.
        obtain ⟨notEarly, moves⟩ := harmless.2 valid chunked replaced
        have moved := @moveOut_done install.fault node.lsm.children 0 ok.named moves
        rw [applySnapshot_of_moveOut notEarly (harmless.1.resolve_left notEarly) moved] at applied
        cases applied
      · exact restart_of_before same progress kept.le (oldFile old)
          fun i small => .inl ⟨by rw [lsm, unchanged], small⟩

/-- A clean restart that finds the snapshot file and no log. -/
def snapshotOnly (Node Value : Type) (index term : Nat) : RecoveryInput Node Value where
  snapshot := some (.ok (index, term))
  progress := by rintro state ⟨⟩
  cleanShutdown := true

theorem replayRaftLog_snapshotOnly {index term : Nat} (positive : 0 < index)
    (decode : Bytes → Option Value)
    (apply : List (PersistedRaftEntry Value) → PersistedRaftEntry Value → Bool) :
    (replayRaftLog decode apply (snapshotOnly Node Value index term)).lastApplied = index ∧
      (replayRaftLog decode apply (snapshotOnly Node Value index term)).applied = [] := by
  have result : replayRaftLog decode apply (snapshotOnly Node Value index term) =
      replayNothing (snapshotOnly Node Value index term) index term [] := rfl
  have commit : (snapshotOnly Node Value index term).restoredCommit index = index := Nat.zero_max index
  rw [result]
  unfold replayNothing
  dsimp only
  rw [commit, if_neg (lt_irrefl _), if_pos positive]
  exact ⟨rfl, rfl⟩

/-- A chunked installation fails in `applySnapshot`: the next start takes the index of
the snapshot as applied. -/
theorem not_restartSound {node : InstallNode} (ok : node.Ok) (fresh : node.lastApplied = 0)
    (valid : install.valid = true) (chunked : install.chunked = true)
    (replaced : install.file = .replaced)
    (failed : (applySnapshot install.config install.fault install.payload node.lsm).2 = false) :
    ¬RestartSound Node Value install := by
  have positive := install.boundary valid
  have result : install.run node = ({ node with
      snapshot := some (.ok (install.included, install.includedTerm))
      lsm := (applySnapshot install.config install.fault install.payload node.lsm).1 }, false) := by
    rw [run, valid, Bool.not_true, if_neg Bool.false_ne_true, if_neg (by omega), if_pos chunked]
    simp [installChunked, apply, publish, replaced, failed]
  obtain ⟨counts, nothing⟩ := @replayRaftLog_snapshotOnly Node Value install.included
    install.includedTerm positive (fun _ => none) (fun _ _ => true)
  intro sound
  have restart := sound node ok (by rw [result]) (fun _ => none) (fun _ _ => true)
    (snapshotOnly Node Value install.included install.includedTerm) (by rw [result]; rfl) rfl
    (by rintro state ⟨⟩) install.included counts.ge positive
  rcases restart with (⟨-, small⟩ | ⟨applied, -⟩) | ⟨entry, member, -⟩
  · omega
  · rw [failed] at applied
    cases applied
  · rw [nothing] at member
    cases member

/-- The claim on installations that fail, and exactly when it holds. -/
theorem failed_install_iff :
    (FailureChangesNothing install.config install.fault install.payload ∧
      RestartSound Node Value install) ↔ install.Harmless := by
  constructor
  · rintro ⟨unchanged, sound⟩
    have condition := failureChangesNothing_iff.mp unchanged
    refine ⟨condition, fun valid chunked replaced => ?_⟩
    by_cases early : FailsEarly install.config install.fault install.payload
    · refine absurd sound (@not_restartSound Node Value install {} ⟨?_, nofun⟩ rfl valid chunked
        replaced ?_)
      · rintro child ⟨⟩
      · rw [applySnapshot_early early]
    · refine ⟨early, fun after left isFault => ?_⟩
      obtain ⟨staged, unpacked, shape⟩ := applySnapshot_staged early
      refine absurd sound (@not_restartSound Node Value install { lsm := { children := [("u", [])] } }
        ⟨?_, nofun⟩ rfl valid chunked replaced ?_)
      · rintro child member -
        rw [List.mem_singleton.mp member]
        decide
      · obtain ⟨rfl, rfl⟩ :=
          first_of_not_failsLate (isFault ▸ condition.resolve_left early staged unpacked)
        rw [shape, isFault]
        rfl
  · intro harmless
    exact ⟨failureChangesNothing_iff.mpr harmless.1, restartSound_of_harmless harmless⟩

/-- A snapshot without files whose index catalogue is not an array, or whose index is no number. -/
def badSection (name : String) (chunked : Bool) : Install where
  config :=
    { unpack := fun _ => .ok []
      unpack_safe := by rintro payload staged ⟨⟩ child ⟨⟩
      dump := fun _ => ""
      toSize := fun _ => none
      crc32 := fun _ => 0 }
  chunked := chunked
  valid := true
  included := 5
  includedTerm := 1
  payload := .object [(name, .null)]
  fault := .none
  rebuilds := true
  file := .replaced
  boundary _ := by decide

/-- The user `u` has no database yet. -/
def userNode : InstallNode where
  lsm := { children := [("u", [])] }

/-- The installation fails, but the directory of `u` is gone; a chunked one also leaves
the index of the snapshot to be taken as applied. -/
theorem failed_install_changes : userNode.lsm.published.1.length = 1 ∧
    ∀ name ∈ ["index_catalog", "lastIncludedIndex"],
      ((badSection name false).run userNode).2 = false ∧
      ((badSection name false).run userNode).1.lsm.published.1 = [] ∧
      ((badSection name true).run userNode).2 = false ∧
      ((badSection name true).run userNode).1.snapshot = some (.ok (5, 1)) ∧
      (replayRaftLog (fun _ => none) (fun _ _ => true) (snapshotOnly Unit Unit 5 1)).lastApplied = 5 ∧
      ¬FailureChangesNothing (badSection name false).config (badSection name false).fault
        (badSection name false).payload := by
  have runs : ∀ name ∈ ["index_catalog", "lastIncludedIndex"],
      ((badSection name false).run userNode).2 = false ∧
      ((badSection name false).run userNode).1.lsm.published.1 = [] ∧
      ((badSection name true).run userNode).2 = false ∧
      (applySnapshot (badSection name false).config .none (badSection name false).payload
        userNode.lsm).2 = false ∧
      (applySnapshot (badSection name false).config .none (badSection name false).payload
        userNode.lsm).1.published.1 = [] := by decide
  refine ⟨rfl, fun name member => ?_⟩
  obtain ⟨failed, gone, chunked, fails, moved⟩ := runs name member
  refine ⟨failed, gone, chunked, ?_, (replayRaftLog_snapshotOnly (by decide) _ _).1,
    fun unchanged => ?_⟩
  · simp only [List.mem_cons, List.not_mem_nil, or_false] at member
    rcases member with rfl | rfl <;> rfl
  · have same := unchanged userNode.lsm (by rintro child member -; rw [List.mem_singleton.mp member]; decide)
      fails
    have none := congrArg (fun published => published.1.length) same
    change (applySnapshot _ .none _ _).1.published.1.length = 1 at none
    rw [moved] at none
    cases none

end Install

end PacificDb.Raft
