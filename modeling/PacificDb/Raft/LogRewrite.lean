import Mathlib.Data.List.GetD
import PacificDb.Raft.LogFile

/-!
# Rewriting `log.bin`

A follower's truncation, `compactRaftLog` and `trimRaftLog` copy the records they
keep to a temporary file and put it in the place of `log.bin`. The writes of the
copy are not checked, the copy is not synced, and the truncation removes the old
file first. A rewrite is here a program of three kinds of steps; it may be cut
short by a failure or by a crash that undoes directory operations and loses bytes
of the copy.
-/

namespace PacificDb.Raft

open Lib

inductive RewriteStep where
  | copy
  | remove
  | rename
  deriving Repr, DecidableEq

/-- The rewrites, with the index each is given. -/
inductive Rewrite where
  | truncate (truncateAfter : Nat)
  | compactRaftLog (lastIncludedIndex : Nat)
  | trimRaftLog (maxIndex : Nat)
  deriving Repr, DecidableEq

namespace Rewrite

def steps : Rewrite → List RewriteStep
  | .truncate _ => [.copy, .remove, .rename]
  | .compactRaftLog _ | .trimRaftLog _ => [.copy, .rename]

/-- The records that are copied; `trimRaftLog` leaves its loop at the first record
beyond the index. -/
def kept : Rewrite → List (Entry Bytes) → List (Entry Bytes)
  | .truncate truncateAfter, records => records.filter fun record => record.index ≤ truncateAfter
  | .compactRaftLog lastIncludedIndex, records =>
      records.filter fun record => lastIncludedIndex < record.index
  | .trimRaftLog maxIndex, records => records.takeWhile fun record => record.index ≤ maxIndex

end Rewrite

/-- A crash: how many steps were made, how many directory operations it undoes,
and how many bytes of the copy and of the old file are on disk. -/
structure RewriteCrash where
  executed : Nat
  undone : Nat := 0
  copyBytes : Nat := 0
  originalBytes : Nat := 0
  deriving Repr, DecidableEq

/-- What goes wrong. The stream takes so many bytes of the copy and then none. -/
structure RewriteFaults where
  opens : Bool := true
  accepted : Nat
  removes : Bool := true
  renames : Bool := true
  crash : Option RewriteCrash := none
  deriving Repr, DecidableEq

/-- What the name `log.bin` stands for. -/
inductive LogName where
  | original
  | copy
  | missing
  deriving Repr, DecidableEq

/-- The log before a rewrite: its records, some bytes of a record that failed, and
how many of the records were synced. -/
structure SyncedLog where
  records : List (Entry Bytes)
  torn : Bytes
  synced : Nat
  fit : ∀ record ∈ records, record.Fits

namespace SyncedLog

def bytes (log : SyncedLog) : Bytes := recordBytes log.records ++ log.torn

def syncedBytes (log : SyncedLog) : Nat := (recordBytes (log.records.take log.synced)).length

end SyncedLog

namespace Rewrite

/-- The name after one more step; the names before it are kept for a crash. -/
def runStep (faults : RewriteFaults) (names : List LogName) : RewriteStep → List LogName
  | .copy => names
  | .remove => if faults.removes then .missing :: names else names
  | .rename => if faults.renames then .copy :: names else names

/-- The steps that are made. -/
def executed (rewrite : Rewrite) (faults : RewriteFaults) : List RewriteStep :=
  match faults.crash with
  | some crash => rewrite.steps.take crash.executed
  | none => rewrite.steps

/-- What `log.bin` is afterwards. -/
def logName (rewrite : Rewrite) (faults : RewriteFaults) : LogName :=
  let names := if faults.opens then
      (rewrite.executed faults).foldl (runStep faults) [.original]
    else [.original]
  match faults.crash with
  | some crash => (names.drop crash.undone).head?.getD .original
  | none => names.head?.getD .original

/-- The bytes of the log found afterwards, if there is one. -/
def found (rewrite : Rewrite) (log : SyncedLog) (faults : RewriteFaults) : Option Bytes :=
  match rewrite.logName faults with
  | .missing => none
  | .original =>
      match faults.crash with
      | some crash => some (log.bytes.take (max log.syncedBytes crash.originalBytes))
      | none => some log.bytes
  | .copy =>
      let copied := (recordBytes (rewrite.kept log.records)).take faults.accepted
      match faults.crash with
      | some crash => some (copied.take crash.copyBytes)
      | none => some copied

/-- The records that were synced and are to be kept. -/
def mustKeep (rewrite : Rewrite) (log : SyncedLog) : List (Entry Bytes) :=
  rewrite.kept (log.records.take log.synced)

/-- They are all in the log found afterwards. -/
def Preserves (rewrite : Rewrite) (log : SyncedLog) (faults : RewriteFaults) : Prop :=
  (rewrite.mustKeep log).Sublist
    (match rewrite.found log faults with
    | some bytes => (parse validSize bytes).1
    | none => [])

/-! ## When the records survive -/

/-- The rename was made and is not undone. -/
def renamed (rewrite : Rewrite) (faults : RewriteFaults) : Bool :=
  faults.opens && faults.renames &&
    match faults.crash with
    | some crash => decide (rewrite.steps.length ≤ crash.executed) && crash.undone == 0
    | none => true

/-- The old file was removed, and that is not undone. -/
def removed (rewrite : Rewrite) (faults : RewriteFaults) : Bool :=
  faults.opens && faults.removes && rewrite.steps.contains .remove &&
    match faults.crash with
    | some crash => decide (2 ≤ crash.executed) &&
        decide (crash.undone ≤ if faults.renames && decide (3 ≤ crash.executed) then 1 else 0)
    | none => true

/-- The bytes of the copy that are on disk. -/
def copyBytes (faults : RewriteFaults) : Nat :=
  match faults.crash with
  | some crash => min faults.accepted crash.copyBytes
  | none => faults.accepted

/-- A rename that stays is of a copy that has the bytes of every record to keep,
and without it the old file stays if there is one. -/
def Survives (rewrite : Rewrite) (log : SyncedLog) (faults : RewriteFaults) : Prop :=
  if rewrite.renamed faults then
    (recordBytes (rewrite.mustKeep log)).length ≤ copyBytes faults
  else rewrite.removed faults = true → rewrite.mustKeep log = []

/-- The names that `log.bin` has had, the latest first. -/
def nameHistory (renames removes : Bool) : List LogName :=
  (if renames then [.copy] else []) ++ ((if removes then [.missing] else []) ++ [.original])

theorem foldl_runStep (rewrite : Rewrite) (faults : RewriteFaults) (count : Nat) :
    (rewrite.steps.take count).foldl (runStep faults) [.original] =
      nameHistory (faults.renames && decide (rewrite.steps.length ≤ count))
        (faults.removes && (rewrite.steps.contains .remove && decide (2 ≤ count))) := by
  rcases count with _ | _ | _ | count
  all_goals cases rewrite
  all_goals
    cases renames : faults.renames
    all_goals
      cases removes : faults.removes
      all_goals simp [steps, runStep, nameHistory, renames, removes]

theorem head_nameHistory (renames removes : Bool) (undone : Nat) :
    ((nameHistory renames removes).drop undone).head?.getD .original =
      if renames && undone == 0 then .copy
      else if removes && decide (undone ≤ if renames then 1 else 0) then .missing
      else .original := by
  rcases undone with _ | _ | undone
  all_goals
    cases renames
    all_goals
      cases removes
      all_goals simp [nameHistory]

/-- What the name stands for, said by what was done and not undone. -/
theorem logName_eq (rewrite : Rewrite) (faults : RewriteFaults) :
    rewrite.logName faults =
      if rewrite.renamed faults then .copy else if rewrite.removed faults then .missing
      else .original := by
  unfold logName renamed removed executed
  cases opens : faults.opens with
  | false => cases faults.crash <;> simp
  | true =>
    cases faults.crash with
    | none =>
      have all := foldl_runStep rewrite faults rewrite.steps.length
      have head := head_nameHistory faults.renames (faults.removes && rewrite.steps.contains .remove) 0
      have two : decide (2 ≤ rewrite.steps.length) = true := by cases rewrite <;> rfl
      rw [List.take_length, decide_eq_true le_rfl, Bool.and_true, two, Bool.and_true] at all
      rw [List.drop_zero] at head
      dsimp only
      rw [if_pos rfl, all, head]
      simp
    | some crash =>
      dsimp only
      rw [if_pos rfl, foldl_runStep, head_nameHistory]
      cases rewrite <;> simp [steps, Bool.and_assoc]

/-- The synced records to keep are the first of those that are copied. -/
theorem mustKeep_eq (rewrite : Rewrite) (log : SyncedLog) :
    rewrite.mustKeep log = (rewrite.kept log.records).take (rewrite.mustKeep log).length := by
  have first : rewrite.mustKeep log <+: rewrite.kept log.records := by
    have head : log.records.take log.synced <+: log.records := List.take_prefix _ _
    cases rewrite with
    | truncate index => exact head.filter _
    | compactRaftLog index => exact head.filter _
    | trimRaftLog index =>
      obtain ⟨rest, same⟩ := head
      have shorter (front : List (Entry Bytes)) :
          front.takeWhile (fun record => decide (record.index ≤ index)) <+:
            (front ++ rest).takeWhile fun record => decide (record.index ≤ index) := by
        rw [List.takeWhile_append]
        split
        · exact (List.takeWhile_prefix _).trans (List.prefix_append _ _)
        · exact List.prefix_rfl
      have both := shorter (log.records.take log.synced)
      rw [same] at both
      exact both
  exact List.prefix_iff_eq_take.mp first

theorem kept_sublist (rewrite : Rewrite) (records : List (Entry Bytes)) :
    (rewrite.kept records).Sublist records := by
  cases rewrite with
  | truncate index => exact List.filter_sublist
  | compactRaftLog index => exact List.filter_sublist
  | trimRaftLog index => exact List.takeWhile_sublist _

/-- The old file has every synced record. -/
theorem mustKeep_sublist_original (rewrite : Rewrite) (log : SyncedLog) {count : Nat}
    (enough : log.syncedBytes ≤ count) :
    (rewrite.mustKeep log).Sublist (parse validSize (log.bytes.take count)).1 := by
  have split : log.bytes.take count = recordBytes (log.records.take log.synced) ++
      ((recordBytes (log.records.drop log.synced) ++ log.torn).take (count - log.syncedBytes)) := by
    rw [SyncedLog.bytes]
    nth_rewrite 1 [← List.take_append_drop log.synced log.records]
    rw [recordBytes_append, List.append_assoc, List.take_append, List.take_of_length_le enough]
    rfl
  rw [split, parse_recordBytes (fun _ valid => valid)
    fun record member => log.fit record (List.mem_of_mem_take member)]
  exact (rewrite.kept_sublist _).trans (List.sublist_append_left _ _)

/-- A rewrite loses no synced record it means to keep exactly if the rename, once
it holds, finds them in the copy, and the old file is not removed without it. -/
theorem preserves_iff (rewrite : Rewrite) (log : SyncedLog) (faults : RewriteFaults) :
    rewrite.Preserves log faults ↔ rewrite.Survives log faults := by
  have name := rewrite.logName_eq faults
  unfold Preserves Survives
  by_cases renames : rewrite.renamed faults = true
  · rw [if_pos renames] at name ⊢
    have copied : rewrite.found log faults =
        some ((recordBytes (rewrite.kept log.records)).take (copyBytes faults)) := by
      rw [found, name, copyBytes]
      cases faults.crash with
      | none => rfl
      | some crash =>
        dsimp only
        rw [List.take_take, min_comm]
    have fit : ∀ record ∈ rewrite.kept log.records, record.Fits := fun record member =>
      log.fit record ((rewrite.kept_sublist _).subset member)
    rw [copied, rewrite.mustKeep_eq log]
    exact sublist_parse_take_iff (fun _ valid => valid) fit _ _
  · rw [if_neg renames] at name ⊢
    by_cases removes : rewrite.removed faults = true
    · rw [if_pos removes] at name
      rw [found, name]
      dsimp only
      rw [List.sublist_nil]
      exact ⟨fun none _ => none, fun none => none removes⟩
    · rw [if_neg removes] at name
      refine iff_of_true ?_ fun gone => absurd gone removes
      rw [found, name]
      cases faults.crash with
      | none =>
        have whole := @mustKeep_sublist_original rewrite log (max log.syncedBytes log.bytes.length)
          (le_max_left _ _)
        rw [List.take_of_length_le (le_max_right _ _)] at whole
        exact whole
      | some crash => exact rewrite.mustKeep_sublist_original log (le_max_left _ _)

/-- Two synced records and one to be cut off. -/
def threeSynced : SyncedLog where
  records := [⟨1, 1, [7]⟩, ⟨2, 1, [8]⟩, ⟨3, 1, [9]⟩]
  torn := []
  synced := 3
  fit := by decide

/-- A crash of the truncation between the removal and the rename leaves no log. One
of `compactRaftLog` behind its rename may leave an empty one, and a full disk cuts
the copy of `trimRaftLog` short. -/
theorem rewrites_lose_synced_records :
    ¬(truncate 2).Preserves threeSynced { accepted := 42, crash := some { executed := 2 } } ∧
      ¬(compactRaftLog 1).Preserves threeSynced { accepted := 42, crash := some { executed := 2 } } ∧
      ¬(trimRaftLog 3).Preserves threeSynced { accepted := 30 } := by
  refine ⟨?_, ?_, ?_⟩
  all_goals
    unfold Preserves
    decide

end Rewrite

end PacificDb.Raft
