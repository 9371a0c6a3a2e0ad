import PacificDb.Lib.Machine
import Mathlib.Logic.Function.Basic
import Mathlib.Order.Nat

/-!
# Group fsync of the Raft log

Writers append records under the lock of the log and then call `raftGroupLogFsync`, which lets
one of them sync `log.bin` for all. What is durable is tracked by indexes: `fsyncedSeq` counts
every index up to the highest one that was appended before the sync.

A follower that truncates its log reuses indexes. The counters stay where they were, so a record
under an index that was synced before counts as durable. And a sync in the middle of the rewrite
opens the file that the rename then replaces, and later records go there (`reused_not_durable`).
-/

namespace PacificDb.Raft

open Lib

/-- `RAFT_LOG_GROUP_FSYNC_ENABLED`, and without it `RAFT_ASYNC_LOG_FSYNC`. -/
inductive SyncMode where
  | grouped
  | inline
  | deferred
  deriving DecidableEq

/-- Where a thread stands. It passes `index`, and its record was written at `written`. -/
inductive Phase where
  | idle
  | appended (index written : Nat)
  | entered (index written : Nat)
  | leading (index written : Nat)
  | loaded (index written target : Nat)
  | syncing (index written : Nat)
  | returned (index written : Nat)
  | failed
  deriving DecidableEq

namespace Phase

/-- The record of a thread that has appended one. -/
def record : Phase → Option (Nat × Nat)
  | idle | failed => none
  | appended index written | entered index written | leading index written
  | loaded index written _ | syncing index written | returned index written => some (index, written)

/-- Threads that can take the next request. -/
def free : Phase → Bool
  | idle | returned _ _ | failed => true
  | _ => false

end Phase

/-- A `fdatasync` that has begun: what will count as synced after it, and when it began, if it is
one of `log.bin`. -/
structure Flush where
  target : Nat
  started : Option Nat
  deriving DecidableEq

/-- The counters, the threads and the syncs under way. In inline mode each thread has its own.
`file` is what `log.bin` names, and `handle` what `PersistentRaftLog` has open. `clock` and
`completed`, the start times of the syncs of `log.bin` that have completed, are not in the code. -/
structure FsyncState where
  mode : SyncMode
  lastIndex : Nat
  appendSeq : Nat
  fsyncedSeq : Nat
  running : Bool
  threads : Nat → Phase
  flush : Option Flush
  own : Nat → Option Nat
  file : Nat
  handle : Option Nat
  rewriting : Bool
  clock : Nat
  completed : List Nat

def FsyncState.init (mode : SyncMode) (lastIndex : Nat) : FsyncState where
  mode
  lastIndex
  appendSeq := 0
  fsyncedSeq := 0
  running := false
  threads _ := .idle
  flush := none
  own _ := none
  file := 0
  handle := none
  rewriting := false
  clock := 0
  completed := []

inductive FsyncEvent where
  /-- A writer appends its records under the lock of the log. -/
  | append (thread count : Nat)
  /-- The follower appends the records of a leader; it syncs them without the group. -/
  | followerAppend (count : Nat)
  /-- The follower cuts off a suffix that is in conflict, or a compaction rewrites the log: the
  handle is closed, and then a new file is renamed to `log.bin`. The lock of the log is held. -/
  | reset
  | rename (keep : Nat)
  /-- `raftLogAppendSeqBump`, and the call. -/
  | bump (thread : Nat)
  /-- The test of the `while` loop; a thread that has to wait comes back to it. -/
  | check (thread : Nat)
  | load (thread : Nat)
  | start (thread : Nat)
  | finish (thread : Nat) (ok : Bool)
  deriving DecidableEq

namespace FsyncState

def set (s : FsyncState) (thread : Nat) (phase : Phase) : FsyncState :=
  { s with threads := Function.update s.threads thread phase }

/-- Without the group the indexes are counted for threads that may come with it later. -/
def track (s : FsyncState) (index : Nat) : FsyncState :=
  { s with appendSeq := max s.appendSeq index, fsyncedSeq := max s.fsyncedSeq index }

/-- What an append or a sync works on: the open file, or the one that it opens. -/
def opened (s : FsyncState) : Nat := s.handle.getD s.file

/-- A sync that begins now. -/
def started (s : FsyncState) : Option Nat := if s.opened = s.file then some s.clock else none

def step (s : FsyncState) : FsyncEvent → Option FsyncState
  | .append thread count =>
      if count = 0 ∨ (s.threads thread).free = false ∨ s.rewriting then none
      else some ({ s with
        lastIndex := s.lastIndex + count, clock := s.clock + 1, handle := some s.opened }.set thread
          (.appended (s.lastIndex + count) s.clock))
  | .followerAppend count =>
      if s.rewriting then none
      else some { s with
        lastIndex := s.lastIndex + count, clock := s.clock + 1, handle := some s.opened }
  | .reset => if s.rewriting then none else some { s with rewriting := true, handle := none }
  | .rename keep =>
      if s.rewriting ∧ keep ≤ s.lastIndex then
        some { s with rewriting := false, lastIndex := keep, file := s.file + 1 }
      else none
  | .bump thread =>
      match s.threads thread with
      | .appended index written =>
          some ({ s with appendSeq := max s.appendSeq index }.set thread (.entered index written))
      | _ => none
  | .check thread =>
      match s.threads thread with
      | .entered index written =>
          match s.mode with
          | .grouped =>
              if index ≤ s.fsyncedSeq then some (s.set thread (.returned index written))
              else if s.running then some s
              else some ({ s with running := true }.set thread (.leading index written))
          | .inline => some (s.set thread (.leading index written))
          | .deferred => some ((s.track index).set thread (.returned index written))
      | _ => none
  | .load thread =>
      match s.threads thread with
      | .leading index written => some (s.set thread (.loaded index written (max s.appendSeq index)))
      | _ => none
  | .start thread =>
      match s.threads thread with
      | .loaded index written target =>
          match s.mode with
          | .grouped =>
              some ({ s with
                clock := s.clock + 1, handle := some s.opened
                flush := some ⟨target, s.started⟩ }.set thread (.syncing index written))
          | _ =>
              some ({ s with
                clock := s.clock + 1, handle := some s.opened
                own := Function.update s.own thread s.started }.set thread (.syncing index written))
      | _ => none
  | .finish thread ok =>
      match s.threads thread with
      | .syncing index written =>
          match s.mode, s.flush with
          | .grouped, some flush =>
              let ended := { s with running := false, flush := none }
              if ok then
                some ({ ended with
                  fsyncedSeq := max s.fsyncedSeq flush.target
                  completed := flush.started.toList ++ s.completed }.set thread (.entered index written))
              else some (ended.set thread .failed)
          | .grouped, none => none
          | _, _ =>
              if ok then
                some (({ s with completed := (s.own thread).toList ++ s.completed }.track index).set thread
                  (.returned index written))
              else some (s.set thread .failed)
      | _ => none

/-- A sync of `log.bin` that began after the record of the thread was written has completed. -/
def Durable (s : FsyncState) (written : Nat) : Prop := ∃ started ∈ s.completed, written < started

instance (s : FsyncState) (written : Nat) : Decidable (s.Durable written) :=
  inferInstanceAs (Decidable (∃ started ∈ s.completed, written < started))

/-- Whoever the call has returned to has a durable record. -/
def ReturnsDurable (s : FsyncState) : Prop :=
  ∀ thread index written, s.threads thread = .returned index written → s.Durable written

/-- The sync is not left to the background, none begins inside a rewrite, and no writer appends
under an index that counts as synced, or that will when the sync under way completes. -/
def Fresh (s : FsyncState) : FsyncEvent → Prop
  | .append _ count => (s.mode = .grouped → s.fsyncedSeq < s.lastIndex + count) ∧
      ∀ flush ∈ s.flush, flush.target < s.lastIndex + count
  | .check _ => s.mode ≠ .deferred
  | .start _ => s.rewriting = false
  | _ => True

instance (s : FsyncState) : DecidablePred s.Fresh
  | .append _ count => inferInstanceAs (Decidable ((s.mode = .grouped →
      s.fsyncedSeq < s.lastIndex + count) ∧ ∀ flush ∈ s.flush, flush.target < s.lastIndex + count))
  | .check _ => inferInstanceAs (Decidable (s.mode ≠ .deferred))
  | .start _ => inferInstanceAs (Decidable (s.rewriting = false))
  | .followerAppend _ | .reset | .rename _ | .bump _ | .load _ | .finish _ _ => .isTrue trivial

/-! ## The invariant -/

/-- What the counters say about the records of the threads. -/
structure Inv (s : FsyncState) : Prop where
  handle : ∀ file ∈ s.handle, file = s.file ∧ s.rewriting = false
  past : ∀ thread index written, (s.threads thread).record = some (index, written) → written < s.clock
  /-- An index that counts as synced is durable. -/
  counted : s.mode = .grouped → ∀ thread index written,
    (s.threads thread).record = some (index, written) → index ≤ s.fsyncedSeq → s.Durable written
  /-- The sync under way began after the records that it will count. -/
  covered : ∀ flush ∈ s.flush, ∀ thread index written,
    (s.threads thread).record = some (index, written) → index ≤ flush.target →
      ∃ start ∈ flush.started, written < start
  ownLater : s.mode ≠ .grouped → ∀ thread index written,
    s.threads thread = .syncing index written → ∃ start ∈ s.own thread, written < start
  durable : s.ReturnsDurable

theorem inv_init (mode : SyncMode) (lastIndex : Nat) : (init mode lastIndex).Inv where
  handle file isFile := by cases isFile
  past thread index written isRecord := by cases isRecord
  counted _ thread index written isRecord := by cases isRecord
  covered flush isFlush := by cases isFlush
  ownLater _ thread index written isSyncing := by cases isSyncing
  durable thread index written isReturned := by cases isReturned

variable {s : FsyncState} {thread : Nat} {phase : Phase}

@[simp] theorem set_threads_self : (s.set thread phase).threads thread = phase :=
  Function.update_self ..

theorem set_threads_ne {other : Nat} (apart : other ≠ thread) :
    (s.set thread phase).threads other = s.threads other :=
  Function.update_of_ne apart ..

/-- A property of every thread after one has moved. -/
theorem forall_set {P : Nat → Phase → Prop} (own : P thread phase)
    (others : ∀ other, other ≠ thread → P other (s.threads other)) (other : Nat) :
    P other ((s.set thread phase).threads other) := by
  by_cases same : other = thread
  · rw [same, set_threads_self]
    exact own
  · rw [set_threads_ne same]
    exact others other same

/-- A thread moves; what the invariant says of its new place is shown. -/
theorem Inv.set (inv : s.Inv)
    (past : ∀ index written, phase.record = some (index, written) → written < s.clock)
    (counted : s.mode = .grouped → ∀ index written, phase.record = some (index, written) →
      index ≤ s.fsyncedSeq → s.Durable written)
    (covered : ∀ flush ∈ s.flush, ∀ index written, phase.record = some (index, written) →
      index ≤ flush.target → ∃ start ∈ flush.started, written < start)
    (ownLater : s.mode ≠ .grouped → ∀ index written, phase = .syncing index written →
      ∃ start ∈ s.own thread, written < start)
    (durable : ∀ index written, phase = .returned index written → s.Durable written) :
    (s.set thread phase).Inv where
  handle := inv.handle
  past other index written :=
    forall_set (P := fun _ phase => phase.record = some (index, written) → written < s.clock)
      (past index written) (fun other _ => inv.past other index written) other
  counted grouped other index written :=
    forall_set (P := fun _ phase => phase.record = some (index, written) → index ≤ s.fsyncedSeq →
      s.Durable written) (counted grouped index written)
      (fun other _ => inv.counted grouped other index written) other
  covered flush isFlush other index written :=
    forall_set (P := fun _ phase => phase.record = some (index, written) → index ≤ flush.target →
      ∃ start ∈ flush.started, written < start) (covered flush isFlush index written)
      (fun other _ => inv.covered flush isFlush other index written) other
  ownLater apart other index written :=
    forall_set (P := fun other phase => phase = .syncing index written →
      ∃ start ∈ s.own other, written < start)
      (ownLater apart index written) (fun other _ => inv.ownLater apart other index written) other
  durable other index written :=
    forall_set (P := fun _ phase => phase = .returned index written → s.Durable written)
      (durable index written) (fun other _ => inv.durable other index written) other

/-- A thread moves on with its record. -/
theorem Inv.move (inv : s.Inv) {record : Nat × Nat} (isRecord : (s.threads thread).record = some record)
    (kept : phase.record = some record)
    (ownLater : s.mode ≠ .grouped → ∀ index written, phase = .syncing index written →
      ∃ start ∈ s.own thread, written < start)
    (durable : ∀ index written, phase = .returned index written → s.Durable written) :
    (s.set thread phase).Inv := by
  apply inv.set _ _ _ ownLater durable
  · exact fun index written same => inv.past thread index written (isRecord.trans (kept.symm.trans same))
  · exact fun grouped index written same =>
      inv.counted grouped thread index written (isRecord.trans (kept.symm.trans same))
  · exact fun flush isFlush index written same =>
      inv.covered flush isFlush thread index written (isRecord.trans (kept.symm.trans same))

theorem Inv.fail (inv : s.Inv) : (s.set thread .failed).Inv := by
  apply inv.set <;> intros <;> contradiction

/-- The log, the running flag and the append counter are not in the invariant, and time only
goes on. -/
theorem Inv.congr (inv : s.Inv) {t : FsyncState} (mode : t.mode = s.mode)
    (fsyncedSeq : t.fsyncedSeq = s.fsyncedSeq) (threads : t.threads = s.threads)
    (flush : t.flush = s.flush) (own : t.own = s.own) (completed : t.completed = s.completed)
    (later : s.clock ≤ t.clock) (handle : ∀ file ∈ t.handle, file = t.file ∧ t.rewriting = false) :
    t.Inv := by
  have durable : ∀ written, s.Durable written → t.Durable written := by
    intro written before
    rw [Durable, completed]
    exact before
  constructor
  · exact handle
  · intro thread index written isRecord
    rw [threads] at isRecord
    exact (inv.past thread index written isRecord).trans_le later
  · intro grouped thread index written isRecord counted
    rw [threads] at isRecord
    rw [fsyncedSeq] at counted
    exact durable written (inv.counted (mode ▸ grouped) thread index written isRecord counted)
  · rw [flush, threads]
    exact inv.covered
  · rw [mode, threads, own]
    exact inv.ownLater
  · intro thread index written isReturned
    rw [threads] at isReturned
    exact durable written (inv.durable thread index written isReturned)

/-- What is opened is `log.bin`. -/
theorem Inv.opened (inv : s.Inv) : s.opened = s.file := by
  rw [FsyncState.opened]
  cases isFile : s.handle with
  | none => rfl
  | some file => exact (inv.handle file isFile).1

theorem Inv.handle_opened (inv : s.Inv) (outside : s.rewriting = false) :
    ∀ file ∈ some s.opened, file = s.file ∧ s.rewriting = false := by
  rintro _ ⟨⟩
  exact ⟨inv.opened, outside⟩

/-- A sync that has completed makes more durable. -/
theorem Inv.complete (inv : s.Inv) {started : Option Nat} {fsyncedSeq appendSeq : Nat} {running : Bool}
    {flush : Option Flush} (fewer : ∀ other ∈ flush, other ∈ s.flush)
    (counts : s.mode = .grouped → ∀ thread index written,
      (s.threads thread).record = some (index, written) → index ≤ fsyncedSeq →
        index ≤ s.fsyncedSeq ∨ ∃ start ∈ started, written < start) :
    Inv { s with
      running, fsyncedSeq, appendSeq, flush, completed := started.toList ++ s.completed } where
  handle := inv.handle
  past := inv.past
  counted grouped thread index written isRecord below := by
    rcases counts grouped thread index written isRecord below with before | ⟨start, member, later⟩
    · obtain ⟨start, member, later⟩ := inv.counted grouped thread index written isRecord before
      exact ⟨start, List.mem_append_right _ member, later⟩
    · exact ⟨start, List.mem_append_left _ (Option.mem_toList.mpr member), later⟩
  covered other isFlush := inv.covered other (fewer other isFlush)
  ownLater := inv.ownLater
  durable thread index written isReturned := by
    obtain ⟨start, member, later⟩ := inv.durable thread index written isReturned
    exact ⟨start, List.mem_append_right _ member, later⟩

/-- A sync that begins now comes after every record there is. -/
theorem Inv.begin (inv : s.Inv) (outside : s.rewriting = false) (target : Nat) :
    Inv { s with
      clock := s.clock + 1, handle := some s.opened, flush := some ⟨target, s.started⟩ } where
  handle := inv.handle_opened outside
  past other index written isRecord := (inv.past other index written isRecord).trans (Nat.lt_succ_self _)
  counted := inv.counted
  covered flush isFlush other index written isRecord _ := by
    obtain rfl : (⟨target, s.started⟩ : Flush) = flush := Option.some.inj isFlush
    exact ⟨s.clock, if_pos inv.opened, inv.past other index written isRecord⟩
  ownLater := inv.ownLater
  durable := inv.durable

theorem Inv.beginOwn (inv : s.Inv) (outside : s.rewriting = false)
    (notYet : ∀ index written, s.threads thread ≠ .syncing index written) :
    Inv { s with
      clock := s.clock + 1, handle := some s.opened
      own := Function.update s.own thread s.started } where
  handle := inv.handle_opened outside
  past other index written isRecord := (inv.past other index written isRecord).trans (Nat.lt_succ_self _)
  counted := inv.counted
  covered := inv.covered
  ownLater mode other index written isSyncing := by
    have moved : other ≠ thread := fun same => notYet index written (same ▸ isSyncing)
    dsimp only
    rw [Function.update_of_ne moved]
    exact inv.ownLater mode other index written isSyncing
  durable := inv.durable

/-- A sync that has failed counts for nothing. -/
theorem Inv.abandon (inv : s.Inv) : Inv { s with running := false, flush := none } where
  handle := inv.handle
  past := inv.past
  counted := inv.counted
  covered flush isFlush := by cases isFlush
  ownLater := inv.ownLater
  durable := inv.durable

/-! ## Every step keeps the invariant -/

theorem inv_append {t : FsyncState} {count : Nat} (inv : s.Inv) (fresh : s.Fresh (.append thread count))
    (taken : s.step (.append thread count) = some t) : t.Inv := by
  rw [step] at taken
  split at taken
  · cases taken
  next free =>
  cases taken
  have ticked : Inv { s with
      lastIndex := s.lastIndex + count, clock := s.clock + 1, handle := some s.opened } :=
    inv.congr rfl rfl rfl rfl rfl rfl (Nat.le_succ _)
      (inv.handle_opened ((Bool.not_eq_true _).mp fun within => free (.inr (.inr within))))
  apply ticked.set
  · intro index written isRecord
    cases isRecord
    exact Nat.lt_succ_self _
  · intro grouped index written isRecord counted
    cases isRecord
    exact absurd counted (Nat.not_le.mpr (fresh.1 grouped))
  · intro flush isFlush index written isRecord below
    cases isRecord
    exact absurd below (Nat.not_le.mpr (fresh.2 flush isFlush))
  · exact fun _ _ _ absurd => by cases absurd
  · exact fun _ _ absurd => by cases absurd

theorem inv_bump {t : FsyncState} (inv : s.Inv) (taken : s.step (.bump thread) = some t) : t.Inv := by
  rw [step] at taken
  split at taken
  next index written at_ =>
    cases taken
    have counted : Inv { s with appendSeq := max s.appendSeq index } :=
      inv.congr rfl rfl rfl rfl rfl rfl le_rfl inv.handle
    apply counted.move (congrArg Phase.record at_) rfl
    · exact fun _ _ _ absurd => by cases absurd
    · exact fun _ _ absurd => by cases absurd
  · cases taken

theorem inv_check {t : FsyncState} (inv : s.Inv) (fresh : s.Fresh (.check thread))
    (taken : s.step (.check thread) = some t) : t.Inv := by
  rw [step] at taken
  split at taken
  next index written at_ =>
    have isRecord : (s.threads thread).record = some (index, written) := congrArg Phase.record at_
    split at taken
    next mode =>
      split at taken
      next synced =>
        -- The call returns: its index counts as synced, so the record is durable.
        cases taken
        apply inv.move isRecord rfl
        · exact fun apart => absurd mode apart
        · intro own since returned
          cases returned
          exact inv.counted mode thread index written isRecord synced
      next =>
        split at taken
        · cases taken
          exact inv
        · cases taken
          have leads : Inv { s with running := true } :=
            inv.congr rfl rfl rfl rfl rfl rfl le_rfl inv.handle
          apply leads.move isRecord rfl
          · exact fun _ _ _ absurd => by cases absurd
          · exact fun _ _ absurd => by cases absurd
    next =>
      cases taken
      apply inv.move isRecord rfl
      · exact fun _ _ _ absurd => by cases absurd
      · exact fun _ _ absurd => by cases absurd
    next mode => exact absurd mode fresh
  · cases taken

theorem inv_load {t : FsyncState} (inv : s.Inv) (taken : s.step (.load thread) = some t) : t.Inv := by
  rw [step] at taken
  split at taken
  next index written at_ =>
    cases taken
    apply inv.move (congrArg Phase.record at_) rfl
    · exact fun _ _ _ absurd => by cases absurd
    · exact fun _ _ absurd => by cases absurd
  · cases taken

theorem inv_start {t : FsyncState} (inv : s.Inv) (outside : s.Fresh (.start thread))
    (taken : s.step (.start thread) = some t) : t.Inv := by
  rw [step] at taken
  split at taken
  next index written target at_ =>
    have isRecord : (s.threads thread).record = some (index, written) := congrArg Phase.record at_
    split at taken
    next mode =>
      cases taken
      apply (inv.begin outside target).move isRecord rfl
      · exact fun apart => absurd mode apart
      · exact fun _ _ absurd => by cases absurd
    next =>
      cases taken
      have notYet : ∀ index written, s.threads thread ≠ .syncing index written := by
        intro index written isSyncing
        rw [at_] at isSyncing
        cases isSyncing
      apply (inv.beginOwn outside notYet).move isRecord rfl
      · intro _ own since syncing
        cases syncing
        dsimp only
        rw [Function.update_self]
        exact ⟨s.clock, if_pos inv.opened, inv.past thread index written isRecord⟩
      · exact fun _ _ absurd => by cases absurd
  · cases taken

theorem inv_finish {t : FsyncState} {ok : Bool} (inv : s.Inv)
    (taken : s.step (.finish thread ok) = some t) : t.Inv := by
  rw [step] at taken
  split at taken
  next index written at_ =>
    have isRecord : (s.threads thread).record = some (index, written) := congrArg Phase.record at_
    split at taken
    next flush mode isFlush =>
      dsimp only at taken
      cases ok with
      | true =>
        rw [if_pos rfl] at taken
        cases taken
        have counts : s.mode = .grouped → ∀ other index written,
            (s.threads other).record = some (index, written) → index ≤ max s.fsyncedSeq flush.target →
              index ≤ s.fsyncedSeq ∨ ∃ start ∈ flush.started, written < start := by
          intro _ other index written isRecord below
          by_cases before : index ≤ s.fsyncedSeq
          · exact .inl before
          · exact .inr (inv.covered flush isFlush other index written isRecord (by omega))
        have completed := @Inv.complete s inv flush.started _ s.appendSeq false none
          (fun _ isFlush => by cases isFlush) counts
        apply completed.move isRecord rfl
        · exact fun _ _ _ absurd => by cases absurd
        · exact fun _ _ absurd => by cases absurd
      | false =>
        rw [if_neg Bool.false_ne_true] at taken
        cases taken
        exact inv.abandon.fail
    · cases taken
    next apart none_ =>
      cases ok with
      | true =>
        rw [if_pos rfl] at taken
        cases taken
        have inline : s.mode ≠ .grouped := by
          intro mode
          cases isFlush : s.flush with
          | none => exact none_ mode isFlush
          | some flush => exact apart flush mode isFlush
        have later := inv.ownLater inline thread index written at_
        have completed := @Inv.complete s inv (s.own thread) (max s.fsyncedSeq index)
          (max s.appendSeq index) s.running s.flush (fun _ isFlush => isFlush)
          (fun mode => absurd mode inline)
        apply completed.move isRecord rfl
        · exact fun _ _ _ absurd => by cases absurd
        · intro own since returned
          cases returned
          obtain ⟨start, member, after⟩ := later
          exact ⟨start, List.mem_append_left _ (Option.mem_toList.mpr member), after⟩
      | false =>
        rw [if_neg Bool.false_ne_true] at taken
        cases taken
        exact inv.fail
  · cases taken

theorem inv_step {t : FsyncState} {event : FsyncEvent} (inv : s.Inv) (fresh : s.Fresh event)
    (taken : s.step event = some t) : t.Inv := by
  cases event with
  | append thread count => exact inv_append inv fresh taken
  | followerAppend count =>
    rw [step] at taken
    split at taken
    · cases taken
    next outside =>
      cases taken
      exact inv.congr rfl rfl rfl rfl rfl rfl (Nat.le_succ _)
        (inv.handle_opened ((Bool.not_eq_true _).mp outside))
  | reset =>
    rw [step] at taken
    split at taken
    · cases taken
    · cases taken
      exact inv.congr rfl rfl rfl rfl rfl rfl le_rfl nofun
  | rename keep =>
    rw [step] at taken
    split at taken
    next within =>
      cases taken
      refine inv.congr rfl rfl rfl rfl rfl rfl le_rfl fun file isFile => ?_
      exact absurd within.1 (by rw [(inv.handle file isFile).2]; decide)
    next => cases taken
  | bump thread => exact inv_bump inv taken
  | check thread => exact inv_check inv fresh taken
  | load thread => exact inv_load inv taken
  | start thread => exact inv_start inv fresh taken
  | finish thread ok => exact inv_finish inv taken

/-- In every run whose appends take indexes that do not count as synced yet, and whose syncs begin
outside of rewrites, the call returns only to threads whose record is durable. -/
theorem returns_durable {mode : SyncMode} {lastIndex : Nat}
    (reached : Reach step Fresh (init mode lastIndex) s) : s.ReturnsDurable :=
  (reached.invariant (inv_init mode lastIndex) inv_step).durable

/-- One writer appends its record and syncs it. -/
def oneWriter (thread : Nat) : List FsyncEvent :=
  [.append thread 1, .bump thread, .check thread, .load thread, .start thread, .finish thread true,
    .check thread]

/-- Two writers; the follower's truncation in between cuts nothing that was synced. -/
def twoWriters : List FsyncEvent :=
  oneWriter 0 ++ [.append 1 2, .reset, .rename 6, .followerAppend 1, .bump 1, .check 1, .load 1, .start 1,
    .finish 1 true, .check 1]

theorem returns_durable_one : ∃ s, run step (init .grouped 4) twoWriters = some s ∧
    s.threads 0 = .returned 5 0 ∧ s.threads 1 = .returned 7 2 ∧ s.ReturnsDurable := by
  have fresh : RunAllowed step Fresh (init .grouped 4) twoWriters := by decide
  exact ⟨_, rfl, rfl, rfl, returns_durable (Reach.refl.of_runAllowed fresh rfl)⟩

/-- The record of the first writer is cut off by a follower's truncation. The next record has
its index: the call returns, and the only sync began before the record was written. Or a sync
comes between the reset and the rename: the next record, though its index is new, is written to
the file that was replaced and synced there. -/
theorem reused_not_durable :
    (¬∀ s : FsyncState, Reach step (fun _ _ => True) (init .grouped 4) s → s.ReturnsDurable) ∧
    ∃ s, run step (init .grouped 4) ([.append 2 1, .bump 2, .check 2, .load 2, .reset, .start 2,
        .rename 5, .finish 2 true, .check 2] ++ oneWriter 0) = some s ∧
      s.threads 0 = .returned 6 2 ∧ ¬s.Durable 2 := by
  refine ⟨fun all => ?_, _, rfl, rfl, by decide⟩
  have reached := @Reach.of_run _ _ step (fun _ _ => True) (init .grouped 4) (init .grouped 4)
    (oneWriter 0 ++ [.reset, .rename 4, .append 1 1, .bump 1, .check 1]) _ .refl
    (fun _ _ _ => trivial) rfl
  obtain ⟨started, member, later⟩ := all _ reached 1 5 2 rfl
  obtain rfl : started = 1 := List.mem_singleton.mp member
  exact absurd later (by decide)

end FsyncState

end PacificDb.Raft
