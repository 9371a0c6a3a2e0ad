import PacificDb.Lib.Machine
import Mathlib.Logic.Function.Basic

/-!
# The recovery fence

While a transferred snapshot is checked and installed, `SnapshotRecoveryFence` keeps
`recoveryComplete_` false, and puts back the value it found when the handler returns.
Storage failures clear the same flag, for good: only the replay of a restart may set it.

The flag is right in every state of a run exactly when no handler that found it set returns
under a storage failure or inside another handler (`fence_balanced_iff`).
-/

namespace PacificDb.Raft

open Lib

/-- The storage failures that clear `recoveryComplete_`. -/
inductive FenceCause where
  /-- `persistConsensusState` could not sync the directory of a rename. -/
  | uncertainPersist
  /-- The tail of a refused publication could not be removed. -/
  | rejectedTail
  /-- `blockApply`. -/
  | blockedApply
  /-- `fenceStorageFailure`. -/
  | storageFailure
  /-- `replayRaftLog` of a restart. -/
  | failedReplay
  deriving Repr, DecidableEq

structure FenceState where
  recoveryComplete : Bool
  applyBlocked : Bool
  /-- What each running handler is to restore. -/
  restore : Nat → Option Bool
  /-- The failures since the last replay that succeeded; no code reads them. -/
  causes : List FenceCause

inductive FenceEvent where
  /-- A handler of `install_snapshot_complete` gets to its fence. -/
  | enter (handler : Nat)
  /-- It returns, on any of its paths. -/
  | leave (handler : Nat)
  | fence (cause : FenceCause)
  /-- The process starts again and replays its log. -/
  | restart (replayed : Bool)
  deriving Repr, DecidableEq

namespace FenceState

/-- A node whose replay succeeded. -/
def recovered : FenceState := ⟨true, false, fun _ => none, []⟩

/-- The construction of `SnapshotRecoveryFence`: `recoveryComplete_.exchange(false)`. -/
def enter (s : FenceState) (handler : Nat) : FenceState :=
  { s with
    recoveryComplete := false
    restore := Function.update s.restore handler (some s.recoveryComplete) }

/-- Its destruction. -/
def leave (s : FenceState) (handler : Nat) (restore : Bool) : FenceState :=
  { s with
    recoveryComplete := restore
    restore := Function.update s.restore handler none }

def fence (s : FenceState) (cause : FenceCause) : FenceState :=
  { s with
    recoveryComplete := false
    applyBlocked := s.applyBlocked || cause == .blockedApply
    causes := s.causes ++ [cause] }

def restart (s : FenceState) (replayed : Bool) : FenceState :=
  ⟨replayed, false, fun _ => none, if replayed then [] else s.causes ++ [.failedReplay]⟩

def step (s : FenceState) : FenceEvent → Option FenceState
  | .enter handler =>
      match s.restore handler with
      | none => some (s.enter handler)
      | some _ => none
  | .leave handler => (s.restore handler).map (s.leave handler)
  | .fence cause => some (s.fence cause)
  | .restart replayed => some (s.restart replayed)

/-! ## What the fence is for -/

def Idle (s : FenceState) : Prop := ∀ handler, s.restore handler = none

/-- The node is open only without a failure and without a handler, and then it is open. -/
def Balanced (s : FenceState) : Prop := s.recoveryComplete = true ↔ s.causes = [] ∧ s.Idle

/-- A handler that found the node open returns when no failure came and no other handler
is running. -/
def LeavesLast (s : FenceState) : FenceEvent → Prop
  | .leave handler => s.restore handler = some true →
      s.causes = [] ∧ ∀ other ≠ handler, s.restore other = none
  | _ => True

/-- A balanced state in which some running handler will open an unfenced node again. -/
structure Inv (s : FenceState) : Prop where
  balanced : s.Balanced
  opens : s.causes = [] → ¬s.Idle → ∃ handler, s.restore handler = some true

variable {s t : FenceState}

theorem inv_recovered : recovered.Inv where
  balanced := iff_of_true rfl ⟨rfl, fun _ => rfl⟩
  opens := fun _ busy => absurd (fun _ => rfl) busy

theorem not_idle_of_some {handler : Nat} {restore : Bool}
    (inside : s.restore handler = some restore) : ¬s.Idle := by
  intro idle
  rw [idle handler] at inside
  cases inside

@[simp] theorem restore_enter_self (s : FenceState) (handler : Nat) :
    (s.enter handler).restore handler = some s.recoveryComplete := by
  dsimp only [FenceState.enter]
  rw [Function.update_self]

@[simp] theorem restore_enter_of_ne (s : FenceState) {handler other : Nat}
    (apart : other ≠ handler) : (s.enter handler).restore other = s.restore other := by
  dsimp only [FenceState.enter]
  rw [Function.update_of_ne apart]

@[simp] theorem restore_leave_self (s : FenceState) (handler : Nat) (restore : Bool) :
    (s.leave handler restore).restore handler = none := by
  dsimp only [FenceState.leave]
  rw [Function.update_self]

@[simp] theorem restore_leave_of_ne (s : FenceState) {handler other : Nat} (restore : Bool)
    (apart : other ≠ handler) : (s.leave handler restore).restore other = s.restore other := by
  dsimp only [FenceState.leave]
  rw [Function.update_of_ne apart]

/-! ## Steps -/

theorem Inv.enter {handler : Nat} (inv : s.Inv) (outside : s.restore handler = none) :
    (s.enter handler).Inv := by
  have inside := restore_enter_self s handler
  constructor
  · refine iff_of_false Bool.false_ne_true fun all => ?_
    exact not_idle_of_some inside all.2
  · intro unfenced _
    by_cases idle : s.Idle
    · -- the node was open
      rw [inv.balanced.mpr ⟨unfenced, idle⟩] at inside
      exact ⟨handler, inside⟩
    · obtain ⟨other, opens⟩ := inv.opens unfenced idle
      have apart : other ≠ handler := by
        intro same
        rw [same, outside] at opens
        cases opens
      exact ⟨other, (restore_enter_of_ne s apart).trans opens⟩

theorem inv_fence (s : FenceState) (cause : FenceCause) : (s.fence cause).Inv := by
  have fenced : (s.fence cause).causes ≠ [] :=
    List.append_ne_nil_of_right_ne_nil _ (List.cons_ne_nil _ _)
  constructor
  · exact iff_of_false Bool.false_ne_true fun all => fenced all.1
  · exact fun unfenced => absurd unfenced fenced

theorem inv_restart (s : FenceState) (replayed : Bool) : (s.restart replayed).Inv := by
  cases replayed with
  | true => exact inv_recovered
  | false =>
    have fenced : (s.restart false).causes ≠ [] :=
      List.append_ne_nil_of_right_ne_nil _ (List.cons_ne_nil _ _)
    constructor
    · exact iff_of_false Bool.false_ne_true fun all => fenced all.1
    · exact fun unfenced => absurd unfenced fenced

/-- A handler that returns leaves the node balanced exactly when it returns last. -/
theorem Inv.leave_iff {handler : Nat} {restore : Bool} (inv : s.Inv)
    (inside : s.restore handler = some restore) :
    s.LeavesLast (.leave handler) ↔ (s.leave handler restore).Inv := by
  have others : ∀ other, other ≠ handler →
      (s.leave handler restore).restore other = s.restore other :=
    fun _ apart => restore_leave_of_ne s restore apart
  have idle : (s.leave handler restore).Idle ↔ ∀ other ≠ handler, s.restore other = none := by
    constructor
    · exact fun idle other apart => (others other apart).symm.trans (idle other)
    · intro alone other
      by_cases same : other = handler
      · rw [same, restore_leave_self]
      · rw [others other same, alone other same]
  cases restore with
  | true =>
    have safe : s.LeavesLast (.leave handler) ↔ (s.leave handler true).causes = [] ∧
        (s.leave handler true).Idle := by
      rw [idle]
      exact ⟨fun last => last inside, fun last _ => last⟩
    rw [safe]
    constructor
    · exact fun last => ⟨iff_of_true rfl last, fun _ busy => absurd last.2 busy⟩
    · exact fun after => after.balanced.mp rfl
  | false =>
    refine iff_of_true (fun found => ?_) ?_
    · rw [inside] at found
      cases found
    -- the handler that opens the node is another one
    have still : (s.leave handler false).causes = [] → ∃ other, other ≠ handler ∧
        s.restore other = some true := by
      intro unfenced
      obtain ⟨other, opens⟩ := inv.opens unfenced (not_idle_of_some inside)
      refine ⟨other, fun same => ?_, opens⟩
      rw [same, inside] at opens
      cases opens
    constructor
    · refine iff_of_false Bool.false_ne_true fun all => ?_
      obtain ⟨other, apart, opens⟩ := still all.1
      exact not_idle_of_some ((others other apart).trans opens) all.2
    · intro unfenced _
      obtain ⟨other, apart, opens⟩ := still unfenced
      exact ⟨other, (others other apart).trans opens⟩

theorem Inv.step {event : FenceEvent} (inv : s.Inv) (last : s.LeavesLast event)
    (taken : s.step event = some t) : t.Inv := by
  cases event with
  | enter handler =>
    rw [FenceState.step] at taken
    split at taken
    next outside =>
      cases taken
      exact inv.enter outside
    next => cases taken
  | leave handler =>
    obtain ⟨restore, inside, rfl⟩ := Option.map_eq_some_iff.mp taken
    exact (inv.leave_iff inside).mp last
  | fence cause =>
    cases taken
    exact inv_fence s cause
  | restart replayed =>
    cases taken
    exact inv_restart s replayed

/-- A step that is not allowed opens a node it should not. -/
theorem leavesLast_of_balanced {event : FenceEvent}
    (balanced : ∀ t, s.step event = some t → t.Balanced) : s.LeavesLast event := by
  cases event with
  | leave handler =>
    intro inside
    have after := balanced (s.leave handler true)
      (by rw [FenceState.step, inside]; rfl)
    obtain ⟨unfenced, idle⟩ := after.mp rfl
    refine ⟨unfenced, fun other apart => ?_⟩
    exact (restore_leave_of_ne s true apart).symm.trans (idle other)
  | _ => trivial

/-! ## Runs -/

theorem balanced_run_iff (inv : s.Inv) (events : List FenceEvent) :
    (∀ before after t, events = before ++ after → run step s before = some t → t.Balanced) ↔
      RunAllowed step LeavesLast s events := by
  induction events generalizing s with
  | nil =>
    refine iff_of_true (fun before after t split runs => ?_) trivial
    rw [(List.append_eq_nil_iff.mp split.symm).1] at runs
    cases runs
    exact inv.balanced
  | cons event events ih =>
    constructor
    · intro balanced
      have last : s.LeavesLast event := by
        apply leavesLast_of_balanced
        intro t taken
        refine balanced [event] events t rfl ?_
        rw [run, List.foldlM_cons, taken]
        rfl
      refine ⟨last, fun t taken => ?_⟩
      apply (ih (inv.step last taken)).mp
      intro before after other split runs
      apply balanced (event :: before) after other (by rw [split, List.cons_append])
      rw [run, List.foldlM_cons, taken]
      exact runs
    · intro allowed before after t split runs
      cases before with
      | nil =>
        cases runs
        exact inv.balanced
      | cons first before =>
        obtain ⟨rfl, rest⟩ := List.cons.inj split
        rw [run, List.foldlM_cons] at runs
        obtain ⟨next, taken, runs⟩ := Option.bind_eq_some_iff.mp runs
        apply (ih (inv.step allowed.1 taken)).mpr (allowed.2 next taken)
        · exact rest
        · exact runs

/-- In every run from a recovered node: `recoveryComplete_` is true in exactly the states
without an unrepaired storage failure and without a running handler, throughout the run, if
and only if every handler that found it true returns without a failure and after the others. -/
theorem fence_balanced_iff (events : List FenceEvent) :
    (∀ before after s, events = before ++ after → run step recovered before = some s →
      s.Balanced) ↔ RunAllowed step LeavesLast recovered events :=
  balanced_run_iff inv_recovered events

/-- A handler opens the node again after a failure, and two that overlap leave it closed. -/
theorem fence_unbalanced :
    (∃ s, run step recovered [.enter 1, .fence .uncertainPersist, .leave 1] = some s ∧
      s.recoveryComplete = true ∧ s.causes = [.uncertainPersist]) ∧
    ∃ s, run step recovered [.enter 1, .enter 2, .leave 1, .leave 2] = some s ∧
      s.recoveryComplete = false ∧ s.causes = [] ∧ s.Idle := by
  refine ⟨⟨_, rfl, rfl, rfl⟩, _, rfl, rfl, rfl, fun handler => ?_⟩
  by_cases second : handler = 2
  · rw [second, restore_leave_self]
  · rw [restore_leave_of_ne _ _ second]
    by_cases first : handler = 1
    · rw [first, restore_leave_self]
    · rw [restore_leave_of_ne _ _ first, restore_enter_of_ne _ second, restore_enter_of_ne _ first]
      rfl

end FenceState

end PacificDb.Raft
