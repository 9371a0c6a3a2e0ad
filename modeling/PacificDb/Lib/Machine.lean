import Mathlib.Logic.Basic

/-!
# Machines with a step function

A system is a partial step function on states, driven by events. `Reach` is
reachability by events that meet a condition in the state they happen in;
`Reach.invariant` is the rule for what holds in every state so reached.
-/

namespace PacificDb.Lib

variable {S E : Type}

/-- The states reached from `init` by steps whose events are `allowed`. -/
inductive Reach (step : S → E → Option S) (allowed : S → E → Prop) (init : S) : S → Prop
  | refl : Reach step allowed init init
  | tail {s t : S} {e : E} :
    Reach step allowed init s → allowed s e → step s e = some t → Reach step allowed init t

variable {step : S → E → Option S} {allowed weaker : S → E → Prop} {init s : S}

/-- What holds at the start and is kept by every allowed step holds throughout. -/
theorem Reach.invariant {inv : S → Prop} (reached : Reach step allowed init s) (start : inv init)
    (keeps : ∀ {s t e}, inv s → allowed s e → step s e = some t → inv t) : inv s := by
  induction reached with
  | refl => exact start
  | tail _ allow taken ih => exact keeps ih allow taken

/-- The state after a list of events, if every step is defined. -/
def run (step : S → E → Option S) (s : S) (events : List E) : Option S := events.foldlM step s

theorem Reach.of_run {events : List E} {t : S} (reached : Reach step allowed init s)
    (allow : ∀ event ∈ events, ∀ s, allowed s event) (runs : run step s events = some t) :
    Reach step allowed init t := by
  induction events generalizing s with
  | nil =>
    cases runs
    exact reached
  | cons event events ih =>
    obtain ⟨first, rest⟩ := List.forall_mem_cons.mp allow
    rw [run, List.foldlM_cons] at runs
    obtain ⟨next, taken, runs⟩ := Option.bind_eq_some_iff.mp runs
    exact ih (reached.tail (first s) taken) rest runs

/-- Every event of the list is allowed in the state it happens in. -/
def RunAllowed (step : S → E → Option S) (allowed : S → E → Prop) : S → List E → Prop
  | _, [] => True
  | s, event :: events =>
      allowed s event ∧ ∀ t, step s event = some t → RunAllowed step allowed t events

theorem Reach.of_runAllowed {events : List E} {t : S} (reached : Reach step allowed init s)
    (allow : RunAllowed step allowed s events) (runs : run step s events = some t) :
    Reach step allowed init t := by
  induction events generalizing s with
  | nil =>
    cases runs
    exact reached
  | cons event events ih =>
    rw [run, List.foldlM_cons] at runs
    obtain ⟨next, taken, runs⟩ := Option.bind_eq_some_iff.mp runs
    exact ih (reached.tail allow.1 taken) (allow.2 next taken) runs

theorem runAllowed_cons_iff {event : E} {events : List E} :
    RunAllowed step allowed s (event :: events) ↔
      allowed s event ∧ ∀ t ∈ step s event, RunAllowed step allowed t events :=
  .rfl

instance decidableRunAllowed [∀ s event, Decidable (allowed s event)] :
    ∀ s events, Decidable (RunAllowed step allowed s events)
  | _, [] => .isTrue trivial
  | s, event :: events =>
      have : ∀ t, Decidable (RunAllowed step allowed t events) :=
        fun t => decidableRunAllowed t events
      decidable_of_iff (allowed s event ∧ ∀ t ∈ step s event, RunAllowed step allowed t events)
        runAllowed_cons_iff.symm

/-- A property that a step keeps exactly when its event is allowed holds after a run
exactly when it held before and all the events were allowed. -/
theorem run_good_iff_of {good inv : S → Prop} {assumed : S → E → Prop}
    (keeps : ∀ {s t e}, inv s → assumed s e → step s e = some t → inv t)
    (steps : ∀ {s t e}, inv s → assumed s e → step s e = some t → (good t ↔ good s ∧ allowed s e))
    {events : List E} {t : S} (start : inv s) (assume : RunAllowed step assumed s events)
    (runs : run step s events = some t) : good t ↔ good s ∧ RunAllowed step allowed s events := by
  induction events generalizing s with
  | nil =>
    cases runs
    exact (and_iff_left trivial).symm
  | cons event events ih =>
    rw [run, List.foldlM_cons] at runs
    obtain ⟨next, taken, runs⟩ := Option.bind_eq_some_iff.mp runs
    rw [ih (keeps start assume.1 taken) (assume.2 next taken) runs, steps start assume.1 taken,
      RunAllowed, and_assoc]
    constructor
    · rintro ⟨before, allow, rest⟩
      refine ⟨before, allow, fun other same => ?_⟩
      cases taken.symm.trans same
      exact rest
    · rintro ⟨before, allow, rest⟩
      exact ⟨before, allow, rest next taken⟩

theorem runAllowed_of_forall {events : List E} (allow : ∀ s e, allowed s e) :
    RunAllowed step allowed s events := by
  induction events generalizing s with
  | nil => trivial
  | cons event events ih => exact ⟨allow s event, fun _ _ => ih⟩

theorem run_good_iff {good inv : S → Prop}
    (keeps : ∀ {s t e}, inv s → step s e = some t → inv t)
    (steps : ∀ {s t e}, inv s → step s e = some t → (good t ↔ good s ∧ allowed s e))
    {events : List E} {t : S} (start : inv s) (runs : run step s events = some t) :
    good t ↔ good s ∧ RunAllowed step allowed s events :=
  @run_good_iff_of S E step allowed s good inv (fun _ _ => True)
    (fun before _ taken => keeps before taken) (fun before _ taken => steps before taken) events t
    start (runAllowed_of_forall fun _ _ => trivial) runs

/-- Two conditions on events agree along a run if they agree in every state of an invariant
that the events keep. -/
theorem runAllowed_congr_of {inv : S → Prop} {other : S → E → Prop}
    (keeps : ∀ {s t e}, inv s → other s e → step s e = some t → inv t)
    (agree : ∀ {s e}, inv s → (allowed s e ↔ other s e)) {events : List E} (start : inv s) :
    RunAllowed step allowed s events ↔ RunAllowed step other s events := by
  induction events generalizing s with
  | nil => exact .rfl
  | cons event events ih =>
    rw [RunAllowed, RunAllowed, agree start]
    refine and_congr_right fun allow => ?_
    exact forall_congr' fun t => imp_congr_right fun taken => ih (keeps start allow taken)

theorem run_invariant {inv : S → Prop} (keeps : ∀ {s t e}, inv s → step s e = some t → inv t)
    {events : List E} {t : S} (start : inv s) (runs : run step s events = some t) : inv t := by
  have reached : Reach step (fun _ _ => True) s t := .of_run .refl (fun _ _ _ => trivial) runs
  exact reached.invariant start fun before _ taken => keeps before taken

end PacificDb.Lib
