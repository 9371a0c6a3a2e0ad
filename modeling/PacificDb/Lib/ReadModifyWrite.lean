import PacificDb.Lib.Machine
import Mathlib.Data.List.Nodup
import Mathlib.Data.Fintype.Defs
import Mathlib.Logic.Function.Basic

/-!
# Read, modify, write

Calls that each read a store, compute a new value from what they found and put it
back later, with nothing that keeps other calls out in between. The steps of
different calls interleave. A call brings parameters of its own to its read and to
its write, such as what its clock shows.

`Interleaving.sequential` is the rule for when nothing is lost: if no call writes where
another reads that has not written yet, every write still finds what its read found, and
the calls might as well have run one after the other in the order of their writes. What
"where another reads" means is up to the store (`Calls.Framed`).
-/

namespace PacificDb.Lib

/-- The two halves of a call: the value it makes of a store, if it makes one, and the store
with the value in it, if the write succeeds. -/
structure Calls (S D ι A B : Type) where
  read : ι → A → S → Option D
  write : ι → B → D → S → Option S

variable {S D ι A B : Type}

/-- A call that runs alone. -/
def Calls.alone (calls : Calls S D ι A B) (s : S) (call : ι × A × B) : Option S :=
  (calls.read call.1 call.2.1 s).bind fun value => calls.write call.1 call.2.2 value s

/-- The calls one after the other. -/
def Calls.sequence (calls : Calls S D ι A B) (s : S) (order : List (ι × A × B)) : Option S :=
  order.foldlM calls.alone s

/-- The writes of the calls keep the invariant, and the write of a value leaves what it
spares: a call that has read goes on reading the same. -/
structure Calls.Framed (calls : Calls S D ι A B) (inv : S → Prop) (spares : D → ι → Prop) : Prop where
  keeps : ∀ {s t call with_ now value}, inv s → calls.read call with_ s = some value →
    calls.write call now value s = some t → inv t
  frame : ∀ {s t call with_ now value}, inv s → calls.read call with_ s = some value →
    calls.write call now value s = some t → ∀ other, spares value other → ∀ at_ found,
    calls.read other at_ s = some found → calls.read other at_ t = some found

/-- `pending` are the calls that have read, `done` those that have returned, in the order of
their writes. -/
structure Interleaving (S D ι A B : Type) where
  store : S
  pending : ι → Option (A × D) := fun _ => none
  done : List (ι × A × B) := []

inductive CallEvent (ι A B : Type) where
  | read (call : ι) (with_ : A)
  | write (call : ι) (with_ : B)

namespace Interleaving

variable [DecidableEq ι] {calls : Calls S D ι A B} {init : S} {s t : Interleaving S D ι A B}
  {event : CallEvent ι A B}

/-- Every call reads once and then writes once. -/
def step (calls : Calls S D ι A B) (s : Interleaving S D ι A B) :
    CallEvent ι A B → Option (Interleaving S D ι A B)
  | .read call with_ =>
      if (s.pending call).isSome || (s.done.map Prod.fst).contains call then none
      else (calls.read call with_ s.store).map fun value =>
        { s with pending := Function.update s.pending call (some (with_, value)) }
  | .write call with_ =>
      (s.pending call).bind fun found => (calls.write call with_ found.2 s.store).map fun store =>
        { store, pending := Function.update s.pending call none
          done := s.done ++ [(call, found.1, with_)] }

/-- No call writes where another reads that has not written yet. -/
def Apart (spares : D → ι → Prop) (s : Interleaving S D ι A B) : CallEvent ι A B → Prop
  | .read .. => True
  | .write call _ => ∀ found ∈ s.pending call,
      ∀ other ≠ call, (s.pending other).isSome = true → spares found.2 other

instance [Fintype ι] (spares : D → ι → Prop) [∀ value other, Decidable (spares value other)]
    (s : Interleaving S D ι A B) : DecidablePred (Apart spares s)
  | .read .. => .isTrue trivial
  | .write call _ => inferInstanceAs (Decidable (∀ found ∈ s.pending call,
      ∀ other ≠ call, (s.pending other).isSome = true → spares found.2 other))

/-- The calls that have not written yet would read now what they have read. -/
def Current (calls : Calls S D ι A B) (s : Interleaving S D ι A B) : Prop :=
  ∀ call with_ value, s.pending call = some (with_, value) → calls.read call with_ s.store = some value

/-- What a step can do. -/
theorem step_cases (taken : step calls s event = some t) :
    (∃ call with_ value, event = .read call with_ ∧ s.pending call = none ∧
      call ∉ s.done.map Prod.fst ∧ calls.read call with_ s.store = some value ∧
      t = { s with pending := Function.update s.pending call (some (with_, value)) }) ∨
    ∃ call with_ found store, event = .write call with_ ∧ s.pending call = some found ∧
      calls.write call with_ found.2 s.store = some store ∧
      t = { store, pending := Function.update s.pending call none
            done := s.done ++ [(call, found.1, with_)] } := by
  cases event with
  | read call with_ =>
    rw [step] at taken
    split at taken
    · cases taken
    next free =>
      rw [Bool.or_eq_true, not_or, Option.not_isSome_iff_eq_none, List.contains_iff_mem] at free
      obtain ⟨value, reads, rfl⟩ := Option.map_eq_some_iff.mp taken
      exact .inl ⟨call, with_, value, rfl, free.1, free.2, reads, rfl⟩
  | write call with_ =>
    rw [step] at taken
    obtain ⟨found, isFound, taken⟩ := Option.bind_eq_some_iff.mp taken
    obtain ⟨store, writes, rfl⟩ := Option.map_eq_some_iff.mp taken
    exact .inr ⟨call, with_, found, store, rfl, isFound, writes, rfl⟩

/-- A call returns once. -/
structure Once (s : Interleaving S D ι A B) : Prop where
  nodup : (s.done.map Prod.fst).Nodup
  apart : ∀ call ∈ s.done.map Prod.fst, s.pending call = none

theorem once_step (once : Once s) (taken : step calls s event = some t) : Once t := by
  rcases step_cases taken with ⟨call, with_, value, -, -, fresh, -, rfl⟩ |
    ⟨call, with_, found, store, -, isFound, -, rfl⟩
  · refine ⟨once.nodup, fun other member => ?_⟩
    dsimp only at member ⊢
    rw [Function.update_of_ne]
    · exact once.apart other member
    · rintro rfl
      exact fresh member
  · have fresh : call ∉ s.done.map Prod.fst := by
      intro member
      rw [once.apart call member] at isFound
      cases isFound
    refine ⟨?_, fun other member => ?_⟩
    · rw [List.map_append, List.nodup_append]
      refine ⟨once.nodup, List.nodup_singleton _, ?_⟩
      intro other isOther same isSame equal
      rw [List.map_singleton, List.mem_singleton] at isSame
      rw [equal, isSame] at isOther
      exact fresh isOther
    · dsimp only at member ⊢
      rw [List.map_append, List.map_singleton, List.mem_append, List.mem_singleton] at member
      by_cases own : other = call
      · rw [own, Function.update_self]
      · rw [Function.update_of_ne own]
        exact once.apart other (member.resolve_right own)

variable {inv : S → Prop} {spares : D → ι → Prop}

/-- What a step keeps: a read finds the store as it is, and a write leaves what the others
have read. -/
theorem current_step (framed : calls.Framed inv spares) (holds : inv s.store)
    (current : Current calls s) (apart : Apart spares s event) (taken : step calls s event = some t) :
    inv t.store ∧ Current calls t := by
  rcases step_cases taken with ⟨call, with_, value, rfl, -, -, reads, rfl⟩ |
    ⟨call, with_, found, store, rfl, isFound, writes, rfl⟩
  · refine ⟨holds, fun other at_ kept isKept => ?_⟩
    dsimp only at isKept ⊢
    by_cases own : other = call
    · rw [own, Function.update_self] at isKept
      cases isKept
      rw [own]
      exact reads
    · rw [Function.update_of_ne own] at isKept
      exact current other at_ kept isKept
  · have reads := current call found.1 found.2 isFound
    refine ⟨framed.keeps holds reads writes, fun other at_ kept isKept => ?_⟩
    dsimp only at isKept ⊢
    by_cases own : other = call
    · rw [own, Function.update_self] at isKept
      cases isKept
    · rw [Function.update_of_ne own] at isKept
      have spared := apart found isFound other own (by rw [isKept]; rfl)
      exact framed.frame holds reads writes other spared at_ kept (current other at_ kept isKept)

/-- A step keeps the calls that have returned in sequence. -/
theorem sequence_step (sequential : calls.sequence init s.done = some s.store)
    (current : Current calls s) (taken : step calls s event = some t) :
    calls.sequence init t.done = some t.store := by
  rcases step_cases taken with ⟨call, with_, value, -, -, -, -, rfl⟩ |
    ⟨call, with_, found, store, rfl, isFound, writes, rfl⟩
  · exact sequential
  · have reads := current call found.1 found.2 isFound
    dsimp only
    rw [Calls.sequence, List.foldlM_append, ← Calls.sequence, sequential]
    change (calls.alone s.store (call, found.1, with_) >>= pure) = _
    rw [bind_pure, Calls.alone, reads]
    exact writes

/-- If no call writes where another reads that has not written yet, the store is what the
calls that have returned make of it one after the other, in the order of their writes; and
each of them is there once. -/
theorem sequential (framed : calls.Framed inv spares) (start : inv init)
    (reached : Reach (step calls) (Apart spares) { store := init } s) :
    calls.sequence init s.done = some s.store ∧ (s.done.map Prod.fst).Nodup := by
  have all : (calls.sequence init s.done = some s.store ∧ Once s) ∧ inv s.store ∧ Current calls s := by
    refine @Reach.invariant _ _ _ _ _ _
      (fun s => (calls.sequence init s.done = some s.store ∧ Once s) ∧ inv s.store ∧ Current calls s)
      reached ⟨⟨rfl, List.nodup_nil, nofun⟩, start, nofun⟩ ?_
    intro s t event before apart taken
    exact ⟨⟨sequence_step before.1.1 before.2.2 taken, once_step before.1.2 taken⟩,
      current_step framed before.2.1 before.2.2 apart taken⟩
  exact ⟨all.1.1, all.1.2.nodup⟩

end Interleaving

end PacificDb.Lib
