import PacificDb.Lib.Machine
import PacificDb.Vector.Source
import Mathlib.Algebra.BigOperators.Group.Finset.Basic
import Mathlib.Algebra.Order.BigOperators.Group.Finset
import Mathlib.Data.Fin.Basic

/-!
# Freshness stamps

Derived indexes carry a stamp of the revisions of the root and of their collection. A
mutation counts itself active and raises the revision when it is constructed, and raises
the revision and counts itself out when it is destroyed. A capture reads the revisions,
then that nothing is active, and then the revisions again. No lock orders these accesses.

The module takes every atomic access as a step of its own, of any number of mutations and
captures, and shows that two equal stamps leave no room for a mutation between them.
-/

namespace PacificDb.Vector

structure Counter where
  active : Nat := 0
  revision : Nat := 0
  poisoned : Bool := false
  deriving Repr, DecidableEq

/-- `root_` and the elements of `slots_`. -/
inductive Slot where
  | root
  | collection (index : Fin 4096)
  deriving Repr, DecidableEq

/-- Where a mutation is among its accesses. The two phases of overflow are those between
the `fetch_add` of `bump` and its store. -/
inductive MutationPhase where
  | outside
  | counted
  | overflowedIn
  | inside
  | overflowedOut
  | leaving
  deriving Repr, DecidableEq

/-- What a capture has read so far. -/
inductive CapturePhase where
  | start
  | readRoot (root : Nat)
  | readBoth (root collection : Nat)
  | rootIdle (root collection : Nat)
  | idle (root collection : Nat)
  | rootClean (root collection : Nat)
  | clean (root collection : Nat)
  | rootSame (root collection : Nat)
  | done (stamp : Option Stamp)
  deriving Repr, DecidableEq

/-- The arguments of the mutations and captures of a run, which are numbered. -/
structure Calls where
  hash : String → Nat
  /-- The key of a `collectionMutation`, none for a `rootMutation`. -/
  mutationKey : Nat → Option String
  captureKey : Nat → String
  visibility : Nat → Nat

def Calls.slot (calls : Calls) (key : String) : Slot :=
  .collection ⟨calls.hash key % 4096, Nat.mod_lt _ (by decide)⟩

def Calls.mutationSlot (calls : Calls) (mutation : Nat) : Slot :=
  match calls.mutationKey mutation with
  | none => .root
  | some key => calls.slot key

/-- `bumps` counts the bumps there have been, with those that a constructor still owes. -/
structure Freshness where
  counters : Slot → Counter := fun _ => {}
  mutations : Nat → MutationPhase := fun _ => .outside
  captures : Nat → CapturePhase := fun _ => .start
  bumps : Nat := 0

namespace Counter

def bump (counter : Counter) : Counter :=
  { counter with revision := (counter.revision + 1) % 2 ^ 64 }

def overflows (counter : Counter) : Bool := counter.revision == maxUInt64

end Counter

namespace MutationPhase

/-- The next access of a mutation to its counter. -/
def advance (counter : Counter) : MutationPhase → MutationPhase × Counter
  | outside => (counted, { counter with active := (counter.active + 1) % 2 ^ 64 })
  | counted => (if counter.overflows then overflowedIn else inside, counter.bump)
  | overflowedIn => (inside, { counter with poisoned := true })
  | inside => (if counter.overflows then overflowedOut else leaving, counter.bump)
  | overflowedOut => (leaving, { counter with poisoned := true })
  | leaving => (outside, { counter with active := (counter.active + maxUInt64) % 2 ^ 64 })

/-- The bumps that an access begins. -/
def begins : MutationPhase → Nat
  | outside => 1
  | inside => 1
  | _ => 0

end MutationPhase

/-- The bumps that an access is. -/
def MutationPhase.raises : MutationPhase → Nat
  | counted => 1
  | inside => 1
  | _ => 0

/-- The next read of a capture. -/
def CapturePhase.read (counters : Slot → Counter) (slot : Slot) (visibility : Nat) :
    CapturePhase → CapturePhase
  | start => readRoot (counters .root).revision
  | readRoot root => readBoth root (counters slot).revision
  | readBoth root collection =>
      if (counters .root).active = 0 then rootIdle root collection else done none
  | rootIdle root collection =>
      if (counters slot).active = 0 then idle root collection else done none
  | idle root collection =>
      if (counters .root).poisoned then done none else rootClean root collection
  | rootClean root collection =>
      if (counters slot).poisoned then done none else clean root collection
  | clean root collection =>
      if root = (counters .root).revision then rootSame root collection else done none
  | rootSame root collection =>
      if collection = (counters slot).revision then done (some ⟨root, collection, visibility, 0⟩)
      else done none
  | done stamp => done stamp

inductive Access where
  | mutate (mutation : Nat)
  | read (capture : Nat)
  deriving Repr, DecidableEq

namespace Freshness

def step (calls : Calls) (s : Freshness) : Access → Freshness
  | .mutate mutation =>
      let slot := calls.mutationSlot mutation
      let next := (s.mutations mutation).advance (s.counters slot)
      { s with
        counters := Function.update s.counters slot next.2
        mutations := Function.update s.mutations mutation next.1
        bumps := s.bumps + (s.mutations mutation).begins }
  | .read capture =>
      { s with
        captures := Function.update s.captures capture
          ((s.captures capture).read s.counters (calls.slot (calls.captureKey capture))
            (calls.visibility capture)) }

def run (calls : Calls) (s : Freshness) (accesses : List Access) : Freshness :=
  accesses.foldl (step calls) s

/-! ## Counting -/

variable {calls : Calls} {ids : Finset Nat} {s t : Freshness} {access : Access} {slot : Slot}
  {mutation : Nat}

/-- The weights of the mutations of a slot. -/
def load (calls : Calls) (ids : Finset Nat) (mutations : Nat → MutationPhase)
    (weight : MutationPhase → Nat) (slot : Slot) : Nat :=
  ∑ mutation ∈ ids,
    if calls.mutationSlot mutation = slot then weight (mutations mutation) else 0

def isActive : MutationPhase → Nat
  | .outside => 0
  | _ => 1

def owes : MutationPhase → Nat
  | .counted => 1
  | _ => 0

theorem load_update {mutations : Nat → MutationPhase} {weight : MutationPhase → Nat}
    {phase : MutationPhase} (inside : mutation ∈ ids) :
    load calls ids (Function.update mutations mutation phase) weight slot +
        (if calls.mutationSlot mutation = slot then weight (mutations mutation) else 0) =
      load calls ids mutations weight slot +
        (if calls.mutationSlot mutation = slot then weight phase else 0) := by
  have others : ∑ other ∈ ids.erase mutation, (if calls.mutationSlot other = slot then
      weight (Function.update mutations mutation phase other) else 0) =
      ∑ other ∈ ids.erase mutation,
        (if calls.mutationSlot other = slot then weight (mutations other) else 0) := by
    refine Finset.sum_congr rfl fun other member => ?_
    rw [Function.update_of_ne (Finset.ne_of_mem_erase member)]
  unfold load
  rw [← Finset.add_sum_erase ids _ inside, ← Finset.add_sum_erase ids _ inside, others,
    Function.update_self]
  omega

theorem le_load {mutations : Nat → MutationPhase} {weight : MutationPhase → Nat}
    (inside : mutation ∈ ids) :
    weight (mutations mutation) ≤ load calls ids mutations weight (calls.mutationSlot mutation) := by
  have own := Finset.single_le_sum (f := fun other =>
    if calls.mutationSlot other = calls.mutationSlot mutation then weight (mutations other) else 0)
    (fun _ _ => Nat.zero_le _) inside
  rw [if_pos rfl] at own
  exact own

/-- The counters say what the mutations have done, and have not wrapped. -/
structure Counted (calls : Calls) (ids : Finset Nat) (s : Freshness) : Prop where
  outside : ∀ mutation, mutation ∉ ids → s.mutations mutation = .outside
  active : ∀ slot, (s.counters slot).active = load calls ids s.mutations isActive slot
  few : ∀ slot, (s.counters slot).active ≤ s.bumps
  owed : ∀ slot, (s.counters slot).revision + load calls ids s.mutations owes slot ≤ s.bumps

theorem counted_init : Counted calls ids {} where
  outside := fun _ _ => rfl
  active := by
    intro slot
    refine (Finset.sum_eq_zero fun mutation _ => ?_).symm
    exact ite_self 0
  few := fun _ => Nat.le_refl 0
  owed := by
    intro slot
    have none : load calls ids (fun _ => .outside) owes slot = 0 :=
      Finset.sum_eq_zero fun mutation _ => ite_self 0
    change 0 + load calls ids (fun _ => .outside) owes slot ≤ 0
    omega

theorem begins_add_owes {counter : Counter} (phase : MutationPhase) :
    phase.begins + owes phase = phase.raises + owes (phase.advance counter).1 := by
  cases phase with
  | counted | inside =>
    unfold MutationPhase.advance
    dsimp only
    split <;> rfl
  | _ => rfl

theorem isActive_advance_le {counter : Counter} (phase : MutationPhase) :
    isActive (phase.advance counter).1 ≤ isActive phase + phase.begins := by
  cases phase with
  | counted | inside =>
    unfold MutationPhase.advance
    dsimp only
    split <;> decide
  | outside | overflowedIn | overflowedOut => exact Nat.le_refl 1
  | leaving => exact Nat.zero_le 1

theorem isActive_counted_advance {counter : Counter} {phase : MutationPhase}
    (raises : phase.raises = 1) : isActive (phase.advance counter).1 = isActive phase := by
  cases phase with
  | counted | inside =>
    unfold MutationPhase.advance
    dsimp only
    split <;> rfl
  | _ => cases raises

/-- As long as the counters do not wrap, an access adds to them what it says. -/
theorem Counted.advance (counted : Counted calls ids s)
    (few : s.bumps + (s.mutations mutation).begins < 2 ^ 64) (inside : mutation ∈ ids) :
    ((s.mutations mutation).advance (s.counters (calls.mutationSlot mutation))).2.active +
        isActive (s.mutations mutation) =
      (s.counters (calls.mutationSlot mutation)).active +
        isActive ((s.mutations mutation).advance (s.counters (calls.mutationSlot mutation))).1 ∧
    ((s.mutations mutation).advance (s.counters (calls.mutationSlot mutation))).2.revision =
      (s.counters (calls.mutationSlot mutation)).revision + (s.mutations mutation).raises := by
  have active := counted.active (calls.mutationSlot mutation)
  have below := counted.few (calls.mutationSlot mutation)
  have owed := counted.owed (calls.mutationSlot mutation)
  have owing := @le_load calls ids mutation s.mutations owes inside
  have own := @le_load calls ids mutation s.mutations isActive inside
  generalize s.counters (calls.mutationSlot mutation) = counter at *
  generalize s.mutations mutation = phase at *
  have wraps : counter.revision + phase.raises < 2 ^ 64 := by
    have even := @begins_add_owes counter phase
    omega
  cases phase with
  | outside =>
    have few : s.bumps + 1 < 2 ^ 64 := few
    have small : (counter.active + 1) % 2 ^ 64 = counter.active + 1 := Nat.mod_eq_of_lt (by omega)
    exact ⟨small, rfl⟩
  | counted | inside =>
    have small : (counter.revision + 1) % 2 ^ 64 = counter.revision + 1 := Nat.mod_eq_of_lt wraps
    exact ⟨congrArg _ (isActive_counted_advance rfl).symm, small⟩
  | overflowedIn | overflowedOut => exact ⟨rfl, rfl⟩
  | leaving =>
    have few : s.bumps + 0 < 2 ^ 64 := few
    have own : 1 ≤ load calls ids s.mutations isActive (calls.mutationSlot mutation) := own
    have wrapped : counter.active + maxUInt64 = counter.active - 1 + 2 ^ 64 := by
      unfold maxUInt64
      omega
    have small : (counter.active + maxUInt64) % 2 ^ 64 = counter.active - 1 := by
      rw [wrapped, Nat.add_mod_right, Nat.mod_eq_of_lt (by omega)]
    refine ⟨?_, rfl⟩
    change (counter.active + maxUInt64) % 2 ^ 64 + 1 = counter.active + 0
    omega

theorem Counted.mutate (counted : Counted calls ids s)
    (few : (s.step calls (.mutate mutation)).bumps < 2 ^ 64) (inside : mutation ∈ ids) :
    Counted calls ids (s.step calls (.mutate mutation)) := by
  have few : s.bumps + (s.mutations mutation).begins < 2 ^ 64 := few
  obtain ⟨active, revision⟩ := counted.advance few inside
  have even := @begins_add_owes (s.counters (calls.mutationSlot mutation)) (s.mutations mutation)
  have grows := @isActive_advance_le (s.counters (calls.mutationSlot mutation)) (s.mutations mutation)
  unfold step
  dsimp only
  generalize (s.mutations mutation).advance (s.counters (calls.mutationSlot mutation)) = next at *
  constructor
  · intro other absent
    have apart : other ≠ mutation := fun same => absent (same ▸ inside)
    exact (Function.update_of_ne apart _ _).trans (counted.outside other absent)
  · intro slot
    dsimp only
    have before := counted.active slot
    have moved := @load_update calls ids slot mutation s.mutations isActive next.1 inside
    by_cases own : calls.mutationSlot mutation = slot
    · subst own
      rw [if_pos rfl, if_pos rfl] at moved
      rw [Function.update_self]
      omega
    · rw [if_neg own, if_neg own] at moved
      rw [Function.update_of_ne (Ne.symm own)]
      omega
  · intro slot
    dsimp only
    have before := counted.few slot
    by_cases own : calls.mutationSlot mutation = slot
    · subst own
      rw [Function.update_self]
      omega
    · rw [Function.update_of_ne (Ne.symm own)]
      omega
  · intro slot
    dsimp only
    have before := counted.owed slot
    have moved := @load_update calls ids slot mutation s.mutations owes next.1 inside
    by_cases own : calls.mutationSlot mutation = slot
    · subst own
      rw [if_pos rfl, if_pos rfl] at moved
      rw [Function.update_self]
      omega
    · rw [if_neg own, if_neg own] at moved
      rw [Function.update_of_ne (Ne.symm own)]
      omega

/-- The mutations of the run are among the ids. -/
def Within (ids : Finset Nat) : Access → Prop
  | .mutate mutation => mutation ∈ ids
  | .read _ => True

theorem Counted.step (counted : Counted calls ids s) (few : (s.step calls access).bumps < 2 ^ 64)
    (within : Within ids access) : Counted calls ids (s.step calls access) := by
  cases access with
  | mutate mutation => exact counted.mutate few within
  | read capture => exact ⟨counted.outside, counted.active, counted.few, counted.owed⟩

/-- Nothing of a slot is active that a capture finds idle. -/
theorem Counted.outside_of_idle (counted : Counted calls ids s)
    (idle : (s.counters (calls.mutationSlot mutation)).active = 0) :
    s.mutations mutation = .outside := by
  by_cases inside : mutation ∈ ids
  · have own := @le_load calls ids mutation s.mutations isActive inside
    rw [← counted.active, idle] at own
    cases phase : s.mutations mutation with
    | outside => rfl
    | _ =>
      rw [phase] at own
      exact absurd own (Nat.not_succ_le_zero 0)
  · exact counted.outside mutation inside

/-! ## What an access moves -/

/-- The constructor of the mutation has raised the revision. -/
def Past (phase : MutationPhase) : Prop := phase ≠ .outside ∧ phase ≠ .counted

/-- Revisions rise, and a mutation that goes past the bump of its constructor raises that
of its slot. -/
structure Moved (calls : Calls) (s t : Freshness) : Prop where
  rises : ∀ slot, (s.counters slot).revision ≤ (t.counters slot).revision
  entered : ∀ mutation, Past (t.mutations mutation) → Past (s.mutations mutation) ∨
    (s.counters (calls.mutationSlot mutation)).revision <
      (t.counters (calls.mutationSlot mutation)).revision
  counted : ∀ mutation, s.mutations mutation = .counted → t.mutations mutation = .counted ∨
    (s.counters (calls.mutationSlot mutation)).revision <
      (t.counters (calls.mutationSlot mutation)).revision

theorem past_advance {counter : Counter} {phase : MutationPhase}
    (past : Past (phase.advance counter).1) : Past phase ∨ phase.raises = 1 := by
  cases phase with
  | outside => exact absurd rfl past.2
  | counted => exact .inr rfl
  | _ => exact .inl ⟨nofun, nofun⟩

theorem moved_step (counted : Counted calls ids s) (few : (s.step calls access).bumps < 2 ^ 64)
    (within : Within ids access) : Moved calls s (s.step calls access) := by
  cases access with
  | read => exact ⟨fun _ => le_rfl, fun _ => .inl, fun _ => .inl⟩
  | mutate mutation =>
    obtain ⟨-, revision⟩ := counted.advance few within
    have past := @past_advance (s.counters (calls.mutationSlot mutation)) (s.mutations mutation)
    unfold step
    dsimp only
    generalize (s.mutations mutation).advance (s.counters (calls.mutationSlot mutation)) = next at *
    constructor
    · intro slot
      dsimp only
      by_cases own : slot = calls.mutationSlot mutation
      · rw [own, Function.update_self]
        omega
      · rw [Function.update_of_ne own]
    · intro other moved
      dsimp only at moved ⊢
      by_cases own : other = mutation
      · rw [own] at moved ⊢
        rw [Function.update_self] at moved ⊢
        refine (past moved).imp_right fun raises => ?_
        omega
      · rw [Function.update_of_ne own] at moved
        exact .inl moved
    · intro other phase
      dsimp only
      by_cases own : other = mutation
      · rw [own] at phase ⊢
        rw [phase, MutationPhase.raises] at revision
        rw [Function.update_self, Function.update_self]
        refine .inr ?_
        omega
      · rw [Function.update_of_ne own]
        exact .inl phase

/-! ## What a capture knows -/

variable {capture : Nat} {phase : CapturePhase} {value root collection base : Nat}

/-- The value is a revision read before the slot was found idle. -/
structure Known (calls : Calls) (s : Freshness) (slot : Slot) (value : Nat) : Prop where
  read : value ≤ (s.counters slot).revision
  past : ∀ mutation, calls.mutationSlot mutation = slot → Past (s.mutations mutation) →
    value < (s.counters slot).revision

theorem Known.moved (known : Known calls s slot value) (moved : Moved calls s t) :
    Known calls t slot value where
  read := known.read.trans (moved.rises slot)
  past := by
    rintro mutation rfl past
    rcases moved.entered mutation past with before | raised
    · exact (known.past mutation rfl before).trans_le (moved.rises _)
    · exact known.read.trans_lt raised

theorem Counted.known (counted : Counted calls ids s) (idle : (s.counters slot).active = 0)
    (read : value ≤ (s.counters slot).revision) : Known calls s slot value where
  read := read
  past := by
    rintro mutation rfl past
    exact absurd (counted.outside_of_idle idle) past.1

/-- What a capture knows by what it has read. -/
def Explains (calls : Calls) (s : Freshness) (slot : Slot) : CapturePhase → Prop
  | .start => True
  | .readRoot root => root ≤ (s.counters .root).revision
  | .readBoth root collection =>
      root ≤ (s.counters .root).revision ∧ collection ≤ (s.counters slot).revision
  | .rootIdle root collection =>
      Known calls s .root root ∧ collection ≤ (s.counters slot).revision
  | .idle root collection | .rootClean root collection | .clean root collection
  | .rootSame root collection => Known calls s .root root ∧ Known calls s slot collection
  | .done none => True
  | .done (some stamp) =>
      Known calls s .root stamp.root ∧ Known calls s slot stamp.collection

theorem Explains.moved (explains : Explains calls s slot phase) (moved : Moved calls s t) :
    Explains calls t slot phase := by
  cases phase with
  | start => trivial
  | readRoot => exact le_trans explains (moved.rises .root)
  | readBoth => exact ⟨explains.1.trans (moved.rises .root), explains.2.trans (moved.rises slot)⟩
  | rootIdle => exact ⟨explains.1.moved moved, explains.2.trans (moved.rises slot)⟩
  | idle | rootClean | clean | rootSame => exact ⟨explains.1.moved moved, explains.2.moved moved⟩
  | done stamp =>
    cases stamp with
    | none => trivial
    | some stamp => exact ⟨explains.1.moved moved, explains.2.moved moved⟩

theorem Explains.read {visibility : Nat} (explains : Explains calls s slot phase)
    (counted : Counted calls ids s) :
    Explains calls s slot (phase.read s.counters slot visibility) := by
  cases phase with
  | start => exact Nat.le_refl _
  | readRoot => exact ⟨explains, Nat.le_refl _⟩
  | readBoth =>
    rw [CapturePhase.read]
    split
    next idle => exact ⟨counted.known idle explains.1, explains.2⟩
    next => trivial
  | rootIdle =>
    rw [CapturePhase.read]
    split
    next idle => exact ⟨explains.1, counted.known idle explains.2⟩
    next => trivial
  | idle | rootClean | clean | rootSame =>
    rw [CapturePhase.read]
    split
    · first | exact explains | trivial
    · first | exact explains | trivial
  | done => exact explains

/-! ## A mutation that a later capture finds gone -/

/-- The mutation is in its constructor, or the revision of its slot is above `base`. -/
structure Owing (calls : Calls) (s : Freshness) (mutation base : Nat) : Prop where
  least : base ≤ (s.counters (calls.mutationSlot mutation)).revision
  counted : s.mutations mutation = .counted ∨
    base < (s.counters (calls.mutationSlot mutation)).revision

theorem Owing.moved (owing : Owing calls s mutation base) (moved : Moved calls s t) :
    Owing calls t mutation base where
  least := owing.least.trans (moved.rises _)
  counted := by
    rcases owing.counted with counted | raised
    · rcases moved.counted mutation counted with still | raised
      · exact .inl still
      · exact .inr (owing.least.trans_lt raised)
    · exact .inr (raised.trans_le (moved.rises _))

/-- Its destructor has raised the revision before the slot is found idle. -/
theorem Owing.raised (owing : Owing calls s mutation base) (counted : Counted calls ids s)
    (idle : (s.counters (calls.mutationSlot mutation)).active = 0) :
    base < (s.counters (calls.mutationSlot mutation)).revision := by
  rcases owing.counted with inside | raised
  · have outside := counted.outside_of_idle idle
    rw [inside] at outside
    cases outside
  · exact raised

/-- A capture that found the root idle is beyond `base`. -/
def BeyondRoot (s : Freshness) (base : Nat) : CapturePhase → Prop
  | .rootIdle _ _ | .idle _ _ | .rootClean _ _ | .clean _ _ => base < (s.counters .root).revision
  | .rootSame root _ => base < root
  | .done (some stamp) => base < stamp.root
  | _ => True

/-- A capture that found its collection idle is beyond `base`. -/
def BeyondCollection (s : Freshness) (slot : Slot) (base : Nat) : CapturePhase → Prop
  | .idle _ _ | .rootClean _ _ | .clean _ _ | .rootSame _ _ => base < (s.counters slot).revision
  | .done (some stamp) => base < stamp.collection
  | _ => True

theorem BeyondRoot.moved (beyond : BeyondRoot s base phase) (moved : Moved calls s t) :
    BeyondRoot t base phase := by
  cases phase with
  | rootIdle | idle | rootClean | clean => exact beyond.trans_le (moved.rises .root)
  | start | readRoot | readBoth => trivial
  | rootSame => exact beyond
  | done stamp =>
    cases stamp with
    | none => trivial
    | some => exact beyond

theorem BeyondCollection.moved (beyond : BeyondCollection s slot base phase)
    (moved : Moved calls s t) : BeyondCollection t slot base phase := by
  cases phase with
  | idle | rootClean | clean | rootSame => exact beyond.trans_le (moved.rises slot)
  | start | readRoot | readBoth | rootIdle => trivial
  | done stamp =>
    cases stamp with
    | none => trivial
    | some => exact beyond

theorem BeyondRoot.read {visibility : Nat} (beyond : BeyondRoot s base phase)
    (raised : (s.counters .root).active = 0 → base < (s.counters .root).revision) :
    BeyondRoot s base (phase.read s.counters slot visibility) := by
  cases phase with
  | start | readRoot => trivial
  | readBoth =>
    rw [CapturePhase.read]
    split
    next idle => exact raised idle
    next => trivial
  | rootIdle | idle | rootClean | rootSame =>
    rw [CapturePhase.read]
    split
    · first | exact beyond | trivial
    · first | exact beyond | trivial
  | clean root collection =>
    rw [CapturePhase.read]
    split
    next same => exact lt_of_lt_of_eq beyond same.symm
    next => trivial
  | done => exact beyond

theorem BeyondCollection.read {visibility : Nat} (beyond : BeyondCollection s slot base phase)
    (raised : (s.counters slot).active = 0 → base < (s.counters slot).revision) :
    BeyondCollection s slot base (phase.read s.counters slot visibility) := by
  cases phase with
  | start | readRoot => trivial
  | readBoth =>
    rw [CapturePhase.read]
    split <;> trivial
  | rootIdle =>
    rw [CapturePhase.read]
    split
    next idle => exact raised idle
    next => trivial
  | idle | rootClean | clean =>
    rw [CapturePhase.read]
    split
    · first | exact beyond | trivial
    · first | exact beyond | trivial
  | rootSame root collection =>
    rw [CapturePhase.read]
    split
    next same => exact lt_of_lt_of_eq beyond same.symm
    next => trivial
  | done => exact beyond

/-! ## Runs -/

/-- The mutations of a run. -/
def mutationsOf (accesses : List Access) : Finset Nat :=
  (accesses.filterMap fun access => match access with
    | .mutate mutation => some mutation
    | .read _ => none).toFinset

theorem within_mutationsOf {accesses : List Access} :
    ∀ access ∈ accesses, Within (mutationsOf accesses) access := by
  intro access member
  cases access with
  | mutate mutation =>
    exact List.mem_toFinset.mpr (List.mem_filterMap.mpr ⟨_, member, rfl⟩)
  | read => trivial

theorem bumps_le_run {accesses : List Access} : s.bumps ≤ (s.run calls accesses).bumps := by
  induction accesses generalizing s with
  | nil => exact Nat.le_refl _
  | cons access accesses ih =>
    refine le_trans ?_ (@ih (s.step calls access))
    cases access with
    | mutate => exact Nat.le_add_right _ _
    | read => exact Nat.le_refl _

/-- What every access keeps holds after a run, if there are not too many bumps. -/
theorem run_keeps {inv : Freshness → Prop} {accesses : List Access} (start : inv s)
    (counted : Counted calls ids s) (few : (s.run calls accesses).bumps < 2 ^ 64)
    (within : ∀ access ∈ accesses, Within ids access)
    (keeps : ∀ {s access}, inv s → Counted calls ids s → Moved calls s (s.step calls access) →
      inv (s.step calls access)) :
    inv (s.run calls accesses) ∧ Counted calls ids (s.run calls accesses) := by
  induction accesses generalizing s with
  | nil => exact ⟨start, counted⟩
  | cons access accesses ih =>
    obtain ⟨first, rest⟩ := List.forall_mem_cons.mp within
    have below : (s.step calls access).bumps < 2 ^ 64 :=
      (@bumps_le_run calls (s.step calls access) accesses).trans_lt few
    have moved := moved_step counted below first
    exact ih (keeps start counted moved) (counted.step below first) few rest

/-- A capture is moved by its own reads only. -/
theorem captures_step (s : Freshness) (access : Access) (capture : Nat) :
    (s.step calls access).captures capture = s.captures capture ∨
    (s.step calls access).counters = s.counters ∧
      (s.step calls access).captures capture = (s.captures capture).read s.counters
        (calls.slot (calls.captureKey capture)) (calls.visibility capture) := by
  cases access with
  | mutate => exact .inl rfl
  | read other =>
    by_cases own : capture = other
    · subst own
      exact .inr ⟨rfl, Function.update_self _ _ _⟩
    · exact .inl (Function.update_of_ne own _ _)

theorem explains_step
    (explains : ∀ capture, Explains calls s (calls.slot (calls.captureKey capture))
      (s.captures capture))
    (counted : Counted calls ids s) (moved : Moved calls s (s.step calls access)) (capture : Nat) :
    Explains calls (s.step calls access) (calls.slot (calls.captureKey capture))
      ((s.step calls access).captures capture) := by
  rcases s.captures_step access capture with same | ⟨-, read⟩
  · rw [same]
    exact (explains capture).moved moved
  · rw [read]
    exact ((explains capture).read counted).moved moved

/-- A mutation alive while one capture is done and another has not begun takes the stamp
of the second beyond that of the first. -/
theorem beyond_of_alive {accesses : List Access} {stamp : Stamp} (counted : Counted calls ids s)
    (few : (s.run calls accesses).bumps < 2 ^ 64)
    (within : ∀ access ∈ accesses, Within ids access)
    (notBegun : s.captures capture = .start)
    (done : (s.run calls accesses).captures capture = .done (some stamp))
    (owing : Owing calls s mutation base) :
    (calls.mutationSlot mutation = .root → base < stamp.root) ∧
    (calls.mutationSlot mutation = calls.slot (calls.captureKey capture) →
      base < stamp.collection) := by
  have kept := @run_keeps calls ids s (fun s => Owing calls s mutation base ∧
    (calls.mutationSlot mutation = .root → BeyondRoot s base (s.captures capture)) ∧
    (calls.mutationSlot mutation = calls.slot (calls.captureKey capture) →
      BeyondCollection s (calls.slot (calls.captureKey capture)) base (s.captures capture)))
    accesses ?_ counted few within ?_
  · obtain ⟨⟨-, root, collection⟩, -⟩ := kept
    rw [done] at root collection
    exact ⟨root, collection⟩
  · rw [notBegun]
    exact ⟨owing, fun _ => trivial, fun _ => trivial⟩
  · rintro s access ⟨owing, root, collection⟩ counted moved
    refine ⟨owing.moved moved, fun ofRoot => ?_, fun ofCollection => ?_⟩
    · have raised := @Owing.raised calls ids s mutation base owing counted
      rw [ofRoot] at raised
      rcases s.captures_step access capture with same | ⟨-, read⟩
      · rw [same]
        exact (root ofRoot).moved moved
      · rw [read]
        exact ((root ofRoot).read raised).moved moved
    · have raised := @Owing.raised calls ids s mutation base owing counted
      rw [ofCollection] at raised
      rcases s.captures_step access capture with same | ⟨-, read⟩
      · rw [same]
        exact (collection ofCollection).moved moved
      · rw [read]
        exact ((collection ofCollection).read raised).moved moved

/-- At a moment after one capture and before another one of the same key, no mutation of
the root or of the collection is under way if both return the same revisions. -/
theorem equal_stamps_no_edit {before after : List Access} {between : Freshness}
    {first second mutation : Nat} {earlier later : Stamp}
    (reached : Freshness.run calls {} before = between)
    (few : (between.run calls after).bumps < 2 ^ 64)
    (sameKey : calls.captureKey first = calls.captureKey second)
    (ended : between.captures first = .done (some earlier))
    (notBegun : between.captures second = .start)
    (done : (between.run calls after).captures second = .done (some later))
    (root : earlier.root = later.root) (collection : earlier.collection = later.collection)
    (ofKey : calls.mutationSlot mutation = .root ∨
      calls.mutationSlot mutation = calls.slot (calls.captureKey first)) :
    between.mutations mutation = .outside := by
  have within := @within_mutationsOf (before ++ after)
  obtain ⟨explains, counted⟩ := @run_keeps calls (mutationsOf (before ++ after)) {}
    (fun s => ∀ capture, Explains calls s (calls.slot (calls.captureKey capture))
      (s.captures capture)) before (fun _ => trivial) counted_init
    (by rw [reached]; exact bumps_le_run.trans_lt few)
    (fun access member => within access (List.mem_append_left _ member))
    explains_step
  rw [reached] at explains counted
  have known := explains first
  rw [ended] at known
  obtain ⟨knownRoot, knownCollection⟩ := known
  by_contra alive
  -- What the first capture knows makes the mutation owe a bump beyond its stamp.
  have owing : ∀ value, Known calls between (calls.mutationSlot mutation) value →
      Owing calls between mutation value := by
    intro value known
    refine ⟨known.read, ?_⟩
    by_cases inside : between.mutations mutation = .counted
    · exact .inl inside
    · exact .inr (known.past mutation rfl ⟨alive, inside⟩)
  have beyond : ∀ value, Owing calls between mutation value → _ := fun value owes =>
    beyond_of_alive counted few (fun access member => within access (List.mem_append_right _ member))
      notBegun done owes
  rcases ofKey with ofRoot | ofCollection
  · rw [ofRoot] at owing
    have above := (beyond _ (owing _ knownRoot)).1 ofRoot
    omega
  · rw [ofCollection] at owing
    have above := (beyond _ (owing _ knownCollection)).2 (sameKey ▸ ofCollection)
    omega

/-- Mutation 0 is of the collection and over before the first capture; mutation 1, of
another collection, goes on through both. -/
theorem equal_stamps_no_edit_before :
    (Freshness.run ⟨String.length, fun mutation => if mutation = 0 then some "a" else some "bc",
      fun _ => "a", fun _ => 7⟩ {} ([0, 0, 0, 0, 1].map .mutate ++ List.replicate 8 (.read 0) ++
        [.mutate 1])).mutations 0 = .outside :=
  @equal_stamps_no_edit ⟨String.length, fun mutation => if mutation = 0 then some "a" else some "bc",
      fun _ => "a", fun _ => 7⟩
    ([0, 0, 0, 0, 1].map .mutate ++ List.replicate 8 (.read 0) ++ [.mutate 1])
    (.read 1 :: .mutate 1 :: List.replicate 7 (.read 1)) _ 0 1 0 ⟨0, 2, 7, 0⟩ ⟨0, 2, 7, 0⟩ rfl
    (by decide) rfl rfl rfl rfl rfl rfl (.inr rfl)

end Freshness

end PacificDb.Vector
