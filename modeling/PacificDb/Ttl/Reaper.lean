import PacificDb.Json
import PacificDb.Lib.Machine
import PacificDb.Lib.SortedMap
import Mathlib.Data.List.Perm.Basic
import Mathlib.Data.String.Basic
import Mathlib.Logic.Function.Basic

/-!
# The reaper of expired documents

`TTLEngine` keeps a table of deadlines. A pass of the reaper takes the expired entries out of the
table under its lock and then deletes their documents one by one, without the lock.

An entry that has been taken out is deleted whatever happens to its TTL in between
(`renewed_reaped`), and it is not in the table any more when its deletion throws.
-/

namespace PacificDb.Ttl

open Lib

/-- The names that identify a document. -/
structure DocRef where
  userId : String
  dbName : String
  collection : String
  documentId : String
  deriving DecidableEq

def makeKey (doc : DocRef) : String :=
  doc.userId ++ "/" ++ doc.dbName ++ "/" ++ doc.collection ++ "/" ++ doc.documentId

/-- `expiresAt` counts nanoseconds, as the system clock does. -/
structure TTLEntry where
  doc : DocRef
  ttlSeconds : UInt64
  expiresAt : Int
  deriving DecidableEq

/-- What `LSM::del` and the expiry callback do for one entry. -/
inductive Outcome where
  | deleted
  | deleteThrows
  | callbackThrows
  deriving DecidableEq

/-- A deletion by the reaper, with the time and the deadline that the document had then. -/
structure Deletion where
  doc : DocRef
  time : Int
  deadline : Option Int
  deriving DecidableEq

/-- A deletion that has thrown, and whether the table has an entry for it afterwards. -/
structure Failure where
  entry : TTLEntry
  tracked : Bool
  deriving DecidableEq

/-- `pending` holds what the passes under way have taken out and not deleted yet. The last three
fields are not in the code: the deadlines by the calls, and what the reaper has done. -/
structure TTLEngine where
  entries : SortedMap String TTLEntry
  pending : List TTLEntry
  clock : Int
  deadline : DocRef → Option Int
  deletions : List Deletion
  failures : List Failure

def TTLEngine.init (clock : Int) : TTLEngine where
  entries := .empty
  pending := []
  clock
  deadline _ := none
  deletions := []
  failures := []

inductive TTLEvent where
  | tick (now : Int)
  | setTTL (doc : DocRef) (ttlSeconds : UInt64)
  | removeTTL (doc : DocRef)
  /-- The first phase of `reapExpired`. -/
  | collect
  /-- One round of its second phase. -/
  | delete (entry : TTLEntry) (outcome : Outcome)
  deriving DecidableEq

namespace TTLEngine

/-- When a TTL that is set now expires. -/
def due (s : TTLEngine) (ttlSeconds : UInt64) : Int := s.clock + ttlSeconds.toNat * 10 ^ 9

def setTTL (s : TTLEngine) (doc : DocRef) (ttlSeconds : UInt64) : TTLEngine :=
  { s with
    entries := s.entries.assign (makeKey doc)
      { doc, ttlSeconds, expiresAt := Json.wrapInt64 (s.due ttlSeconds) }
    deadline := Function.update s.deadline doc (some (s.due ttlSeconds)) }

def removeTTL (s : TTLEngine) (doc : DocRef) : TTLEngine :=
  { s with
    entries := s.entries.erase (makeKey doc)
    deadline := Function.update s.deadline doc none }

/-- The entries that a pass takes out of the table. -/
def expired (s : TTLEngine) : List TTLEntry :=
  (s.entries.entries.map Prod.snd).filter fun entry => entry.expiresAt ≤ s.clock

def collect (s : TTLEngine) : TTLEngine :=
  { s with
    entries := ⟨s.entries.entries.filter fun entry => ¬entry.2.expiresAt ≤ s.clock,
      s.entries.sorted.filter _⟩
    pending := s.pending ++ s.expired }

def delete (s : TTLEngine) (entry : TTLEntry) (outcome : Outcome) : TTLEngine :=
  let s := { s with pending := s.pending.erase entry }
  match outcome with
  | .deleted | .callbackThrows =>
      { s with deletions := ⟨entry.doc, s.clock, s.deadline entry.doc⟩ :: s.deletions }
  | .deleteThrows =>
      { s with failures := ⟨entry, (s.entries.find? (makeKey entry.doc)).isSome⟩ :: s.failures }

def step (s : TTLEngine) : TTLEvent → Option TTLEngine
  | .tick now => some { s with clock := now }
  | .setTTL doc ttlSeconds => some (s.setTTL doc ttlSeconds)
  | .removeTTL doc => some (s.removeTTL doc)
  | .collect => some s.collect
  | .delete entry outcome => if entry ∈ s.pending then some (s.delete entry outcome) else none

/-- Only documents whose TTL had expired were deleted, and no failed deletion was forgotten. -/
def OnlyExpired (s : TTLEngine) : Prop :=
  (∀ deletion ∈ s.deletions, ∃ deadline ∈ deletion.deadline, deadline ≤ deletion.time) ∧
    ∀ failure ∈ s.failures, failure.tracked = true

/-- A pass under way has taken the document out. -/
def Pending (s : TTLEngine) (doc : DocRef) : Prop := ∃ entry ∈ s.pending, entry.doc = doc

instance (s : TTLEngine) : DecidablePred s.Pending :=
  fun doc => inferInstanceAs (Decidable (∃ entry ∈ s.pending, entry.doc = doc))

/-- The clock is not set back, deadlines are in its range, no TTL changes between the two phases
of a pass and no deletion throws. -/
def Undisturbed (s : TTLEngine) : TTLEvent → Prop
  | .tick now => s.clock ≤ now
  | .setTTL doc ttlSeconds => ¬s.Pending doc ∧ Json.wrapInt64 (s.due ttlSeconds) = s.due ttlSeconds
  | .removeTTL doc => ¬s.Pending doc
  | .collect => True
  | .delete _ outcome => outcome ≠ .deleteThrows

instance (s : TTLEngine) : DecidablePred s.Undisturbed
  | .tick now => inferInstanceAs (Decidable (s.clock ≤ now))
  | .setTTL doc ttlSeconds => inferInstanceAs (Decidable (¬s.Pending doc ∧
      Json.wrapInt64 (s.due ttlSeconds) = s.due ttlSeconds))
  | .removeTTL doc => inferInstanceAs (Decidable (¬s.Pending doc))
  | .collect => .isTrue trivial
  | .delete _ outcome => inferInstanceAs (Decidable (outcome ≠ .deleteThrows))

/-! ## The invariant -/

/-- The table has the deadlines of its documents, and those taken out of it have passed. -/
structure Inv (s : TTLEngine) : Prop where
  keyed : ∀ entry ∈ s.entries.entries, entry.1 = makeKey entry.2.doc
  current : ∀ entry ∈ s.entries.entries, s.deadline entry.2.doc = some entry.2.expiresAt
  due : ∀ entry ∈ s.pending, s.deadline entry.doc = some entry.expiresAt ∧ entry.expiresAt ≤ s.clock
  onlyExpired : s.OnlyExpired

theorem inv_init (clock : Int) : (init clock).Inv where
  keyed _ member := absurd member List.not_mem_nil
  current _ member := absurd member List.not_mem_nil
  due _ member := absurd member List.not_mem_nil
  onlyExpired := ⟨fun _ member => absurd member List.not_mem_nil,
    fun _ member => absurd member List.not_mem_nil⟩

variable {s t : TTLEngine} {doc : DocRef}

theorem Inv.tick (inv : s.Inv) {now : Int} (later : s.clock ≤ now) : Inv { s with clock := now } where
  keyed := inv.keyed
  current := inv.current
  due entry member := ⟨(inv.due entry member).1, (inv.due entry member).2.trans later⟩
  onlyExpired := inv.onlyExpired

/-- The deadline of one document changes: what is taken out, and all entries under other keys,
are of other documents. -/
theorem Inv.deadline_update (inv : s.Inv) (settled : ¬s.Pending doc) (changed : Option Int) :
    (∀ entry ∈ s.entries.entries, entry.1 ≠ makeKey doc →
        Function.update s.deadline doc changed entry.2.doc = some entry.2.expiresAt) ∧
      ∀ entry ∈ s.pending,
        Function.update s.deadline doc changed entry.doc = some entry.expiresAt ∧
          entry.expiresAt ≤ s.clock := by
  constructor
  · intro entry member apart
    have other : entry.2.doc ≠ doc := by
      intro same
      exact apart (same ▸ inv.keyed entry member)
    rw [Function.update_of_ne other]
    exact inv.current entry member
  · intro entry member
    have other : entry.doc ≠ doc := fun same => settled ⟨entry, member, same⟩
    rw [Function.update_of_ne other]
    exact inv.due entry member

theorem Inv.setTTL (inv : s.Inv) {ttlSeconds : UInt64} (settled : ¬s.Pending doc)
    (inRange : Json.wrapInt64 (s.due ttlSeconds) = s.due ttlSeconds) : (s.setTTL doc ttlSeconds).Inv := by
  obtain ⟨others, due⟩ := inv.deadline_update settled (some (s.due ttlSeconds))
  constructor
  · intro entry member
    rcases SortedMap.mem_assign.mp member with rfl | ⟨old, -⟩
    · rfl
    · exact inv.keyed entry old
  · intro entry member
    rcases SortedMap.mem_assign.mp member with rfl | ⟨old, apart⟩
    · show Function.update s.deadline doc _ doc = _
      rw [Function.update_self, inRange]
    · exact others entry old apart
  · exact due
  · exact inv.onlyExpired

theorem Inv.removeTTL (inv : s.Inv) (settled : ¬s.Pending doc) : (s.removeTTL doc).Inv := by
  obtain ⟨others, due⟩ := inv.deadline_update settled none
  constructor
  · intro entry member
    exact inv.keyed entry (SortedMap.mem_erase.mp member).1
  · intro entry member
    obtain ⟨old, apart⟩ := SortedMap.mem_erase.mp member
    exact others entry old apart
  · exact due
  · exact inv.onlyExpired

theorem Inv.collect (inv : s.Inv) : s.collect.Inv := by
  constructor
  · intro entry member
    exact inv.keyed entry (List.mem_filter.mp member).1
  · intro entry member
    exact inv.current entry (List.mem_filter.mp member).1
  · intro entry member
    rcases List.mem_append.mp member with before | taken
    · exact inv.due entry before
    · obtain ⟨listed, past⟩ := List.mem_filter.mp taken
      obtain ⟨found, inTable, rfl⟩ := List.mem_map.mp listed
      exact ⟨inv.current found inTable, of_decide_eq_true past⟩
  · exact inv.onlyExpired

theorem Inv.delete (inv : s.Inv) {entry : TTLEntry} {outcome : Outcome} (member : entry ∈ s.pending)
    (succeeds : outcome ≠ .deleteThrows) : (s.delete entry outcome).Inv := by
  obtain ⟨current, past⟩ := inv.due entry member
  have deleted : Inv { s with
      pending := s.pending.erase entry
      deletions := ⟨entry.doc, s.clock, s.deadline entry.doc⟩ :: s.deletions } := by
    refine ⟨inv.keyed, inv.current, fun other left => inv.due other (List.mem_of_mem_erase left), ?_,
      inv.onlyExpired.2⟩
    intro deletion isDeletion
    rcases List.mem_cons.mp isDeletion with rfl | before
    · exact ⟨entry.expiresAt, current, past⟩
    · exact inv.onlyExpired.1 deletion before
  cases outcome with
  | deleted => exact deleted
  | deleteThrows => exact absurd rfl succeeds
  | callbackThrows => exact deleted

theorem inv_step {event : TTLEvent} (inv : s.Inv) (undisturbed : s.Undisturbed event)
    (taken : s.step event = some t) : t.Inv := by
  cases event with
  | tick now =>
    cases taken
    exact inv.tick undisturbed
  | setTTL doc ttlSeconds =>
    cases taken
    exact inv.setTTL undisturbed.1 undisturbed.2
  | removeTTL doc =>
    cases taken
    exact inv.removeTTL undisturbed
  | collect =>
    cases taken
    exact inv.collect
  | delete entry outcome =>
    rw [step] at taken
    split at taken
    next member =>
      cases taken
      exact inv.delete member undisturbed
    · cases taken

/-- In every run without a disturbance the reaper deletes only what has expired. -/
theorem reaps_onlyExpired {clock : Int} (reached : Reach step Undisturbed (init clock) s) :
    s.OnlyExpired :=
  (reached.invariant (inv_init clock) inv_step).onlyExpired

def session : DocRef := ⟨"u", "app", "sessions", "1"⟩

/-- The entry of a TTL of one second, set at the start of the clock. -/
def sessionEntry : TTLEntry := ⟨session, 1, 10 ^ 9⟩

theorem reaps_onlyExpired_session : ∃ s,
    run step (init 0) [.setTTL session 1, .tick (2 * 10 ^ 9), .collect, .delete sessionEntry .deleted] =
      some s ∧
    s.deletions = [⟨session, 2 * 10 ^ 9, some (10 ^ 9)⟩] ∧ s.OnlyExpired := by
  have undisturbed : RunAllowed step Undisturbed (init 0)
      [.setTTL session 1, .tick (2 * 10 ^ 9), .collect, .delete sessionEntry .deleted] := by decide
  exact ⟨_, rfl, rfl, reaps_onlyExpired (Reach.refl.of_runAllowed undisturbed rfl)⟩

/-- The session is renewed for an hour between the two phases of a pass, and deleted. -/
theorem renewed_reaped : ¬∀ s : TTLEngine, Reach step (fun _ _ => True) (init 0) s → s.OnlyExpired := by
  intro all
  have reached := @Reach.of_run _ _ step (fun _ _ => True) (init 0) (init 0)
    [.setTTL session 1, .tick (2 * 10 ^ 9), .collect, .setTTL session 3600, .delete sessionEntry .deleted]
    _ .refl (fun _ _ _ => trivial) rfl
  obtain ⟨deadline, isDeadline, past⟩ := (all _ reached).1 ⟨session, 2 * 10 ^ 9, some (3602 * 10 ^ 9)⟩
    (by decide)
  cases isDeadline
  exact absurd past (by decide)

end TTLEngine

end PacificDb.Ttl
