import Mathlib.Logic.Function.Basic
import PacificDb.Vector.Journal

/-!
# The source of a vector index

The records of a collection are edited inside mutations, which count the revision of the
collection or of the root up when they begin and when they end; an edited id goes to the
journal before its mutation ends. Between mutations the source has a certificate.

While a certificate is current nothing was edited since. A graph tracks the source from
a cursor if every record in which they differ is in the journal after the cursor, or
still to go there.
-/

namespace PacificDb.Vector

open Journal

structure Stamp where
  root : Nat
  collection : Nat
  visibility : Nat
  configuration : Nat
  deriving Repr, DecidableEq

def Stamp.sameSourceAtOrAfter (current previous : Stamp) : Bool :=
  decide (current.root = previous.root) && decide (current.collection = previous.collection) &&
    decide (current.configuration = previous.configuration) &&
    decide (previous.visibility ≤ current.visibility)

/-- A `Mutation` of the root or of the collection, with the ids that are edited and not
yet in the journal. -/
structure Mutation (Id : Type) where
  ofRoot : Bool
  unjournaled : List Id := []

structure Source (Id Record : Type) where
  records : Id → Option Record
  mutations : List (Mutation Id) := []
  rootRevision : Nat := 0
  collectionRevision : Nat := 0
  visibility : Nat := 0
  configuration : Nat := 0
  journal : Journal Id

inductive SourceEvent (Id Record : Type) where
  | begin (ofRoot : Bool)
  | edit (mutation : Nat) (id : Id) (record : Option Record)
  | append (mutation : Nat) (id : Id) (minimumVisibility : Nat) (kept : Bool)
  | finish (mutation : Nat)
  | commit (visibility : Nat)
  | configure (configuration : Nat)
  | gap
  | reset (drawn : Nat)

variable {Id Record : Type}

namespace Source

/-- `VectorFreshness::capture`. -/
def certificate (s : Source Id Record) : Option Stamp :=
  if s.mutations.isEmpty then
    some ⟨s.rootRevision, s.collectionRevision, s.visibility, s.configuration⟩
  else none

def bump (s : Source Id Record) (ofRoot : Bool) : Source Id Record :=
  if ofRoot then { s with rootRevision := s.rootRevision + 1 }
  else { s with collectionRevision := s.collectionRevision + 1 }

def step [DecidableEq Id] (s : Source Id Record) : SourceEvent Id Record → Option (Source Id Record)
  | .begin ofRoot => some { s.bump ofRoot with mutations := s.mutations ++ [⟨ofRoot, []⟩] }
  | .edit index id record =>
      match s.mutations[index]? with
      | none => none
      | some mutation => some { s with
          records := Function.update s.records id record
          mutations := s.mutations.set index
            { mutation with unjournaled := id :: mutation.unjournaled } }
  | .append index id minimumVisibility kept =>
      match s.mutations[index]? with
      | none => none
      | some mutation => some { s with
          journal := s.journal.append id minimumVisibility kept
          mutations := s.mutations.set index
            { mutation with unjournaled := mutation.unjournaled.filter (· ≠ id) } }
  | .finish index =>
      match s.mutations[index]? with
      | none => none
      | some mutation =>
          if mutation.unjournaled.isEmpty then
            some { s.bump mutation.ofRoot with mutations := s.mutations.eraseIdx index }
          else none
  | .commit visibility => if s.visibility ≤ visibility then some { s with visibility } else none
  | .configure configuration => some { s with configuration }
  | .gap => some { s with journal := s.journal.gap }
  | .reset drawn => some { s with journal := s.journal.reset drawn }

/-! ## Certificates and edits -/

def Unjournaled (s : Source Id Record) (id : Id) : Prop :=
  ∃ mutation ∈ s.mutations, id ∈ mutation.unjournaled

def Current (s : Source Id Record) (stamp : Stamp) : Prop :=
  stamp.root = s.rootRevision ∧ stamp.collection = s.collectionRevision

instance (s : Source Id Record) (stamp : Stamp) : Decidable (s.Current stamp) :=
  inferInstanceAs (Decidable (_ ∧ _))

/-- The stamp was a certificate of the source. -/
structure Past (s : Source Id Record) (stamp : Stamp) : Prop where
  root : stamp.root ≤ s.rootRevision
  collection : stamp.collection ≤ s.collectionRevision
  visibility : stamp.visibility ≤ s.visibility
  idle : s.Current stamp → s.mutations = []

/-- Where the value is not that of the source the journal knows it, or will. -/
def Agrees (s : Source Id Record) (cursor : Cursor) (id : Id) (value : Option Record) : Prop :=
  value = s.records id ∨ s.journal.Logged cursor id ∨ s.Unjournaled id

def Tracks (s : Source Id Record) (graph : Id → Option Record) (cursor : Cursor) : Prop :=
  ∀ id, s.Agrees cursor id (graph id)

/-- What an event of the source keeps. -/
structure Moves (s t : Source Id Record) : Prop where
  valid : s.journal.Valid → t.journal.Valid
  journal : s.journal.Valid → s.journal.Extends t.journal
  past : ∀ stamp, s.Past stamp → t.Past stamp
  still : ∀ stamp, s.Past stamp → t.Current stamp → s.Current stamp ∧ t.records = s.records
  agrees : ∀ cursor id value, s.journal.Valid → s.journal.Reached cursor →
    s.Agrees cursor id value → t.Agrees cursor id value

variable {s t : Source Id Record} {stamp : Stamp} {cursor : Cursor} {graph : Id → Option Record}

theorem certificate_eq_some (found : s.certificate = some stamp) :
    s.mutations = [] ∧ s.Current stamp := by
  unfold certificate at found
  split at found
  next idle =>
    cases found
    exact ⟨List.isEmpty_iff.mp idle, rfl, rfl⟩
  next => cases found

theorem certificate_policy (found : s.certificate = some stamp) :
    stamp.visibility = s.visibility ∧ stamp.configuration = s.configuration := by
  unfold certificate at found
  split at found
  next =>
    cases found
    exact ⟨rfl, rfl⟩
  next => cases found

theorem past_certificate (found : s.certificate = some stamp) : s.Past stamp := by
  obtain ⟨idle, root, collection⟩ := certificate_eq_some found
  exact ⟨root.le, collection.le, (certificate_policy found).1.le, fun _ => idle⟩

theorem Past.unedited (past : s.Past stamp) (current : s.Current stamp) (id : Id) :
    ¬s.Unjournaled id := by
  rintro ⟨mutation, running, -⟩
  rw [past.idle current] at running
  cases running

/-- While a certificate is current, at the head of the journal, the value is the source's. -/
theorem Past.agrees_head {id : Id} {value : Option Record} (past : s.Past stamp)
    (current : s.Current stamp) (valid : s.journal.Valid) (head : s.journal.capture = cursor)
    (real : cursor.epoch ≠ 0) (agrees : s.Agrees cursor id value) : value = s.records id := by
  rcases agrees with same | logged | unjournaled
  · exact same
  · exact absurd logged (not_logged_capture valid head real)
  · exact absurd unjournaled (past.unedited current id)

theorem Agrees.earlier {later : Cursor} {id : Id} {value : Option Record}
    (epoch : later.epoch = cursor.epoch) (grows : cursor.sequence ≤ later.sequence)
    (agrees : s.Agrees later id value) : s.Agrees cursor id value :=
  agrees.imp_right (Or.imp_left fun logged => logged.earlier epoch grows)

theorem Moves.tracks (moves : Moves s t) (valid : s.journal.Valid) (reached : s.journal.Reached cursor)
    (tracks : s.Tracks graph cursor) : t.Tracks graph cursor :=
  fun id => moves.agrees cursor id (graph id) valid reached (tracks id)

/-- A source whose records and mutations stay has only its journal grow. -/
theorem moves_of_same (records : t.records = s.records) (mutations : t.mutations = s.mutations)
    (root : t.rootRevision = s.rootRevision) (collection : t.collectionRevision = s.collectionRevision)
    (visibility : s.visibility ≤ t.visibility) (valid : s.journal.Valid → t.journal.Valid)
    (journal : s.journal.Valid → s.journal.Extends t.journal) : Moves s t where
  valid := valid
  journal := journal
  past := by
    intro stamp past
    refine ⟨root ▸ past.root, collection ▸ past.collection, past.visibility.trans visibility, ?_⟩
    intro current
    rw [mutations]
    exact past.idle ⟨current.1.trans root, current.2.trans collection⟩
  still := fun stamp _ current =>
    ⟨⟨current.1.trans root, current.2.trans collection⟩, records⟩
  agrees := by
    rintro cursor id value isValid reached (same | logged | unjournaled)
    · exact .inl (same.trans (congrFun records id).symm)
    · exact .inr (.inl ((journal isValid).logged cursor id reached logged))
    · refine .inr (.inr ?_)
      rw [Unjournaled, mutations]
      exact unjournaled

theorem extends_rfl {journal : Journal Id} : journal.Extends journal :=
  ⟨fun _ reached => reached, fun _ _ _ logged => logged⟩

/-- Nothing is edited where a revision is counted up. -/
theorem bump_ne {ofRoot : Bool} (past : s.Past stamp) : ¬(s.bump ofRoot).Current stamp := by
  rintro ⟨root, collection⟩
  obtain ⟨rootLe, collectionLe, -, -⟩ := past
  cases ofRoot with
  | true =>
    have counted : stamp.root = s.rootRevision + 1 := root
    omega
  | false =>
    have counted : stamp.collection = s.collectionRevision + 1 := collection
    omega

theorem past_bump {ofRoot : Bool} {mutations : List (Mutation Id)} (past : s.Past stamp) :
    { s.bump ofRoot with mutations := mutations }.Past stamp := by
  refine ⟨?_, ?_, ?_, fun current => absurd current (bump_ne past)⟩
  · cases ofRoot with
    | true => exact past.root.trans (Nat.le_succ _)
    | false => exact past.root
  · cases ofRoot with
    | true => exact past.collection
    | false => exact past.collection.trans (Nat.le_succ _)
  · cases ofRoot with
    | true => exact past.visibility
    | false => exact past.visibility

theorem bump_records (ofRoot : Bool) : (s.bump ofRoot).records = s.records := by
  cases ofRoot <;> rfl

theorem bump_journal (ofRoot : Bool) : (s.bump ofRoot).journal = s.journal := by
  cases ofRoot <;> rfl

theorem moves_bump {ofRoot : Bool} {mutations : List (Mutation Id)}
    (kept : ∀ id, s.Unjournaled id → ∃ mutation ∈ mutations, id ∈ mutation.unjournaled) :
    Moves s { s.bump ofRoot with mutations := mutations } where
  valid valid := by
    dsimp only
    rw [bump_journal]
    exact valid
  journal _ := by
    dsimp only
    rw [bump_journal]
    exact extends_rfl
  past _ past := past_bump past
  still _ past current := absurd current (bump_ne past)
  agrees := by
    rintro cursor id value - - (same | logged | unjournaled)
    · exact .inl (same.trans (congrFun (bump_records ofRoot) id).symm)
    · refine .inr (.inl ?_)
      dsimp only
      rw [bump_journal]
      exact logged
    · exact .inr (.inr (kept id unjournaled))

/-- An edited id stays in its mutation, or in the one that takes its place. -/
theorem unjournaled_set {index : Nat} {mutation changed : Mutation Id} {id : Id}
    (found : s.mutations[index]? = some mutation) (edited : s.Unjournaled id)
    (kept : id ∈ mutation.unjournaled → id ∈ changed.unjournaled) :
    ∃ other ∈ s.mutations.set index changed, id ∈ other.unjournaled := by
  obtain ⟨other, running, inOther⟩ := edited
  obtain ⟨place, isOther⟩ := List.mem_iff_getElem?.mp running
  obtain ⟨bound, -⟩ := List.getElem?_eq_some_iff.mp found
  by_cases same : index = place
  · rw [← same, found] at isOther
    cases isOther
    exact ⟨changed, List.mem_set bound changed, kept inOther⟩
  · refine ⟨other, List.mem_iff_getElem?.mpr ⟨place, ?_⟩, inOther⟩
    rw [List.getElem?_set_ne same]
    exact isOther

/-- A mutation that runs leaves no certificate current. -/
theorem Past.no_mutation {index : Nat} {mutation : Mutation Id} (past : s.Past stamp)
    (found : s.mutations[index]? = some mutation) : ¬s.Current stamp := by
  intro current
  rw [past.idle current] at found
  cases found

theorem moves_finish {index : Nat} {mutation : Mutation Id}
    (found : s.mutations[index]? = some mutation)
    (journaled : mutation.unjournaled = []) :
    Moves s { s.bump mutation.ofRoot with mutations := s.mutations.eraseIdx index } := by
  refine moves_bump fun id => ?_
  rintro ⟨other, running, edited⟩
  refine ⟨other, List.mem_eraseIdx_iff_getElem?.mpr ?_, edited⟩
  obtain ⟨place, isOther⟩ := List.mem_iff_getElem?.mp running
  refine ⟨place, ?_, isOther⟩
  rintro rfl
  rw [found] at isOther
  cases isOther
  rw [journaled] at edited
  cases edited

section

variable [DecidableEq Id] {index : Nat} {mutation : Mutation Id}

theorem moves_edit (found : s.mutations[index]? = some mutation) (id : Id) (record : Option Record) :
    Moves s { s with
      records := Function.update s.records id record
      mutations := s.mutations.set index
        { mutation with unjournaled := id :: mutation.unjournaled } } where
  valid := fun valid => valid
  journal _ := extends_rfl
  past _ past := ⟨past.root, past.collection, past.visibility,
    fun current => absurd current (past.no_mutation found)⟩
  still _ past current := absurd current (past.no_mutation found)
  agrees := by
    intro cursor other value _ _ before
    obtain ⟨bound, -⟩ := List.getElem?_eq_some_iff.mp found
    by_cases same : other = id
    · exact .inr (.inr ⟨_, List.mem_set bound _, same ▸ List.mem_cons_self⟩)
    · rcases before with agrees | logged | unjournaled
      · refine .inl ?_
        dsimp only
        rw [Function.update_of_ne same]
        exact agrees
      · exact .inr (.inl logged)
      · exact .inr (.inr (unjournaled_set found unjournaled (List.mem_cons_of_mem id)))

theorem moves_append (found : s.mutations[index]? = some mutation) (id : Id) (visibility : Nat)
    (kept : Bool) :
    Moves s { s with
      journal := s.journal.append id visibility kept
      mutations := s.mutations.set index
        { mutation with unjournaled := mutation.unjournaled.filter (· ≠ id) } } where
  valid := Valid.append
  journal := extends_append
  past _ past := ⟨past.root, past.collection, past.visibility,
    fun current => absurd current (past.no_mutation found)⟩
  still _ past current := absurd current (past.no_mutation found)
  agrees := by
    intro cursor other value valid reached before
    by_cases same : other = id
    · rw [same]
      exact .inr (.inl (logged_append reached))
    · rcases before with agrees | logged | unjournaled
      · exact .inl agrees
      · exact .inr (.inl ((extends_append valid).logged cursor other reached logged))
      · refine .inr (.inr (unjournaled_set found unjournaled fun edited => ?_))
        exact List.mem_filter.mpr ⟨edited, decide_eq_true same⟩

theorem moves_step {event : SourceEvent Id Record} (taken : s.step event = some t) : Moves s t := by
  cases event with
  | begin ofRoot =>
    cases taken
    refine moves_bump fun id => ?_
    rintro ⟨mutation, running, edited⟩
    exact ⟨mutation, List.mem_append_left _ running, edited⟩
  | commit visibility =>
    simp only [step] at taken
    split at taken
    next later =>
      cases taken
      exact moves_of_same rfl rfl rfl rfl later id fun _ => extends_rfl
    next => cases taken
  | configure configuration =>
    cases taken
    exact moves_of_same rfl rfl rfl rfl le_rfl id fun _ => extends_rfl
  | gap =>
    cases taken
    exact moves_of_same rfl rfl rfl rfl le_rfl Valid.gap fun _ => extends_gap
  | reset drawn =>
    cases taken
    exact moves_of_same rfl rfl rfl rfl le_rfl (fun _ => Valid.reset) fun _ => extends_reset
  | finish index =>
    simp only [step] at taken
    split at taken
    next => cases taken
    next mutation found =>
      split at taken
      next journaled =>
        cases taken
        exact moves_finish found (List.isEmpty_iff.mp journaled)
      next => cases taken
  | edit index id record =>
    simp only [step] at taken
    split at taken
    next => cases taken
    next mutation found =>
      cases taken
      exact moves_edit found id record
  | append index id minimumVisibility kept =>
    simp only [step] at taken
    split at taken
    next => cases taken
    next mutation found =>
      cases taken
      exact moves_append found id minimumVisibility kept

end

end Source

end PacificDb.Vector
