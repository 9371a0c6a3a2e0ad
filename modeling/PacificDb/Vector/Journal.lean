import Mathlib.Algebra.Order.Ring.Int
import Mathlib.Data.List.Pairwise
import Mathlib.Data.Nat.Basic
import Mathlib.Order.Basic

/-!
# The journal of vector changes

`VectorChangeJournal` keeps the ids of the last changes of one collection, each with a
sequence number and the commit index that makes it visible. What it cannot keep moves
its floor, so that a cursor below the floor knows of a gap; a reset starts a new epoch.

A cursor logs an id if there is a change of that id after it or a gap behind it. This
lasts through everything that happens to the journal.
-/

namespace PacificDb.Vector

variable {Id : Type}

structure Cursor where
  epoch : Nat := 0
  sequence : Nat := 0
  deriving Repr, DecidableEq

structure Change (Id : Type) where
  sequence : Nat
  id : Id
  minimumVisibility : Nat
  deriving Repr, DecidableEq

/-- `epochs_` counts the epochs of all journals of the process. -/
structure Journal (Id : Type) where
  capacity : Nat
  epochs : Nat
  epoch : Nat
  sequence : Nat := 0
  floor : Nat := 0
  entries : List (Change Id) := []
  poisoned : Bool := false

def maxUInt64 : Nat := 2 ^ 64 - 1

namespace Journal

def capture (journal : Journal Id) : Cursor :=
  if journal.poisoned then {} else ⟨journal.epoch, journal.sequence⟩

def gapLocked (journal : Journal Id) : Journal Id :=
  { journal with floor := journal.sequence, entries := [] }

/-- The entries with room for one more, and the floor. -/
def evict (journal : Journal Id) : Journal Id :=
  match journal.entries with
  | [] => journal
  | first :: rest =>
      if journal.entries.length = journal.capacity then
        { journal with floor := first.sequence, entries := rest }
      else journal

/-- `kept` is false for an id that is empty or too long, and where memory ends. -/
def append (journal : Journal Id) (id : Id) (visibility : Nat) (kept : Bool) : Journal Id :=
  if journal.poisoned then journal
  else if journal.sequence = maxUInt64 then { journal with poisoned := true }.gapLocked
  else
    let next := { journal with sequence := journal.sequence + 1 }
    if kept then
      let evicted := next.evict
      { evicted with entries := evicted.entries ++ [⟨next.sequence, id, visibility⟩] }
    else next.gapLocked

def gap (journal : Journal Id) : Journal Id :=
  (if journal.sequence = maxUInt64 then { journal with poisoned := true }
  else { journal with sequence := journal.sequence + 1 }).gapLocked

/-- Other journals have drawn `drawn` epochs since. -/
def reset (journal : Journal Id) (drawn : Nat) : Journal Id :=
  let next := journal.epochs + drawn
  if next < maxUInt64 then
    { journal with epochs := next + 1, epoch := next, poisoned := false, sequence := 0 }.gapLocked
  else { journal with epochs := next, epoch := 0, poisoned := true, sequence := 0 }.gapLocked

/-! ## Batches -/

inductive Coverage where
  | covered
  | more
  | gap
  | visibilityBlocked
  deriving Repr, DecidableEq

structure Batch (Id : Type) where
  state : Coverage
  next : Cursor
  changes : List (Change Id) := []
  deriving Repr, DecidableEq

/-- The loop of `after`. -/
def collect (epoch visibility maximum : Nat) : Batch Id → List (Change Id) → Batch Id
  | batch, [] => batch
  | batch, entry :: rest =>
      if visibility < entry.minimumVisibility then { batch with state := .visibilityBlocked }
      else if batch.changes.length = maximum then { batch with state := .more }
      else
        collect epoch visibility maximum
          { batch with changes := batch.changes ++ [entry], next := ⟨epoch, entry.sequence⟩ } rest

/-- The entries after the cursor. -/
def pending (journal : Journal Id) (cursor : Cursor) : List (Change Id) :=
  journal.entries.filter fun entry => decide (cursor.sequence < entry.sequence)

def after (journal : Journal Id) (cursor : Cursor) (visibility maximum : Nat) : Batch Id :=
  if journal.poisoned ∨ cursor.epoch ≠ journal.epoch ∨ cursor.sequence < journal.floor ∨
      journal.sequence < cursor.sequence then ⟨.gap, cursor, []⟩
  else
    let batch := collect journal.epoch visibility maximum ⟨.covered, cursor, []⟩
      (journal.pending cursor)
    if batch.state = .covered ∧ batch.next.sequence ≠ journal.sequence then
      { batch with state := .gap }
    else batch

/-! ## What holds of a journal -/

structure Ordered (journal : Journal Id) : Prop where
  floor_le : journal.floor ≤ journal.sequence
  above : ∀ entry ∈ journal.entries, journal.floor < entry.sequence
  below : ∀ entry ∈ journal.entries, entry.sequence ≤ journal.sequence
  sorted : journal.entries.Pairwise fun first second => first.sequence < second.sequence
  drawn : journal.epoch < journal.epochs

/-- The changes above the floor are kept up to the last. -/
structure Valid (journal : Journal Id) : Prop extends Ordered journal where
  whole : journal.floor = journal.sequence ∨
    ∃ entry ∈ journal.entries, entry.sequence = journal.sequence

variable {journal : Journal Id} {id other : Id} {visibility drawn : Nat} {kept : Bool}
  {cursor : Cursor}

theorem Ordered.gapLocked (valid : journal.Ordered) : journal.gapLocked.Ordered where
  floor_le := Nat.le_refl journal.sequence
  above := nofun
  below := nofun
  sorted := .nil
  drawn := valid.drawn

theorem evict_entries : journal.evict.entries = journal.entries ∨
    ∃ first, journal.entries = first :: journal.evict.entries ∧
      journal.evict.floor = first.sequence := by
  unfold evict
  split
  next => exact .inl rfl
  next first rest entries =>
    split
    next => exact .inr ⟨first, entries, rfl⟩
    next => exact .inl rfl

@[simp] theorem evict_sequence : journal.evict.sequence = journal.sequence := by
  unfold evict
  split
  next => rfl
  next => split <;> rfl

@[simp] theorem evict_epoch : journal.evict.epoch = journal.epoch := by
  unfold evict
  split
  next => rfl
  next => split <;> rfl

@[simp] theorem evict_epochs : journal.evict.epochs = journal.epochs := by
  unfold evict
  split
  next => rfl
  next => split <;> rfl

theorem evict_floor (same : journal.evict.entries = journal.entries) :
    journal.evict.floor = journal.floor := by
  unfold evict at same ⊢
  split
  next => rfl
  next first rest entries =>
    split
    next full =>
      rw [entries] at same
      simp only at same
      rw [← entries, if_pos full] at same
      have shorter := congrArg List.length same
      rw [entries, List.length_cons] at shorter
      dsimp only at shorter
      omega
    next => rfl

theorem Ordered.evict (valid : journal.Ordered) : journal.evict.Ordered := by
  rcases journal.evict_entries with same | ⟨first, entries, floor⟩
  · constructor
    · rw [evict_floor same, evict_sequence]
      exact valid.floor_le
    · rw [same, evict_floor same]
      exact valid.above
    · rw [same, evict_sequence]
      exact valid.below
    · rw [same]
      exact valid.sorted
    · rw [evict_epoch, evict_epochs]
      exact valid.drawn
  · have sorted := valid.sorted
    rw [entries] at sorted
    obtain ⟨later, rest⟩ := List.pairwise_cons.mp sorted
    have inside : ∀ entry ∈ journal.evict.entries, entry ∈ journal.entries := by
      intro entry member
      rw [entries]
      exact List.mem_cons_of_mem _ member
    constructor
    · rw [floor, evict_sequence]
      refine valid.below first ?_
      rw [entries]
      exact List.mem_cons_self
    · rw [floor]
      exact later
    · rw [evict_sequence]
      exact fun entry member => valid.below entry (inside entry member)
    · exact rest
    · rw [evict_epoch, evict_epochs]
      exact valid.drawn

theorem Ordered.withSequence (valid : journal.Ordered) :
    { journal with sequence := journal.sequence + 1 }.Ordered where
  floor_le := valid.floor_le.trans (Nat.le_succ _)
  above := valid.above
  below := fun entry member => (valid.below entry member).trans (Nat.le_succ _)
  sorted := valid.sorted
  drawn := valid.drawn

theorem Ordered.withPoison (valid : journal.Ordered) : { journal with poisoned := true }.Ordered where
  floor_le := valid.floor_le
  above := valid.above
  below := valid.below
  sorted := valid.sorted
  drawn := valid.drawn

theorem Ordered.append (valid : journal.Ordered) : (journal.append id visibility kept).Ordered := by
  unfold Journal.append
  split
  next => exact valid
  next =>
    split
    next => exact valid.withPoison.gapLocked
    next =>
      dsimp only
      split
      next =>
        have evicted := valid.withSequence.evict
        -- The new change is above all that are left.
        have older : ∀ entry ∈ { journal with sequence := journal.sequence + 1 }.evict.entries,
            entry.sequence ≤ journal.sequence := by
          intro entry member
          rcases { journal with sequence := journal.sequence + 1 }.evict_entries with
            same | ⟨first, entries, -⟩
          · rw [same] at member
            exact valid.below entry member
          · refine valid.below entry ?_
            have inside := List.mem_cons_of_mem first member
            rw [← entries] at inside
            exact inside
        have floor : { journal with sequence := journal.sequence + 1 }.evict.floor ≤
            journal.sequence := by
          rcases { journal with sequence := journal.sequence + 1 }.evict_entries with
            same | ⟨first, entries, floor⟩
          · rw [evict_floor same]
            exact valid.floor_le
          · rw [floor]
            refine valid.below first ?_
            have inside : first ∈ first :: { journal with
                sequence := journal.sequence + 1 }.evict.entries := List.mem_cons_self
            rw [← entries] at inside
            exact inside
        constructor
        · exact evicted.floor_le
        · intro entry member
          rcases List.mem_append.mp member with old | new
          · exact evicted.above entry old
          · rw [List.mem_singleton.mp new]
            exact Nat.lt_succ_of_le floor
        · intro entry member
          rcases List.mem_append.mp member with old | new
          · exact evicted.below entry old
          · rw [List.mem_singleton.mp new]
            exact (@evict_sequence Id { journal with sequence := journal.sequence + 1 }).ge
        · refine List.pairwise_append.mpr ⟨evicted.sorted, List.pairwise_singleton _ _, ?_⟩
          intro entry old new isNew
          rw [List.mem_singleton.mp isNew]
          exact Nat.lt_succ_of_le (older entry old)
        · exact evicted.drawn
      next => exact valid.withSequence.gapLocked

theorem Ordered.whole (ordered : journal.Ordered) : journal.gapLocked.Valid :=
  ⟨ordered.gapLocked, .inl rfl⟩

theorem Valid.append (valid : journal.Valid) : (journal.append id visibility kept).Valid := by
  refine ⟨valid.toOrdered.append, ?_⟩
  unfold Journal.append
  split
  next => exact valid.whole
  next =>
    split
    next => exact .inl rfl
    next =>
      dsimp only
      split
      next =>
        refine .inr ⟨_, List.mem_append_right _ (List.mem_singleton_self _), ?_⟩
        exact (@evict_sequence Id { journal with sequence := journal.sequence + 1 }).symm
      next => exact .inl rfl

theorem Valid.gap (valid : journal.Valid) : journal.gap.Valid := by
  unfold Journal.gap
  split
  next => exact valid.withPoison.whole
  next => exact valid.withSequence.whole

theorem Valid.reset : (journal.reset drawn).Valid := by
  unfold Journal.reset
  dsimp only
  split
  next => exact ⟨⟨Nat.le_refl 0, nofun, nofun, .nil, Nat.lt_succ_self _⟩, .inl rfl⟩
  next exhausted =>
    refine ⟨⟨Nat.le_refl 0, nofun, nofun, .nil, ?_⟩, .inl rfl⟩
    have positive : 0 < maxUInt64 := by decide
    exact positive.trans_le (not_lt.mp exhausted)

/-! ## Cursors -/

/-- The cursor was taken from the journal. -/
def Reached (journal : Journal Id) (cursor : Cursor) : Prop :=
  cursor.epoch < journal.epochs ∧
    (journal.poisoned = false → cursor.epoch = journal.epoch → cursor.sequence ≤ journal.sequence)

/-- A change of the id comes after the cursor, if the journal still knows. -/
def Logged (journal : Journal Id) (cursor : Cursor) (id : Id) : Prop :=
  journal.poisoned = false → cursor.epoch = journal.epoch → journal.floor ≤ cursor.sequence →
    ∃ entry ∈ journal.entries, cursor.sequence < entry.sequence ∧ entry.id = id

theorem Logged.earlier {later : Cursor} (epoch : later.epoch = cursor.epoch)
    (grows : cursor.sequence ≤ later.sequence) (logged : journal.Logged later id) :
    journal.Logged cursor id := by
  intro clean same covers
  obtain ⟨entry, member, after, isId⟩ := logged clean (epoch.trans same) (covers.trans grows)
  exact ⟨entry, member, grows.trans_lt after, isId⟩

theorem reached_capture (valid : journal.Valid) : journal.Reached journal.capture := by
  unfold capture
  split
  next => exact ⟨(Nat.zero_le _).trans_lt valid.drawn, fun _ _ => Nat.zero_le _⟩
  next => exact ⟨valid.drawn, fun _ _ => le_rfl⟩

/-- What may happen to a journal: cursors stay reached, and ids logged. -/
structure Extends (earlier later : Journal Id) : Prop where
  reached : ∀ cursor, earlier.Reached cursor → later.Reached cursor
  logged : ∀ cursor id, earlier.Reached cursor → earlier.Logged cursor id → later.Logged cursor id

theorem append_cases (journal : Journal Id) (id : Id) (visibility : Nat) (kept : Bool) :
    (journal.append id visibility kept).epochs = journal.epochs ∧
    (journal.append id visibility kept).epoch = journal.epoch ∧
    ((journal.append id visibility kept).poisoned = false → journal.poisoned = false ∧
      (journal.append id visibility kept).sequence = journal.sequence + 1 ∧
      ((journal.append id visibility kept).floor = journal.sequence + 1 ∨
        ∃ evicted, evicted = { journal with sequence := journal.sequence + 1 }.evict ∧
          (journal.append id visibility kept).floor = evicted.floor ∧
          (journal.append id visibility kept).entries =
            evicted.entries ++ [⟨journal.sequence + 1, id, visibility⟩])) := by
  unfold Journal.append
  split
  next poisoned => exact ⟨rfl, rfl, fun clean => absurd (poisoned.symm.trans clean) (by decide)⟩
  next clean =>
    rw [Bool.not_eq_true] at clean
    split
    next => exact ⟨rfl, rfl, nofun⟩
    next =>
      dsimp only
      split
      next =>
        refine ⟨evict_epochs, evict_epoch, fun _ => ⟨clean, evict_sequence, .inr ⟨_, rfl, rfl, rfl⟩⟩⟩
      next => exact ⟨rfl, rfl, fun _ => ⟨clean, rfl, .inl rfl⟩⟩

theorem extends_append (valid : journal.Valid) :
    journal.Extends (journal.append id visibility kept) := by
  obtain ⟨epochs, epoch, grown⟩ := journal.append_cases id visibility kept
  constructor
  · rintro cursor ⟨drawn, reached⟩
    refine ⟨drawn.trans_eq epochs.symm, fun clean same => ?_⟩
    obtain ⟨wasClean, sequence, -⟩ := grown clean
    have before := reached wasClean (same.trans epoch)
    omega
  · rintro cursor other ⟨-, reached⟩ logged clean same covers
    obtain ⟨wasClean, sequence, floor | ⟨evicted, rfl, floor, entries⟩⟩ := grown clean
    · have before := reached wasClean (same.trans epoch)
      omega
    · rw [entries]
      rw [floor] at covers
      rcases { journal with sequence := journal.sequence + 1 }.evict_entries with
        kept | ⟨first, firstEntries, firstFloor⟩
      · rw [evict_floor kept] at covers
        obtain ⟨entry, member, later⟩ := logged wasClean (same.trans epoch) covers
        refine ⟨entry, List.mem_append_left _ ?_, later⟩
        rw [kept]
        exact member
      · have inJournal : first ∈ journal.entries := by
          have inside : first ∈ first :: { journal with
              sequence := journal.sequence + 1 }.evict.entries := List.mem_cons_self
          rw [← firstEntries] at inside
          exact inside
        rw [firstFloor] at covers
        obtain ⟨entry, member, later, isId⟩ := logged wasClean (same.trans epoch)
          ((valid.above first inJournal).le.trans covers)
        refine ⟨entry, List.mem_append_left _ ?_, later, isId⟩
        have inside : entry ∈ first :: { journal with
            sequence := journal.sequence + 1 }.evict.entries := by
          rw [← firstEntries]
          exact member
        refine (List.mem_cons.mp inside).resolve_left ?_
        rintro rfl
        omega

/-- An appended id is logged for every cursor taken before. -/
theorem logged_append (reached : journal.Reached cursor) :
    (journal.append id visibility kept).Logged cursor id := by
  obtain ⟨-, epoch, grown⟩ := journal.append_cases id visibility kept
  intro clean same covers
  obtain ⟨wasClean, sequence, floor | ⟨evicted, rfl, floor, entries⟩⟩ := grown clean
  · have before := reached.2 wasClean (same.trans epoch)
    omega
  · have before := reached.2 wasClean (same.trans epoch)
    rw [entries]
    exact ⟨_, List.mem_append_right _ (List.mem_singleton_self _), Nat.lt_succ_of_le before, rfl⟩

theorem extends_gap : journal.Extends journal.gap := by
  unfold gap
  split
  next =>
    refine ⟨fun cursor reached => ⟨reached.1, fun clean => ?_⟩, fun cursor id _ _ clean => ?_⟩
    · exact absurd clean (by simp [gapLocked])
    · exact absurd clean (by simp [gapLocked])
  next =>
    constructor
    · exact fun cursor reached => ⟨reached.1, fun clean same =>
        (reached.2 clean same).trans (Nat.le_succ _)⟩
    · intro cursor id reached _ clean same covers
      have before := reached.2 clean same
      exact absurd (covers.trans before) (Nat.not_succ_le_self _)

theorem extends_reset : journal.Extends (journal.reset drawn) := by
  unfold reset
  dsimp only
  split
  next =>
    constructor
    · rintro cursor ⟨before, -⟩
      refine ⟨before.trans_le ((Nat.le_add_right _ drawn).trans (Nat.le_succ _)), fun _ same => ?_⟩
      have other : cursor.epoch = journal.epochs + drawn := same
      omega
    · rintro cursor id ⟨before, -⟩ - - same
      have other : cursor.epoch = journal.epochs + drawn := same
      omega
  next =>
    refine ⟨fun cursor reached => ⟨?_, fun clean => ?_⟩, fun cursor id _ _ clean => ?_⟩
    · exact reached.1.trans_le (Nat.le_add_right _ drawn)
    · exact absurd clean (by simp [gapLocked])
    · exact absurd clean (by simp [gapLocked])

/-- At the head of the journal nothing is logged. -/
theorem not_logged_capture (valid : journal.Valid) (head : journal.capture = cursor)
    (real : cursor.epoch ≠ 0) : ¬journal.Logged cursor id := by
  unfold capture at head
  split at head
  next =>
    rw [← head] at real
    exact absurd rfl real
  next clean =>
    rw [Bool.not_eq_true] at clean
    subst head
    intro logged
    obtain ⟨entry, member, later, -⟩ := logged clean rfl valid.floor_le
    exact absurd (valid.below entry member) (not_le.mpr later)

/-! ## What a batch takes -/

/-- The changes taken by `collect`, and those left. -/
structure Collected (epoch visibility : Nat) (batch result : Batch Id)
    (entries taken rest : List (Change Id)) : Prop where
  split : entries = taken ++ rest
  changes : result.changes = batch.changes ++ taken
  visible : ∀ entry ∈ taken, entry.minimumVisibility ≤ visibility
  epoch : result.next.epoch = epoch
  grows : batch.next.sequence ≤ result.next.sequence
  upTo : ∀ entry ∈ taken, entry.sequence ≤ result.next.sequence
  taken : result.next.sequence = batch.next.sequence ∨
    ∃ entry ∈ taken, result.next.sequence = entry.sequence
  left : ∀ entry ∈ rest, result.next.sequence < entry.sequence
  all : result.state = .covered → rest = []

theorem collected {epoch visibility maximum : Nat} {batch : Batch Id} {entries : List (Change Id)}
    (sorted : entries.Pairwise fun first second => first.sequence < second.sequence)
    (above : ∀ entry ∈ entries, batch.next.sequence < entry.sequence)
    (same : batch.next.epoch = epoch) :
    ∃ taken rest, Collected epoch visibility batch
      (collect epoch visibility maximum batch entries) entries taken rest := by
  induction entries generalizing batch with
  | nil =>
    refine ⟨[], [], ⟨rfl, (List.append_nil _).symm, nofun, same, le_rfl, nofun, .inl rfl, nofun,
      fun _ => rfl⟩⟩
  | cons entry entries ih =>
    obtain ⟨later, sorted⟩ := List.pairwise_cons.mp sorted
    have first := above entry List.mem_cons_self
    rw [collect]
    split
    next =>
      exact ⟨[], _, ⟨rfl, (List.append_nil _).symm, nofun, same, le_rfl, nofun, .inl rfl, above, nofun⟩⟩
    next seen =>
      split
      next =>
        exact ⟨[], _, ⟨rfl, (List.append_nil _).symm, nofun, same, le_rfl, nofun, .inl rfl, above,
          nofun⟩⟩
      next =>
        obtain ⟨taken, rest, done⟩ := @ih { batch with
          changes := batch.changes ++ [entry], next := ⟨epoch, entry.sequence⟩ } sorted later rfl
        refine ⟨entry :: taken, rest, ?_, ?_, ?_, done.epoch, first.le.trans done.grows, ?_, ?_,
          done.left, done.all⟩
        · rw [done.split, List.cons_append]
        · rw [done.changes, List.append_assoc]
          rfl
        · exact List.forall_mem_cons.mpr ⟨not_lt.mp seen, done.visible⟩
        · exact List.forall_mem_cons.mpr ⟨done.grows, done.upTo⟩
        · refine .inr ?_
          rcases done.taken with own | ⟨other, member, last⟩
          · exact ⟨entry, List.mem_cons_self, own⟩
          · exact ⟨other, List.mem_cons_of_mem _ member, last⟩

theorem pending_sorted (valid : journal.Valid) :
    (journal.pending cursor).Pairwise fun first second => first.sequence < second.sequence :=
  valid.sorted.filter fun entry : Change Id => decide (cursor.sequence < entry.sequence)

theorem pending_after : ∀ entry ∈ journal.pending cursor, cursor.sequence < entry.sequence :=
  fun _ member => of_decide_eq_true (List.mem_filter.mp member).2

/-- A batch without a gap. -/
structure BatchOf (journal : Journal Id) (cursor : Cursor) (visibility : Nat) (batch : Batch Id) :
    Prop where
  epoch : batch.next.epoch = cursor.epoch
  grows : cursor.sequence ≤ batch.next.sequence
  reached : journal.Reached batch.next
  /-- A change after the cursor is in the batch or after it. -/
  logged : ∀ id, journal.Logged cursor id →
    (∃ change ∈ batch.changes, change.id = id) ∨ journal.Logged batch.next id
  inside : ∀ change ∈ batch.changes, change ∈ journal.entries ∧
    cursor.sequence < change.sequence ∧ change.minimumVisibility ≤ visibility

theorem after_batchOf {maximum : Nat} (valid : journal.Valid)
    (noGap : (journal.after cursor visibility maximum).state ≠ .gap) :
    journal.BatchOf cursor visibility (journal.after cursor visibility maximum) := by
  unfold after at noGap ⊢
  split at noGap
  next => exact absurd rfl noGap
  next open_ =>
    rw [if_neg open_]
    rw [not_or, not_or, not_or, not_lt, not_lt, not_not, Bool.not_eq_true] at open_
    obtain ⟨clean, sameEpoch, covers, reaches⟩ := open_
    obtain ⟨taken, rest, done⟩ := @collected Id journal.epoch visibility maximum
      ⟨.covered, cursor, []⟩ (journal.pending cursor) (pending_sorted valid) pending_after sameEpoch
    generalize collect journal.epoch visibility maximum ⟨.covered, cursor, []⟩
      (journal.pending cursor) = batch at noGap done ⊢
    dsimp only at noGap ⊢
    split at noGap
    next => exact absurd rfl noGap
    next whole =>
      rw [if_neg whole]
      have inside : ∀ change ∈ taken, change ∈ journal.entries ∧
          cursor.sequence < change.sequence := by
        intro change member
        have isPending : change ∈ journal.pending cursor := by
          rw [done.split]
          exact List.mem_append_left _ member
        exact ⟨(List.mem_filter.mp isPending).1, pending_after change isPending⟩
      have changes : batch.changes = taken := done.changes
      constructor
      · exact done.epoch.trans sameEpoch.symm
      · exact done.grows
      · refine ⟨done.epoch.trans_lt valid.drawn, fun _ _ => ?_⟩
        rcases done.taken with own | ⟨entry, member, last⟩
        · exact own.trans_le reaches
        · exact last.trans_le (valid.below entry (inside entry member).1)
      · intro id logged
        obtain ⟨entry, member, later, isId⟩ := logged clean sameEpoch covers
        have isPending : entry ∈ taken ++ rest := by
          rw [← done.split]
          exact List.mem_filter.mpr ⟨member, decide_eq_true later⟩
        rcases List.mem_append.mp isPending with inBatch | behind
        · rw [changes]
          exact .inl ⟨entry, inBatch, isId⟩
        · exact .inr fun _ _ _ => ⟨entry, member, done.left entry behind, isId⟩
      · intro change member
        rw [changes] at member
        obtain ⟨isEntry, later⟩ := inside change member
        exact ⟨isEntry, later, done.visible change member⟩

/-- The journal still has every change after the cursor. -/
structure Holds (journal : Journal Id) (cursor : Cursor) : Prop where
  clean : journal.poisoned = false
  epoch : cursor.epoch = journal.epoch
  floor : journal.floor ≤ cursor.sequence

/-- A journal that holds the cursor reports no gap. -/
theorem after_of_holds {maximum : Nat} (valid : journal.Valid) (reached : journal.Reached cursor)
    (holds : journal.Holds cursor) :
    journal.after cursor visibility maximum =
      collect journal.epoch visibility maximum ⟨.covered, cursor, []⟩ (journal.pending cursor) := by
  have reaches := reached.2 holds.clean holds.epoch
  have open_ : ¬(journal.poisoned = true ∨ cursor.epoch ≠ journal.epoch ∨
      cursor.sequence < journal.floor ∨ journal.sequence < cursor.sequence) := by
    rintro (poisoned | epoch | floor | beyond)
    · rw [holds.clean] at poisoned
      cases poisoned
    · exact epoch holds.epoch
    · exact absurd holds.floor (not_le.mpr floor)
    · exact absurd reaches (not_le.mpr beyond)
  obtain ⟨taken, rest, done⟩ := @collected Id journal.epoch visibility maximum
    ⟨.covered, cursor, []⟩ (journal.pending cursor) (pending_sorted valid) pending_after holds.epoch
  unfold after
  rw [if_neg open_]
  dsimp only
  refine if_neg ?_
  rintro ⟨covered, short⟩
  have every : journal.pending cursor = taken := by
    rw [done.split, done.all covered, List.append_nil]
  -- The last change of the journal is at the cursor, or was taken.
  have upTo : journal.sequence ≤ (collect journal.epoch visibility maximum ⟨.covered, cursor, []⟩
      (journal.pending cursor)).next.sequence := by
    rcases valid.whole with floor | ⟨entry, member, last⟩
    · rw [← floor]
      exact holds.floor.trans done.grows
    · by_cases later : cursor.sequence < entry.sequence
      · rw [← last]
        refine done.upTo entry ?_
        rw [← every]
        exact List.mem_filter.mpr ⟨member, decide_eq_true later⟩
      · rw [← last]
        exact (not_lt.mp later).trans done.grows
  have inside : (collect journal.epoch visibility maximum ⟨.covered, cursor, []⟩
      (journal.pending cursor)).next.sequence ≤ journal.sequence := by
    rcases done.taken with own | ⟨entry, member, last⟩
    · exact own.trans_le reaches
    · rw [← every] at member
      exact last.trans_le (valid.below entry (List.mem_filter.mp member).1)
  exact short (inside.antisymm upTo)

theorem collect_state_ne_gap {epoch maximum : Nat} {batch : Batch Id} {entries : List (Change Id)}
    (covered : batch.state = .covered) :
    (collect epoch visibility maximum batch entries).state ≠ .gap := by
  induction entries generalizing batch with
  | nil =>
    rw [collect, covered]
    exact nofun
  | cons entry entries ih =>
    rw [collect]
    split
    next => exact nofun
    next =>
      split
      next => exact nofun
      next => exact ih covered

theorem changes_le_collect {epoch maximum : Nat} {batch : Batch Id} {entries : List (Change Id)} :
    batch.changes <+: (collect epoch visibility maximum batch entries).changes := by
  induction entries generalizing batch with
  | nil => exact List.prefix_rfl
  | cons entry entries ih =>
    rw [collect]
    split
    next => exact List.prefix_rfl
    next =>
      split
      next => exact List.prefix_rfl
      next =>
        refine (List.prefix_append batch.changes [entry]).trans ?_
        exact @ih { batch with changes := batch.changes ++ [entry], next := ⟨epoch, entry.sequence⟩ }

/-- Something is taken where the first change is visible. -/
theorem collect_changes_ne_nil {epoch maximum : Nat} (entries : List (Change Id))
    (room : maximum ≠ 0) :
    (collect epoch visibility maximum ⟨.covered, cursor, []⟩ entries).changes ≠ [] ↔
      ∃ first ∈ entries.head?, first.minimumVisibility ≤ visibility := by
  cases entries with
  | nil => exact ⟨fun some => absurd rfl some, nofun⟩
  | cons first rest =>
    rw [collect]
    split
    next hidden =>
      refine ⟨fun some => absurd rfl some, ?_⟩
      rintro ⟨entry, isFirst, seen⟩
      cases isFirst
      exact absurd seen (not_le.mpr hidden)
    next seen =>
      have some : ([] : List (Change Id)).length ≠ maximum := fun none => room none.symm
      dsimp only
      rw [if_neg some]
      refine ⟨fun _ => ⟨first, rfl, not_lt.mp seen⟩, fun _ empty => ?_⟩
      have taken := @changes_le_collect Id visibility epoch maximum
        ⟨.covered, ⟨epoch, first.sequence⟩, [first]⟩ rest
      rw [show (collect epoch visibility maximum ⟨.covered, ⟨epoch, first.sequence⟩, [first]⟩
        rest).changes = [] from empty] at taken
      exact absurd (List.prefix_nil.mp taken) (List.cons_ne_nil _ _)

end Journal

end PacificDb.Vector
