import PacificDb.Json
import PacificDb.Vector.Journal
import Mathlib.Data.List.Infix

/-!
# What a reader of the journal is told

A reader captures a cursor and asks again and again for what came after it, while the
collection is edited. Every edit since the capture either is a change the reader has
been given or is still to be given, in the order of the edits; as soon as this cannot
be kept the reader is told of a gap, and from then on for good.
-/

namespace PacificDb.Vector

abbrev IdBytes := List UInt8

/-- What happens to a journal. Memory may end during an append, and other journals draw
epochs before a reset. -/
inductive Edit where
  | append (id : IdBytes) (visibility : Nat) (allocated : Bool)
  | gap
  | reset (drawn : Nat)
  deriving Repr, DecidableEq

/-- The ids an append does not turn into a gap. -/
def acceptable (id : IdBytes) : Bool := !(id.isEmpty || decide (1024 < id.length))

namespace Edit

def apply (journal : Journal IdBytes) : Edit → Journal IdBytes
  | append id visibility allocated => journal.append id visibility (acceptable id && allocated)
  | gap => journal.gap
  | reset drawn => journal.reset drawn

/-- The id and the visibility that an edit leaves behind, none if it is lost. -/
def kept? : Edit → Option (IdBytes × Nat)
  | append id visibility allocated =>
      if acceptable id && allocated then some (id, visibility) else none
  | gap => none
  | reset _ => none

end Edit

/-! ## Documents -/

def isNegative : Json → Bool
  | .integer value => decide (value < 0)
  | _ => false

/-- One field of the loop of `observe`: none where the value is no commit index. -/
def raiseFloor (document : Json) (floor : Nat) (field : String) : Option Nat :=
  match document.field? field with
  | none => some floor
  | some value => if isNegative value then none else value.asUInt64?.map (max floor)

def observedFloor (document : Json) : Option Nat :=
  ["_raft_commit_index", "commit_index", "_visibility_floor"].foldlM (raiseFloor document) 0

/-- A document that waits for its commit; none where reading the state throws. -/
def isPending (document : Json) : Option Bool :=
  match document.field? "committed", document.field? "_visibility_state" with
  | some (.bool false), _ => some true
  | _, none => some false
  | _, some (.string state) => some (state == "PENDING")
  | _, some _ => none

def stringId? (document : Json) : Option IdBytes :=
  match document.field? "id" with
  | some (.string id) => some id.toUTF8.toList
  | _ => none

/-- `observe` for a journal that is subscribed to the collection of the document. -/
def observe (document : Json) (allocated : Bool) : Edit :=
  match stringId? document with
  | none => .gap
  | some id =>
      match observedFloor document with
      | none => .gap
      | some floor =>
          match isPending document with
          | none => .gap
          | some pending =>
              if pending && floor == 0 then .gap
              else .append id floor allocated

/-! ## Journals and their readers -/

namespace Journal

/-- The constructor, with the epochs drawn so far in the process. -/
def create (records bytes epochs : Nat) : Except String (Journal IdBytes) :=
  if records = 0 ∨ 65536 < records ∨ bytes < 1024 ∨ 64 * 1024 * 1024 < bytes then
    .error "vector journal invalid capacity"
  else if epochs = 0 ∨ maxUInt64 ≤ epochs then .error "vector journal epoch exhausted"
  else .ok { capacity := records, epochs := epochs + 1, epoch := epochs }

def checkedAfter (journal : Journal IdBytes) (cursor : Cursor) (visibility maximum : Nat) :
    Except String (Batch IdBytes) :=
  if maximum = 0 ∨ 4096 < maximum then .error "vector journal invalid batch bound"
  else .ok (journal.after cursor visibility maximum)

/-- `after` called again from the cursor it returned for as long as there is more. The
result has all the changes of the calls; with no fuel left its state is still `more`. -/
def drain (journal : Journal IdBytes) (visibility maximum : Nat) :
    Nat → Cursor → Except String (Batch IdBytes)
  | 0, cursor => .ok ⟨.more, cursor, []⟩
  | fuel + 1, cursor => do
      let batch ← journal.checkedAfter cursor visibility maximum
      if batch.state = .more then
        let rest ← journal.drain visibility maximum fuel batch.next
        return { rest with changes := batch.changes ++ rest.changes }
      else return batch

end Journal

/-- A reader with the changes given to it, beside the edits since its capture. -/
structure Reader where
  journal : Journal IdBytes
  cursor : Cursor
  taken : List (Change IdBytes) := []
  edits : List Edit := []

namespace Reader

inductive Event where
  | edit (edit : Edit)
  | read (visibility maximum : Nat)
  deriving Repr, DecidableEq

/-- A call that throws changes nothing. -/
def step (reader : Reader) : Event → Reader
  | .edit edit =>
      { reader with journal := edit.apply reader.journal, edits := reader.edits ++ [edit] }
  | .read visibility maximum =>
      match reader.journal.checkedAfter reader.cursor visibility maximum with
      | .error _ => reader
      | .ok batch =>
          { reader with cursor := batch.next, taken := reader.taken ++ batch.changes }

def start (journal : Journal IdBytes) : Reader := { journal, cursor := journal.capture }

/-- The journal is edited, then captured, and then edited and read in any order. -/
def watch (journal : Journal IdBytes) (before : List Edit) (events : List Event) : Reader :=
  events.foldl step (start (before.foldl Edit.apply journal))

end Reader

/-- What a change says to its reader. -/
def Change.note (change : Change IdBytes) : Option (IdBytes × Nat) :=
  some (change.id, change.minimumVisibility)

/-- The changes are the edits in their order: all of them where the reader is told that
it is covered, and else those before an edit that is not visible yet. -/
def Accounts (edits : List Edit) (visibility : Nat) (changes : List (Change IdBytes)) :
    Journal.Coverage → Prop
  | .covered => edits.map Edit.kept? = changes.map Change.note
  | .visibilityBlocked => ∃ id minimum rest,
      edits.map Edit.kept? = changes.map Change.note ++ some (id, minimum) :: rest ∧
        visibility < minimum
  | .gap => True
  | .more => False

namespace Journal

variable {journal : Journal IdBytes} {cursor : Cursor} {visibility maximum : Nat} {edit : Edit}

/-! ## Edits -/

theorem valid_create {records bytes epochs : Nat} (made : create records bytes epochs = .ok journal) :
    journal.Valid := by
  unfold create at made
  split at made
  next => cases made
  next =>
    split at made
    next => cases made
    next =>
      cases made
      exact ⟨⟨Nat.le_refl 0, nofun, nofun, .nil, Nat.lt_succ_self _⟩, .inl rfl⟩

theorem Valid.apply (valid : journal.Valid) : (edit.apply journal).Valid := by
  cases edit with
  | append => exact valid.append
  | gap => exact valid.gap
  | reset => exact Valid.reset

theorem Valid.edited {edits : List Edit} (valid : journal.Valid) :
    (edits.foldl Edit.apply journal).Valid := by
  induction edits generalizing journal with
  | nil => exact valid
  | cons edit edits ih => exact ih valid.apply

theorem extends_apply (valid : journal.Valid) : journal.Extends (edit.apply journal) := by
  cases edit with
  | append => exact extends_append valid
  | gap => exact extends_gap
  | reset => exact extends_reset

/-- What an edit does to a cursor that the journal still holds after it: the cursor was
held before, and the edit has become the last of the pending changes. -/
structure Recorded (journal : Journal IdBytes) (cursor : Cursor) (edit : Edit) : Prop where
  holds : journal.Holds cursor
  pending : ∃ change, ((edit.apply journal).pending cursor) = journal.pending cursor ++ [change] ∧
    edit.kept? = change.note

theorem pending_evict (floor : journal.evict.floor ≤ cursor.sequence) :
    journal.evict.pending cursor = journal.pending cursor := by
  unfold pending
  rcases journal.evict_entries with same | ⟨first, entries, dropped⟩
  · rw [same]
  · rw [dropped] at floor
    rw [entries, List.filter_cons_of_neg]
    exact fun later => absurd (of_decide_eq_true later) (not_lt.mpr floor)

theorem floor_evict (valid : journal.Ordered) : journal.floor ≤ journal.evict.floor := by
  rcases journal.evict_entries with same | ⟨first, entries, dropped⟩
  · rw [evict_floor same]
  · rw [dropped]
    refine (valid.above first ?_).le
    rw [entries]
    exact List.mem_cons_self

/-- An id that is not kept leaves a gap behind. -/
theorem floor_append_lost {id : IdBytes}
    (clean : (journal.append id visibility false).poisoned = false) :
    (journal.append id visibility false).floor = journal.sequence + 1 := by
  unfold Journal.append at clean ⊢
  split at clean
  next poisoned => exact absurd (poisoned.symm.trans clean) (by decide)
  next wasClean =>
    rw [if_neg wasClean]
    split at clean
    next => cases clean
    next room =>
      rw [if_neg room]
      rfl

theorem recorded_append {id : IdBytes} {allocated : Bool} (valid : journal.Valid)
    (reached : journal.Reached cursor)
    (holds : ((Edit.append id visibility allocated).apply journal).Holds cursor) :
    journal.Recorded cursor (.append id visibility allocated) := by
  obtain ⟨clean, epoch, floor⟩ := holds
  rw [Edit.apply] at clean epoch floor
  obtain ⟨-, sameEpoch, grown⟩ := journal.append_cases id visibility (acceptable id && allocated)
  rw [sameEpoch] at epoch
  obtain ⟨wasClean, -, rest⟩ := grown clean
  have reaches := reached.2 wasClean epoch
  have kept : (acceptable id && allocated) = true := by
    by_contra lost
    rw [Bool.not_eq_true] at lost
    rw [lost] at clean floor
    rw [floor_append_lost clean] at floor
    omega
  rcases rest with lost | ⟨evicted, rfl, evictedFloor, entries⟩
  · omega
  · rw [evictedFloor] at floor
    constructor
    · exact ⟨wasClean, epoch, (floor_evict valid.toOrdered.withSequence).trans floor⟩
    · refine ⟨⟨journal.sequence + 1, id, visibility⟩, ?_, if_pos kept⟩
      have before := pending_evict floor
      unfold pending at before ⊢
      rw [Edit.apply, entries, List.filter_append, before, List.filter_cons_of_pos]
      · rfl
      · exact decide_eq_true (Nat.lt_succ_of_le reaches)

theorem recorded_apply (valid : journal.Valid) (reached : journal.Reached cursor)
    (holds : (edit.apply journal).Holds cursor) : journal.Recorded cursor edit := by
  cases edit with
  | append id visibility allocated => exact recorded_append valid reached holds
  | gap =>
    obtain ⟨clean, epoch, floor⟩ := holds
    rw [Edit.apply] at clean epoch floor
    unfold Journal.gap at clean epoch floor
    split at clean
    next => cases clean
    next room =>
      rw [if_neg room] at epoch floor
      have reaches := reached.2 clean epoch
      exact absurd (floor.trans reaches) (Nat.not_succ_le_self _)
  | reset drawn =>
    obtain ⟨clean, epoch, -⟩ := holds
    rw [Edit.apply] at clean epoch
    unfold Journal.reset at clean epoch
    dsimp only at clean epoch
    split at clean
    next fresh =>
      rw [if_pos fresh] at epoch
      have old := reached.1
      have own : cursor.epoch = journal.epochs + drawn := epoch
      omega
    next => cases clean

/-! ## Calls -/

/-- What stopped the loop of `after` is the first of the changes that were not taken. -/
theorem collect_stopped {epoch : Nat} {batch : Batch IdBytes}
    {entries taken rest : List (Change IdBytes)} (covered : batch.state = .covered)
    (split : entries = taken ++ rest)
    (changes : (collect epoch visibility maximum batch entries).changes = batch.changes ++ taken) :
    ((collect epoch visibility maximum batch entries).state = .visibilityBlocked →
        ∃ entry ∈ rest.head?, visibility < entry.minimumVisibility) ∧
      ((collect epoch visibility maximum batch entries).state = .more →
        (batch.changes ++ taken).length = maximum) := by
  induction entries generalizing batch taken with
  | nil =>
    rw [collect, covered]
    constructor
    · intro blocked
      cases blocked
    · intro more
      cases more
  | cons entry entries ih =>
    rw [collect] at changes ⊢
    split at changes
    next hidden =>
      rw [if_pos hidden]
      have none : taken = [] := List.self_eq_append_right.mp changes
      rw [none, List.nil_append] at split
      refine ⟨fun _ => ⟨entry, ?_, hidden⟩, fun more => ?_⟩
      · rw [← split]
        rfl
      · cases more
    next seen =>
      rw [if_neg seen]
      split at changes
      next full =>
        rw [if_pos full]
        have none : taken = [] := List.self_eq_append_right.mp changes
        refine ⟨fun blocked => ?_, fun _ => ?_⟩
        · cases blocked
        · rw [none, List.append_nil]
          exact full
      next room =>
        rw [if_neg room]
        have own := @changes_le_collect IdBytes visibility epoch maximum
          { batch with changes := batch.changes ++ [entry], next := ⟨epoch, entry.sequence⟩ } entries
        rw [changes] at own
        have first : [entry] <+: taken := (List.prefix_append_right_inj _).mp own
        obtain ⟨others, rfl⟩ := first
        have behind : entries = others ++ rest := (List.cons.inj split).2
        have later := @ih { batch with
          changes := batch.changes ++ [entry], next := ⟨epoch, entry.sequence⟩ } others covered
          behind (changes.trans (List.append_assoc _ _ _).symm)
        rw [List.append_assoc] at later
        exact later

/-- A call from a cursor that the journal holds takes the first of the pending changes,
and leaves a cursor with the others pending. -/
structure Called (journal : Journal IdBytes) (cursor : Cursor) (visibility maximum : Nat)
    (batch : Batch IdBytes) : Prop where
  holds : journal.Holds batch.next
  reached : journal.Reached batch.next
  pending : journal.pending cursor = batch.changes ++ journal.pending batch.next
  visible : ∀ change ∈ batch.changes, change.minimumVisibility ≤ visibility
  noGap : batch.state ≠ .gap
  covered : batch.state = .covered → journal.pending batch.next = []
  blocked : batch.state = .visibilityBlocked →
    ∃ entry ∈ (journal.pending batch.next).head?, visibility < entry.minimumVisibility
  more : batch.state = .more → batch.changes.length = maximum

theorem called_after (valid : journal.Valid) (reached : journal.Reached cursor)
    (holds : journal.Holds cursor) :
    journal.Called cursor visibility maximum (journal.after cursor visibility maximum) := by
  rw [after_of_holds valid reached holds]
  have noGap := @collect_state_ne_gap IdBytes visibility journal.epoch maximum
    ⟨.covered, cursor, []⟩ (journal.pending cursor) rfl
  obtain ⟨taken, rest, done⟩ := @collected IdBytes journal.epoch visibility maximum
    ⟨.covered, cursor, []⟩ (journal.pending cursor) (pending_sorted valid) pending_after holds.epoch
  have stopped := collect_stopped rfl done.split done.changes
  generalize collect journal.epoch visibility maximum ⟨.covered, cursor, []⟩
    (journal.pending cursor) = batch at noGap done stopped ⊢
  have changes : batch.changes = taken := done.changes
  -- The cursor has moved past what was taken, and not past what was left.
  have left : journal.pending batch.next = rest := by
    have earlier : journal.pending batch.next =
        (journal.pending cursor).filter fun entry => decide (batch.next.sequence < entry.sequence) := by
      unfold Journal.pending
      rw [List.filter_filter]
      refine List.filter_congr fun entry _ => ?_
      by_cases later : batch.next.sequence < entry.sequence
      · have own : cursor.sequence < entry.sequence := done.grows.trans_lt later
        simp only [later, own, decide_true, Bool.and_self]
      · simp only [later, decide_false, Bool.false_and]
    have none : taken.filter (fun entry => decide (batch.next.sequence < entry.sequence)) = [] := by
      refine List.filter_eq_nil_iff.mpr fun entry member later => ?_
      exact absurd (done.upTo entry member) (not_le.mpr (of_decide_eq_true later))
    have all : rest.filter (fun entry => decide (batch.next.sequence < entry.sequence)) = rest :=
      List.filter_eq_self.mpr fun entry member => decide_eq_true (done.left entry member)
    rw [earlier, done.split, List.filter_append, none, all, List.nil_append]
  constructor
  · exact ⟨holds.clean, done.epoch, holds.floor.trans done.grows⟩
  · refine ⟨done.epoch.trans_lt valid.drawn, fun _ _ => ?_⟩
    rcases done.taken with own | ⟨entry, member, last⟩
    · exact own.trans_le (reached.2 holds.clean holds.epoch)
    · refine last.trans_le (valid.below entry ?_)
      have isPending : entry ∈ journal.pending cursor := by
        rw [done.split]
        exact List.mem_append_left _ member
      exact (List.mem_filter.mp isPending).1
  · rw [left, changes]
    exact done.split
  · rw [changes]
    exact done.visible
  · exact noGap
  · rw [left]
    exact done.all
  · rw [left]
    exact stopped.1
  · rw [changes]
    exact stopped.2

/-- Where a cursor is not held, a call says so and takes nothing. -/
theorem after_of_not_holds (lost : ¬journal.Holds cursor) :
    journal.after cursor visibility maximum = ⟨.gap, cursor, []⟩ := by
  unfold after
  refine if_pos ?_
  by_contra open_
  rw [not_or, not_or, not_or, not_lt, not_not, Bool.not_eq_true] at open_
  exact lost ⟨open_.1, open_.2.1, open_.2.2.1⟩

end Journal

/-! ## Runs -/

/-- The edits since the capture are the changes given and those pending. -/
structure Reader.Sound (reader : Reader) : Prop where
  valid : reader.journal.Valid
  reached : reader.journal.Reached reader.cursor
  accounted : reader.journal.Holds reader.cursor → reader.edits.map Edit.kept? =
    (reader.taken ++ reader.journal.pending reader.cursor).map Change.note

namespace Reader

variable {reader : Reader} {event : Event} {journal : Journal IdBytes}

theorem Sound.edited {edit : Edit} (sound : reader.Sound) : (reader.step (.edit edit)).Sound where
  valid := sound.valid.apply
  reached := (Journal.extends_apply sound.valid).reached _ sound.reached
  accounted := by
    intro holds
    have recorded := Journal.recorded_apply sound.valid sound.reached holds
    obtain ⟨change, pending, kept⟩ := recorded.pending
    have before := sound.accounted recorded.holds
    have after : (reader.step (.edit edit)).journal.pending (reader.step (.edit edit)).cursor =
      reader.journal.pending reader.cursor ++ [change] := pending
    rw [after]
    change (reader.edits ++ [edit]).map Edit.kept? =
      (reader.taken ++ (reader.journal.pending reader.cursor ++ [change])).map Change.note
    rw [List.map_append, before, List.map_singleton, kept, ← List.append_assoc, List.map_append,
      List.map_append, List.map_append]
    rfl

theorem Sound.read {visibility maximum : Nat} (sound : reader.Sound) :
    (reader.step (.read visibility maximum)).Sound := by
  unfold step Journal.checkedAfter
  dsimp only
  split
  next => exact sound
  next batch made =>
    split at made
    next => cases made
    next =>
      cases made
      by_cases holds : reader.journal.Holds reader.cursor
      · have called := @Journal.called_after _ _ visibility maximum sound.valid sound.reached holds
        refine ⟨sound.valid, called.reached, fun _ => ?_⟩
        have before := sound.accounted holds
        rw [called.pending, ← List.append_assoc] at before
        exact before
      · rw [Journal.after_of_not_holds holds]
        refine ⟨sound.valid, sound.reached, fun held => absurd held holds⟩

theorem Sound.step (sound : reader.Sound) : (reader.step event).Sound := by
  cases event with
  | edit => exact sound.edited
  | read => exact sound.read

theorem sound_start (valid : journal.Valid) : (start journal).Sound := by
  refine ⟨valid, Journal.reached_capture valid, fun holds => ?_⟩
  -- A cursor that was just captured has nothing behind it.
  have none : journal.pending journal.capture = [] := by
    refine List.filter_eq_nil_iff.mpr fun entry member later => ?_
    have clean : ¬journal.poisoned = true := Bool.not_eq_true _ ▸ holds.clean
    have later := of_decide_eq_true later
    unfold Journal.capture at later
    rw [if_neg clean] at later
    exact absurd (valid.below entry member) (not_le.mpr later)
  change [] = ([] ++ journal.pending journal.capture).map Change.note
  rw [none]
  rfl

theorem sound_watch {before : List Edit} {events : List Event} (valid : journal.Valid) :
    (watch journal before events).Sound := by
  have first := sound_start (@Journal.Valid.edited _ before valid)
  unfold watch
  generalize start (before.foldl Edit.apply journal) = reader at first ⊢
  induction events generalizing reader with
  | nil => exact first
  | cons event events ih => exact ih _ first.step

end Reader

/-- What calling `after` to its end leaves to say, from a cursor that is held. -/
theorem Journal.drain_of_holds {journal : Journal IdBytes} {cursor : Cursor}
    {visibility maximum fuel : Nat} (valid : journal.Valid) (reached : journal.Reached cursor)
    (holds : journal.Holds cursor) (bounds : 0 < maximum ∧ maximum ≤ 4096)
    (enough : (journal.pending cursor).length < fuel) :
    ∃ batch, journal.drain visibility maximum fuel cursor = .ok batch ∧
      batch.state ≠ .more ∧ journal.Called cursor visibility batch.changes.length batch := by
  induction fuel generalizing cursor with
  | zero => exact absurd enough (Nat.not_lt_zero _)
  | succ fuel ih =>
    have called := @called_after _ _ visibility maximum valid reached holds
    have allowed : ¬(maximum = 0 ∨ 4096 < maximum) := by omega
    rw [drain, checkedAfter, if_neg allowed]
    by_cases more : (journal.after cursor visibility maximum).state = .more
    · have some := called.more more
      have whole := congrArg List.length called.pending
      rw [List.length_append] at whole
      obtain ⟨rest, drained, done, later⟩ := ih called.reached called.holds (by omega)
      refine ⟨{ rest with
        changes := (journal.after cursor visibility maximum).changes ++ rest.changes }, ?_, done, ?_⟩
      · change (if _ then _ else _) = _
        rw [if_pos more, drained]
        rfl
      · constructor
        · exact later.holds
        · exact later.reached
        · rw [called.pending, later.pending, List.append_assoc]
        · exact List.forall_mem_append.mpr ⟨called.visible, later.visible⟩
        · exact later.noGap
        · exact later.covered
        · exact later.blocked
        · exact fun _ => rfl
    · refine ⟨journal.after cursor visibility maximum, ?_, more, { called with more := fun _ => rfl }⟩
      change (if _ then _ else _) = _
      rw [if_neg more]
      rfl

/-- Calling `after` to the end, at any point of any run, is over when the changes that are
left have been taken, and what was given to the reader is the edits in their order:
nothing that it was told it is covered for is missing from them. A cursor that the journal
holds is not told of a gap. -/
theorem journal_accounts {records bytes epochs visibility maximum : Nat}
    {journal : Journal IdBytes} {before : List Edit} {events : List Reader.Event} {reader : Reader}
    (made : Journal.create records bytes epochs = .ok journal)
    (watched : Reader.watch journal before events = reader)
    (bounds : 0 < maximum ∧ maximum ≤ 4096) :
    ∃ batch, reader.journal.drain visibility maximum (reader.journal.entries.length + 1)
        reader.cursor = .ok batch ∧
      Accounts reader.edits visibility (reader.taken ++ batch.changes) batch.state ∧
      (∀ change ∈ batch.changes, change.minimumVisibility ≤ visibility) ∧
      (reader.journal.Holds reader.cursor → batch.state ≠ .gap) := by
  have sound : reader.Sound := by
    rw [← watched]
    exact Reader.sound_watch (Journal.valid_create made)
  by_cases holds : reader.journal.Holds reader.cursor
  · have enough : (reader.journal.pending reader.cursor).length < reader.journal.entries.length + 1 :=
      Nat.lt_succ_of_le (List.length_filter_le _ _)
    obtain ⟨batch, drained, done, called⟩ :=
      @Journal.drain_of_holds _ _ visibility _ _ sound.valid sound.reached holds bounds enough
    refine ⟨batch, drained, ?_, called.visible, fun _ => called.noGap⟩
    have accounted := sound.accounted holds
    rw [called.pending, ← List.append_assoc, List.map_append] at accounted
    unfold Accounts
    split
    next covered =>
      rw [called.covered covered, List.map_nil, List.append_nil] at accounted
      exact accounted
    next blocked =>
      obtain ⟨entry, isHead, hidden⟩ := called.blocked blocked
      obtain ⟨rest, pending⟩ : ∃ rest, reader.journal.pending batch.next = entry :: rest :=
        ⟨_, (List.cons_head?_tail isHead).symm⟩
      rw [pending, List.map_cons] at accounted
      exact ⟨entry.id, entry.minimumVisibility, _, accounted, hidden⟩
    next => trivial
    next more => exact done more
  · refine ⟨⟨.gap, reader.cursor, []⟩, ?_, trivial, nofun, fun held => absurd held holds⟩
    have allowed : ¬(maximum = 0 ∨ 4096 < maximum) := by omega
    rw [Journal.drain, Journal.checkedAfter, if_neg allowed, Journal.after_of_not_holds holds]
    rfl

/-- Two ids are appended, one is read, and then the room for two is used up again. -/
theorem journal_accounts_evicting :
    ∃ batch, (Reader.watch ⟨2, 2, 1, 0, 0, [], false⟩ [.append [97] 0 true]
        [.edit (.append [98] 0 true), .read 5 1, .edit (.append [99] 7 true),
          .edit (.append [100] 0 true)]).journal.drain 5 1 3 ⟨1, 2⟩ = .ok batch ∧
      Accounts [.append [98] 0 true, .append [99] 7 true, .append [100] 0 true] 5
        (⟨2, [98], 0⟩ :: batch.changes) batch.state ∧
      (∀ change ∈ batch.changes, change.minimumVisibility ≤ 5) ∧
      ((Reader.watch ⟨2, 2, 1, 0, 0, [], false⟩ [.append [97] 0 true]
        [.edit (.append [98] 0 true), .read 5 1, .edit (.append [99] 7 true),
          .edit (.append [100] 0 true)]).journal.Holds ⟨1, 2⟩ → batch.state ≠ .gap) :=
  @journal_accounts 2 1024 1 5 1 ⟨2, 2, 1, 0, 0, [], false⟩ [.append [97] 0 true]
    [.edit (.append [98] 0 true), .read 5 1, .edit (.append [99] 7 true),
      .edit (.append [100] 0 true)] _ rfl rfl (by omega)

end PacificDb.Vector
