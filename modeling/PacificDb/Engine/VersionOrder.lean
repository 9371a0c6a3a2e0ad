import PacificDb.Engine.Stamp
import PacificDb.Raft.CommitOrder
import Mathlib.Data.List.Chain

/-!
# The order of writes and the order of versions

Readers keep the row of an id with the greatest version score, so the entries of an
id in the log should have rising scores. Every leader draws versions from its own
counter, which starts at its own clock. An update and a delete draw above the
version of the row they start from, but an insert starts from the document of the
client, whatever tombstone it follows; and a version from `2^63` on is stored as it
is and compared as a negative number.

Here the nodes stamp writes and some of these are committed, in any order.
`versionOrdered_iff_clean` says in which runs write order is version order.
-/

namespace PacificDb.Engine

open Lib Lsm Raft

/-! ## The machine -/

/-- A stamped write. `counter` and `previous` are what its version was drawn from. -/
structure Write where
  op : ApplyOp
  doc : Json
  counter : Nat
  previous : Nat

/-- The counters of the nodes, the writes on their way and the committed ones. -/
structure Writers (ι : Type) where
  counters : ι → Nat
  pending : List Write := []
  log : List Write := []

/-- The row of an update or a delete is what the node's look-up found: any of the rows
its layers hold. -/
inductive WriteEvent (ι : Type) where
  | start (node : ι) (nanos : Int64)
  | insert (node : ι) (userId generatedId : String) (doc : Json) (tsMs : Int)
  | update (node : ι) (userId : String) (update row : Json) (tsMs : Int)
  | delete (node : ι) (userId : String) (row : Json) (time tsMs : Int)
  | commit (slot : Nat)

variable {ι : Type} [DecidableEq ι]

/-- New processes on all nodes. -/
def boot (nanos : ι → Int64) : Writers ι where
  counters := fun node => seedMvccVersionCounter (nanos node)

/-- One write on a node: its document is made, stamped and, if nothing throws, sent. -/
def Writers.draft (s : Writers ι) (node : ι) (op : ApplyOp) (made : Except Thrown Json)
    (stamp : Nat → Json → Except Thrown Json × Nat) (accepted : Json → Bool) : Writers ι :=
  match made with
  | .error _ => s
  | .ok doc =>
      let stamped := stamp (s.counters node) doc
      let counters := Function.update s.counters node stamped.2
      match stamped.1 with
      | .error _ => { s with counters }
      | .ok ready =>
          if accepted ready then
            { s with counters, pending := s.pending ++
                [⟨op, ready, s.counters node, previousMvccVersion doc⟩] }
          else { s with counters }

def step (truncate : Nat → Int) (validate : Json → Option Thrown) (s : Writers ι) :
    WriteEvent ι → Option (Writers ι)
  | .start node nanos =>
      some { s with counters := Function.update s.counters node (seedMvccVersionCounter nanos) }
  | .insert node userId generatedId doc tsMs =>
      some (s.draft node .insert (insertDocument validate userId generatedId doc)
        (fun counter doc => stampMvccWrite truncate counter tsMs false doc) fun _ => true)
  | .update node userId update row tsMs =>
      if isDeletedDoc row then some s
      else
        some (s.draft node .update (updateDocument truncate userId update row)
          (fun counter doc => stampMvccWrite truncate counter tsMs true doc)
          fun ready => (validate ready).isNone && (ready.field? "id").isSome)
  | .delete node userId row time tsMs =>
      if isDeletedDoc row then some s
      else
        match row.field? "id" with
        | some (.string targetId) =>
            some (s.draft node .delete
              (.ok (deleteDocument userId targetId (previousMvccVersion row) time))
              (fun counter doc => stampMvccDelete counter tsMs doc) fun _ => true)
        | _ => some s
  | .commit slot =>
      match s.pending[slot]? with
      | none => none
      | some write =>
          some { s with pending := s.pending.eraseIdx slot, log := s.log ++ [write] }

/-! ## The property -/

/-- The committed writes of an id. -/
def entriesFor (dump : Json → String) (id : String) (log : List Write) : List Write :=
  log.filter fun write => docId? dump write.doc == some id

/-- The rows that replicas store for a committed write. -/
def Stores (config : LsmConfig) (write : Write) (row : Json) : Prop :=
  ∃ a : Application, a.entry.op = write.op ∧ a.entry.data = write.doc ∧
    a.index ≤ a.committedIndex ∧ row = a.stored config

/-- Of two committed writes of an id the rows of the later one have the greater score, for
the readers that decode a row and for those that view it in place; and whatever rows of
the id a reader finds, if one is of the last write, such a row wins. -/
structure VersionOrdered (config : LsmConfig) (log : List Write) : Prop where
  rising : ∀ id, (entriesFor config.dump id log).Pairwise fun earlier later =>
    ∀ row newer, Stores config earlier row → Stores config later newer →
      docScore row < docScore newer ∧
      ((MsgpackRowView.mk row true).indexValid = true →
        (MsgpackRowView.mk newer true).indexValid = true →
        ∃ version higher, (MsgpackRowView.mk row true).rowVersion = some version ∧
          (MsgpackRowView.mk newer true).rowVersion = some higher ∧ version < higher)
  wins : ∀ id last, (entriesFor config.dump id log).getLast? = some last → ∀ rows : List Json,
    (∀ row ∈ rows, ∃ write ∈ entriesFor config.dump id log, Stores config write row) →
    (∃ row ∈ rows, Stores config last row) →
    ∃ row, lastMax docScore rows = some row ∧ Stores config last row

/-- The version drawn from `counter` and `previous` is above `last` for a reader: above it
as a number, and not on the other side of `2^63`. -/
def Above (last counter previous : Nat) : Prop :=
  if last < 2 ^ 63 then
    (last < counter ∨ last ≤ previous) ∧ counter < 2 ^ 63 ∧ previous + 1 < 2 ^ 63
  else last < counter ∨ last ≤ previous ∨ (counter < 2 ^ 63 ∧ previous + 1 < 2 ^ 63)

/-- The condition on a step: a write is committed only if its version was drawn above that
of the last committed write of its id. -/
def Clean (config : LsmConfig) (s : Writers ι) : WriteEvent ι → Prop
  | .commit slot => ∀ write ∈ s.pending[slot]?, ∀ id ∈ docId? config.dump write.doc,
      ∀ last ∈ (entriesFor config.dump id s.log).getLast?,
        Above (previousMvccVersion last.doc) write.counter write.previous
  | _ => True

instance (last counter previous : Nat) : Decidable (Above last counter previous) :=
  inferInstanceAs (Decidable (ite _ _ _))

instance (config : LsmConfig) (s : Writers ι) : ∀ event, Decidable (Clean config s event)
  | .commit slot => inferInstanceAs (Decidable (∀ write ∈ s.pending[slot]?,
      ∀ id ∈ docId? config.dump write.doc, ∀ last ∈ (entriesFor config.dump id s.log).getLast?,
        Above (previousMvccVersion last.doc) write.counter write.previous))
  | .start .. | .insert .. | .update .. | .delete .. => .isTrue trivial

/-! ## Scores of stamped writes -/

/-- The document of the write has the version that was drawn. -/
structure Write.Drawn (write : Write) : Prop where
  version : write.doc.field? "_mvcc_version" =
    some (.unsigned (max write.counter (write.previous + 1)))
  fits : max write.counter (write.previous + 1) < 2 ^ 64

/-- `Above` is the comparison of the scores. -/
theorem above_iff {last counter previous : Nat} (lastFits : last < 2 ^ 64)
    (fits : max counter (previous + 1) < 2 ^ 64) :
    Above last counter previous ↔
      Json.wrapInt64 last < Json.wrapInt64 (max counter (previous + 1) : Nat) := by
  rw [wrapInt64_of_lt lastFits, wrapInt64_of_lt fits]
  unfold Above
  split <;> split <;> omega

variable {write earlier later : Write} {config : LsmConfig}

theorem Write.Drawn.previousMvccVersion_doc (drawn : write.Drawn) :
    previousMvccVersion write.doc = max write.counter (write.previous + 1) := by
  unfold previousMvccVersion
  rw [drawn.version]
  exact wrapUInt64_of_lt drawn.fits

theorem Write.Drawn.extractDocVersionScore_stored (drawn : write.Drawn) {row : Json}
    (stores : Stores config write row) :
    extractDocVersionScore row = some (Json.wrapInt64 (previousMvccVersion write.doc)) := by
  obtain ⟨a, -, data, reached, rfl⟩ := stores
  apply extractDocVersionScore_of_field
  rw [Application.stored, putDocument_committed reached, field?_putDocument (by decide) (by decide),
    data, drawn.version, drawn.previousMvccVersion_doc]

theorem Write.Drawn.docScore_stored (drawn : write.Drawn) {row : Json}
    (stores : Stores config write row) :
    docScore row = (Json.wrapInt64 (previousMvccVersion write.doc) : WithBot Int) := by
  unfold docScore
  rw [drawn.extractDocVersionScore_stored stores]

/-- Every write has a row. -/
theorem exists_stores (config : LsmConfig) (write : Write) : ∃ row, Stores config write row :=
  ⟨_, { index := 0, term := 0, entry := ⟨0, write.op, write.doc⟩, committedIndex := 0, time := 0
        existing := [] }, rfl, rfl, le_rfl, rfl⟩

/-- The score of a committed write. -/
def writeScore (write : Write) : Int := Json.wrapInt64 (previousMvccVersion write.doc)

/-! ## One list of writes -/

theorem writeScores_rise {rows newer : Json} (first : earlier.Drawn) (second : later.Drawn)
    (less : writeScore earlier < writeScore later) (stores : Stores config earlier rows)
    (storesNewer : Stores config later newer) :
    docScore rows < docScore newer ∧
      ((MsgpackRowView.mk rows true).indexValid = true →
        (MsgpackRowView.mk newer true).indexValid = true →
        ∃ version higher, (MsgpackRowView.mk rows true).rowVersion = some version ∧
          (MsgpackRowView.mk newer true).rowVersion = some higher ∧ version < higher) := by
  constructor
  · rw [first.docScore_stored stores, second.docScore_stored storesNewer]
    exact WithBot.coe_lt_coe.mpr less
  · intro valid validNewer
    refine ⟨_, _, ?_, ?_, less⟩
    · rw [MsgpackRowView.rowVersion_of_valid valid, first.extractDocVersionScore_stored stores]
      rfl
    · rw [MsgpackRowView.rowVersion_of_valid validNewer,
        second.extractDocVersionScore_stored storesNewer]
      rfl

/-- For stamped writes the property is about their versions alone. -/
theorem versionOrdered_iff {log : List Write} (drawn : ∀ write ∈ log, write.Drawn) :
    VersionOrdered config log ↔ ∀ id, (entriesFor config.dump id log).Pairwise fun earlier later =>
      writeScore earlier < writeScore later := by
  have own : ∀ {id write}, write ∈ entriesFor config.dump id log → write.Drawn :=
    fun member => drawn _ (List.mem_of_mem_filter member)
  constructor
  · intro ordered id
    refine (ordered.rising id).imp_of_mem ?_
    intro earlier later isEarlier isLater rises
    obtain ⟨row, stores⟩ := exists_stores config earlier
    obtain ⟨newer, storesNewer⟩ := exists_stores config later
    have less := (rises row newer stores storesNewer).1
    rw [(own isEarlier).docScore_stored stores, (own isLater).docScore_stored storesNewer] at less
    exact WithBot.coe_lt_coe.mp less
  · intro rises
    refine ⟨fun id => ?_, ?_⟩
    · refine (rises id).imp_of_mem ?_
      intro earlier later isEarlier isLater less row newer stores storesNewer
      exact writeScores_rise (own isEarlier) (own isLater) less stores storesNewer
    · intro id last isLast rows found ⟨shown, isShown, storesLast⟩
      have lastMember := List.mem_of_getLast? isLast
      obtain ⟨row, best⟩ : ∃ row, lastMax docScore rows = some row := by
        cases best : lastMax docScore rows with
        | none =>
          rw [lastMax_eq_none_iff.mp best] at isShown
          cases isShown
        | some row => exact ⟨row, rfl⟩
      obtain ⟨write, member, stores⟩ := found row (mem_of_lastMax best)
      have atLeast := score_le_lastMax best isShown
      rw [(own lastMember).docScore_stored storesLast, (own member).docScore_stored stores,
        WithBot.coe_le_coe] at atLeast
      refine ⟨row, best, ?_⟩
      obtain ⟨before, same⟩ := List.getLast?_eq_some_iff.mp isLast
      rw [same, List.mem_append, List.mem_singleton] at member
      rcases member with member | rfl
      · have sorted := rises id
        rw [same, List.pairwise_append] at sorted
        have less := sorted.2.2 write member last (.head _)
        exact absurd atLeast (not_le_of_gt less)
      · exact stores

/-- A further write keeps the order exactly when its version is above that of the last
write of its id. -/
theorem versionOrdered_concat {log : List Write} (drawn : ∀ other ∈ log ++ [write], other.Drawn) :
    VersionOrdered config (log ++ [write]) ↔ VersionOrdered config log ∧
      ∀ id last, docId? config.dump write.doc = some id →
        (entriesFor config.dump id log).getLast? = some last →
        Above (previousMvccVersion last.doc) write.counter write.previous := by
  have before : ∀ other ∈ log, other.Drawn := fun other member =>
    drawn other (List.mem_append_left _ member)
  have new : write.Drawn := drawn write (List.mem_append_right _ (.head _))
  have above : ∀ last, (writeScore last < writeScore write ↔
      Above (previousMvccVersion last.doc) write.counter write.previous) := by
    intro last
    rw [above_iff (previousMvccVersion_lt _) new.fits, writeScore, writeScore,
      new.previousMvccVersion_doc]
  rw [versionOrdered_iff drawn, versionOrdered_iff before, ← forall_and]
  refine forall_congr' fun id => ?_
  unfold entriesFor
  rw [List.filter_append, List.filter_cons, List.filter_nil]
  by_cases own : docId? config.dump write.doc = some id
  · rw [if_pos (beq_iff_eq.mpr own), ← List.isChain_iff_pairwise, ← List.isChain_iff_pairwise,
      List.isChain_append]
    refine and_congr_right fun _ => ?_
    simp only [List.isChain_singleton, true_and, List.head?_cons, Option.mem_def, Option.some.injEq,
      forall_eq', above, own, forall_const]
  · rw [if_neg (by simpa using own), List.append_nil]
    exact (and_iff_left fun _ isOwn => absurd isOwn own).symm

/-! ## One step -/

/-- The counters are machine words, and every write has the version that was drawn for
it. -/
structure Inv (s : Writers ι) : Prop where
  counters : ∀ node, s.counters node < 2 ^ 64
  drawn : ∀ write, write ∈ s.pending ∨ write ∈ s.log → write.Drawn

theorem seedMvccVersionCounter_lt (nanos : Int64) : seedMvccVersionCounter nanos < 2 ^ 64 := by
  unfold seedMvccVersionCounter
  have below := nanos.toInt_lt
  omega

omit [DecidableEq ι] in
theorem inv_boot (nanos : ι → Int64) : Inv (boot nanos) where
  counters := fun node => seedMvccVersionCounter_lt (nanos node)
  drawn := by
    intro write member
    rcases member with member | member <;> cases member

variable {s t : Writers ι}

theorem update_counters (inv : Inv s) {node : ι} {counter : Nat} (fits : counter < 2 ^ 64)
    (other : ι) : Function.update s.counters node counter other < 2 ^ 64 := by
  by_cases same : other = node
  · rw [same, Function.update_self]
    exact fits
  · rw [Function.update_of_ne same]
    exact inv.counters other

/-- A stamp that draws once and says so in the document keeps the invariant. -/
theorem inv_draft (inv : Inv s) {node : ι} {op : ApplyOp} {made : Except Thrown Json}
    {stamp : Nat → Json → Except Thrown Json × Nat} {accepted : Json → Bool}
    (object : ∀ doc, made = .ok doc → doc.isObject = true)
    (stamps : ∀ counter doc ready moved, doc.isObject = true →
      stamp counter doc = (.ok ready, moved) → Stamped counter doc ready)
    (moves : ∀ counter doc,
      (stamp counter doc).2 = (nextMvccVersion counter (previousMvccVersion doc)).2) :
    Inv (s.draft node op made stamp accepted) := by
  unfold Writers.draft
  cases made with
  | error thrown => exact inv
  | ok doc =>
    dsimp only
    have counters : ∀ other, Function.update s.counters node (stamp (s.counters node) doc).2 other
        < 2 ^ 64 := by
      apply update_counters inv
      rw [moves]
      exact nextMvccVersion_counter_lt (inv.counters node) (previousMvccVersion_lt doc)
    cases result : (stamp (s.counters node) doc).1 with
    | error thrown => exact ⟨counters, inv.drawn⟩
    | ok ready =>
      dsimp only
      split
      · refine ⟨counters, fun write member => ?_⟩
        rw [List.mem_append, List.mem_singleton] at member
        rcases member with (member | rfl) | member
        · exact inv.drawn write (.inl member)
        · have stamped := stamps (s.counters node) doc ready _ (object doc rfl)
            (Prod.ext result rfl)
          have below := previousMvccVersion_lt doc
          have small := inv.counters node
          obtain ⟨previousLeft, left⟩ := stamped.left
          refine ⟨stamped.version, ?_⟩
          dsimp only
          unfold uint64Max at previousLeft left
          omega
        · exact inv.drawn write (.inr member)
      · exact ⟨counters, inv.drawn⟩

variable {truncate : Nat → Int} {validate : Json → Option Thrown} {event : WriteEvent ι}

theorem inv_step (inv : Inv s) (taken : step truncate validate s event = some t) : Inv t := by
  cases event with
  | start node nanos =>
    cases taken
    exact ⟨update_counters inv (seedMvccVersionCounter_lt nanos), inv.drawn⟩
  | insert node userId generatedId doc tsMs =>
    cases taken
    apply inv_draft inv
    · exact fun made isMade => isObject_insertDocument isMade
    · exact fun _ _ _ _ object stamps => stampMvccWrite_ok object stamps
    · exact fun _ _ => stampMvccWrite_counter
  | update node userId update row tsMs =>
    unfold step at taken
    dsimp only at taken
    split at taken
    · cases taken
      exact inv
    · cases taken
      apply inv_draft inv
      · exact fun made isMade => isObject_updateDocument isMade
      · exact fun _ _ _ _ object stamps => stampMvccWrite_ok object stamps
      · exact fun _ _ => stampMvccWrite_counter
  | delete node userId row time tsMs =>
    unfold step at taken
    dsimp only at taken
    split at taken
    · cases taken
      exact inv
    · split at taken
      · cases taken
        apply inv_draft inv
        · rintro made ⟨⟩
          rfl
        · exact fun _ _ _ _ object stamps => stampMvccDelete_ok object stamps
        · exact fun _ _ => stampMvccDelete_counter
      · cases taken
        exact inv
  | commit slot =>
    unfold step at taken
    dsimp only at taken
    split at taken
    · cases taken
    next write found =>
      cases taken
      refine ⟨inv.counters, fun other member => ?_⟩
      rw [List.mem_append, List.mem_singleton] at member
      rcases member with member | member | rfl
      · exact inv.drawn other (.inl (List.mem_of_mem_eraseIdx member))
      · exact inv.drawn other (.inr member)
      · exact inv.drawn _ (.inl (List.mem_of_getElem? found))

theorem log_draft {node : ι} {op : ApplyOp} {made : Except Thrown Json}
    {stamp : Nat → Json → Except Thrown Json × Nat} {accepted : Json → Bool} :
    (s.draft node op made stamp accepted).log = s.log := by
  unfold Writers.draft
  dsimp only
  split
  · rfl
  · split
    · rfl
    · split <;> rfl

/-- Only a commit changes the log. -/
theorem step_log (taken : step truncate validate s event = some t) :
    (t.log = s.log ∧ ∀ slot, event ≠ .commit slot) ∨
      ∃ slot write, event = .commit slot ∧ s.pending[slot]? = some write ∧
        t.log = s.log ++ [write] := by
  cases event with
  | start node nanos =>
    cases taken
    exact .inl ⟨rfl, fun _ => nofun⟩
  | insert node userId generatedId doc tsMs =>
    cases taken
    exact .inl ⟨log_draft, fun _ => nofun⟩
  | update node userId update row tsMs =>
    unfold step at taken
    dsimp only at taken
    split at taken <;> cases taken
    · exact .inl ⟨rfl, fun _ => nofun⟩
    · exact .inl ⟨log_draft, fun _ => nofun⟩
  | delete node userId row time tsMs =>
    unfold step at taken
    dsimp only at taken
    split at taken
    · cases taken
      exact .inl ⟨rfl, fun _ => nofun⟩
    · split at taken <;> cases taken
      · exact .inl ⟨log_draft, fun _ => nofun⟩
      · exact .inl ⟨rfl, fun _ => nofun⟩
  | commit slot =>
    unfold step at taken
    dsimp only at taken
    split at taken
    · cases taken
    next write found =>
      cases taken
      exact .inr ⟨slot, write, rfl, found, rfl⟩

/-- A step keeps the order of versions exactly when it meets the condition. -/
theorem versionOrdered_step (inv : Inv s) (taken : step truncate validate s event = some t) :
    VersionOrdered config t.log ↔ VersionOrdered config s.log ∧ Clean config s event := by
  have after := inv_step inv taken
  rcases step_log taken with ⟨same, other⟩ | ⟨slot, write, rfl, found, grown⟩
  · rw [same]
    refine (and_iff_left ?_).symm
    cases event with
    | commit slot => exact absurd rfl (other slot)
    | _ => exact trivial
  · have drawn : ∀ other ∈ s.log ++ [write], other.Drawn := by
      intro other member
      rw [← grown] at member
      exact after.drawn other (.inr member)
    rw [grown, versionOrdered_concat drawn]
    refine and_congr_right fun _ => ?_
    constructor
    · intro above another isAnother id known last isLast
      cases found.symm.trans isAnother
      exact above id last known isLast
    · intro clean id last known isLast
      exact clean write found id known last isLast

/-! ## Runs -/

/-- After every run write order is version order exactly when every committed write had
drawn its version above that of the write of its id committed last before it. -/
theorem versionOrdered_iff_clean {nanos : ι → Int64} {events : List (WriteEvent ι)}
    (runs : run (step truncate validate) (boot nanos) events = some s) :
    VersionOrdered config s.log ↔
      RunAllowed (step truncate validate) (Clean config) (boot nanos) events := by
  have start : VersionOrdered config (boot nanos).log :=
    (versionOrdered_iff (List.forall_mem_nil _)).mpr fun _ => .nil
  have along : VersionOrdered config s.log ↔ VersionOrdered config (boot nanos).log ∧
      RunAllowed (step truncate validate) (Clean config) (boot nanos) events :=
    run_good_iff (fun inv taken => inv_step inv taken)
      (fun inv taken => versionOrdered_step inv taken) (inv_boot nanos) runs
  rw [along]
  exact and_iff_right start

/-! ## A re-insert -/

/-- The document of a client. -/
def idOnly : Json := .object [("id", .string "a")]

/-- The document as the first insert stamps it, with the counter at 100. -/
def firstInsert : Json :=
  .object [("deleted_at_ms", .integer 0), ("deleted_txn", .unsigned 0),
    ("_mvcc_commit_ms", .integer 1), ("_mvcc_version", .unsigned 100), ("version", .unsigned 100),
    ("created_at_ms", .integer 1), ("created_txn", .unsigned 100), ("tenant_id", .string "u"),
    ("id", .string "a")]

/-- The row it is stored as. -/
def firstRow : Json :=
  putDocument replicated 1 (propagateCommitMetadata 1 1 (markEntryCommittedVisible 1 1 firstInsert))

/-- The leader `false` inserts a document and deletes it; then the leader `last` inserts
it again. -/
def reinsert (last : Bool) : List (WriteEvent Bool) :=
  [.insert false "u" "" idOnly 1, .commit 0, .delete false "u" firstRow 0 2, .commit 0,
    .insert last "u" "" idOnly 3, .commit 0]

/-- The clocks of the two nodes at their start, in nanoseconds. -/
def clocks : Bool → Int64
  | false => 100
  | true => 5

/-- The versions of the committed writes. -/
def committedVersions (last : Bool) : Option (List Nat) :=
  (run (step (fun _ => 0) fun _ => none) (boot clocks) (reinsert last)).map fun s =>
    s.log.map fun write => previousMvccVersion write.doc

example : committedVersions true = some [100, 101, 5] := by decide

example : committedVersions false = some [100, 101, 102] := by decide

theorem reinsert_not_versionOrdered :
    ∃ s, run (step (fun _ => 0) fun _ => none) (boot clocks) (reinsert true) = some s ∧
      ¬ VersionOrdered replicated s.log := by
  refine ⟨_, rfl, fun ordered => ?_⟩
  have inv := run_invariant (fun inv taken => inv_step inv taken) (inv_boot clocks)
    (rfl : run (step (fun _ => 0) fun _ => none) (boot clocks) (reinsert true) = some _)
  have rises := (versionOrdered_iff fun write member => inv.drawn write (.inr member)).mp ordered "a"
  revert rises
  decide

theorem reinsert_versionOrdered :
    ∃ s, run (step (fun _ => 0) fun _ => none) (boot clocks) (reinsert false) = some s ∧
      VersionOrdered replicated s.log := by
  have runs : run (step (fun _ => 0) fun _ => none) (boot clocks) (reinsert false) = some _ := rfl
  refine ⟨_, runs, (versionOrdered_iff_clean runs).mpr ?_⟩
  decide

end PacificDb.Engine
