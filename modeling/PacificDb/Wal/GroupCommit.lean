import PacificDb.Wal.Crash

/-!
# Group commit

With group commit the requests that came in for one log are appended in one call of
`appendEntries`, and all of them are told the outcome of that call. A request that the
log would not take alone, because its record is too long or of another namespace, so
fails the requests it happens to be with.

The requests of a call are told what they would be told alone exactly when the log takes
them all or takes none of them (`uncoupled_iff`).
-/

namespace PacificDb.Wal

open Lib

variable {config : WalConfig}

/-! ## The code -/

/-- What a request is told. -/
abbrev Outcome := Except String Unit

/-- `completeEntries`: all requests of a batch are told the same. -/
def completeEntries (batch : Batch config) (outcome : Outcome) : List Outcome :=
  batch.map fun _ => outcome

/-- `appendEntries` when every write and sync works: the log after it, and what the
requests are told. Each request has one entry. -/
def LogicalWal.appendEntries (file : String) (wal : LogicalWal) (batch : Batch config) :
    LogicalWal × List Outcome :=
  match layOut wal.state batch with
  | .error reason =>
      (wal, completeEntries batch (.error ("collection WAL append exception for " ++ file ++ ": " ++ reason)))
  | .ok _ => (wal.append batch, completeEntries batch (.ok ()))

/-- What the same requests are told when each is appended alone, in their order, as
without group commit. -/
def LogicalWal.appendAlone (file : String) : LogicalWal → Batch config → List Outcome
  | _, [] => []
  | wal, entry :: rest =>
      let call := wal.appendEntries file [entry]
      call.2 ++ call.1.appendAlone file rest

/-! ## The claim on a call -/

/-- Each request is acknowledged exactly when it is acknowledged alone at its position,
and a call that fails changes nothing. -/
structure LogicalWal.Uncoupled (file : String) (wal : LogicalWal) (batch : Batch config) : Prop where
  acknowledged : (wal.appendEntries file batch).2.map Except.isOk =
    (wal.appendAlone file batch).map Except.isOk
  unchanged : (∃ outcome ∈ (wal.appendEntries file batch).2, outcome.isOk = false) →
    (wal.appendEntries file batch).1 = wal

variable {file : String} {wal : LogicalWal} {batch : Batch config} {entry : PendingWalEntry config × Nat}

/-! ## One call -/

theorem completeEntries_isOk (outcome : Outcome) : (completeEntries batch outcome).map Except.isOk =
    List.replicate batch.length outcome.isOk := by
  rw [completeEntries, List.map_map]
  exact List.map_const'

/-- A call in which the log takes the batch. -/
theorem appendEntries_of_accepts (accepts : wal.state.Accepts batch) :
    wal.appendEntries file batch = (wal.append batch, completeEntries batch (.ok ())) := by
  obtain ⟨cursor, done⟩ := (@layOut_ok_iff config { wal.state with } _).mpr accepts
  have laid : layOut wal.state batch = .ok cursor := done
  rw [LogicalWal.appendEntries, laid]

/-- A call in which it does not. -/
theorem appendEntries_of_refuses (refuses : ¬wal.state.Accepts batch) :
    ∃ reason, wal.appendEntries file batch = (wal, completeEntries batch (.error reason)) := by
  cases laid : layOut wal.state batch with
  | error reason =>
    refine ⟨"collection WAL append exception for " ++ file ++ ": " ++ reason, ?_⟩
    rw [LogicalWal.appendEntries, laid]
  | ok cursor =>
    have done := (@layOut_ok_iff config { wal.state with } _).mp ⟨cursor, laid⟩
    exact absurd done refuses

/-! ## One request after the other -/

/-- Which namespace the log has after an entry it takes. -/
theorem identityHash_append (accepts : wal.state.Accepts [entry]) :
    (wal.append [entry]).state.identityHash = if wal.state.identityHash = 0
      then walIdentityHash entry.1.entry else wal.state.identityHash := by
  obtain ⟨cursor, done⟩ := (@layOut_ok_iff config { wal.state with } _).mpr accepts
  have laid : layOut wal.state [entry] = .ok cursor := done
  rw [List.foldlM_cons, bind_eq_ok] at done
  obtain ⟨middle, first, last⟩ := done
  cases last
  obtain ⟨-, -, rfl⟩ := placeEntry_ok_iff.mp first
  rw [LogicalWal.append, laid]
  rfl

/-- A log takes a batch if it takes its first entry and then the others. -/
theorem accepts_cons {rest : Batch config} : wal.state.Accepts (entry :: rest) ↔
    wal.state.Accepts [entry] ∧ (wal.append [entry]).state.Accepts rest := by
  have single : wal.state.Accepts [entry] ↔ FitsFrame entry.1 ∧
      OneNamespace (walIdentityHash entry.1.entry)
        (if wal.state.identityHash = 0 then walIdentityHash entry.1.entry else wal.state.identityHash) := by
    rw [LogicalWalState.Accepts, List.map_cons, pairwise_oneNamespace, List.forall_mem_singleton]
    exact and_congr_right' (and_iff_left (List.pairwise_singleton _ _))
  constructor
  · intro accepts
    have split := accepts
    rw [LogicalWalState.Accepts, List.map_cons, pairwise_oneNamespace, List.forall_mem_cons] at split
    obtain ⟨⟨fits, fitsRest⟩, own, others⟩ := split
    have first := single.mpr ⟨fits, own⟩
    refine ⟨first, fitsRest, ?_⟩
    rw [identityHash_append first]
    exact others
  · rintro ⟨first, fitsRest, others⟩
    rw [identityHash_append first] at others
    obtain ⟨fits, own⟩ := single.mp first
    rw [LogicalWalState.Accepts, List.map_cons, pairwise_oneNamespace, List.forall_mem_cons]
    exact ⟨⟨fits, fitsRest⟩, own, others⟩

theorem appendAlone_of_accepts {rest : Batch config} (accepts : wal.state.Accepts [entry]) :
    wal.appendAlone file (entry :: rest) =
      .ok () :: (wal.append [entry]).appendAlone file rest := by
  rw [LogicalWal.appendAlone, appendEntries_of_accepts accepts]
  rfl

theorem appendAlone_of_refuses {rest : Batch config} (refuses : ¬wal.state.Accepts [entry]) :
    ∃ reason, wal.appendAlone file (entry :: rest) = .error reason :: wal.appendAlone file rest := by
  obtain ⟨reason, refused⟩ := @appendEntries_of_refuses _ file wal [entry] refuses
  refine ⟨reason, ?_⟩
  rw [LogicalWal.appendAlone, refused]
  rfl

/-- All requests are acknowledged alone exactly when the log takes them together. -/
theorem appendAlone_all (wal : LogicalWal) (batch : Batch config) :
    (wal.appendAlone file batch).map Except.isOk = List.replicate batch.length true ↔
      wal.state.Accepts batch := by
  induction batch generalizing wal with
  | nil =>
    refine iff_of_true rfl ⟨fun _ member => (nomatch member), ?_⟩
    exact List.pairwise_singleton _ _
  | cons entry rest ih =>
    rw [accepts_cons]
    by_cases first : wal.state.Accepts [entry]
    · rw [appendAlone_of_accepts first, List.map_cons, List.length_cons, List.replicate_succ,
        List.cons.injEq, ih, and_iff_right first]
      exact and_iff_right rfl
    · obtain ⟨reason, refused⟩ := @appendAlone_of_refuses _ file wal entry rest first
      rw [refused, List.map_cons, List.length_cons, List.replicate_succ, List.cons.injEq]
      exact iff_of_false (fun same => nomatch same.1) fun taken => first taken.1

/-- None is acknowledged alone exactly when the log takes none of them as it stands. -/
theorem appendAlone_none (wal : LogicalWal) (batch : Batch config) :
    (wal.appendAlone file batch).map Except.isOk = List.replicate batch.length false ↔
      ∀ entry ∈ batch, ¬wal.state.Accepts [entry] := by
  induction batch generalizing wal with
  | nil => exact iff_of_true rfl fun _ member => nomatch member
  | cons entry rest ih =>
    rw [List.forall_mem_cons]
    by_cases first : wal.state.Accepts [entry]
    · rw [appendAlone_of_accepts first, List.map_cons, List.length_cons, List.replicate_succ,
        List.cons.injEq]
      exact iff_of_false (fun same => nomatch same.1) fun refused => refused.1 first
    · obtain ⟨reason, refused⟩ := @appendAlone_of_refuses _ file wal entry rest first
      rw [refused, List.map_cons, List.length_cons, List.replicate_succ, List.cons.injEq, ih,
        and_iff_right first]
      exact and_iff_right rfl

/-! ## Coupling -/

/-- The requests of a call do not affect each other exactly when the log takes all of them
together, or would take none of them. -/
theorem uncoupled_iff (file : String) (wal : LogicalWal) (batch : Batch config) :
    wal.Uncoupled file batch ↔
      wal.state.Accepts batch ∨ ∀ entry ∈ batch, ¬wal.state.Accepts [entry] := by
  by_cases accepts : wal.state.Accepts batch
  · refine iff_of_true ⟨?_, ?_⟩ (.inl accepts)
    · rw [appendEntries_of_accepts accepts, completeEntries_isOk]
      exact ((appendAlone_all wal batch).mpr accepts).symm
    · rintro ⟨outcome, member, failed⟩
      rw [appendEntries_of_accepts accepts] at member
      obtain ⟨-, -, rfl⟩ := List.mem_map.mp member
      cases failed
  · obtain ⟨reason, refused⟩ := @appendEntries_of_refuses _ file wal batch accepts
    rw [or_iff_right accepts, ← @appendAlone_none _ file]
    constructor
    · intro uncoupled
      have same := uncoupled.acknowledged
      rw [refused, completeEntries_isOk] at same
      exact same.symm
    · intro none
      refine ⟨?_, fun _ => by rw [refused]⟩
      rw [refused, completeEntries_isOk]
      exact none.symm

/-- An object with a thousand nulls. -/
def wideObject : Json := .object [("a", .array (List.replicate 1000 .null))]

/-- The smallest limit on records, and MessagePack on the empty object and the wide one. -/
def shortRecords : WalConfig where
  toMsgpack
    | .object [] => [0x80]
    | _ => [0x81, 0xa1, 0x61, 0xdc, 0x03, 0xe8] ++ List.replicate 1000 0xc0
  fromMsgpack bytes := if bytes = [0x80] then some (.object []) else some wideObject
  dump _ := []
  parse _ := none
  crc32 _ := 0
  crcEnabled := false
  maxRecordBytes := 1024

theorem shortRecords_encodes : encodeWalPayload shortRecords (.object []) ≠ [] := List.cons_ne_nil _ _

theorem shortRecords_decodes :
    decodeWalPayload shortRecords (encodeWalPayload shortRecords (.object [])) = some (.object []) := rfl

def shortEntry : PendingWalEntry shortRecords where
  op := .insert
  entry := .object []
  notMarker := insert_notMarker
  isObject := noMembers_isObject
  encodes := shortRecords_encodes
  decodes := shortRecords_decodes

def wideEntry : PendingWalEntry shortRecords where
  op := .insert
  entry := wideObject
  notMarker := insert_notMarker
  isObject := rfl
  encodes := List.cons_ne_nil 0x81 _
  decodes := rfl

/-- A request fails because of one that came in with it. -/
theorem wideEntry_coupled : ¬({} : LogicalWal).Uncoupled "events.wal" [(shortEntry, 0), (wideEntry, 0)] := by
  rw [uncoupled_iff]
  have tooWide : ¬FitsFrame wideEntry := by
    unfold FitsFrame
    decide +kernel
  have fits : FitsFrame shortEntry := by
    unfold FitsFrame
    decide
  rintro (together | none)
  · exact tooWide (together.1 (wideEntry, 0) (.tail _ (.head _)))
  · refine none (shortEntry, 0) (.head _) ⟨?_, ?_⟩
    · intro entry member
      rw [List.mem_singleton.mp member]
      exact fits
    · exact List.pairwise_pair.mpr fun known => absurd rfl known

end PacificDb.Wal
