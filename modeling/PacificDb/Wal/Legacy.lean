import PacificDb.Wal.Scan

/-!
# The legacy file of a log

Before the log had segments it was one file, either of frames like those of a
segment or of JSON text, a record a line. `scanWalFiles` still reads it before the
segments. Its records may leave out their LSN, and may skip some.
-/

namespace PacificDb.Wal

open Lib

/-! ## The record loop -/

/-- `looksLikeJsonLines`. -/
def looksLikeJsonLines (bytes : Bytes) : Bool :=
  match bytes.dropWhile isSpace with
  | [] => false
  | byte :: _ => byte == '{'.toUInt8 || byte == '['.toUInt8

/-- `readEntryLsn` for the legacy file: a record without a number takes the next. -/
def readLegacyLsn (entry : Json) (fallback : Nat) : Option Nat :=
  if entry.isObject then
    match entry.field? "_wal_lsn" <|> entry.field? "_wal_seq" with
    | none => some fallback
    | some value => value.asUInt64?
  else none

/-- The file takes the namespace of its first record that has one. -/
def ScannedWalFile.identify (file : ScannedWalFile) (identity : Nat) : Option ScannedWalFile :=
  if identity = 0 ∨ identity = file.identityHash then some file
  else if file.identityHash = 0 then some { file with identityHash := identity }
  else none

/-- A record is shown to the visitor. -/
def ScanState.visit (state : ScanState) (record : WalReplayRecord) : ScanState :=
  { state with records := state.records ++ [record], lastLsn := record.lsn }

def ScannedWalFile.pass (file : ScannedWalFile) (lsn validBytes : Nat) : ScannedWalFile :=
  { file with
    firstLsn := if file.firstLsn = 0 then lsn else file.firstLsn
    endLsn := lsn
    validBytes }

variable (config : WalConfig) (truncate : Nat → Int)

/-- The checks on a frame of the legacy file once its payload is decoded. -/
def legacyFrame (state : ScanState) (file : ScannedWalFile) (op : WalOp) (entry : Json)
    (validBytes : Nat) : Except String (ScanState × ScannedWalFile) :=
  match file.identify (walIdentityHash entry) with
  | none => .error "legacy WAL namespace identity changed"
  | some file =>
      match readLegacyLsn entry ((state.lastLsn + 1) % 2 ^ 64) with
      | none => .error "non-increasing WAL LSN or invalid segment boundary"
      | some lsn =>
          if lsn = 0 ∨ lsn ≤ state.lastLsn then
            .error "non-increasing WAL LSN or invalid segment boundary"
          else .ok (state.visit ⟨op, lsn, entry⟩, file.pass lsn validBytes)

/-- The record loop over frames. -/
def scanLegacyFrames (finalFile : Bool) :
    Nat → ScanState → ScannedWalFile → Bytes → Except ScanFailure (ScanState × ScannedWalFile)
  | 0, state, _, _ => .error ⟨.corrupt, "WAL scanner made no progress", state⟩
  | fuel + 1, state, file, bytes =>
      match readFrame config bytes with
      | .atEnd => .ok (state, file)
      | .cut error => .error (fileScanFailure finalFile state file error)
      | .invalid => .error ⟨.corrupt, "invalid WAL frame", state⟩
      | .frame op payload rest =>
          match decodeFramePayload config payload with
          | none => .error ⟨.corrupt, "invalid or checksummed WAL payload", state⟩
          | some entry =>
              match legacyFrame state file op entry (file.validBytes + (5 + payload.length)) with
              | .error error => .error ⟨.corrupt, error, state⟩
              | .ok (state, file) => scanLegacyFrames finalFile fuel state file rest

/-! ## JSON lines -/

/-- `get<uint64_t>()` on a number. A `float` is converted by the compiler, here
`truncate`. -/
def getNumber? (truncate : Nat → Int) : Json → Option Nat
  | .float bits => some (Json.wrapUInt64 (truncate bits))
  | value => value.asUInt64?

/-- `j.value(name, 0)` for an unsigned 64-bit integer. -/
def numberOr (truncate : Nat → Int) (entry : Json) (name : String) : Option Nat :=
  match entry.field? name with
  | none => some 0
  | some value => getNumber? truncate value

structure WALRecord where
  lsn : Nat
  txnId : Nat
  type : String
  payload : Json
  timestamp : Nat
  checksum : Nat
  isCommitted : Bool

/-- `WALRecord::fromJson`; none stands for the exception on a member of another type. -/
def WALRecord.fromJson (truncate : Nat → Int) (j : Json) : Option WALRecord := do
  let lsn ← numberOr truncate j "lsn"
  let txnId ← numberOr truncate j "txnId"
  let type ← stringMember? j "type"
  let timestamp ← numberOr truncate j "timestamp"
  -- An `unsigned int` can be read from a truth value too.
  let checksum ← match j.field? "checksum" with
    | some (.bool value) => some (if value then 1 else 0)
    | _ => numberOr truncate j "checksum"
  let isCommitted ← match j.field? "isCommitted" with
    | none => some false
    | some (.bool value) => some value
    | some _ => none
  some { lsn, txnId, type, payload := (j.field? "payload").getD .null, timestamp,
         checksum := checksum % 2 ^ 32, isCommitted }

def WALRecord.verifyChecksum (config : WalConfig) (record : WALRecord) : Bool :=
  let text := (toString record.lsn ++ toString record.txnId ++ record.type).toUTF8.toList ++
    config.dump record.payload ++
    (toString record.timestamp ++ if record.isCommitted then "1" else "0").toUTF8.toList
  (config.crc32 text).toNat == record.checksum

/-- The LSN of a line, 0 where it cannot be read. -/
def legacyLineLsn (state : ScanState) (wrapper entry : Json) : Nat :=
  match wrapper.field? "lsn" with
  | some value => (getNumber? truncate value).getD 0
  | none => (readLegacyLsn entry ((state.lastLsn + 1) % 2 ^ 64)).getD 0

/-- The checks on a line once it is parsed. -/
def legacyLine (state : ScanState) (file : ScannedWalFile) (wrapper : Json) (validBytes : Nat) :
    Except String (ScanState × ScannedWalFile) :=
  if !wrapper.isObject then .error "legacy WAL record is not an object"
  else
    let checked : Except String Unit :=
      if (wrapper.field? "checksum").isNone then .ok ()
      else
        match WALRecord.fromJson truncate wrapper with
        | none => .error "invalid legacy JSON WAL fields"
        | some record =>
            if record.checksum ≠ 0 ∧ !record.verifyChecksum config then
              .error "legacy JSON WAL checksum mismatch"
            else .ok ()
    match checked with
    | .error error => .error error
    | .ok () =>
        let entry := (wrapper.field? "payload").getD wrapper
        match file.identify (walIdentityHash entry) with
        | none => .error "legacy WAL namespace identity changed"
        | some file =>
            let lsn := legacyLineLsn truncate state wrapper entry
            if lsn = 0 ∨ lsn ≤ state.lastLsn ∨ !verifyWalPayloadCrc config entry then
              .error "invalid legacy WAL payload or LSN"
            else .ok (state.visit ⟨.insert, lsn, entry⟩, file.pass lsn validBytes)

/-- The record loop over lines, with the bytes before them. -/
def scanJsonLines (finalFile : Bool) :
    Nat → ScanState → ScannedWalFile → Nat → Bytes → Except ScanFailure (ScanState × ScannedWalFile)
  | 0, state, _, _, _ => .error ⟨.corrupt, "WAL scanner made no progress", state⟩
  | fuel + 1, state, file, before, bytes =>
      if bytes.isEmpty then .ok (state, file)
      else
        let line := bytes.takeWhile (· != 10)
        let rest := bytes.drop (line.length + 1)
        let after := before + min (line.length + 1) bytes.length
        if line.isEmpty then scanJsonLines finalFile fuel state file after rest
        else
          match config.parse line with
          | none =>
              -- Only a last line without its line end is forgiven.
              let atEof := line.length == bytes.length
              .error (fileScanFailure (finalFile && atEof) state file "invalid JSON WAL record")
          | some wrapper =>
              match legacyLine config truncate state file wrapper after with
              | .error error => .error ⟨.corrupt, error, state⟩
              | .ok (state, file) => scanJsonLines finalFile fuel state file after rest

/-- The legacy file, always the first one. -/
def scanLegacyFile (finalFile : Bool) (bytes : Bytes) :
    Except ScanFailure (ScanState × ScannedWalFile) :=
  let file : ScannedWalFile := { path := 0 }
  let scanned :=
    if looksLikeJsonLines bytes then
      scanJsonLines config truncate finalFile (bytes.length + 1) {} file 0 bytes
    else scanLegacyFrames config finalFile (bytes.length + 1) {} file bytes
  match scanned with
  | .error failure => .error failure
  | .ok (state, file) =>
      .ok ({ state with validBytes := state.validBytes + file.validBytes }, file)

/-! ## What a scan of the legacy file shows -/

/-- Records that grow in their LSNs up to the last one, which ends the file. -/
structure LegacyShown (state : ScanState) (file : ScannedWalFile) : Prop where
  previousSegmentId : state.previousSegmentId = 0
  segmentIdentity : state.segmentIdentity = 0
  files : state.files = []
  sorted : (state.records.map WalReplayRecord.lsn).Pairwise (· < ·)
  bounded : ∀ record ∈ state.records, 0 < record.lsn ∧ record.lsn ≤ state.lastLsn
  endLsn : file.endLsn = state.lastLsn
  none : state.lastLsn = 0 → state.records = []
  lastLsn_lt : state.lastLsn < 2 ^ 64
  identity_lt : file.identityHash < 2 ^ 64

variable {config truncate} {state after : ScanState} {file passed : ScannedWalFile}

theorem wrapUInt64_lt (value : Int) : Json.wrapUInt64 value < 2 ^ 64 := by
  rw [Json.wrapUInt64]
  have positive := Int.emod_nonneg value (by decide : (2 ^ 64 : Int) ≠ 0)
  have small := Int.emod_lt_of_pos value (by decide : (0 : Int) < 2 ^ 64)
  omega

theorem asUInt64?_lt {value : Json} {number : Nat} (reads : value.asUInt64? = some number) :
    number < 2 ^ 64 := by
  cases value with
  | integer value =>
    obtain rfl := Option.some.inj reads
    exact wrapUInt64_lt value
  | unsigned value =>
    obtain rfl := Option.some.inj reads
    exact wrapUInt64_lt value
  | _ => cases reads

theorem readLegacyLsn_lt {entry : Json} {fallback lsn : Nat} (small : fallback < 2 ^ 64)
    (reads : readLegacyLsn entry fallback = some lsn) : lsn < 2 ^ 64 := by
  unfold readLegacyLsn at reads
  split at reads
  · split at reads
    · obtain rfl := Option.some.inj reads
      exact small
    · exact asUInt64?_lt reads
  · cases reads

theorem getNumber?_lt {value : Json} {number : Nat}
    (reads : getNumber? truncate value = some number) : number < 2 ^ 64 := by
  unfold getNumber? at reads
  split at reads
  · obtain rfl := Option.some.inj reads
    exact wrapUInt64_lt _
  · exact asUInt64?_lt reads

theorem legacyLineLsn_lt (state : ScanState) (wrapper entry : Json) :
    legacyLineLsn truncate state wrapper entry < 2 ^ 64 := by
  unfold legacyLineLsn
  split
  next value _ =>
    cases reads : getNumber? truncate value with
    | none => exact Nat.two_pow_pos 64
    | some number => exact getNumber?_lt reads
  · cases reads : readLegacyLsn entry ((state.lastLsn + 1) % 2 ^ 64) with
    | none => exact Nat.two_pow_pos 64
    | some number => exact readLegacyLsn_lt (Nat.mod_lt _ (Nat.two_pow_pos 64)) reads

theorem LegacyShown.start : LegacyShown {} { path := 0 } where
  previousSegmentId := rfl
  segmentIdentity := rfl
  files := rfl
  sorted := .nil
  bounded _ member := nomatch member
  endLsn := rfl
  none _ := rfl
  lastLsn_lt := Nat.two_pow_pos 64
  identity_lt := Nat.two_pow_pos 64

theorem ScannedWalFile.identify_lt {identity : Nat} (small : file.identityHash < 2 ^ 64)
    (known : identity < 2 ^ 64) (done : file.identify identity = some passed) :
    passed.identityHash < 2 ^ 64 := by
  unfold ScannedWalFile.identify at done
  split at done
  · obtain rfl := Option.some.inj done
    exact small
  · split at done
    · obtain rfl := Option.some.inj done
      exact known
    · cases done

/-- One more record, with a larger LSN. -/
theorem LegacyShown.visit (shown : LegacyShown state file) {record : WalReplayRecord}
    {validBytes : Nat} (above : state.lastLsn < record.lsn) (small : record.lsn < 2 ^ 64)
    (identity : passed.identityHash < 2 ^ 64) :
    LegacyShown (state.visit record) (passed.pass record.lsn validBytes) where
  previousSegmentId := shown.previousSegmentId
  segmentIdentity := shown.segmentIdentity
  files := shown.files
  sorted := by
    have split : (state.visit record).records.map WalReplayRecord.lsn =
        state.records.map WalReplayRecord.lsn ++ [record.lsn] := List.map_append
    rw [split]
    refine List.pairwise_append.mpr ⟨shown.sorted, List.pairwise_singleton _ _, ?_⟩
    intro lsn member other isLast
    obtain ⟨earlier, isEarlier, rfl⟩ := List.mem_map.mp member
    rw [List.mem_singleton.mp isLast]
    exact (shown.bounded earlier isEarlier).2.trans_lt above
  bounded := by
    intro other member
    rcases List.mem_append.mp member with earlier | isLast
    · obtain ⟨positive, bounded⟩ := shown.bounded other earlier
      exact ⟨positive, bounded.trans above.le⟩
    · rw [List.mem_singleton.mp isLast]
      exact ⟨Nat.zero_lt_of_lt above, le_rfl⟩
  endLsn := rfl
  none zero := by
    have last : record.lsn = 0 := zero
    omega
  lastLsn_lt := small
  identity_lt := identity

theorem legacyFrame_shown {op : WalOp} {entry : Json} {validBytes : Nat}
    (shown : LegacyShown state file)
    (done : legacyFrame state file op entry validBytes = .ok (after, passed)) :
    LegacyShown after passed := by
  unfold legacyFrame at done
  split at done
  · cases done
  next identified same =>
    have identity := ScannedWalFile.identify_lt shown.identity_lt (walIdentityHash_lt entry) same
    split at done
    · cases done
    next lsn reads =>
      have small := readLegacyLsn_lt (Nat.mod_lt _ (Nat.two_pow_pos 64)) reads
      split at done
      · cases done
      next above =>
        cases done
        rw [not_or, Nat.not_le] at above
        exact shown.visit above.2 small identity

theorem legacyLine_shown {wrapper : Json} {validBytes : Nat} (shown : LegacyShown state file)
    (done : legacyLine config truncate state file wrapper validBytes = .ok (after, passed)) :
    LegacyShown after passed := by
  unfold legacyLine at done
  split at done
  · cases done
  · dsimp only at done
    split at done
    · cases done
    · split at done
      · cases done
      next identified same =>
        have identity := ScannedWalFile.identify_lt shown.identity_lt (walIdentityHash_lt _) same
        split at done
        · cases done
        next above =>
          cases done
          rw [not_or, not_or, Nat.not_le] at above
          exact shown.visit above.2.1 (legacyLineLsn_lt state wrapper _) identity

/-- A loop that ends well shows its records, and files after this one change nothing. -/
theorem scanLegacyFrames_ok {fuel : Nat} {bytes : Bytes} {finalFile : Bool}
    (shown : LegacyShown state file)
    (done : scanLegacyFrames config finalFile fuel state file bytes = .ok (after, passed)) :
    LegacyShown after passed ∧
      ∀ final, scanLegacyFrames config final fuel state file bytes = .ok (after, passed) := by
  induction fuel generalizing state file bytes with
  | zero => cases done
  | succ fuel ih =>
    rw [scanLegacyFrames] at done
    simp only [scanLegacyFrames]
    cases reads : readFrame config bytes with
    | atEnd =>
      rw [reads] at done
      cases done
      exact ⟨shown, fun _ => rfl⟩
    | cut error =>
      rw [reads] at done
      cases done
    | invalid =>
      rw [reads] at done
      cases done
    | frame op payload rest =>
      rw [reads] at done
      dsimp only at done ⊢
      cases decoded : decodeFramePayload config payload with
      | none =>
        rw [decoded] at done
        cases done
      | some entry =>
        rw [decoded] at done
        dsimp only at done ⊢
        cases checked : legacyFrame state file op entry
            (file.validBytes + (5 + payload.length)) with
        | error error =>
          rw [checked] at done
          cases done
        | ok next =>
          rw [checked] at done
          exact ih (legacyFrame_shown shown checked) done

theorem scanJsonLines_ok {fuel before : Nat} {bytes : Bytes} {finalFile : Bool}
    (shown : LegacyShown state file)
    (done : scanJsonLines config truncate finalFile fuel state file before bytes =
      .ok (after, passed)) :
    LegacyShown after passed ∧ ∀ final,
      scanJsonLines config truncate final fuel state file before bytes = .ok (after, passed) := by
  induction fuel generalizing state file before bytes with
  | zero => cases done
  | succ fuel ih =>
    rw [scanJsonLines] at done
    simp only [scanJsonLines]
    split at done
    next empty =>
      cases done
      exact ⟨shown, fun _ => if_pos empty⟩
    next more =>
      simp only [if_neg more]
      dsimp only at done
      split at done
      next blank =>
        simp only [if_pos blank]
        exact ih shown done
      next text =>
        simp only [if_neg text]
        cases parsed : config.parse (bytes.takeWhile (· != 10)) with
        | none =>
          rw [parsed] at done
          cases done
        | some wrapper =>
          rw [parsed] at done
          dsimp only at done ⊢
          cases checked : legacyLine config truncate state file wrapper
              (before + min ((bytes.takeWhile (· != 10)).length + 1) bytes.length) with
          | error error =>
            rw [checked] at done
            cases done
          | ok next =>
            rw [checked] at done
            exact ih (legacyLine_shown shown checked) done

/-- A legacy file that is read to its end as the only file. -/
theorem scanLegacyFile_ok {bytes : Bytes} {finalFile : Bool}
    (done : scanLegacyFile config truncate finalFile bytes = .ok (state, file)) :
    LegacyShown state file ∧
      ∀ final, scanLegacyFile config truncate final bytes = .ok (state, file) := by
  have finish {scanned : ScanState} {passed : ScannedWalFile} (shown : LegacyShown scanned passed) :
      LegacyShown { scanned with validBytes := scanned.validBytes + passed.validBytes } passed :=
    { shown with }
  unfold scanLegacyFile at done ⊢
  dsimp only at done ⊢
  by_cases lines : looksLikeJsonLines bytes = true
  · simp only [if_pos lines] at done ⊢
    split at done
    · cases done
    next scanned passed ends =>
      obtain ⟨shown, always⟩ := scanJsonLines_ok .start ends
      cases done
      exact ⟨finish shown, fun final => by rw [always final]⟩
  · simp only [if_neg lines] at done ⊢
    split at done
    · cases done
    next scanned passed ends =>
      obtain ⟨shown, always⟩ := scanLegacyFrames_ok .start ends
      cases done
      exact ⟨finish shown, fun final => by rw [always final]⟩

end PacificDb.Wal
