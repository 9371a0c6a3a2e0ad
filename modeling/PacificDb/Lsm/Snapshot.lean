import PacificDb.Lsm.Collection

/-!
# Installing a snapshot

`applySnapshot` unpacks the files of a snapshot into `.snapshot_tmp`, moves the user
directories of the root into `.snapshot_backup` and the unpacked ones into their
place, clears the memtables, and only then reads the index and the index catalogue of
the snapshot. A failure at any point makes it return false; nothing is moved back.
-/

namespace PacificDb.Lsm

/-- The `.lsm` directories below a user directory, by their path. -/
abbrev UserDir := List (String × LsmDir)

/-- What `applySnapshot` works on: the children of the root, and the memtables by
collection. -/
structure LsmRoot where
  children : List (String × UserDir) := []
  memory : List (String × Memtable) := []

/-- Children of the root that are not state of the LSM. -/
def isKept (name : String) : Bool :=
  ["raft", "logs", "backups", "security", "restores", "shard_map.json"].contains name ||
    name.toList.head? == some '.'

/-- `validateStorageIdentifier`. -/
def safeIdentifier (name : String) : Bool :=
  !name.toList.isEmpty && name != "." && name != ".." && decide (name.utf8ByteSize ≤ 255) &&
    !name.toList.contains '\x00' && !name.toList.contains '/' && !name.toList.contains '\\'

/-- The collections and their documents. -/
def LsmRoot.published (lsm : LsmRoot) : List (String × UserDir) × List (String × Memtable) :=
  (lsm.children.filter fun child => !isKept child.1, lsm.memory)

/-- The directories of the LSM have names that the engine gives. -/
def LsmRoot.Named (lsm : LsmRoot) : Prop :=
  ∀ child ∈ lsm.children, isKept child.1 = false → safeIdentifier child.1 = true

/-! ## The index catalogue -/

/-- What the code takes from the JSON library and the snapshot format: the directories
that the files of a payload unpack to, `dump`, `get<size_t>`, and the checksum. Every
part of the path of a file is validated when it is unpacked. -/
structure SnapshotConfig where
  unpack : Json → Except String (List (String × UserDir))
  unpack_safe : ∀ payload staged, unpack payload = .ok staged →
    ∀ child ∈ staged, safeIdentifier child.1 = true
  dump : Json → String
  toSize : Json → Option Nat
  crc32 : String → Nat

/-- `doc.value(name, "")`. -/
def stringMember (doc : Json) (name : String) : Except String String :=
  if !doc.isObject then .error "cannot use value()"
  else
    match doc.field? name with
    | none => .ok ""
    | some (.string text) => .ok text
    | some _ => .error "type must be string"

def SnapshotConfig.checksum (config : SnapshotConfig) (value : Json) : String :=
  toString (config.crc32 (config.dump value))

/-- The check of one catalogue of the section. -/
def checkCatalogEntry (config : SnapshotConfig) (entry : Json) : Except String Unit := do
  let userId ← stringMember entry "userId"
  let dbName ← stringMember entry "dbName"
  let collection ← stringMember entry "collection"
  match entry.field? "catalog" with
  | none => .error "snapshot index definition is malformed"
  | some catalog =>
      if userId.isEmpty || dbName.isEmpty || collection.isEmpty || !catalog.isObject then
        .error "snapshot index definition is malformed"
      else
        match catalog.field? "indexes" with
        | some (.array _) =>
            let expected ← stringMember entry "catalogEntryChecksum"
            if expected.isEmpty || expected != config.checksum catalog then
              .error "snapshot index catalog entry checksum invalid"
            else if !(safeIdentifier userId && safeIdentifier dbName && safeIdentifier collection) then
              .error "snapshot index identifier"
            else .ok ()
        | _ => .error "snapshot index definition has no index array"

/-- The check of the whole section, with the number of catalogues to write. -/
def checkIndexCatalog (config : SnapshotConfig) (payload : Json) : Except String Nat :=
  match payload.field? "index_catalog" with
  | none => .ok 0
  | some (.array catalogs) => do
      let expected ← stringMember payload "index_catalog_checksum"
      if expected.isEmpty || expected != config.checksum (.array catalogs) then
        .error "snapshot index_catalog checksum invalid"
      else
        match payload.field? "index_catalog_count" with
        | some count =>
            match config.toSize count with
            | none => .error "type must be number"
            | some count =>
                if count ≠ catalogs.length then .error "snapshot index_catalog count mismatch"
                else do
                  catalogs.forM (checkCatalogEntry config)
                  return catalogs.length
        | none => do
            catalogs.forM (checkCatalogEntry config)
            return catalogs.length
  | some _ => .error "snapshot index_catalog section is malformed"

/-- `payload.value("lastIncludedIndex", 0)`. -/
def lastIncludedIndex (config : SnapshotConfig) (payload : Json) : Except String Nat :=
  match payload.field? "lastIncludedIndex" with
  | none => .ok 0
  | some index => (config.toSize index).elim (.error "type must be number") .ok

/-- What is read of the payload behind the swap: its index, then the section. -/
def readRecovery (config : SnapshotConfig) (payload : Json) : Except String Nat :=
  match lastIncludedIndex config payload with
  | .error reason => .error reason
  | .ok _ => checkIndexCatalog config payload

/-! ## The swap -/

/-- The call that fails, if one does. A move of a directory that fails may leave part
of it behind, or part of its copy. -/
inductive SnapshotFault where
  | none
  | staging
  | backup
  | moveOut (after : Nat) (left : Option UserDir)
  | moveIn (after : Nat) (part : Option UserDir)
  | cleanup
  | removeWals
  | loadSchemas
  | writeCatalog (after : Nat)

/-- Move the user directories into the backup: what stays in the root, and whether
the loop got through. -/
def moveOut (fault : SnapshotFault) : Nat → List (String × UserDir) → List (String × UserDir) × Bool
  | _, [] => ([], true)
  | moved, child :: rest =>
      if isKept child.1 then
        let (left, done) := moveOut fault moved rest
        (child :: left, done)
      else if !safeIdentifier child.1 then (child :: rest, false)
      else
        match fault with
        | .moveOut after left =>
            if after = moved then ((child.1, left.getD child.2) :: rest, false)
            else moveOut fault (moved + 1) rest
        | _ => moveOut fault (moved + 1) rest

def setChild (children : List (String × UserDir)) (child : String × UserDir) :
    List (String × UserDir) :=
  children.filter (fun other => other.1 != child.1) ++ [child]

/-- Move the unpacked directories into the root. -/
def moveIn (fault : SnapshotFault) :
    Nat → List (String × UserDir) → List (String × UserDir) → List (String × UserDir) × Bool
  | _, [], children => (children, true)
  | moved, child :: rest, children =>
      if !safeIdentifier child.1 then (children, false)
      else
        match fault with
        | .moveIn after part =>
            if after = moved then
              (match part with
                | some part => setChild children (child.1, part)
                | none => children, false)
            else moveIn fault (moved + 1) rest (setChild children child)
        | _ => moveIn fault (moved + 1) rest (setChild children child)

/-- What follows the swap: the memtables go, then the files of the WAL, then the
schemas and the index are read and the index catalogue is checked and written. -/
def finishSnapshot (config : SnapshotConfig) (fault : SnapshotFault) (payload : Json)
    (lsm : LsmRoot) : LsmRoot × Bool :=
  match fault, readRecovery config payload with
  | .cleanup, _ => (lsm, false)
  | .removeWals, _ | .loadSchemas, _ | _, .error _ => ({ lsm with memory := [] }, false)
  | .writeCatalog after, .ok count => ({ lsm with memory := [] }, decide (count ≤ after))
  | _, .ok _ => ({ lsm with memory := [] }, true)

/-- `LSM::applySnapshot`. -/
def applySnapshot (config : SnapshotConfig) (fault : SnapshotFault) (payload : Json)
    (lsm : LsmRoot) : LsmRoot × Bool :=
  if !payload.isObject then (lsm, false)
  else
    match config.unpack payload, fault with
    | .error _, _ | _, .staging | _, .backup => (lsm, false)
    | .ok staged, _ =>
        match moveOut fault 0 lsm.children with
        | (left, false) => ({ lsm with children := left }, false)
        | (left, true) =>
            match moveIn fault 0 staged left with
            | (children, false) => ({ lsm with children }, false)
            | (children, true) => finishSnapshot config fault payload { lsm with children }

/-! ## When a failure changes nothing -/

/-- The call fails before a directory has been moved. -/
def FailsEarly (config : SnapshotConfig) (fault : SnapshotFault) (payload : Json) : Prop :=
  payload.isObject = false ∨ (∃ reason, config.unpack payload = .error reason) ∨
    fault = .staging ∨ fault = .backup

/-- The call fails behind the swap, or within it after a first directory has been
moved or damaged. -/
def FailsLate (config : SnapshotConfig) (fault : SnapshotFault) (payload : Json)
    (staged : List (String × UserDir)) : Prop :=
  (∃ reason, readRecovery config payload = .error reason) ∨
    match fault with
    | .none | .staging | .backup => False
    | .moveOut after left => after ≠ 0 ∨ left.isSome = true
    | .moveIn after _ => after < staged.length
    | .cleanup | .removeWals | .loadSchemas => True
    | .writeCatalog after => ∃ count, readRecovery config payload = .ok count ∧ after < count

/-- A call that returns false leaves every collection as it is. -/
def FailureChangesNothing (config : SnapshotConfig) (fault : SnapshotFault) (payload : Json) : Prop :=
  ∀ lsm : LsmRoot, lsm.Named → (applySnapshot config fault payload lsm).2 = false →
    (applySnapshot config fault payload lsm).1.published = lsm.published

section Swap

variable {config : SnapshotConfig} {fault : SnapshotFault} {payload : Json}
  {staged children : List (String × UserDir)}

theorem applySnapshot_early (early : FailsEarly config fault payload) (lsm : LsmRoot) :
    applySnapshot config fault payload lsm = (lsm, false) := by
  unfold applySnapshot
  rcases early with text | ⟨reason, failed⟩ | rfl | rfl
  · rw [text]
    rfl
  · rw [failed]
    split <;> rfl
  · split
    · rfl
    · cases config.unpack payload <;> rfl
  · split
    · rfl
    · cases config.unpack payload <;> rfl

theorem applySnapshot_staged (late : ¬FailsEarly config fault payload) :
    ∃ staged, config.unpack payload = .ok staged ∧ ∀ lsm : LsmRoot,
      applySnapshot config fault payload lsm =
        match moveOut fault 0 lsm.children with
        | (left, false) => ({ lsm with children := left }, false)
        | (left, true) =>
            match moveIn fault 0 staged left with
            | (children, false) => ({ lsm with children }, false)
            | (children, true) => finishSnapshot config fault payload { lsm with children } := by
  simp only [FailsEarly, not_or, Bool.not_eq_false, not_exists] at late
  obtain ⟨object, unpacks, notStaging, notBackup⟩ := late
  cases unpacked : config.unpack payload with
  | error reason => exact absurd unpacked (unpacks reason)
  | ok staged =>
    refine ⟨staged, rfl, fun lsm => ?_⟩
    unfold applySnapshot
    rw [object, unpacked]
    cases fault with
    | staging => exact absurd rfl notStaging
    | backup => exact absurd rfl notBackup
    | _ => rfl

/-- Directories with valid names all move, unless a move fails. -/
theorem moveOut_done {moved : Nat}
    (named : ∀ child ∈ children, isKept child.1 = false → safeIdentifier child.1 = true)
    (works : ∀ after left, fault ≠ .moveOut after left) :
    moveOut fault moved children = (children.filter fun child => isKept child.1, true) := by
  induction children generalizing moved with
  | nil => rfl
  | cons child rest ih =>
    obtain ⟨first, named⟩ := List.forall_mem_cons.mp named
    unfold moveOut
    split
    next kept => rw [ih named, List.filter_cons, if_pos kept]
    next data =>
      rw [first (Bool.eq_false_of_not_eq_true data), Bool.not_true, if_neg Bool.false_ne_true,
        List.filter_cons, if_neg data]
      split
      next after left => exact absurd rfl (works after left)
      next => exact ih named

/-- A first move that fails and leaves its directory alone changes nothing. -/
theorem moveOut_first
    (named : ∀ child ∈ children, isKept child.1 = false → safeIdentifier child.1 = true) :
    moveOut (.moveOut 0 none) 0 children = (children, false) ∨
      moveOut (.moveOut 0 none) 0 children = (children.filter fun child => isKept child.1, true) := by
  induction children with
  | nil => exact .inr rfl
  | cons child rest ih =>
    obtain ⟨first, named⟩ := List.forall_mem_cons.mp named
    unfold moveOut
    split
    next kept =>
      rw [List.filter_cons, if_pos kept]
      rcases ih named with same | same
      · rw [same]
        exact .inl rfl
      · rw [same]
        exact .inr rfl
    next data =>
      rw [first (Bool.eq_false_of_not_eq_true data), Bool.not_true, if_neg Bool.false_ne_true]
      exact .inl rfl

theorem moveOut_replicate {name : String} {dir : UserDir} {left : Option UserDir} {moved after : Nat}
    (data : isKept name = false) (safe : safeIdentifier name = true) (below : moved ≤ after) :
    moveOut (.moveOut after left) moved (List.replicate (after + 1 - moved) (name, dir)) =
      ([(name, left.getD dir)], false) := by
  induction below using Nat.decreasingInduction with
  | self =>
    rw [Nat.add_sub_cancel_left]
    unfold moveOut
    simp [data, safe]
  | of_succ moved below ih =>
    have more : after + 1 - moved = after + 1 - (moved + 1) + 1 := by omega
    have ne : after ≠ moved := by omega
    rw [more, List.replicate_succ]
    unfold moveOut
    simp only [data, safe, ne, ih, Bool.not_true, Bool.false_eq_true, if_false]

theorem moveIn_done {moved : Nat} (safe : ∀ child ∈ staged, safeIdentifier child.1 = true)
    (works : ∀ after part, fault = .moveIn after part → moved + staged.length ≤ after) :
    ∃ after, moveIn fault moved staged children = (after, true) := by
  induction staged generalizing moved children with
  | nil => exact ⟨children, rfl⟩
  | cons child rest ih =>
    obtain ⟨first, safe⟩ := List.forall_mem_cons.mp safe
    rw [List.length_cons] at works
    unfold moveIn
    rw [first, Bool.not_true, if_neg Bool.false_ne_true]
    split
    next after part =>
      have far := works after part rfl
      rw [if_neg (by omega)]
      refine ih safe fun other otherPart same => ?_
      cases same
      omega
    next other => exact ih safe fun after part same => (other after part same).elim

theorem moveIn_stopped {moved after : Nat} {part : Option UserDir}
    (safe : ∀ child ∈ staged, safeIdentifier child.1 = true)
    (inside : moved ≤ after ∧ after < moved + staged.length) :
    ∃ left, moveIn (.moveIn after part) moved staged children = (left, false) := by
  induction staged generalizing moved children with
  | nil =>
    rw [List.length_nil] at inside
    omega
  | cons child rest ih =>
    obtain ⟨first, safe⟩ := List.forall_mem_cons.mp safe
    rw [List.length_cons] at inside
    unfold moveIn
    rw [first, Bool.not_true, if_neg Bool.false_ne_true]
    dsimp only
    split
    · exact ⟨_, rfl⟩
    · exact ih safe (by omega)

/-- A move out of the root that is not a late failure is the first one and leaves its
directory alone. -/
theorem first_of_not_failsLate {after : Nat} {left : Option UserDir}
    (notLate : ¬FailsLate config (.moveOut after left) payload staged) : after = 0 ∧ left = none := by
  unfold FailsLate at notLate
  rw [not_or] at notLate
  have first := notLate.2
  dsimp only at first
  rwa [not_or, not_not, Bool.not_eq_true, Option.isSome_eq_false_iff, Option.isNone_iff_eq_none] at first

theorem finishSnapshot_ok (notLate : ¬FailsLate config fault payload staged) (lsm : LsmRoot) :
    (finishSnapshot config fault payload lsm).2 = true := by
  unfold FailsLate at notLate
  rw [not_or] at notLate
  obtain ⟨checks, fine⟩ := notLate
  unfold finishSnapshot
  cases checked : readRecovery config payload with
  | error reason => exact absurd ⟨reason, checked⟩ checks
  | ok count =>
    cases fault with
    | cleanup => exact absurd trivial fine
    | removeWals => exact absurd trivial fine
    | loadSchemas => exact absurd trivial fine
    | writeCatalog after =>
      refine decide_eq_true (not_lt.mp fun short => fine ⟨count, checked, short⟩)
    | _ => rfl

/-- A failure behind the first directory: some collections are not what they were. -/
theorem changed_of_failsLate (unpacked : config.unpack payload = .ok staged)
    (notEarly : ¬FailsEarly config fault payload) (late : FailsLate config fault payload staged) :
    ¬FailureChangesNothing config fault payload := by
  obtain ⟨other, again, shape⟩ := applySnapshot_staged notEarly
  obtain rfl : staged = other := Except.ok.inj (unpacked.symm.trans again)
  have safe := config.unpack_safe payload staged unpacked
  intro unchanged
  -- Two stores that end up with the same directories were not the same before.
  have sameEnd : ∀ left, (∀ children memory, moveOut fault 0 children = ([], true) →
      applySnapshot config fault payload { children, memory } = ({ children := left, memory }, false)) →
      (∀ after left, fault ≠ .moveOut after left) → False := by
    intro left result works
    have named : ∀ child ∈ [("u", ([] : UserDir))], isKept child.1 = false →
        safeIdentifier child.1 = true := by decide
    have moved := @moveOut_done fault [("u", [])] 0 named works
    have first := result [] [] rfl
    have second := result [("u", [])] [] moved
    have none := unchanged {} (by rintro child ⟨⟩) (by rw [first])
    have one := unchanged { children := [("u", [])] } named (by rw [second])
    rw [first] at none
    rw [second] at one
    have same := congrArg (fun published => published.1.length) (none.symm.trans one)
    revert same
    decide
  -- A memtable is gone once the swap is through.
  have cleared : (∃ after, moveIn fault 0 staged [] = (after, true)) →
      (∀ lsm, finishSnapshot config fault payload lsm = ({ lsm with memory := [] }, false)) → False := by
    rintro ⟨after, arrived⟩ finish
    have result : applySnapshot config fault payload { memory := [("m", ∅)] } =
        ({ children := after }, false) := by
      rw [shape]
      unfold moveOut
      dsimp only
      rw [arrived]
      exact finish _
    have same := unchanged { memory := [("m", ∅)] } (by rintro child ⟨⟩) (by rw [result])
    rw [result] at same
    cases congrArg Prod.snd same
  cases fault with
  | staging => exact notEarly (.inr (.inr (.inl rfl)))
  | backup => exact notEarly (.inr (.inr (.inr rfl)))
  | cleanup =>
    obtain ⟨after, arrived⟩ := @moveIn_done .cleanup staged [] 0 safe nofun
    refine sameEnd after (fun children memory moved => ?_) nofun
    rw [shape, moved]
    dsimp only
    rw [arrived]
    rfl
  | removeWals => exact cleared (moveIn_done safe nofun) fun _ => rfl
  | loadSchemas => exact cleared (moveIn_done safe nofun) fun _ => rfl
  | none =>
    obtain ⟨reason, invalid⟩ := late.resolve_right id
    refine cleared (moveIn_done safe nofun) fun _ => ?_
    unfold finishSnapshot
    rw [invalid]
  | writeCatalog after =>
    refine cleared (moveIn_done safe nofun) fun _ => ?_
    rcases late with ⟨reason, invalid⟩ | ⟨count, valid, short⟩
    · unfold finishSnapshot
      rw [invalid]
    · unfold finishSnapshot
      rw [valid]
      dsimp only
      rw [decide_eq_false (not_le.mpr short)]
  | moveIn after part =>
    by_cases inside : after < staged.length
    · obtain ⟨left, stopped⟩ := @moveIn_stopped staged [] 0 after part safe (by omega)
      refine sameEnd left (fun children memory moved => ?_) nofun
      rw [shape, moved]
      dsimp only
      rw [stopped]
    · obtain ⟨reason, invalid⟩ := late.resolve_right inside
      refine cleared (moveIn_done safe fun other otherPart same => ?_) fun _ => ?_
      · cases same
        omega
      · unfold finishSnapshot
        rw [invalid]
  | moveOut after left =>
    -- The move of the last of so many directories fails.
    have stopped : ∀ dir : UserDir, (after = 0 → left.getD dir = dir) ∧ after = 0 := by
      intro dir
      have data : isKept "u" = false := by decide
      have named : safeIdentifier "u" = true := by decide
      have moved := @moveOut_replicate "u" dir left 0 after data named (Nat.zero_le _)
      rw [Nat.sub_zero] at moved
      have result : applySnapshot config (.moveOut after left) payload
          { children := List.replicate (after + 1) ("u", dir) } =
            ({ children := [("u", left.getD dir)] }, false) := by
        rw [shape]
        dsimp only
        rw [moved]
      have same := unchanged { children := List.replicate (after + 1) ("u", dir) }
        (fun child member _ => (List.mem_replicate.mp member).2 ▸ named) (by rw [result])
      rw [result] at same
      have dirs : [("u", left.getD dir)] = List.replicate (after + 1) ("u", dir) := by
        have first := congrArg Prod.fst same
        dsimp only [LsmRoot.published] at first
        rw [List.filter_cons_of_pos (by rw [data]; rfl), List.filter_nil,
          List.filter_replicate_of_pos (by rw [data]; rfl)] at first
        exact first
      have size := congrArg List.length dirs
      rw [List.length_singleton, List.length_replicate] at size
      refine ⟨fun first => ?_, by omega⟩
      rw [first, List.replicate_succ, List.cons.injEq, Prod.mk.injEq] at dirs
      exact dirs.1.2
    rcases late with ⟨reason, invalid⟩ | moved | damaged
    · refine cleared (moveIn_done safe nofun) fun _ => ?_
      unfold finishSnapshot
      rw [invalid]
    · exact moved (stopped []).2
    · obtain ⟨part, isLeft⟩ := Option.isSome_iff_exists.mp damaged
      obtain ⟨intact, first⟩ := stopped (("x", ∅) :: part)
      have same := intact first
      rw [isLeft] at same
      exact List.cons_ne_self _ _ same.symm

/-- Once the old directories are out of the way, only a late failure stops the call. -/
theorem applySnapshot_of_moveOut {lsm : LsmRoot} {left : List (String × UserDir)}
    (notEarly : ¬FailsEarly config fault payload)
    (notLate : ∀ staged, config.unpack payload = .ok staged → ¬FailsLate config fault payload staged)
    (moved : moveOut fault 0 lsm.children = (left, true)) :
    (applySnapshot config fault payload lsm).2 = true := by
  obtain ⟨staged, unpacked, shape⟩ := applySnapshot_staged notEarly
  have notLate := notLate staged unpacked
  have fits : ∀ after part, fault = .moveIn after part → 0 + staged.length ≤ after := by
    intro after part isFault
    unfold FailsLate at notLate
    rw [not_or, isFault] at notLate
    rw [Nat.zero_add]
    exact not_lt.mp notLate.2
  obtain ⟨after, arrived⟩ := @moveIn_done fault staged left 0
    (config.unpack_safe payload staged unpacked) fits
  rw [shape, moved]
  dsimp only
  rw [arrived]
  exact finishSnapshot_ok notLate _

theorem failureChangesNothing_iff : FailureChangesNothing config fault payload ↔
    FailsEarly config fault payload ∨
      ∀ staged, config.unpack payload = .ok staged → ¬FailsLate config fault payload staged := by
  constructor
  · intro unchanged
    by_cases early : FailsEarly config fault payload
    · exact .inl early
    · exact .inr fun staged unpacked late => changed_of_failsLate unpacked early late unchanged
  · intro condition lsm named failed
    by_cases early : FailsEarly config fault payload
    · rw [applySnapshot_early early]
    · have notLate := condition.resolve_left early
      by_cases stops : ∃ after left, fault = .moveOut after left
      · obtain ⟨after, left, isFault⟩ := stops
        obtain ⟨staged, unpacked, shape⟩ := applySnapshot_staged early
        obtain ⟨rfl, rfl⟩ := first_of_not_failsLate (isFault ▸ notLate staged unpacked)
        rcases moveOut_first named with same | moved
        · rw [shape, isFault, same]
        · rw [applySnapshot_of_moveOut early notLate (isFault ▸ moved)] at failed
          cases failed
      · have moved := @moveOut_done fault lsm.children 0 named fun after left isFault => stops ⟨after, left, isFault⟩
        rw [applySnapshot_of_moveOut early notLate moved] at failed
        cases failed

end Swap

end PacificDb.Lsm
