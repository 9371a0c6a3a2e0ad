import PacificDb.Engine.Stamp
import PacificDb.Lib.SortedMap
import Mathlib.Algebra.Order.BigOperators.Group.List

/-!
# Progress of a media upload

The progress of an upload is not stored as such: it is computed from the manifest and from
the rows of the chunks that arrived. The rows are put in a map by their index, where a
second row of an index must repeat the first, and two loops go through the map and through
the indexes.

The progress depends on the set of the rows only (`reconstructMediaProgress_spec`).
-/

namespace PacificDb.Media

open Lib Engine

/-! ## The code -/

/-- What the media functions throw: an error of their own, or one of a call. -/
inductive Refusal where
  | invalidArgument (message : String)
  | runtimeError (message : String)
  | other (thrown : Thrown)
  deriving DecidableEq

inductive MediaState where
  | uploading
  | verifying
  | ready
  | failed
  | aborted
  deriving DecidableEq

def parseMediaState (value : String) : Except Refusal MediaState :=
  match value with
  | "uploading" => .ok .uploading
  | "verifying" => .ok .verifying
  | "ready" => .ok .ready
  | "failed" => .ok .failed
  | "aborted" => .ok .aborted
  | _ => .error (.invalidArgument ("unknown media state: " ++ value))

/-- `get<std::string>()`. -/
def getString : Json → Except Thrown String
  | .string value => .ok value
  | _ => .error (.typeError 302)

/-- `get<int>()`. -/
def getInt32 (truncateInt : Nat → Int) : Json → Except Thrown Int
  | .unsigned value => .ok (Int.bmod value (2 ^ 32))
  | .integer value => .ok (Int.bmod value (2 ^ 32))
  | .float bits => .ok (truncateInt bits)
  | .bool value => .ok (if value then 1 else 0)
  | _ => .error (.typeError 302)

/-- `doc.value(name, default)` among refusals. -/
def valueOf {α : Type} (doc : Json) (name : String) (get : Json → Except Thrown α) (default : α) :
    Except Refusal α :=
  (valueOr doc name get default).mapError .other

structure MediaProgress where
  stateVersion : Int
  receivedChunks : Int
  receivedBytes : Int
  nextMissingIndex : Int
  leaseExpiresAtMs : Int
  receivedIndices : List Int
  deriving DecidableEq

/-- What the progress takes from the manifest. -/
structure MediaLimits where
  chunkCount : Int
  sizeBytes : Int
  stateVersion : Int
  leaseExpiresAtMs : Int

structure ChunkIdentity where
  size : Int
  sha256 : String
  deriving DecidableEq

/-- `std::numeric_limits<long long>::max()`. -/
def int64Max : Int := 2 ^ 63 - 1

section

variable (truncate truncateInt : Nat → Int)

/-- The lease of a manifest, zero without one. -/
def readLease (manifest : Json) : Except Refusal Int :=
  match manifest.field? "lease_expires_at_ms" with
  | none => .ok 0
  | some _ => do
      let leaseExpiresAtMs ← valueOf manifest "lease_expires_at_ms" (getInt64 truncate) 0
      ensure (0 < leaseExpiresAtMs) (.invalidArgument "media lease expiry must be positive")
      return leaseExpiresAtMs

/-- The checks of the manifest. -/
def readManifest (manifest : Json) : Except Refusal MediaLimits := do
  ensure manifest.isObject (.invalidArgument "media manifest must be an object")
  let status ← valueOf manifest "status" getString ""
  let _ ← parseMediaState status
  let chunkCount ← valueOf manifest "chunk_count" (getInt64 truncate) (-1)
  let sizeBytes ← valueOf manifest "size_bytes" (getInt64 truncate) (-1)
  ensure (0 < chunkCount && 0 ≤ sizeBytes) (.invalidArgument "media manifest limits are invalid")
  let stateVersion ← valueOf manifest "state_version" (getInt32 truncateInt) 1
  ensure (1 ≤ stateVersion && stateVersion ≤ 2) (.invalidArgument "unsupported media state version")
  let leaseExpiresAtMs ← readLease truncate manifest
  return ⟨chunkCount, sizeBytes, stateVersion, leaseExpiresAtMs⟩

/-- What the row of a chunk says. -/
def readChunkRow (chunkCount : Int) (chunk : Json) : Except Refusal (Int × ChunkIdentity) := do
  ensure chunk.isObject (.invalidArgument "media chunk metadata must be an object")
  let index ← valueOf chunk "index" (getInt64 truncate) (-1)
  let chunkBytes ← valueOf chunk "size_bytes" (getInt64 truncate) (-1)
  let sha256 ← valueOf chunk "sha256" getString ""
  ensure (0 ≤ index && index < chunkCount && 0 ≤ chunkBytes)
    (.invalidArgument "media chunk progress is out of range")
  return (index, ⟨chunkBytes, sha256⟩)

/-- `durable.emplace`, after which an index that was there must have the same identity. -/
def emplaceChunk (durable : SortedMap Int ChunkIdentity) (index : Int) (identity : ChunkIdentity) :
    Except Refusal (SortedMap Int ChunkIdentity) :=
  match durable.find? index with
  | none => .ok (durable.assign index identity)
  | some stored =>
      if stored.size ≠ identity.size ∨ stored.sha256 ≠ identity.sha256 then
        .error (.invalidArgument "conflicting duplicate media chunk metadata")
      else .ok durable

def addChunk (chunkCount : Int) (durable : SortedMap Int ChunkIdentity) (chunk : Json) :
    Except Refusal (SortedMap Int ChunkIdentity) := do
  let row ← readChunkRow truncate chunkCount chunk
  emplaceChunk durable row.1 row.2

/-- One pass of the loop that adds up the sizes. -/
def addIdentity (sizeBytes : Int) (received : Int × List Int) (entry : Int × ChunkIdentity) :
    Except Refusal (Int × List Int) :=
  if int64Max - received.1 < entry.2.size then
    .error (.invalidArgument "media progress size overflow")
  else if sizeBytes < received.1 + entry.2.size then
    .error (.invalidArgument "media progress exceeds manifest size")
  else .ok (received.1 + entry.2.size, received.2 ++ [entry.1])

/-- The loop that looks for the first index that is missing, with the passes that are left. -/
def nextMissing (durable : SortedMap Int ChunkIdentity) (chunkCount : Int) : Nat → Int → Int
  | 0, _ => chunkCount
  | remaining + 1, index =>
      match durable.find? index with
      | none => index
      | some _ => nextMissing durable chunkCount remaining (index + 1)

/-- The progress that a map of chunks stands for. -/
def progressOf (limits : MediaLimits) (durable : SortedMap Int ChunkIdentity) :
    Except Refusal MediaProgress := do
  let received ← durable.entries.foldlM (addIdentity limits.sizeBytes) (0, [])
  return {
    stateVersion := limits.stateVersion
    receivedChunks := durable.entries.length
    receivedBytes := received.1
    nextMissingIndex := nextMissing durable limits.chunkCount limits.chunkCount.toNat 0
    leaseExpiresAtMs := limits.leaseExpiresAtMs
    receivedIndices := received.2 }

/-- `reconstructMediaProgress`, which does not look at the time. -/
def reconstructMediaProgress (manifest : Json) (chunks : List Json) (_nowMs : Int) :
    Except Refusal MediaProgress := do
  let limits ← readManifest truncate truncateInt manifest
  let durable ← chunks.foldlM (addChunk truncate limits.chunkCount) SortedMap.empty
  progressOf limits durable

end

/-! ## The map of chunks -/

variable {truncate truncateInt : Nat → Int} {chunkCount sizeBytes : Int} {chunks others : List Json}
  {durable other : SortedMap Int ChunkIdentity} {manifest : Json}

/-- What a pass adds: the row of the chunk, which is new or there already. -/
theorem addChunk_eq_ok {chunk : Json} : addChunk truncate chunkCount durable chunk = .ok other ↔
    ∃ row, readChunkRow truncate chunkCount chunk = .ok row ∧ ∀ index identity,
      other.find? index = some identity ↔ durable.find? index = some identity ∨ row = (index, identity) := by
  rw [addChunk, bind_eq_ok]
  refine exists_congr fun row => and_congr_right fun _ => ?_
  rw [emplaceChunk]
  obtain ⟨place, own⟩ := row
  cases stored : durable.find? place with
  | none =>
    have assigned : ∀ index identity, (durable.assign place own).find? index = some identity ↔
        durable.find? index = some identity ∨ (place, own) = (index, identity) := by
      intro index identity
      rw [SortedMap.find?_assign]
      by_cases here : index = place
      · simp [here, stored]
      · simp [here, Ne.symm here]
    constructor
    · intro isOk
      cases isOk
      exact assigned
    · intro same
      apply congrArg Except.ok
      apply SortedMap.ext_find?
      intro index
      apply Option.ext
      intro identity
      rw [assigned, same]
  | some there =>
    have identityEq : (¬ (there.size ≠ own.size ∨ there.sha256 ≠ own.sha256)) ↔ there = own := by
      cases there
      cases own
      simp
    by_cases same : there = own
    · have kept : ∀ index identity, durable.find? index = some identity ↔
          durable.find? index = some identity ∨ (place, own) = (index, identity) := by
        intro index identity
        refine ⟨.inl, fun either => ?_⟩
        rcases either with old | isRow
        · exact old
        · cases isRow
          rw [stored, same]
      dsimp only
      rw [if_neg (identityEq.mpr same)]
      constructor
      · intro isOk
        cases isOk
        exact kept
      · intro all
        apply congrArg Except.ok
        apply SortedMap.ext_find?
        intro index
        apply Option.ext
        intro identity
        rw [kept, all]
    · dsimp only
      rw [if_pos (not_not.mp fun not => same (identityEq.mp not))]
      refine iff_of_false (fun impossible => by cases impossible) fun all => same ?_
      have first := (all place there).mpr (.inl stored)
      have second := (all place own).mpr (.inr rfl)
      rw [first] at second
      exact Option.some.inj second

/-- The map of the chunks has their rows, each of which can be read. -/
theorem foldlM_addChunk_eq_ok :
    chunks.foldlM (addChunk truncate chunkCount) durable = .ok other ↔
      (∀ chunk ∈ chunks, ∃ row, readChunkRow truncate chunkCount chunk = .ok row) ∧
      ∀ index identity, other.find? index = some identity ↔ durable.find? index = some identity ∨
        ∃ chunk ∈ chunks, readChunkRow truncate chunkCount chunk = .ok (index, identity) := by
  induction chunks generalizing durable with
  | nil =>
    rw [List.foldlM_nil, pure_eq_ok]
    constructor
    · intro same
      simp [same]
    · intro all
      apply SortedMap.ext_find?
      intro index
      apply Option.ext
      intro identity
      simpa using ((all.2 index identity).symm)
  | cons chunk rest ih =>
    rw [List.foldlM_cons, bind_eq_ok]
    simp only [ih, addChunk_eq_ok]
    constructor
    · intro run
      obtain ⟨middle, ⟨row, isRow, added⟩, readable, all⟩ := run
      refine ⟨List.forall_mem_cons.mpr ⟨⟨row, isRow⟩, readable⟩, fun index identity => ?_⟩
      rw [all, added]
      simp [isRow, or_assoc]
    · intro whole
      obtain ⟨readable, all⟩ := whole
      obtain ⟨⟨row, isRow⟩, readable⟩ := List.forall_mem_cons.mp readable
      -- The step does not refuse, since the map at the end has one identity for an index.
      have step : ∃ middle, addChunk truncate chunkCount durable chunk = .ok middle := by
        rw [addChunk, isRow]
        change ∃ middle, emplaceChunk durable row.1 row.2 = .ok middle
        rw [emplaceChunk]
        cases stored : durable.find? row.1 with
        | none => exact ⟨_, rfl⟩
        | some there =>
          have first := (all row.1 there).mpr (.inl stored)
          have second := (all row.1 row.2).mpr (.inr ⟨chunk, .head _, isRow⟩)
          rw [first] at second
          rw [Option.some.inj second]
          exact ⟨durable, by simp⟩
      obtain ⟨middle, isMiddle⟩ := step
      obtain ⟨found, isFound, added⟩ := addChunk_eq_ok.mp isMiddle
      refine ⟨middle, ⟨found, isFound, added⟩, readable, fun index identity => ?_⟩
      rw [all, added]
      simp [isFound, or_assoc]

/-- The map of a list of chunks depends on the chunks in it, and on nothing else. -/
theorem foldlM_addChunk_congr (same : ∀ chunk, chunk ∈ chunks ↔ chunk ∈ others) :
    (chunks.foldlM (addChunk truncate chunkCount) durable).toOption =
      (others.foldlM (addChunk truncate chunkCount) durable).toOption := by
  have toOption : ∀ (result : Except Refusal (SortedMap Int ChunkIdentity)) found,
      result.toOption = some found ↔ result = .ok found := by
    intro result found
    cases result <;> simp [Except.toOption]
  apply Option.ext
  intro found
  rw [toOption, toOption, foldlM_addChunk_eq_ok, foldlM_addChunk_eq_ok]
  simp only [same]

/-! ## The loops -/

/-- The first loop adds up exactly, and stays within the size. -/
theorem foldlM_addIdentity {entries : List (Int × ChunkIdentity)} {start received : Int × List Int}
    (within : start.1 ≤ sizeBytes)
    (done : entries.foldlM (addIdentity sizeBytes) start = .ok received) :
    received.1 = start.1 + (entries.map fun entry => entry.2.size).sum ∧
      received.2 = start.2 ++ entries.map Prod.fst ∧ received.1 ≤ sizeBytes := by
  induction entries generalizing start with
  | nil =>
    rw [List.foldlM_nil, pure_eq_ok] at done
    simp [← done, within]
  | cons entry rest ih =>
    rw [List.foldlM_cons, bind_eq_ok] at done
    obtain ⟨middle, step, done⟩ := done
    rw [addIdentity] at step
    split at step
    next => cases step
    next =>
      split at step
      next => cases step
      next fits =>
        cases step
        have rests := ih (not_lt.mp fits) done
        refine ⟨?_, ?_, rests.2.2⟩
        · rw [rests.1, List.map_cons, List.sum_cons, add_assoc]
        · rw [rests.2.1, List.map_cons, List.append_assoc]
          rfl

/-- Sizes that fit together are added up. -/
theorem foldlM_addIdentity_ok {sizeBytes : Int} (fits : sizeBytes ≤ int64Max)
    {entries : List (Int × ChunkIdentity)} {start : Int × List Int}
    (sizes : ∀ entry ∈ entries, 0 ≤ entry.2.size)
    (within : start.1 + (entries.map fun entry => entry.2.size).sum ≤ sizeBytes) :
    entries.foldlM (addIdentity sizeBytes) start =
      .ok (start.1 + (entries.map fun entry => entry.2.size).sum, start.2 ++ entries.map Prod.fst) := by
  induction entries generalizing start with
  | nil =>
    simp [pure, Except.pure]
  | cons entry rest ih =>
    obtain ⟨-, later⟩ := List.forall_mem_cons.mp sizes
    rw [List.map_cons, List.sum_cons] at within ⊢
    have rests : 0 ≤ (rest.map fun entry => entry.2.size).sum := by
      apply List.sum_nonneg
      intro size member
      obtain ⟨own, isOwn, rfl⟩ := List.mem_map.mp member
      exact later own isOwn
    have step : addIdentity sizeBytes start entry = .ok (start.1 + entry.2.size, start.2 ++ [entry.1]) := by
      rw [addIdentity, if_neg (by omega), if_neg (by omega)]
    have next := @ih (start.1 + entry.2.size, start.2 ++ [entry.1]) later (by
      change start.1 + entry.2.size + _ ≤ sizeBytes
      omega)
    rw [List.foldlM_cons, step]
    change rest.foldlM (addIdentity sizeBytes) (start.1 + entry.2.size, start.2 ++ [entry.1]) = _
    rw [next, List.map_cons, List.append_assoc, add_assoc]
    rfl

/-- The second loop ends at an index that is missing, behind indexes that are there. -/
theorem nextMissing_spec {remaining : Nat} {index : Int}
    (passes : index + remaining = chunkCount)
    (below : ∀ place identity, durable.find? place = some identity → place < chunkCount) :
    index ≤ nextMissing durable chunkCount remaining index ∧
      nextMissing durable chunkCount remaining index ≤ chunkCount ∧
      durable.find? (nextMissing durable chunkCount remaining index) = none ∧
      ∀ place, index ≤ place → place < nextMissing durable chunkCount remaining index →
        durable.find? place ≠ none := by
  induction remaining generalizing index with
  | zero =>
    have isEnd : index = chunkCount := by simpa using passes
    refine ⟨isEnd.le, le_rfl, ?_, fun place behind before => ?_⟩
    · rw [nextMissing]
      by_contra found
      obtain ⟨identity, found⟩ := Option.ne_none_iff_exists'.mp found
      exact lt_irrefl chunkCount (below chunkCount identity found)
    · rw [nextMissing] at before
      omega
  | succ remaining ih =>
    rw [nextMissing]
    cases found : durable.find? index with
    | none =>
      refine ⟨le_rfl, ?_, found, fun place behind before => absurd before (not_lt.mpr behind)⟩
      change index ≤ chunkCount
      omega
    | some identity =>
      have next : (index + 1) + (remaining : Int) = chunkCount := by omega
      have rests := ih next
      refine ⟨?_, rests.2.1, rests.2.2.1, fun place behind before => ?_⟩
      · change index ≤ nextMissing durable chunkCount remaining (index + 1)
        omega
      · rcases eq_or_lt_of_le behind with rfl | later
        · simp [found]
        · exact rests.2.2.2 place (by omega) before

/-! ## The progress -/

/-- What a progress says of the rows of the chunks. -/
structure Reconstructed (truncate : Nat → Int) (limits : MediaLimits) (chunks : List Json)
    (progress : MediaProgress) : Prop where
  increasing : progress.receivedIndices.Pairwise (· < ·)
  received : ∀ index, index ∈ progress.receivedIndices ↔ ∃ chunk ∈ chunks, ∃ identity,
    readChunkRow truncate limits.chunkCount chunk = .ok (index, identity)
  counted : progress.receivedChunks = progress.receivedIndices.length
  bytes : ∃ size : Int → Int,
    (∀ chunk ∈ chunks, ∃ index identity,
      readChunkRow truncate limits.chunkCount chunk = .ok (index, identity) ∧ size index = identity.size) ∧
    progress.receivedBytes = (progress.receivedIndices.map size).sum
  within : progress.receivedBytes ≤ limits.sizeBytes
  nextInside : 0 ≤ progress.nextMissingIndex ∧ progress.nextMissingIndex ≤ limits.chunkCount
  nextMissing : progress.nextMissingIndex ∉ progress.receivedIndices
  nextLeast : ∀ index, 0 ≤ index → index < progress.nextMissingIndex → index ∈ progress.receivedIndices

/-- The numbers of a manifest that passes its checks. -/
theorem readManifest_inside {limits : MediaLimits}
    (isRead : readManifest truncate truncateInt manifest = .ok limits) :
    0 < limits.chunkCount ∧ 0 ≤ limits.sizeBytes := by
  simp only [readManifest, bind_eq_ok, pure_eq_ok, ensure_eq_ok, Bool.and_eq_true,
    decide_eq_true_eq] at isRead
  obtain ⟨-, -, -, -, -, -, count, -, size, -, -, inside, -, -, -, -, -, -, rfl⟩ := isRead
  exact inside

theorem readChunkRow_inside {chunk : Json} {row : Int × ChunkIdentity}
    (isRow : readChunkRow truncate chunkCount chunk = .ok row) :
    0 ≤ row.1 ∧ row.1 < chunkCount ∧ 0 ≤ row.2.size := by
  simp only [readChunkRow, bind_eq_ok, pure_eq_ok, ensure_eq_ok, Bool.and_eq_true,
    decide_eq_true_eq] at isRow
  obtain ⟨-, -, index, -, size, -, sha256, -, -, inside, rfl⟩ := isRow
  exact ⟨inside.1.1, inside.1.2, inside.2⟩

theorem progressOf_spec {limits : MediaLimits} {progress : MediaProgress}
    (positive : 0 < limits.chunkCount) (notNegative : 0 ≤ limits.sizeBytes)
    (isMap : chunks.foldlM (addChunk truncate limits.chunkCount) SortedMap.empty = .ok durable)
    (done : progressOf limits durable = .ok progress) :
    Reconstructed truncate limits chunks progress := by
  obtain ⟨readable, rows⟩ := foldlM_addChunk_eq_ok.mp isMap
  simp only [SortedMap.find?_empty, reduceCtorEq, false_or] at rows
  rw [progressOf, bind_eq_ok] at done
  obtain ⟨received, loop, isProgress⟩ := done
  obtain ⟨bytes, indices, within⟩ := @foldlM_addIdentity limits.sizeBytes _ (0, []) _ notNegative loop
  rw [zero_add] at bytes
  rw [List.nil_append] at indices
  rw [pure_eq_ok] at isProgress
  have mem : ∀ index, index ∈ received.2 ↔ ∃ identity, durable.find? index = some identity := by
    intro index
    simp [indices, SortedMap.find?_eq_some]
  have below : ∀ place identity, durable.find? place = some identity → place < limits.chunkCount := by
    intro place identity found
    obtain ⟨chunk, -, isRow⟩ := (rows place identity).mp found
    exact (readChunkRow_inside isRow).2.1
  obtain ⟨least, bound, missing, filled⟩ :=
    @nextMissing_spec limits.chunkCount durable limits.chunkCount.toNat 0 (by omega) below
  subst isProgress
  refine ⟨?_, fun index => ?_, ?_, ⟨fun index => (durable.find? index).elim 0 ChunkIdentity.size, ?_, ?_⟩,
    within, ⟨least, bound⟩, ?_, ?_⟩
  · rw [indices]
    exact List.pairwise_map.mpr durable.sorted
  · rw [mem]
    simp only [rows]
    constructor
    · intro found
      obtain ⟨identity, chunk, member, isRow⟩ := found
      exact ⟨chunk, member, identity, isRow⟩
    · intro found
      obtain ⟨chunk, member, identity, isRow⟩ := found
      exact ⟨identity, chunk, member, isRow⟩
  · rw [indices, List.length_map]
  · intro chunk member
    obtain ⟨row, isRow⟩ := readable chunk member
    have found := (rows row.1 row.2).mpr ⟨chunk, member, isRow⟩
    refine ⟨row.1, row.2, isRow, ?_⟩
    dsimp only
    rw [found]
    rfl
  · rw [bytes, indices, List.map_map]
    apply congrArg List.sum
    apply List.map_congr_left
    intro entry member
    have found := SortedMap.find?_eq_some.mpr (show (entry.1, entry.2) ∈ durable.entries from member)
    rw [Function.comp_apply, found]
    rfl
  · rw [mem, missing]
    simp
  · intro index behind before
    exact (mem index).mpr (Option.ne_none_iff_exists'.mp (filled index behind before))

/-- The outcome depends on the set of the rows: it is the same in any order and with any
row repeated. A progress says what the rows say, and there is one when they can be read, those
of an index agree, and the sizes fit. -/
theorem reconstructMediaProgress_spec (truncate truncateInt : Nat → Int) (manifest : Json)
    (chunks : List Json) :
    (∀ others nowMs later, (∀ chunk, chunk ∈ chunks ↔ chunk ∈ others) →
      (reconstructMediaProgress truncate truncateInt manifest chunks nowMs).toOption =
        (reconstructMediaProgress truncate truncateInt manifest others later).toOption) ∧
    (∀ nowMs progress,
      reconstructMediaProgress truncate truncateInt manifest chunks nowMs = .ok progress →
      ∃ limits, readManifest truncate truncateInt manifest = .ok limits ∧
        Reconstructed truncate limits chunks progress) ∧
    ∀ nowMs limits (durable : SortedMap Int ChunkIdentity),
      readManifest truncate truncateInt manifest = .ok limits →
      limits.sizeBytes ≤ int64Max →
      (∀ chunk ∈ chunks, ∃ row, readChunkRow truncate limits.chunkCount chunk = .ok row) →
      (∀ index identity, durable.find? index = some identity ↔
        ∃ chunk ∈ chunks, readChunkRow truncate limits.chunkCount chunk = .ok (index, identity)) →
      (durable.entries.map fun entry => entry.2.size).sum ≤ limits.sizeBytes →
      ∃ progress, reconstructMediaProgress truncate truncateInt manifest chunks nowMs = .ok progress := by
  refine ⟨fun others nowMs later same => ?_, fun nowMs progress done => ?_,
    fun nowMs limits durable isRead fits readable rows within => ?_⟩
  · rw [reconstructMediaProgress, reconstructMediaProgress]
    cases readManifest truncate truncateInt manifest with
    | error refusal => rfl
    | ok limits =>
      have maps := @foldlM_addChunk_congr truncate limits.chunkCount chunks others SortedMap.empty same
      change ((chunks.foldlM (addChunk truncate limits.chunkCount) SortedMap.empty).bind
          (progressOf limits)).toOption =
        ((others.foldlM (addChunk truncate limits.chunkCount) SortedMap.empty).bind
          (progressOf limits)).toOption
      cases first : chunks.foldlM (addChunk truncate limits.chunkCount) SortedMap.empty with
      | error refusal =>
        rw [first] at maps
        cases second : others.foldlM (addChunk truncate limits.chunkCount) SortedMap.empty with
        | error other => rfl
        | ok map =>
          rw [second] at maps
          cases maps
      | ok map =>
        rw [first] at maps
        cases second : others.foldlM (addChunk truncate limits.chunkCount) SortedMap.empty with
        | error other =>
          rw [second] at maps
          cases maps
        | ok found =>
          rw [second] at maps
          cases maps
          rfl
  · rw [reconstructMediaProgress, bind_eq_ok] at done
    obtain ⟨limits, isRead, done⟩ := done
    rw [bind_eq_ok] at done
    obtain ⟨durable, isMap, done⟩ := done
    have inside := readManifest_inside isRead
    exact ⟨limits, isRead, progressOf_spec inside.1 inside.2 isMap done⟩
  · have isMap : chunks.foldlM (addChunk truncate limits.chunkCount) SortedMap.empty = .ok durable :=
      foldlM_addChunk_eq_ok.mpr ⟨readable, by simpa using rows⟩
    have sizes : ∀ entry ∈ durable.entries, 0 ≤ entry.2.size := by
      intro entry member
      obtain ⟨chunk, -, isRow⟩ := (rows entry.1 entry.2).mp (SortedMap.find?_eq_some.mpr member)
      exact (readChunkRow_inside isRow).2.2
    have loop := @foldlM_addIdentity_ok _ fits durable.entries (0, []) sizes (by rwa [zero_add])
    exact ⟨_, bind_eq_ok.mpr ⟨limits, isRead, bind_eq_ok.mpr ⟨durable, isMap,
      bind_eq_ok.mpr ⟨_, loop, rfl⟩⟩⟩⟩

/-- Two chunks of an upload of four, once in order and once the other way with one repeated. -/
theorem reconstructMediaProgress_spec_retried :
    let manifest := Json.object [("status", .string "uploading"), ("chunk_count", .integer 4),
      ("size_bytes", .integer 40)]
    let first := Json.object [("index", .integer 0), ("size_bytes", .integer 10), ("sha256", .string "a")]
    let third := Json.object [("index", .integer 2), ("size_bytes", .integer 7), ("sha256", .string "b")]
    (reconstructMediaProgress (fun _ => 0) (fun _ => 0) manifest [first, third] 5).toOption =
        (reconstructMediaProgress (fun _ => 0) (fun _ => 0) manifest [third, first, third] 9).toOption ∧
      ∃ limits, readManifest (fun _ => 0) (fun _ => 0) manifest = .ok limits ∧
        Reconstructed (fun _ => 0) limits [first, third] ⟨1, 2, 17, 1, 0, [0, 2]⟩ := by
  intro manifest first third
  have spec := reconstructMediaProgress_spec (fun _ => 0) (fun _ => 0) manifest [first, third]
  refine ⟨spec.1 [third, first, third] 5 9 fun chunk => ?_, spec.2.1 0 _ rfl⟩
  simp only [List.mem_cons, List.not_mem_nil, or_false]
  tauto

end PacificDb.Media
