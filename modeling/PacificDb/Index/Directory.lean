import Mathlib.Data.List.TakeWhile
import PacificDb.Index.Segment
import PacificDb.Lib.Decimal
import PacificDb.Lib.SortedMap

/-!
# The directory of a column index

Segments are read in the order of their names. A name is a time stamp of twenty
digits: the clock in microseconds, or one more than the last stamp if the clock is
behind it. A new process finds the last stamp in the directory.

The temporary file of a segment is left out: it is not listed.
-/

namespace PacificDb.Index

open Lib Sst

instance stampOrder : LinearOrder UInt64 where
  le_refl _ := UInt64.le_refl _
  le_trans _ _ _ := UInt64.le_trans
  lt_iff_le_not_ge _ _ := by
    rw [UInt64.lt_iff_toNat_lt, UInt64.le_iff_toNat_le, UInt64.le_iff_toNat_le]
    omega
  le_antisymm _ _ := UInt64.le_antisymm
  le_total _ _ := UInt64.le_total _ _
  toDecidableLE := inferInstance

/-- The files of a directory, and what the process remembers of their names. -/
structure Directory where
  files : SortedMap String Bytes := .empty
  lastStamp : UInt64 := 0

/-- `path.extension() == ".seg"`. -/
def hasSegExtension (name : String) : Bool :=
  ".seg".toList.isSuffixOf name.toList && name != ".seg"

/-- `std::isspace`. -/
def isSpace (c : Char) : Bool := c.toNat == 32 || (9 ≤ c.toNat && c.toNat ≤ 13)

/-- `std::stoull`, none when it throws. -/
def stoull? (text : List Char) : Option UInt64 :=
  let text := text.dropWhile isSpace
  let negative := text.head? = some '-'
  let digits := (if negative ∨ text.head? = some '+' then text.tail else text).takeWhile Char.isDigit
  let value := Nat.ofDigitChars 10 digits 0
  if digits = [] ∨ 2 ^ 64 ≤ value then none
  else some (if negative then 0 - UInt64.ofNat value else UInt64.ofNat value)

def listIndexSegments (dir : Directory) : List String :=
  (dir.files.entries.map Prod.fst).filter hasSegExtension

/-- The stamp of a file in the scan of `nextSegmentName`. -/
def stampOf? (name : String) : Option UInt64 :=
  if name.utf8ByteSize < 20 ∨ hasSegExtension name = false then none else stoull? (name.toList.take 20)

/-- The greatest stamp in the directory. -/
def scanStamps (names : List String) : UInt64 :=
  names.foldl (fun previous name => max previous ((stampOf? name).getD 0)) 0

def previousStamp (dir : Directory) : UInt64 :=
  if dir.lastStamp = 0 then scanStamps (dir.files.entries.map Prod.fst) else dir.lastStamp

def nextStamp (dir : Directory) (wallClock : UInt64) : UInt64 :=
  max wallClock (previousStamp dir + 1)

def segmentName (stamp : UInt64) : String :=
  String.ofList (padDigits 20 stamp.toNat ++ ".seg".toList)

/-- `writeIndexSegment`: the directory after it, and the path it wrote. -/
def writeIndexSegment (dir : Directory) (wallClock : UInt64) (mutations : List IndexMutation)
    (snapshot : Bool) : Except String (Directory × String) := do
  let file ← segmentFile mutations snapshot
  let stamp := nextStamp dir wallClock
  return ({ files := dir.files.assign (segmentName stamp) file, lastStamp := stamp },
    segmentName stamp)

variable {dir after : Directory} {wallClock stamp other : UInt64} {mutations : List IndexMutation}
  {snapshot : Bool} {path : String}

theorem writeIndexSegment_eq_ok :
    writeIndexSegment dir wallClock mutations snapshot = .ok (after, path) ↔
      ∃ file, segmentFile mutations snapshot = .ok file ∧
        path = segmentName (nextStamp dir wallClock) ∧
        after = ⟨dir.files.assign path file, nextStamp dir wallClock⟩ := by
  cases wrote : segmentFile mutations snapshot with
  | error reason =>
    simp [writeIndexSegment, wrote, bind, Except.bind]
  | ok file =>
    rw [writeIndexSegment, wrote]
    constructor
    · intro done
      cases done
      exact ⟨file, rfl, rfl, rfl⟩
    · rintro ⟨_, same, rfl, rfl⟩
      cases same
      rfl

/-! ## Names -/

theorem toNat_lt_pow (stamp : UInt64) : stamp.toNat < 10 ^ 20 :=
  stamp.toNat_lt.trans (by decide)

theorem length_stampDigits (stamp : UInt64) : (padDigits 20 stamp.toNat).length = 20 :=
  length_padDigits (toNat_lt_pow stamp) (by decide)

theorem toList_segmentName (stamp : UInt64) :
    (segmentName stamp).toList = padDigits 20 stamp.toNat ++ ".seg".toList :=
  String.toList_ofList

theorem hasSegExtension_segmentName (stamp : UInt64) : hasSegExtension (segmentName stamp) = true := by
  have longer : segmentName stamp ≠ ".seg" := by
    intro same
    have sizes := congrArg (fun text : String => text.toList.length) same
    have four : ".seg".toList.length = 4 := rfl
    simp only [toList_segmentName, List.length_append, length_stampDigits, four] at sizes
    omega
  have suffixed : ".seg".toList.isSuffixOf (segmentName stamp).toList = true := by
    rw [toList_segmentName, List.isSuffixOf_iff_suffix]
    exact List.suffix_append _ _
  rw [hasSegExtension, suffixed, Bool.true_and, bne_iff_ne]
  exact longer

theorem stoull?_padDigits (stamp : UInt64) : stoull? (padDigits 20 stamp.toNat) = some stamp := by
  have digits : ∀ c ∈ padDigits 20 stamp.toNat, c.isDigit = true := fun c => isDigit_padDigits
  have size := length_stampDigits stamp
  cases text : padDigits 20 stamp.toNat with
  | nil =>
    rw [text] at size
    cases size
  | cons first rest =>
    have value : Nat.ofDigitChars 10 (first :: rest) 0 = stamp.toNat := by
      rw [← text, ofDigitChars_padDigits]
    rw [text] at digits
    have bounds := digit_bounds (digits first (.head _))
    have code : ∀ c : Char, first = c → 48 ≤ c.toNat := fun c same => same ▸ bounds.1
    have noSpace : isSpace first = false := by
      have above : first.toNat ≠ 32 ∧ ¬first.toNat ≤ 13 := by omega
      simp [isSpace, above]
    have noMinus : first ≠ '-' := fun same => absurd (code _ same) (by decide)
    have noPlus : first ≠ '+' := fun same => absurd (code _ same) (by decide)
    have all : (first :: rest).takeWhile Char.isDigit = first :: rest :=
      List.takeWhile_eq_self_iff.mpr digits
    have small := stamp.toNat_lt
    rw [stoull?, List.dropWhile_cons_of_neg (by simp [noSpace])]
    simp only [List.head?_cons, Option.some.injEq, noMinus, noPlus, or_self, if_false, all, value,
      reduceCtorEq, false_or, UInt64.ofNat_toNat]
    exact if_neg (by omega)

theorem stampOf?_segmentName (stamp : UInt64) : stampOf? (segmentName stamp) = some stamp := by
  have size := length_le_utf8ByteSize (padDigits 20 stamp.toNat ++ ".seg".toList)
  rw [List.length_append, length_stampDigits] at size
  have long : ¬((segmentName stamp).utf8ByteSize < 20 ∨ hasSegExtension (segmentName stamp) = false) := by
    rw [hasSegExtension_segmentName]
    rintro (short | impossible)
    · have whole : (segmentName stamp).utf8ByteSize =
        (String.ofList (padDigits 20 stamp.toNat ++ ".seg".toList)).utf8ByteSize := rfl
      omega
    · cases impossible
  rw [stampOf?, if_neg long, toList_segmentName, List.take_left' (length_stampDigits stamp),
    stoull?_padDigits]

/-- Later stamps have later names. -/
theorem segmentName_lt (less : stamp < other) : segmentName stamp < segmentName other := by
  rw [String.lt_iff_toList_lt, toList_segmentName, toList_segmentName]
  apply append_lt_append (by rw [length_stampDigits, length_stampDigits])
  rw [padDigits_lt_iff (by decide) (toNat_lt_pow stamp) (toNat_lt_pow other)]
  exact UInt64.lt_iff_toNat_lt.mp less

/-! ## The next name -/

/-- The files have the names of stamps, which the process has not run ahead of. -/
def Stamped (dir : Directory) : Prop :=
  ∃ stamps : List UInt64, dir.files.entries.map Prod.fst = stamps.map segmentName ∧
    (dir.lastStamp ≠ 0 → ∀ stamp ∈ stamps, stamp ≤ dir.lastStamp)

theorem le_scanStamps {stamps : List UInt64} (member : stamp ∈ stamps) :
    stamp ≤ scanStamps (stamps.map segmentName) := by
  have grows : ∀ (stamps : List UInt64) (start : UInt64),
      start ≤ stamps.foldl (fun previous stamp => max previous stamp) start ∧
        ∀ stamp ∈ stamps, stamp ≤ stamps.foldl (fun previous stamp => max previous stamp) start := by
    intro stamps
    induction stamps with
    | nil => exact fun start => ⟨le_rfl, fun stamp member => absurd member List.not_mem_nil⟩
    | cons first rest ih =>
      intro start
      obtain ⟨above, later⟩ := ih (max start first)
      refine ⟨(le_max_left _ _).trans above, List.forall_mem_cons.mpr ⟨?_, later⟩⟩
      exact (le_max_right _ _).trans above
  have scan : scanStamps (stamps.map segmentName) =
      stamps.foldl (fun previous stamp => max previous stamp) 0 := by
    simp only [scanStamps, List.foldl_map, stampOf?_segmentName, Option.getD_some]
  rw [scan]
  exact (grows stamps 0).2 stamp member

/-- Every name is the name of a stamp up to the last one. -/
theorem Stamped.le_previousStamp (stamped : Stamped dir) {name : String}
    (member : name ∈ dir.files.entries.map Prod.fst) :
    ∃ stamp, name = segmentName stamp ∧ stamp ≤ previousStamp dir := by
  obtain ⟨stamps, names, bound⟩ := stamped
  rw [names] at member
  obtain ⟨stamp, isStamp, rfl⟩ := List.mem_map.mp member
  refine ⟨stamp, rfl, ?_⟩
  rw [previousStamp]
  split
  next =>
    rw [names]
    exact le_scanStamps isStamp
  next remembered => exact bound remembered stamp isStamp

theorem previousStamp_lt_nextStamp (room : previousStamp dir + 1 ≠ 0) :
    previousStamp dir < nextStamp dir wallClock := by
  have step : previousStamp dir < previousStamp dir + 1 := by
    have small := (previousStamp dir).toNat_lt
    have some : (previousStamp dir + 1).toNat ≠ 0 := fun zero =>
      room (UInt64.toNat_inj.mp (zero.trans UInt64.toNat_zero.symm))
    rw [UInt64.lt_iff_toNat_lt]
    rw [UInt64.toNat_add] at some ⊢
    have one : (1 : UInt64).toNat = 1 := rfl
    omega
  exact step.trans_le (le_max_right _ _)

/-- A new segment comes after the others. -/
theorem Stamped.name_lt (stamped : Stamped dir) (room : previousStamp dir + 1 ≠ 0) {name : String}
    (member : name ∈ dir.files.entries.map Prod.fst) :
    name < segmentName (nextStamp dir wallClock) := by
  obtain ⟨stamp, rfl, below⟩ := stamped.le_previousStamp member
  exact segmentName_lt (below.trans_lt (previousStamp_lt_nextStamp room))

theorem Stamped.listIndexSegments_eq (stamped : Stamped dir) :
    listIndexSegments dir = dir.files.entries.map Prod.fst := by
  obtain ⟨stamps, names, -⟩ := stamped
  rw [listIndexSegments, names, List.filter_eq_self]
  intro name member
  obtain ⟨stamp, -, rfl⟩ := List.mem_map.mp member
  exact hasSegExtension_segmentName stamp

theorem Stamped.entries_assign (stamped : Stamped dir) (room : previousStamp dir + 1 ≠ 0)
    (file : Bytes) :
    (dir.files.assign (segmentName (nextStamp dir wallClock)) file).entries =
      dir.files.entries ++ [(segmentName (nextStamp dir wallClock), file)] :=
  SortedMap.entries_assign_of_above fun _ member =>
    stamped.name_lt room (List.mem_map_of_mem member)

theorem Stamped.write (stamped : Stamped dir) (room : previousStamp dir + 1 ≠ 0) (file : Bytes) :
    Stamped ⟨dir.files.assign (segmentName (nextStamp dir wallClock)) file,
      nextStamp dir wallClock⟩ := by
  have whole := stamped
  obtain ⟨stamps, names, -⟩ := stamped
  refine ⟨stamps ++ [nextStamp dir wallClock], ?_, fun _ stamp member => ?_⟩
  · rw [whole.entries_assign room, List.map_append, names, List.map_append]
    rfl
  · rcases List.mem_append.mp member with old | new
    · obtain ⟨_, same, below⟩ := whole.le_previousStamp (names ▸ List.mem_map_of_mem old)
      have order : segmentName stamp < segmentName (nextStamp dir wallClock) :=
        whole.name_lt room (names ▸ List.mem_map_of_mem old)
      by_contra above
      exact absurd (segmentName_lt (not_le.mp above)) order.not_gt
    · exact (List.mem_singleton.mp new).le

/-- The files that are left have their names. -/
theorem Stamped.sublist (stamped : Stamped dir) {files : SortedMap String Bytes}
    (left : (files.entries.map Prod.fst).Sublist (dir.files.entries.map Prod.fst)) :
    Stamped ⟨files, dir.lastStamp⟩ := by
  obtain ⟨stamps, names, bound⟩ := stamped
  rw [names] at left
  obtain ⟨kept, sublist, keptNames⟩ := List.sublist_map_iff.mp left
  exact ⟨kept, keptNames, fun remembered stamp member => bound remembered stamp (sublist.subset member)⟩

theorem Stamped.restart (stamped : Stamped dir) : Stamped { dir with lastStamp := 0 } := by
  obtain ⟨stamps, names, -⟩ := stamped
  exact ⟨stamps, names, fun impossible => absurd rfl impossible⟩

/-! ## What is published is readable -/

/-- A published segment is read back as the sorted mutations unless the reader's
limits, which the writer does not check, are exceeded. -/
theorem writeIndexSegment_readable_iff (dir : Directory) (wallClock : UInt64)
    (mutations : List IndexMutation) (snapshot : Bool) :
    (∀ after path, writeIndexSegment dir wallClock mutations snapshot = .ok (after, path) →
      ∃ file segment, after.files.find? path = some file ∧ readIndexSegment file = .ok segment ∧
        segment.snapshot = snapshot ∧ segment.mutations.Perm mutations ∧
        segment.mutations.Pairwise fun left right => left.sortKey ≤ right.sortKey) ↔
      (∃ mutation ∈ mutations, ¬mutation.Fits) ∨
        mutations.length ≤ kMaxFieldBytes ∧ payloadSize mutations ≤ kMaxFieldBytes * 16 := by
  constructor
  · intro published
    by_cases fits : ∀ mutation ∈ mutations, mutation.Fits
    · apply Or.inr
      by_contra unreadable
      obtain ⟨file, wrote⟩ := segmentFile_ok fits snapshot
      obtain ⟨_, segment, found, read, -⟩ := published _ _
        (writeIndexSegment_eq_ok.mpr ⟨file, wrote, rfl, rfl⟩)
      rw [SortedMap.find?_assign, if_pos rfl] at found
      cases found
      obtain ⟨reason, refused⟩ := readIndexSegment_of_not_readable wrote unreadable
      rw [refused] at read
      cases read
    · push Not at fits
      exact .inl fits
  · intro condition after path done
    obtain ⟨file, wrote, -, rfl⟩ := writeIndexSegment_eq_ok.mp done
    have fits := (segmentFile_eq_ok.mp wrote).1
    have readable : Readable mutations := by
      rcases condition with ⟨mutation, member, refused⟩ | readable
      · exact absurd (fits mutation member) refused
      · exact readable
    refine ⟨file, _, ?_, readIndexSegment_of_readable wrote readable, rfl, sortMutations_perm mutations,
      sortMutations_sorted mutations⟩
    rw [SortedMap.find?_assign, if_pos rfl]

/-- Sixteen values of the greatest size. -/
def largeValues : List IndexMutation :=
  (List.range 16).map fun n => ⟨.put, List.replicate kMaxFieldBytes 0, [UInt8.ofNat n]⟩

theorem fits_largeValues : ∀ mutation ∈ largeValues, mutation.Fits := by
  intro mutation member
  obtain ⟨n, -, rfl⟩ := List.mem_map.mp member
  have short : 1 ≤ kMaxFieldBytes := by decide
  exact ⟨List.cons_ne_nil _ _, short, List.length_replicate.le⟩

theorem not_readable_largeValues : ¬Readable largeValues := by
  rintro ⟨-, small⟩
  have size : payloadSize largeValues = ((List.range 16).map fun _ => 12 + kMaxFieldBytes + 1).sum := by
    simp only [payloadSize, largeValues, List.map_map, Function.comp_def, List.length_replicate,
      List.length_singleton]
  have more : kMaxFieldBytes * 16 < ((List.range 16).map fun _ => 12 + kMaxFieldBytes + 1).sum := by
    decide
  omega

/-- The writer publishes them, and the reader refuses the file. -/
theorem largeValues_unreadable :
    ∃ after path file reason, writeIndexSegment {} 0 largeValues false = .ok (after, path) ∧
      after.files.find? path = some file ∧ readIndexSegment file = .error reason := by
  obtain ⟨file, wrote⟩ := segmentFile_ok fits_largeValues false
  obtain ⟨reason, refused⟩ := readIndexSegment_of_not_readable wrote not_readable_largeValues
  refine ⟨_, _, file, reason, writeIndexSegment_eq_ok.mpr ⟨file, wrote, rfl, rfl⟩, ?_, refused⟩
  rw [SortedMap.find?_assign, if_pos rfl]

end PacificDb.Index
