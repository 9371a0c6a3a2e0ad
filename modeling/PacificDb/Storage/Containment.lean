import PacificDb.Storage.Identifier

/-!
# Containment of storage paths

Every path that the engine opens goes through `validateContainedStoragePath`, which compares the
normal form of a candidate with the canonical data root, component by component, and refuses
symbolic links on the way down.

A candidate that normalizes to the root with a trailing separator has one component more than
the root. It is let through although it is the root itself (`root_not_inside`).
-/

namespace PacificDb.Storage

open Lib Path

/-! ## The file system -/

/-- What `symlink_status` reports. `unknown` is any error but a missing entry. -/
inductive Status where
  | missing
  | unknown
  | symlink
  | directory
  | regular
  | special
  deriving DecidableEq

/-- A file system that does not change. `found` follows symbolic links and is `none` when it fails,
and `canonical` resolves them. -/
structure FileSystem where
  symlinkStatus : Path → Status
  found : Path → Option Bool
  canonical : Path → Option Path
  canonical_normal : ∀ {path result : Path}, canonical path = some result → result.Normal

namespace FileSystem

variable (fs : FileSystem)

/-- The leading components that exist, and the others. -/
def leading : Path → List Component → Option (Path × List Component)
  | result, [] => some (result, [])
  | result, component :: rest =>
      match fs.found (result.append component) with
      | some true => leading (result.append component) rest
      | some false => some (result, component :: rest)
      | none => none

def weaklyCanonical (path : Path) : Option Path :=
  match fs.found path with
  | some true => fs.canonical path
  | some false =>
      match fs.leading (ofNames false []) path.components with
      | some (front, rest) =>
          (if front.isEmpty then some front else fs.canonical front).map fun base =>
            (rest.foldl append base).lexicallyNormal
      | none => none
  | none => none

end FileSystem

/-! ## Containment -/

/-- The loop of `isPathWithin`. -/
def descends : List Component → List Component → Bool
  | [], child => !child.isEmpty
  | _ :: _, [] => false
  | component :: root, other :: child => component = other && descends root child

def isPathWithin (canonicalRoot candidate : Path) : Bool :=
  descends canonicalRoot.lexicallyNormal.components candidate.lexicallyNormal.components

namespace FileSystem

variable (fs : FileSystem)

/-- The checks of one path on the way down to `child`. -/
def inspect (child walked : Path) : Except String Unit :=
  match fs.symlinkStatus walked with
  | .missing | .directory => .ok ()
  | .unknown => .error "cannot inspect storage path component"
  | .symlink => .error "storage path traverses a symbolic link"
  | .regular =>
      if walked ≠ child then .error "storage path traverses an unexpected special file" else .ok ()
  | .special =>
      if walked ≠ child then .error "storage path traverses an unexpected special file"
      else .error "storage path resolves to an unexpected special file"

def walk (child : Path) : Path → List Component → Except String Unit
  | _, [] => .ok ()
  | walked, component :: rest => do
      fs.inspect child (walked.append component)
      walk child (walked.append component) rest

def validateContainedStoragePath (canonicalRoot candidate : Path) : Except String Path := do
  ensure (!canonicalRoot.isEmpty && canonicalRoot.absolute) "canonical storage root must be absolute"
  let root ← (fs.weaklyCanonical canonicalRoot).elim (.error "filesystem_error") .ok
  let child := candidate.lexicallyNormal
  ensure (isPathWithin root child) "storage path escapes canonical DATA_ROOT"
  fs.walk child root (child.components.drop root.components.length)
  return child

/-- Nothing on the way from `base` down to `child` is a symbolic link, and there is a way down. -/
structure Inside (base child : Path) : Prop where
  absolute : child.absolute = true
  below : base.names <+: child.names
  strictly : base.names ≠ child.names
  noLinks : ∀ names, base.names <+: names → names <+: child.names → names ≠ base.names →
    fs.symlinkStatus (ofNames true names) ≠ .symlink

/-- What is returned is the normal form of the candidate, and inside the root. -/
def StaysInside (root candidate : Path) : Prop :=
  ∀ child, fs.validateContainedStoragePath root candidate = .ok child →
    child = candidate.lexicallyNormal ∧ ∃ base ∈ fs.weaklyCanonical root, fs.Inside base child

/-- The candidate is the root with a trailing separator, and there is no file there. -/
def NamesRoot (root candidate : Path) : Prop :=
  root.absolute = true ∧ ∃ base ∈ fs.weaklyCanonical root,
    candidate.lexicallyNormal = base.append .empty ∧ candidate.lexicallyNormal ≠ base ∧
    fs.symlinkStatus (base.append .empty) ∈ [.missing, .directory, .regular]

/-! ## The root that is compared with -/

variable {fs : FileSystem} {root base child candidate : Path}

theorem absolute_append {path : Path} {component : Component}
    (reaches : path.absolute = true ∨ component = .root) : (path.append component).absolute = true := by
  cases component with
  | root => rfl
  | name name =>
    rcases reaches with before | isRoot
    · exact before
    · cases isRoot
  | empty =>
    rcases reaches with before | isRoot
    · exact before
    · cases isRoot

/-- Once the root directory is there, or comes next, the whole path is absolute. -/
theorem absolute_foldl {path : Path} {rest : List Component}
    (reaches : path.absolute = true ∨ rest.head? = some .root) :
    (rest.foldl append path).absolute = true := by
  induction rest generalizing path with
  | nil =>
    rcases reaches with before | isRoot
    · exact before
    · cases isRoot
  | cons component rest ih =>
    apply ih
    apply Or.inl
    apply absolute_append
    rcases reaches with before | isRoot
    · exact .inl before
    · exact .inr (Option.some.inj isRoot)

theorem leading_absolute {path front : Path} {components rest : List Component}
    (reaches : path.absolute = true ∨ components.head? = some .root)
    (found : fs.leading path components = some (front, rest)) :
    front.absolute = true ∨ rest.head? = some .root := by
  induction components generalizing path with
  | nil =>
    cases found
    exact reaches
  | cons component components ih =>
    rw [leading] at found
    split at found
    · apply ih _ found
      apply Or.inl
      apply absolute_append
      rcases reaches with before | isRoot
      · exact .inl before
      · exact .inr (Option.some.inj isRoot)
    · cases found
      exact reaches
    · cases found

theorem weaklyCanonical_normal (absolute : root.absolute = true)
    (isBase : fs.weaklyCanonical root = some base) : base.Normal := by
  rw [weaklyCanonical] at isBase
  split at isBase
  · exact fs.canonical_normal isBase
  · split at isBase
    next front rest found =>
      obtain ⟨start, isStart, rfl⟩ := Option.map_eq_some_iff.mp isBase
      apply normal_lexicallyNormal
      apply absolute_foldl
      have first : root.components.head? = some .root := by
        rw [components, absolute]
        rfl
      have reaches := leading_absolute (.inr first) found
      split at isStart
      · cases isStart
        exact reaches
      · exact .inl (fs.canonical_normal isStart).absolute
    · cases isBase
  · cases isBase

/-! ## The comparison -/

theorem descends_iff {root child : List Component} :
    descends root child = true ↔ ∃ below, below ≠ [] ∧ child = root ++ below := by
  induction root generalizing child with
  | nil => cases child <;> simp [descends]
  | cons component root ih =>
    cases child with
    | nil => simp [descends]
    | cons other child =>
      rw [descends, Bool.and_eq_true, decide_eq_true_eq, ih]
      constructor
      · rintro ⟨rfl, below, nonempty, rfl⟩
        exact ⟨below, nonempty, rfl⟩
      · rintro ⟨below, nonempty, same⟩
        obtain ⟨rfl, rest⟩ := List.cons.inj same
        exact ⟨rfl, below, nonempty, rest⟩

theorem components_absolute {path : Path} (absolute : path.absolute = true) : path.components =
    .root :: (path.names.map .name ++ if path.trailing then [.empty] else []) := by
  rw [components, absolute]
  rfl

/-- Between names there is no empty component. -/
theorem names_of_components {first second : List Name} {trail : Bool} {below : List Component}
    (same : first.map Component.name ++ (if trail then [.empty] else []) =
      second.map Component.name ++ below) :
    ∃ names, first = second ++ names ∧
      below = names.map Component.name ++ if trail then [.empty] else [] := by
  induction second generalizing first with
  | nil => exact ⟨first, rfl, same.symm⟩
  | cons name second ih =>
    cases first with
    | nil =>
      cases trail with
      | false => cases same
      | true => cases (List.cons.inj same).1
    | cons other first =>
      obtain ⟨isName, rest⟩ := List.cons.inj same
      obtain ⟨names, rfl, isBelow⟩ := ih rest
      exact ⟨names, by rw [Component.name.inj isName]; rfl, isBelow⟩

/-- What passes the comparison has further names, or it is the root with a separator. -/
theorem isPathWithin_cases (normal : base.Normal) (childNormal : child.Normal)
    (within : isPathWithin base child = true) : base.trailing = false ∧
      ∃ names, child.names = base.names ++ names ∧
        child.components.drop base.components.length =
          names.map Component.name ++ (if child.trailing then [.empty] else []) ∧
        (names = [] → child.trailing = true) := by
  rw [isPathWithin, normal.lexicallyNormal, childNormal.lexicallyNormal] at within
  obtain ⟨below, nonempty, same⟩ := descends_iff.mp within
  have dropped : child.components.drop base.components.length = below := by
    rw [same, List.drop_left]
  rw [components_absolute normal.absolute, components_absolute childNormal.absolute] at same
  rw [List.cons_append, List.append_assoc] at same
  obtain ⟨names, isNames, isBelow⟩ := names_of_components (List.cons.inj same).2
  cases isTrailing : base.trailing with
  | true =>
    exfalso
    rw [isTrailing] at isBelow
    cases names with
    | nil =>
      cases childTrails : child.trailing with
      | false =>
        rw [childTrails] at isBelow
        cases isBelow
      | true =>
        rw [childTrails] at isBelow
        exact nonempty (List.cons.inj isBelow).2
    | cons name names => cases (List.cons.inj isBelow).1
  | false =>
    rw [isTrailing] at isBelow
    refine ⟨rfl, names, isNames, dropped.trans isBelow, fun none_ => ?_⟩
    by_contra notTrailing
    rw [none_, if_neg notTrailing] at isBelow
    exact nonempty isBelow

/-! ## The way down -/

theorem inspect_noLink {walked : Path} (inspected : fs.inspect child walked = .ok ()) :
    fs.symlinkStatus walked ≠ .symlink := by
  intro isLink
  rw [inspect, isLink] at inspected
  cases inspected

theorem inspect_passes {walked : Path} (inspected : fs.inspect child walked = .ok ()) :
    fs.symlinkStatus walked ∈ [Status.missing, .directory, .regular] := by
  rw [inspect] at inspected
  split at inspected
  next missing => exact missing ▸ .head _
  next directory => exact directory ▸ .tail _ (.head _)
  · cases inspected
  · cases inspected
  next regular => exact regular ▸ .tail _ (.tail _ (.head _))
  · split at inspected <;> cases inspected

theorem walk_noLinks {names front : List Name} {rest : List Component}
    (walked : fs.walk child (ofNames true front) (names.map Component.name ++ rest) = .ok ()) :
    ∀ below, below ≠ [] → below <+: names → fs.symlinkStatus (ofNames true (front ++ below)) ≠ .symlink := by
  induction names generalizing front with
  | nil => exact fun below nonempty isPrefix => absurd (List.prefix_nil.mp isPrefix) nonempty
  | cons name names ih =>
    rw [List.map_cons, List.cons_append, walk, bind_eq_ok] at walked
    obtain ⟨_, inspected, walked⟩ := walked
    intro below nonempty isPrefix
    cases below with
    | nil => exact absurd rfl nonempty
    | cons other below =>
      obtain ⟨rfl, further⟩ := List.cons_prefix_cons.mp isPrefix
      cases below with
      | nil => exact inspect_noLink inspected
      | cons next below =>
        have later := ih walked (next :: below) (List.cons_ne_nil _ _) further
        rwa [List.append_assoc] at later

theorem validate_ok : fs.validateContainedStoragePath root candidate = .ok child ↔
    root.absolute = true ∧ ∃ base ∈ fs.weaklyCanonical root,
      isPathWithin base candidate.lexicallyNormal = true ∧
      fs.walk candidate.lexicallyNormal base
        (candidate.lexicallyNormal.components.drop base.components.length) = .ok () ∧
      candidate.lexicallyNormal = child := by
  have nonempty : root.absolute = true → root.isEmpty = false := by
    intro absolute
    rw [isEmpty, components_absolute absolute]
    rfl
  rw [validateContainedStoragePath, bind_eq_ok]
  constructor
  · rintro ⟨_, isAbsolute, rest⟩
    rw [ensure_eq_ok, Bool.and_eq_true] at isAbsolute
    obtain ⟨base, isBase, rest⟩ := bind_eq_ok.mp rest
    obtain ⟨_, within, rest⟩ := bind_eq_ok.mp rest
    obtain ⟨_, walked, isChild⟩ := bind_eq_ok.mp rest
    refine ⟨isAbsolute.2, base, ?_, ensure_eq_ok.mp within, walked, pure_eq_ok.mp isChild⟩
    cases found : fs.weaklyCanonical root with
    | none =>
      rw [found] at isBase
      cases isBase
    | some other =>
      rw [found] at isBase
      cases isBase
      rfl
  · rintro ⟨absolute, base, isBase, within, walked, isChild⟩
    refine ⟨(), ?_, ?_⟩
    · rw [ensure_eq_ok, nonempty absolute, absolute]
      rfl
    · rw [Option.mem_def.mp isBase]
      refine bind_eq_ok.mpr ⟨base, rfl, bind_eq_ok.mpr ⟨(), ensure_eq_ok.mpr within, ?_⟩⟩
      exact bind_eq_ok.mpr ⟨(), walked, pure_eq_ok.mpr isChild⟩

/-- A candidate that passes is inside the root or names it. -/
theorem inside_of_names {names : List Name} (normal : base.Normal) (childNormal : child.Normal)
    (notTrailing : base.trailing = false) (isNames : child.names = base.names ++ names)
    (nonempty : names ≠ [])
    (walked : fs.walk child base (names.map Component.name ++
      (if child.trailing then [.empty] else [])) = .ok ()) : fs.Inside base child := by
  have start : base = ofNames true base.names := ext_fields normal.absolute rfl notTrailing
  rw [start] at walked
  have noLinks := walk_noLinks walked
  refine ⟨childNormal.absolute, ⟨names, isNames.symm⟩, ?_, ?_⟩
  · intro same
    rw [← same] at isNames
    exact nonempty (List.self_eq_append_right.mp isNames)
  · rintro all ⟨below, rfl⟩ further apart
    apply noLinks below
    · rintro rfl
      exact apart (List.append_nil _)
    · rw [isNames] at further
      exact (List.prefix_append_right_inj _).mp further

/-- A separator that changes a path is one more component. -/
theorem components_separator {path : Path} (apart : path.append .empty ≠ path) :
    path.trailing = false ∧ (path.append .empty).components = path.components ++ [.empty] := by
  have named : path.names ≠ [] := by
    intro none_
    apply apart
    refine ext_fields rfl rfl ?_
    change decide (path.names ≠ []) = path.trailing
    rw [none_]
    exact (Bool.eq_false_iff.mpr fun trailing => path.ended trailing none_).symm
  have isTrailing : (path.append .empty).trailing = true := decide_eq_true named
  have notTrailing : path.trailing = false := by
    apply Bool.eq_false_iff.mpr
    intro trailing
    exact apart (ext_fields rfl rfl (isTrailing.trans trailing.symm))
  refine ⟨notTrailing, ?_⟩
  rw [components, components, isTrailing, notTrailing]
  change _ = (_ ++ []) ++ [Component.empty]
  rw [List.append_nil]
  rfl

theorem within_absolute (normal : base.Normal) (within : isPathWithin base candidate = true) :
    candidate.absolute = true := by
  by_contra relative
  have childRelative := absolute_lexicallyNormal (Bool.eq_false_iff.mpr relative)
  rw [isPathWithin, normal.lexicallyNormal] at within
  obtain ⟨below, -, same⟩ := descends_iff.mp within
  rw [components_absolute normal.absolute, components, childRelative] at same
  cases names : candidate.lexicallyNormal.names with
  | nil =>
    rw [names] at same
    cases trails : candidate.lexicallyNormal.trailing with
    | false =>
      rw [trails] at same
      cases same
    | true =>
      rw [trails] at same
      cases (List.cons.inj same).1
  | cons name rest =>
    rw [names] at same
    cases (List.cons.inj same).1

/-- A candidate leaves the root only when it names the root itself. -/
theorem staysInside_iff : fs.StaysInside root candidate ↔ ¬fs.NamesRoot root candidate := by
  constructor
  · rintro stays ⟨absolute, base, isBase, isRoot, apart, passes⟩
    have normal := weaklyCanonical_normal absolute isBase
    have childNormal : candidate.lexicallyNormal.Normal := by
      rw [isRoot]
      exact ⟨normal.absolute, normal.plain⟩
    obtain ⟨-, separated⟩ := components_separator (isRoot ▸ apart)
    rw [← isRoot] at separated
    have accepted : fs.validateContainedStoragePath root candidate = .ok candidate.lexicallyNormal := by
      refine validate_ok.mpr ⟨absolute, base, isBase, ?_, ?_, rfl⟩
      · rw [isPathWithin, normal.lexicallyNormal, childNormal.lexicallyNormal]
        exact descends_iff.mpr ⟨[.empty], List.cons_ne_nil _ _, separated⟩
      · rw [separated, List.drop_left, walk, ← isRoot, inspect]
        rw [← isRoot] at passes
        rcases List.mem_cons.mp passes with missing | passes
        · rw [missing]
          rfl
        · rcases List.mem_cons.mp passes with directory | passes
          · rw [directory]
            rfl
          · rw [List.mem_singleton.mp passes]
            dsimp only
            rw [if_neg (not_not_intro rfl)]
            rfl
    obtain ⟨-, other, isOther, inside⟩ := stays _ accepted
    obtain rfl : base = other := Option.some.inj (isBase.symm.trans isOther)
    apply inside.strictly
    rw [isRoot]
    rfl
  · intro notRoot child accepted
    obtain ⟨absolute, base, isBase, within, walked, rfl⟩ := validate_ok.mp accepted
    have normal := weaklyCanonical_normal absolute isBase
    have childNormal : candidate.lexicallyNormal.Normal := by
      apply normal_lexicallyNormal
      by_contra relative
      have childRelative := absolute_lexicallyNormal (Bool.eq_false_iff.mpr relative)
      exact absurd ((within_absolute normal within).symm.trans childRelative) Bool.noConfusion
    obtain ⟨notTrailing, names, isNames, dropped, closes⟩ :=
      isPathWithin_cases normal childNormal within
    rw [dropped] at walked
    refine ⟨rfl, base, isBase, inside_of_names normal childNormal notTrailing isNames ?_ walked⟩
    rintro rfl
    rw [List.append_nil] at isNames
    have trailing := closes rfl
    apply notRoot
    have isRoot : candidate.lexicallyNormal = base.append .empty := by
      refine ext_fields (childNormal.absolute.trans normal.absolute.symm) isNames ?_
      exact trailing.trans (decide_eq_true (isNames ▸ candidate.lexicallyNormal.ended trailing)).symm
    refine ⟨absolute, base, isBase, isRoot, ?_, ?_⟩
    · intro same
      rw [same, notTrailing] at trailing
      cases trailing
    · rw [if_pos trailing, List.map_nil, List.nil_append, walk, bind_eq_ok, isRoot] at walked
      obtain ⟨_, inspected, -⟩ := walked
      exact inspect_passes inspected

end FileSystem

variable {fs : FileSystem} {root candidate : Path}

/-- A path that ends in a name is not the root with a separator. -/
theorem not_namesRoot {names : List Name} (isChild : candidate.lexicallyNormal = ofNames true names) :
    ¬fs.NamesRoot root candidate := by
  rintro ⟨-, base, -, isRoot, apart, -⟩
  have trailing := (FileSystem.components_separator (isRoot ▸ apart)).1
  have named : base.names = [] := by
    have same := congrArg Path.trailing (isChild.symm.trans isRoot)
    exact not_not.mp (of_decide_eq_false same.symm)
  apply apart
  rw [isRoot]
  refine ext_fields rfl rfl ?_
  rw [trailing]
  exact decide_eq_false (not_not_intro named)

/-- A candidate is let through outside the root only when it names the root itself. Collections
are inside, each at a place of its own. -/
theorem contained_iff (absolute : root.absolute = true) :
    (fs.StaysInside root candidate ↔ ¬fs.NamesRoot root candidate) ∧
    (∀ userId dbName collection : Identifier,
      fs.StaysInside root (storagePath root userId.1 dbName.1 collection.1) ∧
      ∃ names : List Name, names.map Name.bytes = [userId.1, dbName.1, collection.1] ∧
        (storagePath root userId.1 dbName.1 collection.1).lexicallyNormal =
          ofNames true (root.lexicallyNormal.names ++ names)) ∧
    Function.Injective fun ids : Identifier × Identifier × Identifier =>
      (storagePath root ids.1.1 ids.2.1.1 ids.2.2.1).lexicallyNormal := by
  refine ⟨FileSystem.staysInside_iff, ?_, storagePath_injective absolute⟩
  intro userId dbName collection
  obtain ⟨names, isNames, isPath⟩ := storagePath_normal absolute userId dbName collection
  exact ⟨FileSystem.staysInside_iff.mpr (not_namesRoot isPath), names, isNames, isPath⟩

/-- `data` -/
def dataName : Name := ⟨[100, 97, 116, 97], by decide, by decide⟩

/-- A disk with the one directory `/data`. -/
def dataDisk : FileSystem where
  symlinkStatus path := if path.names = [] ∨ path.names = [dataName] then .directory else .missing
  found path := some (decide (path.names = [] ∨ path.names = [dataName]))
  canonical path := if path.names = [dataName] then some (ofNames true [dataName]) else none
  canonical_normal isCanonical := by
    split at isCanonical
    · cases isCanonical
      exact ⟨rfl, by decide⟩
    · cases isCanonical

def dataRoot : Path := ofNames true [dataName]

/-- The candidate `/data/..d`. -/
theorem contained_iff_data : dataRoot.absolute = true ∧
    dataDisk.StaysInside dataRoot (ofBytes [47, 100, 97, 116, 97, 47, 46, 46, 100]) := by
  have apart : ¬dataDisk.NamesRoot dataRoot (ofBytes [47, 100, 97, 116, 97, 47, 46, 46, 100]) :=
    not_namesRoot rfl
  exact ⟨rfl, (contained_iff rfl).1.mpr apart⟩

/-- The candidate `/data/d/..` is the root. -/
theorem root_not_inside : ¬∀ root candidate : Path, dataDisk.StaysInside root candidate := by
  intro all
  have accepted : dataDisk.validateContainedStoragePath dataRoot
      (ofBytes [47, 100, 97, 116, 97, 47, 100, 47, 46, 46]) = .ok (closed true [dataName]) := rfl
  obtain ⟨-, base, isBase, inside⟩ := all _ _ _ accepted
  obtain rfl : dataRoot = base := Option.some.inj isBase
  exact inside.strictly rfl

end PacificDb.Storage
