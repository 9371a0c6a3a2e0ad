import PacificDb.Lib.Checks
import PacificDb.Lib.Path

/-!
# Storage identifiers

The names that clients choose are checked before they become names of directories. An accepted
identifier is one plain name of a path, so different collections are kept in different places.
-/

namespace PacificDb.Storage

open Lib Path

/-- `path.filename()`. -/
def filename (path : Path) : Path :=
  if path.trailing then ofNames false []
  else ofNames false path.names.getLast?.toList

/-- `path.has_parent_path()`. -/
def hasParentPath (path : Path) : Bool := path.absolute || 2 ≤ path.components.length

def validateStorageIdentifier (value : List UInt8) (fieldName : String) :
    Except String (List UInt8) := do
  ensure (value ≠ []) (fieldName ++ " cannot be empty")
  ensure (value ≠ Name.dot.bytes ∧ value ≠ Name.dotdot.bytes)
    (fieldName ++ " contains an unsafe path component")
  ensure (value.length ≤ 255) (fieldName ++ " exceeds the maximum byte length")
  ensure (0 ∉ value ∧ slash ∉ value ∧ 92 ∉ value) (fieldName ++ " contains a forbidden path character")
  let component := ofBytes value
  ensure (¬(component.absolute ∨ hasParentPath component ∨ filename component ≠ component ∨
    component.components.length ≠ 1)) (fieldName ++ " is not a valid storage identifier")
  return value

/-- `path / other`. -/
def join (path other : Path) : Path :=
  if other.absolute then other
  else if other.isEmpty then path.append .empty
  else other.components.foldl append path

/-- `component.string()`. -/
def text : Component → List UInt8
  | .root => [slash]
  | .name name => name.bytes
  | .empty => []

def validateStorageRelativePath (relativePath : Path) (fieldName : String) : Except String Path := do
  ensure (!relativePath.isEmpty && !relativePath.absolute)
    (fieldName ++ " is not a relative storage path")
  let names ← relativePath.components.mapM fun component =>
    validateStorageIdentifier (text component) fieldName
  ensure (names ≠ []) (fieldName ++ " cannot be empty")
  return names.foldl (fun result name => join result (ofBytes name)) (ofNames false [])

/-- Where the engine keeps a collection. -/
def storagePath (root : Path) (userId dbName collection : List UInt8) : Path :=
  join (join (join root (ofBytes userId)) (ofBytes dbName)) (ofBytes collection)

/-! ## Accepted identifiers -/

/-- An accepted identifier is a path of one plain name. -/
theorem identifier_name {value result : List UInt8} {fieldName : String}
    (accepted : validateStorageIdentifier value fieldName = .ok result) :
    result = value ∧ ∃ name : Name, name.Plain ∧ name.bytes = value := by
  obtain ⟨_, nonempty, accepted⟩ := bind_eq_ok.mp accepted
  obtain ⟨_, plain, accepted⟩ := bind_eq_ok.mp accepted
  obtain ⟨_, -, accepted⟩ := bind_eq_ok.mp accepted
  obtain ⟨_, allowed, accepted⟩ := bind_eq_ok.mp accepted
  obtain ⟨_, -, accepted⟩ := bind_eq_ok.mp accepted
  have nonempty := of_decide_eq_true (ensure_eq_ok.mp nonempty)
  have plain := of_decide_eq_true (ensure_eq_ok.mp plain)
  have allowed := of_decide_eq_true (ensure_eq_ok.mp allowed)
  refine ⟨(pure_eq_ok.mp accepted).symm, ⟨value, nonempty, allowed.2.1⟩, ⟨?_, ?_⟩, rfl⟩
  · exact fun same => plain.1 (congrArg Name.bytes same)
  · exact fun same => plain.2 (congrArg Name.bytes same)

example : validateStorageIdentifier [46, 46, 97] "userId" = .ok [46, 46, 97] := rfl

theorem ofBytes_name (name : Name) : ofBytes name.bytes = ofNames false [name] := by
  have segments : name.bytes.splitOn slash = [name.bytes] := List.splitOn_eq_singleton name.whole
  have noSlash : ∀ byte, byte ∈ name.bytes → byte ≠ slash := fun byte member same =>
    name.whole (same ▸ member)
  apply ext_fields
  · apply decide_eq_false
    intro isSlash
    exact noSlash slash (List.mem_of_mem_head? isSlash) rfl
  · change (name.bytes.splitOn slash).filterMap Name.of? = [name]
    rw [segments, List.filterMap_cons, Name.of?_bytes]
    rfl
  · apply decide_eq_false
    rintro ⟨-, isSlash⟩
    exact noSlash slash (List.mem_of_getLast? isSlash) rfl

theorem join_name (path : Path) (name : Name) : join path (ofBytes name.bytes) = path.append (.name name) := by
  rw [ofBytes_name]
  rfl

theorem identifiers_names {components : List Component} {values : List (List UInt8)} {fieldName : String}
    (accepted : components.mapM (fun component => validateStorageIdentifier (text component) fieldName) =
      .ok values) :
    ∃ names : List Name, components = names.map .name ∧ values = names.map Name.bytes ∧
      ∀ name ∈ names, name.Plain := by
  induction components generalizing values with
  | nil =>
    cases accepted
    exact ⟨[], rfl, rfl, nofun⟩
  | cons component components ih =>
    rw [List.mapM_cons] at accepted
    obtain ⟨value, first, accepted⟩ := bind_eq_ok.mp accepted
    obtain ⟨later, rest, accepted⟩ := bind_eq_ok.mp accepted
    obtain ⟨names, rfl, rfl, plain⟩ := ih rest
    obtain ⟨rfl, name, isPlain, isName⟩ := identifier_name first
    rw [← pure_eq_ok.mp accepted]
    cases component with
    | root => exact absurd (isName ▸ List.mem_singleton_self _ : slash ∈ name.bytes) name.whole
    | empty => exact absurd isName name.nonempty
    | name other =>
      obtain rfl : name = other := Name.ext_bytes isName
      exact ⟨name :: names, rfl, rfl, List.forall_mem_cons.mpr ⟨isPlain, plain⟩⟩

theorem foldl_join (names front : List Name) : (names.map Name.bytes).foldl
    (fun result name => join result (ofBytes name)) (ofNames false front) =
      ofNames false (front ++ names) := by
  induction names generalizing front with
  | nil => rw [List.append_nil]; rfl
  | cons name names ih =>
    rw [List.map_cons, List.foldl_cons, join_name]
    change List.foldl _ (ofNames false (front ++ [name])) _ = _
    rw [ih, List.append_assoc]
    rfl

/-- Plain names below an absolute path stay below it. -/
theorem names_below {root : Path} {names : List Name} (absolute : root.absolute = true)
    (plain : ∀ name ∈ names, name.Plain) :
    ((names.map Component.name).foldl append root).absolute = true ∧
      ((names.map Component.name).foldl append root).lexicallyNormal.names =
        root.lexicallyNormal.names ++ names := by
  induction names using List.reverseRecOn with
  | nil => exact ⟨absolute, (List.append_nil _).symm⟩
  | append_singleton names name ih =>
    obtain ⟨still, below⟩ := ih fun other member => plain other (List.mem_append_left _ member)
    rw [List.map_append, List.foldl_append]
    refine ⟨still, ?_⟩
    change (Path.append _ (.name name)).lexicallyNormal.names = _
    rw [lexicallyNormal_append still (plain name (by simp)), below, List.append_assoc]
    rfl

/-- An accepted relative path keeps its names, all of them plain, and leads below every root. -/
theorem relativePath_names {path result : Path} {fieldName : String}
    (accepted : validateStorageRelativePath path fieldName = .ok result) :
    result = path ∧ path.absolute = false ∧ path.trailing = false ∧
      (∀ name ∈ path.names, name.Plain) ∧ path.names ≠ [] ∧
      ∀ root : Path, root.absolute = true →
        (join root result).lexicallyNormal.names = root.lexicallyNormal.names ++ path.names := by
  obtain ⟨_, shape, accepted⟩ := bind_eq_ok.mp accepted
  obtain ⟨values, isValues, accepted⟩ := bind_eq_ok.mp accepted
  obtain ⟨_, -, accepted⟩ := bind_eq_ok.mp accepted
  obtain ⟨names, named, rfl, plain⟩ := identifiers_names isValues
  have relative : path.absolute = false := Bool.eq_false_iff.mpr fun absolute => by
    have root : Component.root ∈ names.map .name := by simp [← named, components, absolute]
    simp at root
  have notTrailing : path.trailing = false := Bool.eq_false_iff.mpr fun trailing => by
    have empty : Component.empty ∈ names.map .name := by simp [← named, components, trailing]
    simp at empty
  rw [components, relative, notTrailing] at named
  obtain rfl : path.names = names :=
    List.map_injective_iff.mpr (fun _ _ => Component.name.inj) (by simpa using named)
  obtain rfl : result = path := by
    rw [← pure_eq_ok.mp accepted, foldl_join]
    exact ext_fields relative.symm rfl notTrailing.symm
  have checked := ensure_eq_ok.mp shape
  rw [Bool.and_eq_true, Bool.not_eq_true'] at checked
  have nonempty : ¬result.isEmpty = true := Bool.eq_false_iff.mp checked.1
  refine ⟨rfl, relative, notTrailing, plain, fun none => nonempty ?_, fun root absolute => ?_⟩
  · simp [isEmpty, components, relative, notTrailing, none]
  · rw [join, if_neg (by simp [relative]), if_neg nonempty, components, relative, notTrailing]
    simpa using (names_below absolute plain).2

/-- `a//b` below `/`. -/
theorem relativePath_names_two : (join (ofNames true []) (ofBytes [97, 47, 47, 98])).lexicallyNormal.names =
    (ofNames true []).lexicallyNormal.names ++ (ofBytes [97, 47, 47, 98]).names :=
  (@relativePath_names (ofBytes [97, 47, 47, 98]) _ "path" rfl).2.2.2.2.2 _ rfl

/-- A value that `validateStorageIdentifier` accepts. -/
abbrev Identifier :=
  { value : List UInt8 // ∃ fieldName, validateStorageIdentifier value fieldName = .ok value }

theorem Identifier.exists_name (identifier : Identifier) :
    ∃ name : Name, name.Plain ∧ name.bytes = identifier.1 := by
  obtain ⟨fieldName, accepted⟩ := identifier.2
  exact (identifier_name accepted).2

/-- A collection is kept three names below the root. -/
theorem storagePath_normal {root : Path} (absolute : root.absolute = true)
    (userId dbName collection : Identifier) :
    ∃ names : List Name, names.map Name.bytes = [userId.1, dbName.1, collection.1] ∧
      (storagePath root userId.1 dbName.1 collection.1).lexicallyNormal =
        ofNames true (root.lexicallyNormal.names ++ names) := by
  obtain ⟨user, userPlain, isUser⟩ := userId.exists_name
  obtain ⟨db, dbPlain, isDb⟩ := dbName.exists_name
  obtain ⟨last, lastPlain, isLast⟩ := collection.exists_name
  refine ⟨[user, db, last], by simp [isUser, isDb, isLast], ?_⟩
  have userAbsolute : (root.append (.name user)).absolute = true := absolute
  have dbAbsolute : ((root.append (.name user)).append (.name db)).absolute = true := absolute
  rw [storagePath, ← isUser, ← isDb, ← isLast, join_name, join_name, join_name,
    lexicallyNormal_append dbAbsolute lastPlain, lexicallyNormal_append userAbsolute dbPlain,
    lexicallyNormal_append absolute userPlain]
  simp [ofNames]

theorem storagePath_injective (absolute : root.absolute = true) :
    Function.Injective fun ids : Identifier × Identifier × Identifier =>
      (storagePath root ids.1.1 ids.2.1.1 ids.2.2.1).lexicallyNormal := by
  rintro ⟨userId, dbName, collection⟩ ⟨otherUser, otherDb, otherCollection⟩ same
  obtain ⟨names, isNames, isPath⟩ := storagePath_normal absolute userId dbName collection
  obtain ⟨others, isOthers, isOther⟩ := storagePath_normal absolute otherUser otherDb otherCollection
  have sameNames : names = others :=
    List.append_cancel_left (congrArg Path.names (isPath.symm.trans (same.trans isOther)))
  rw [← sameNames, isNames] at isOthers
  simp only [List.cons.injEq, and_true] at isOthers
  obtain ⟨sameUser, sameDb, sameCollection⟩ := isOthers
  rw [Subtype.ext sameUser, Subtype.ext sameDb, Subtype.ext sameCollection]

end PacificDb.Storage
