import Mathlib.Data.List.Basic
import Mathlib.Data.List.Induction

/-!
# POSIX paths

A path is the sequence of its components: the root directory, names, and an empty component
after a trailing separator. `lexicallyNormal` removes the dot names as `std::filesystem` does,
without a look at the file system.
-/

namespace PacificDb.Lib

/-- The separator of names. -/
def slash : UInt8 := 47

/-- What stands between separators. -/
structure Name where
  bytes : List UInt8
  nonempty : bytes ≠ []
  whole : slash ∉ bytes
  deriving DecidableEq

namespace Name

def dot : Name := ⟨[46], by decide, by decide⟩

def dotdot : Name := ⟨[46, 46], by decide, by decide⟩

theorem ext_bytes {first second : Name} (same : first.bytes = second.bytes) : first = second := by
  cases first
  cases second
  cases same
  rfl

def of? (bytes : List UInt8) : Option Name :=
  if valid : bytes ≠ [] ∧ slash ∉ bytes then some ⟨bytes, valid.1, valid.2⟩ else none

theorem of?_bytes (name : Name) : of? name.bytes = some name := dif_pos ⟨name.nonempty, name.whole⟩

/-- A name that stands for itself. -/
def Plain (name : Name) : Prop := name ≠ dot ∧ name ≠ dotdot

instance : DecidablePred Plain := fun name => inferInstanceAs (Decidable (name ≠ dot ∧ name ≠ dotdot))

end Name

/-- `trailing` is a separator after the last name. -/
structure Path where
  absolute : Bool
  names : List Name
  trailing : Bool
  ended : trailing = true → names ≠ []
  deriving DecidableEq

/-- What a path iterates through. -/
inductive Component where
  | root
  | name (name : Name)
  | empty
  deriving DecidableEq

namespace Path

/-- A path that ends in a name, or the root directory. -/
def ofNames (absolute : Bool) (names : List Name) : Path := ⟨absolute, names, false, nofun⟩

/-- A path that ends in a separator, if it has names. -/
def closed (absolute : Bool) (names : List Name) : Path :=
  ⟨absolute, names, decide (names ≠ []), of_decide_eq_true⟩

/-- The path of a text. Repeated separators count as one. -/
def ofBytes (text : List UInt8) : Path :=
  let names := (text.splitOn slash).filterMap Name.of?
  ⟨text.head? = some slash, names, decide (names ≠ [] ∧ text.getLast? = some slash),
    fun trailing => (of_decide_eq_true trailing).1⟩

def components (path : Path) : List Component :=
  (if path.absolute then [.root] else []) ++ path.names.map .name ++
    (if path.trailing then [.empty] else [])

def isEmpty (path : Path) : Bool := path.components.isEmpty

/-- `path /= component`. -/
def append (path : Path) : Component → Path
  | .root => ofNames true []
  | .name name => ofNames path.absolute (path.names ++ [name])
  | .empty => closed path.absolute path.names

/-- One component of `lexically_normal`. -/
def normalStep (path : Path) : Component → Path
  | .name name =>
      if name = .dotdot then
        match path.names.getLast? with
        | none => if path.absolute then path else path.append (.name name)
        | some last =>
            if last = .dotdot then path.append (.name name)
            else closed path.absolute path.names.dropLast
      else if name = .dot then path.append .empty
      else path.append (.name name)
  | component => path.append component

/-- The end of `lexically_normal`. -/
def settle (path : Path) : Path :=
  if path.trailing ∧ path.names.getLast? = some .dotdot then ofNames path.absolute path.names
  else if path.isEmpty then ofNames false [.dot]
  else path

def lexicallyNormal (path : Path) : Path :=
  if path.isEmpty then path else (path.components.foldl normalStep (ofNames false [])).settle

/-- An absolute path without dot names. -/
structure Normal (path : Path) : Prop where
  absolute : path.absolute = true
  plain : ∀ name ∈ path.names, name.Plain

variable {path : Path} {names : List Name} {name : Name}

theorem ext_fields {first second : Path} (absolute : first.absolute = second.absolute)
    (names : first.names = second.names) (trailing : first.trailing = second.trailing) :
    first = second := by
  cases first
  cases second
  cases absolute
  cases names
  cases trailing
  rfl

/-! ## Normal forms of absolute paths -/

theorem normalStep_plain (plain : name.Plain) :
    path.normalStep (.name name) = ofNames path.absolute (path.names ++ [name]) := by
  rw [normalStep, if_neg plain.2, if_neg plain.1]
  rfl

theorem Normal.step (normal : path.Normal) (name : Name) : (path.normalStep (.name name)).Normal := by
  rw [normalStep]
  split
  next isDotdot =>
    split
    · rw [if_pos normal.absolute]
      exact normal
    next last isLast =>
      have plain : last.Plain := normal.plain last (List.mem_of_getLast? isLast)
      rw [if_neg plain.2]
      exact ⟨normal.absolute, fun other member => normal.plain other (List.dropLast_subset _ member)⟩
  next notDotdot =>
    split
    · exact ⟨normal.absolute, normal.plain⟩
    next notDot =>
      refine ⟨normal.absolute, fun other member => ?_⟩
      rcases List.mem_append.mp member with before | last
      · exact normal.plain other before
      · rw [List.mem_singleton.mp last]
        exact ⟨notDot, notDotdot⟩

/-- The names are run through from the root directory. -/
def resolve (names : List Name) : Path := (names.map Component.name).foldl normalStep (ofNames true [])

theorem resolve_append : resolve (names ++ [name]) = (resolve names).normalStep (.name name) := by
  rw [resolve, List.map_append, List.foldl_append]
  rfl

theorem normal_resolve (names : List Name) : (resolve names).Normal := by
  induction names using List.reverseRecOn with
  | nil => exact ⟨rfl, fun _ member => absurd member List.not_mem_nil⟩
  | append_singleton names name ih =>
    rw [resolve_append]
    exact ih.step name

theorem resolve_of_plain (plain : ∀ name ∈ names, name.Plain) : resolve names = ofNames true names := by
  induction names using List.reverseRecOn with
  | nil => rfl
  | append_singleton names name ih =>
    rw [resolve_append, ih fun other member => plain other (List.mem_append_left _ member),
      normalStep_plain (plain name (List.mem_append_right _ (List.mem_singleton_self _)))]
    rfl

theorem Normal.settle (normal : path.Normal) : path.settle = path := by
  have absolute := normal.absolute
  rw [Path.settle, if_neg, if_neg]
  · rw [isEmpty, components, if_pos absolute]
    exact Bool.false_ne_true
  · rintro ⟨-, last⟩
    exact (normal.plain _ (List.mem_of_getLast? last)).2 rfl

/-- The normal form of an absolute path: a trailing separator is kept. -/
theorem lexicallyNormal_absolute (absolute : path.absolute = true) : path.lexicallyNormal =
    if path.trailing then closed true (resolve path.names).names else resolve path.names := by
  have normal := normal_resolve path.names
  have start : path.components.foldl normalStep (ofNames false []) =
      if path.trailing then closed true (resolve path.names).names else resolve path.names := by
    rw [components, if_pos absolute, List.foldl_append, List.foldl_append]
    change (if path.trailing then [Component.empty] else []).foldl normalStep (resolve path.names) = _
    split
    · change closed (resolve path.names).absolute _ = _
      rw [normal.absolute]
    · rfl
  have nonempty : path.isEmpty = false := by
    rw [isEmpty, components, if_pos absolute]
    rfl
  rw [lexicallyNormal, nonempty, if_neg Bool.false_ne_true, start]
  apply Normal.settle
  split
  · exact ⟨rfl, normal.plain⟩
  · exact normal

theorem names_lexicallyNormal (absolute : path.absolute = true) :
    path.lexicallyNormal.names = (resolve path.names).names := by
  rw [lexicallyNormal_absolute absolute]
  split <;> rfl

theorem normal_lexicallyNormal (absolute : path.absolute = true) : path.lexicallyNormal.Normal := by
  have normal := normal_resolve path.names
  rw [lexicallyNormal_absolute absolute]
  split
  · exact ⟨rfl, normal.plain⟩
  · exact normal

theorem Normal.lexicallyNormal (normal : path.Normal) : path.lexicallyNormal = path := by
  rw [lexicallyNormal_absolute normal.absolute, resolve_of_plain normal.plain]
  split
  next trailing =>
    exact ext_fields normal.absolute.symm rfl ((decide_eq_true (path.ended trailing)).trans trailing.symm)
  next notTrailing =>
    exact ext_fields normal.absolute.symm rfl (Bool.eq_false_iff.mpr notTrailing).symm

/-- A plain name at the end stays there. -/
theorem lexicallyNormal_append (absolute : path.absolute = true) (plain : name.Plain) :
    (path.append (.name name)).lexicallyNormal =
      ofNames true (path.lexicallyNormal.names ++ [name]) := by
  have still : (path.append (.name name)).absolute = true := absolute
  rw [lexicallyNormal_absolute still, names_lexicallyNormal absolute]
  change resolve (path.names ++ [name]) = _
  rw [resolve_append, normalStep_plain plain, (normal_resolve path.names).absolute]

/-- The normal form of a relative path is relative. -/
theorem absolute_lexicallyNormal (relative : path.absolute = false) :
    path.lexicallyNormal.absolute = false := by
  have step : ∀ (front : Path) (component : Component), front.absolute = false → component ≠ .root →
      (front.normalStep component).absolute = false := by
    intro front component before notRoot
    cases component with
    | root => exact absurd rfl notRoot
    | empty => exact before
    | name name =>
      rw [normalStep]
      split
      · split
        · rw [before, if_neg Bool.false_ne_true]
          exact before
        · split
          · exact before
          · exact before
      · split
        · exact before
        · exact before
  have all : ∀ (rest : List Component) (front : Path), front.absolute = false → Component.root ∉ rest →
      (rest.foldl normalStep front).absolute = false := by
    intro rest
    induction rest with
    | nil => exact fun front before _ => before
    | cons component rest ih =>
      intro front before notRoot
      have here : component ≠ .root := fun same => notRoot (same ▸ List.mem_cons_self)
      exact ih _ (step front component before here) fun later => notRoot (List.mem_cons_of_mem _ later)
  have noRoot : Component.root ∉ path.components := by
    rw [components, relative]
    cases path.trailing <;> simp
  have folded := all path.components (ofNames false []) rfl noRoot
  rw [lexicallyNormal]
  split
  · exact relative
  · rw [settle]
    split
    · exact folded
    · split
      · rfl
      · exact folded

end Path

end PacificDb.Lib
