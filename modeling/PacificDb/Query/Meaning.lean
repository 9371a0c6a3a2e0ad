import PacificDb.Query.Parser

/-!
# What a filter means

The meaning of a filter, member by member: a filter is the conjunction of its
members, an operand with operators the conjunction of these, any other operand a
value the field has to equal. The parser keeps it for plain filters, which leave out
the places where it looks at one member and forgets the others.
-/

namespace PacificDb.Query

variable (lib : Library)

/-! ## The meaning -/

def logical? (name : String) : Option Logical :=
  Logical.all.find? fun operator => operator.name == name

def regexMeans (field : String) (regex : Json) (options : Option Json) (doc : Json) : Bool :=
  match regex, options.getD (.string "") with
  | .string pattern, .string options => matchRegex lib field pattern options doc
  | _, _ => false

/-- Nothing passes a test with an operand of the wrong type. -/
def testMeans (field : String) (test : FieldTest) (operand doc : Json) : Bool :=
  match test, operand with
  | .in, .array items => matchField lib .in field (.array items) doc
  | .in, _ => false
  | .nin, .array items => matchField lib .nin field (.array items) doc
  | .nin, _ => false
  | .all, .array items => matchField lib .all field (.array items) doc
  | .all, _ => false
  | .text, .object members =>
      match stringValue members "$search" "" with
      | some search => matchField lib .text field (.string search) doc
      | none => false
  | .text, _ => false
  | test, operand => matchField lib test field operand doc

def vectorMeans (vsearch doc : Json) : Bool :=
  match parseVectorSearch lib vsearch with
  | some node => evalQuery lib node doc
  | none => false

/-- The operand is a set of operators. -/
def isOperators (members : List (String × Json)) : Bool :=
  members.any fun member => (operator? member.1).isSome

mutual

def means : Json → Json → Bool
  | .null, _ => true
  | .object members, doc => membersMean members doc
  | _, _ => false
termination_by structural filter => filter

def membersMean : List (String × Json) → Json → Bool
  | [], _ => true
  | member :: rest, doc =>
      (match logical? member.1 with
      | some operator => logicalMeans operator member doc
      | none => fieldMeans member doc) && membersMean rest doc
termination_by structural members => members

def fieldMeans : String × Json → Json → Bool
  | (field, value), doc => operandMeans field value doc
termination_by structural member => member

def logicalMeans : Logical → String × Json → Json → Bool
  | .or, (_, .array filters), doc => anyMeans filters doc
  | .and, (_, .array filters), doc => allMean filters doc
  | .nor, (_, .array filters), doc => !anyMeans filters doc
  | .not, (_, filter), doc => !means filter doc
  | .vectorSearch, (_, vsearch), doc => vectorMeans lib vsearch doc
  | _, _, _ => false
termination_by structural _ member => member

def allMean : List Json → Json → Bool
  | [], _ => true
  | filter :: rest, doc => means filter doc && allMean rest doc
termination_by structural filters => filters

def anyMeans : List Json → Json → Bool
  | [], _ => false
  | filter :: rest, doc => means filter doc || anyMeans rest doc
termination_by structural filters => filters

def operandMeans (field : String) : Json → Json → Bool
  | .object members, doc =>
      if isOperators members then
        match members.lookup "$regex" with
        | some regex =>
            regexMeans lib field regex (members.lookup "$options") doc &&
              operatorsMean field true members doc
        | none => operatorsMean field false members doc
      else matchField lib .eq field (.object members) doc
  | value, doc => matchField lib .eq field value doc
termination_by structural operand => operand

/-- All the operators, or those beside `$regex` and its `$options`. -/
def operatorsMean (field : String) (withRegex : Bool) : List (String × Json) → Json → Bool
  | [], _ => true
  | member :: rest, doc =>
      (withRegex && (member.1 == "$regex" || member.1 == "$options") ||
        operatorMeans field member doc) && operatorsMean field withRegex rest doc
termination_by structural members => members

/-- A member that is no operator, among operators, asks for its object. -/
def operatorMeans (field : String) : String × Json → Json → Bool
  | (key, operand), doc =>
      match operator? key with
      | some (.test test) => testMeans lib field test operand doc
      | some .elemMatch =>
          match doc.field? field with
          | some (.array items) => items.any fun elem => means operand elem
          | _ => false
      | some .regex => regexMeans lib field operand none doc
      | some .not => !operandMeans field operand doc
      | none => matchField lib .eq field (.object [(key, operand)]) doc
termination_by structural member => member

end

/-! ## Plain filters -/

/-- The branch is looked at, or matches nothing. -/
def isKeptBranch : Json → Bool
  | .null => false
  | .object members => !members.isEmpty
  | _ => true

mutual

/-- A logical operator stands alone, no branch of `$or` is empty, and an operand of
several members has an operator. -/
def plain : Json → Bool
  | .object members =>
      (decide (members.length ≤ 1) || members.all fun member => (logical? member.1).isNone) &&
        plainMembers members
  | _ => true

def plainMembers : List (String × Json) → Bool
  | [] => true
  | member :: rest =>
      (match logical? member.1 with
      | some operator => plainLogical operator member
      | none => plainField member) && plainMembers rest

def plainLogical : Logical → String × Json → Bool
  | .or, (_, .array filters) => filters.all isKeptBranch && plainAll filters
  | .and, (_, .array filters) => plainAll filters
  | .nor, (_, .array filters) => plainAll filters
  | .not, (_, filter) => plain filter
  | _, _ => true

def plainField : String × Json → Bool
  | (_, value) => plainOperand value

def plainAll : List Json → Bool
  | [] => true
  | filter :: rest => plain filter && plainAll rest

def plainOperand : Json → Bool
  | .object members =>
      (decide (members.length ≤ 1) || isOperators members) && plainOperators members
  | _ => true

def plainOperators : List (String × Json) → Bool
  | [] => true
  | member :: rest => plainOperator member && plainOperators rest

def plainOperator : String × Json → Bool
  | (key, operand) =>
      match operator? key with
      | some .elemMatch => plain operand
      | some .not => plainOperand operand
      | _ => true

end

variable {lib : Library}

/-! ## The parser on members -/

theorem logical?_eq_some {name : String} {operator : Logical} (found : logical? name = some operator) :
    operator.name = name := by
  have holds := @List.find?_some _ (fun operator : Logical => operator.name == name) _ _ found
  exact beq_iff_eq.mp holds

theorem logical?_name (operator : Logical) : logical? operator.name = some operator := by
  cases operator <;> decide

theorem name_ne_of_logical?_none {name : String} (none : logical? name = none)
    (operator : Logical) : name ≠ operator.name := by
  rintro rfl
  rw [logical?_name] at none
  cases none

theorem parseNamed_none {operator : Logical} {members : List (String × Json)}
    (fields : ∀ member ∈ members, logical? member.1 = none) :
    parseNamed lib operator members = none := by
  induction members with
  | nil => rfl
  | cons member rest ih =>
    obtain ⟨field, fields⟩ := List.forall_mem_cons.mp fields
    rw [parseNamed, if_neg (name_ne_of_logical?_none field operator)]
    exact ih fields

/-- A filter with one member. -/
theorem parseQuery_single (member : String × Json) :
    parseQuery lib (.object [member]) =
      match logical? member.1 with
      | some operator => parseLogical lib operator member
      | none => parseMember lib member := by
  cases found : logical? member.1 with
  | none =>
    have fields : ∀ other ∈ [member], logical? other.1 = none := by
      intro other isMember
      rw [List.mem_singleton.mp isMember]
      exact found
    rw [parseQuery]
    simp only [parseNamed_none fields]
    rfl
  | some operator =>
    have name := logical?_eq_some found
    have own : parseNamed lib operator [member] = some (parseLogical lib operator member) := by
      rw [parseNamed, if_pos name.symm]
    have other (another : Logical) (differs : another ≠ operator) :
        parseNamed lib another [member] = none := by
      rw [parseNamed, if_neg, parseNamed]
      intro same
      rw [same, logical?_name] at found
      exact differs (Option.some.inj found)
    rw [parseQuery]
    cases operator <;> simp [own, other]

/-- A filter whose members are all fields. -/
theorem parseQuery_fields {first second : String × Json} {rest : List (String × Json)}
    (fields : ∀ member ∈ first :: second :: rest, logical? member.1 = none) :
    parseQuery lib (.object (first :: second :: rest)) =
      (parseMembers lib (first :: second :: rest)).map QueryNode.and := by
  rw [parseQuery]
  simp only [parseNamed_none fields]
  cases parseMembers lib (first :: second :: rest) <;> rfl

end PacificDb.Query
