import Mathlib.Data.List.Perm.Subperm
import PacificDb.Query.Meaning

/-!
# Plain filters are evaluated as they are meant

The parser and the evaluator keep the meaning of a plain filter, by induction on the
filter with one lemma for each function of the parser. A member added to a filter only
takes documents away.
-/

namespace PacificDb.Query

variable {lib : Library} {node : QueryNode lib.Double} {nodes : List (QueryNode lib.Double)}

/-! ## Operators without filters -/

theorem eval_parseTest {field : String} {test : FieldTest} {operand : Json}
    (parsed : parseTest lib field test operand = some node) (doc : Json) :
    evalQuery lib node doc = testMeans lib field test operand doc := by
  unfold parseTest at parsed
  split at parsed
  case h_7 members =>
      rw [testMeans]
      cases search : stringValue members "$search" "" with
      | none =>
        rw [search] at parsed
        cases parsed
      | some text =>
        rw [search] at parsed
        cases parsed
        rfl
  case h_8 => cases parsed
  case h_9 => 
      cases parsed
      unfold testMeans
      split <;> simp_all [evalQuery]
  all_goals
    cases parsed
    simp_all [evalQuery, testMeans]

theorem eval_parseRegex {field : String} {regex : Json} {options : Option Json}
    (parsed : parseRegex lib field regex options = some node) (doc : Json) :
    evalQuery lib node doc = regexMeans lib field regex options doc := by
  unfold parseRegex at parsed
  split at parsed
  next pattern text given =>
      obtain ⟨search, -, built⟩ := Option.bind_eq_some_iff.mp parsed
      cases built
      unfold regexMeans
      rw [given]
      rfl
  next => cases parsed

/-- Members that are only `$regex` and its `$options` ask for nothing else. -/
theorem operatorsMean_regexOnly {field : String} {members : List (String × Json)} {doc : Json}
    (only : ∀ member ∈ members, member.1 = "$regex" ∨ member.1 = "$options") :
    operatorsMean lib field true members doc = true := by
  induction members with
  | nil => rfl
  | cons member rest ih =>
    obtain ⟨here, only⟩ := List.forall_mem_cons.mp only
    rw [operatorsMean, ih only, Bool.and_true, Bool.true_and, Bool.or_eq_true, Bool.or_eq_true,
      beq_iff_eq, beq_iff_eq]
    exact .inl here

theorem exists_of_lookup {members : List (String × Json)} {key : String}
    (found : (members.lookup key).isSome = true) : ∃ member ∈ members, member.1 = key := by
  obtain ⟨member, isMember, same⟩ := List.lookup_isSome_iff.mp found
  exact ⟨member, isMember, (beq_iff_eq.mp same).symm⟩

/-- So are no more members than the two. -/
theorem regexOnly_of_length {members : List (String × Json)} {regex : Json}
    (found : members.lookup "$regex" = some regex)
    (few : members.length ≤ if (members.lookup "$options").isSome then 2 else 1) :
    ∀ member ∈ members, member.1 = "$regex" ∨ member.1 = "$options" := by
  obtain ⟨pattern, isPattern, patternKey⟩ := exists_of_lookup (Option.isSome_of_eq_some found)
  by_cases optioned : (members.lookup "$options").isSome = true
  · obtain ⟨options, isOptions, optionsKey⟩ := exists_of_lookup optioned
    rw [if_pos optioned] at few
    have differ : pattern ≠ options := by
      rintro rfl
      exact absurd (patternKey.symm.trans optionsKey) (by decide)
    intro member isMember
    by_contra neither
    obtain ⟨notPattern, notOptions⟩ := not_or.mp neither
    have three : [pattern, options, member].Nodup := by
      have first : pattern ≠ member := fun same => notPattern (same ▸ patternKey)
      have second : options ≠ member := fun same => notOptions (same ▸ optionsKey)
      simp [differ, first, second]
    have inside : [pattern, options, member] ⊆ members := by
      simp [isPattern, isOptions, isMember]
    have longer := (three.subperm inside).length_le
    simp only [List.length_cons, List.length_nil] at longer
    omega
  · rw [if_neg optioned] at few
    intro member isMember
    obtain ⟨only, isOnly⟩ := List.length_eq_one_iff.mp
      (le_antisymm few (List.length_pos_of_mem isMember))
    rw [isOnly, List.mem_singleton] at isPattern isMember
    rw [isMember, ← isPattern]
    exact .inl patternKey

/-- An operand with one member means that member. -/
theorem operandMeans_single {field : String} {member : String × Json} {doc : Json}
    (noRegex : [member].lookup "$regex" = none) :
    operandMeans lib field (.object [member]) doc = operatorMeans lib field member doc := by
  obtain ⟨key, operand⟩ := member
  rw [operandMeans, noRegex, isOperators, List.any_cons, List.any_nil, Bool.or_false]
  cases found : operator? key with
  | none =>
    rw [if_neg (by decide), operatorMeans, found]
  | some operator =>
    rw [if_pos (by rfl)]
    dsimp only
    rw [operatorsMean, operatorsMean, Bool.and_true, Bool.false_and, Bool.false_or]

/-! ## Filters -/

theorem map_parsed {Parsed Result : Type} {parsed : Option Parsed} {build : Parsed → Result}
    {result : Result} (done : (do let child ← parsed; return build child) = some result) :
    ∃ child, parsed = some child ∧ build child = result := by
  cases parsed with
  | none => cases done
  | some child => exact ⟨child, rfl, Option.some.inj done⟩

theorem cons_parsed {parsed : Option (QueryNode lib.Double)}
    {rest : Option (List (QueryNode lib.Double))}
    (done : (do let child ← parsed; let children ← rest; return child :: children) = some nodes) :
    ∃ child children, parsed = some child ∧ rest = some children ∧ child :: children = nodes := by
  cases parsed with
  | none => cases done
  | some child =>
    cases rest with
    | none => cases done
    | some children => exact ⟨child, children, rfl, rfl, Option.some.inj done⟩

mutual

theorem eval_parseQuery : ∀ {filter : Json} {node : QueryNode lib.Double}, plain filter = true →
    parseQuery lib filter = some node → ∀ doc, evalQuery lib node doc = means lib filter doc
  | .null, node, _, parsed, doc => by
      cases parsed
      rfl
  | .bool value, node, _, parsed, doc => by
      cases parsed
      rfl
  | .integer value, node, _, parsed, doc => by
      cases parsed
      rfl
  | .unsigned value, node, _, parsed, doc => by
      cases parsed
      rfl
  | .float bits, node, _, parsed, doc => by
      cases parsed
      rfl
  | .string value, node, _, parsed, doc => by
      cases parsed
      rfl
  | .array items, node, _, parsed, doc => by
      cases parsed
      rfl
  | .object [], node, _, parsed, doc => by
      cases parsed
      rfl
  | .object [member], node, isPlain, parsed, doc => by
      rw [plain, plainMembers, plainMembers, Bool.and_true] at isPlain
      have single := (Bool.and_eq_true_iff.mp isPlain).2
      rw [parseQuery_single] at parsed
      rw [means, membersMean, membersMean, Bool.and_true]
      cases found : logical? member.1 with
      | some operator =>
          rw [found] at single parsed
          exact eval_parseLogical single parsed doc
      | none =>
          rw [found] at single parsed
          exact eval_parseMember single parsed doc
  | .object (first :: second :: rest), node, isPlain, parsed, doc => by
      rw [plain] at isPlain
      obtain ⟨alone, members⟩ := Bool.and_eq_true_iff.mp isPlain
      have fields : ∀ member ∈ first :: second :: rest, logical? member.1 = none := by
        rcases Bool.or_eq_true_iff.mp alone with short | all
        · have few := of_decide_eq_true short
          rw [List.length_cons, List.length_cons] at few
          omega
        · intro member isMember
          exact Option.isNone_iff_eq_none.mp (List.all_eq_true.mp all member isMember)
      rw [parseQuery_fields fields] at parsed
      obtain ⟨children, inner, rfl⟩ := Option.map_eq_some_iff.mp parsed
      exact eval_parseMembers fields members inner doc
termination_by structural filter => filter

theorem eval_parseMembers : ∀ {members : List (String × Json)} {nodes : List (QueryNode lib.Double)},
    (∀ member ∈ members, logical? member.1 = none) → plainMembers members = true →
    parseMembers lib members = some nodes →
    ∀ doc, evalAll lib nodes doc = membersMean lib members doc
  | [], nodes, _, _, parsed, doc => by
      cases parsed
      rfl
  | member :: rest, nodes, fields, isPlain, parsed, doc => by
      obtain ⟨field, fields⟩ := List.forall_mem_cons.mp fields
      rw [plainMembers, field] at isPlain
      obtain ⟨here, rests⟩ := Bool.and_eq_true_iff.mp isPlain
      obtain ⟨child, children, first, others, rfl⟩ := cons_parsed parsed
      rw [evalAll, membersMean, field, eval_parseMember here first,
        eval_parseMembers fields rests others]
termination_by structural members => members

theorem eval_parseMember : ∀ {member : String × Json} {node : QueryNode lib.Double},
    plainField member = true → parseMember lib member = some node →
    ∀ doc, evalQuery lib node doc = fieldMeans lib member doc
  | (_, _), _, isPlain, parsed, doc => eval_parseField isPlain parsed doc
termination_by structural member => member

theorem eval_parseLogical : ∀ {operator : Logical} {member : String × Json}
    {node : QueryNode lib.Double}, plainLogical operator member = true →
    parseLogical lib operator member = some node →
    ∀ doc, evalQuery lib node doc = logicalMeans lib operator member doc
  | operator, (name, value), node, isPlain, parsed, doc => by
      cases operator with
      | not =>
        obtain ⟨child, inner, rfl⟩ := map_parsed parsed
        rw [evalQuery, logicalMeans, eval_parseQuery isPlain inner]
      | vectorSearch =>
        rw [parseLogical] at parsed
        rw [logicalMeans, vectorMeans, parsed]
      | or =>
        cases value with
        | array filters =>
          obtain ⟨kept, filtersPlain⟩ := Bool.and_eq_true_iff.mp isPlain
          obtain ⟨children, inner, rfl⟩ := map_parsed parsed
          have branches := eval_parseBranches kept filtersPlain inner doc
          rw [logicalMeans, ← branches]
          cases children <;> rfl
        | _ =>
          cases parsed
          rfl
      | and =>
        cases value with
        | array filters =>
          obtain ⟨children, inner, rfl⟩ := map_parsed parsed
          exact (eval_parseAll isPlain inner doc).1
        | _ =>
          cases parsed
          rfl
      | nor =>
        cases value with
        | array filters =>
          obtain ⟨children, inner, rfl⟩ := map_parsed parsed
          rw [evalQuery, logicalMeans, (eval_parseAll isPlain inner doc).2]
        | _ =>
          cases parsed
          rfl
termination_by structural _ member => member

theorem eval_parseAll : ∀ {filters : List Json} {nodes : List (QueryNode lib.Double)},
    plainAll filters = true → parseAll lib filters = some nodes → ∀ doc,
    evalAll lib nodes doc = allMean lib filters doc ∧ evalAny lib nodes doc = anyMeans lib filters doc
  | [], nodes, _, parsed, doc => by
      cases parsed
      exact ⟨rfl, rfl⟩
  | filter :: rest, nodes, isPlain, parsed, doc => by
      obtain ⟨here, rests⟩ := Bool.and_eq_true_iff.mp isPlain
      obtain ⟨child, children, first, others, rfl⟩ := cons_parsed parsed
      obtain ⟨all, any⟩ := eval_parseAll rests others doc
      rw [evalAll, evalAny, allMean, anyMeans, all, any, eval_parseQuery here first]
      exact ⟨rfl, rfl⟩
termination_by structural filters => filters

theorem eval_parseBranches : ∀ {filters : List Json} {nodes : List (QueryNode lib.Double)},
    filters.all isKeptBranch = true → plainAll filters = true →
    parseBranches lib filters = some nodes →
    ∀ doc, evalAny lib nodes doc = anyMeans lib filters doc
  | [], nodes, _, _, parsed, doc => by
      cases parsed
      rfl
  | filter :: rest, nodes, kept, isPlain, parsed, doc => by
      rw [List.all_cons] at kept
      obtain ⟨isKept, kept⟩ := Bool.and_eq_true_iff.mp kept
      obtain ⟨here, rests⟩ := Bool.and_eq_true_iff.mp isPlain
      rw [parseBranches] at parsed
      split at parsed
      next branch =>
        obtain ⟨child, children, first, others, rfl⟩ := cons_parsed parsed
        rw [evalAny, anyMeans, eval_parseQuery here first, eval_parseBranches kept rests others]
      next skipped =>
        -- The branch is no object, and such a filter matches nothing.
        have nothing : means lib filter doc = false := by
          cases filter with
          | object members => exact absurd isKept skipped
          | null => cases isKept
          | _ => rfl
        rw [anyMeans, nothing, Bool.false_or, eval_parseBranches kept rests parsed]
termination_by structural filters => filters

theorem eval_parseField : ∀ {field : String} {value : Json} {node : QueryNode lib.Double},
    plainOperand value = true → parseField lib field value = some node →
    ∀ doc, evalQuery lib node doc = operandMeans lib field value doc
  | field, .null, node, _, parsed, doc => by
      cases parsed
      rfl
  | field, .bool value, node, _, parsed, doc => by
      cases parsed
      rfl
  | field, .integer value, node, _, parsed, doc => by
      cases parsed
      rfl
  | field, .unsigned value, node, _, parsed, doc => by
      cases parsed
      rfl
  | field, .float bits, node, _, parsed, doc => by
      cases parsed
      rfl
  | field, .string value, node, _, parsed, doc => by
      cases parsed
      rfl
  | field, .array items, node, _, parsed, doc => by
      cases parsed
      rfl
  | field, .object members, node, isPlain, parsed, doc => by
      rw [plainOperand] at isPlain
      obtain ⟨several, operators⟩ := Bool.and_eq_true_iff.mp isPlain
      unfold parseField at parsed
      dsimp only at parsed
      rw [operandMeans]
      cases found : members.lookup "$regex" with
      | some regex =>
          have isOps : isOperators members = true := by
            obtain ⟨member, isMember, key⟩ := exists_of_lookup (Option.isSome_of_eq_some found)
            refine List.any_eq_true.mpr ⟨member, isMember, ?_⟩
            rw [key]
            rfl
          rw [found] at parsed
          rw [if_pos isOps]
          obtain ⟨first, regexParsed, built⟩ := Option.bind_eq_some_iff.mp parsed
          have regexEval := eval_parseRegex regexParsed doc
          by_cases more : (if (members.lookup "$options").isSome then 2 else 1) < members.length
          · rw [if_pos more] at built
            obtain ⟨children, others, rfl⟩ := map_parsed built
            rw [evalQuery, evalAll, regexEval, eval_parseOperators operators others]
          · rw [if_neg more] at built
            cases built
            have few := not_lt.mp more
            have only := regexOnly_of_length found few
            dsimp only
            rw [regexEval, operatorsMean_regexOnly only, Bool.and_true]
      | none =>
        rw [found] at parsed
        cases members with
        | nil =>
          cases parsed
          rfl
        | cons first rest =>
          cases rest with
          | nil =>
            rw [plainOperators, plainOperators, Bool.and_true] at operators
            rw [eval_parseOperator operators parsed doc, ← operandMeans_single found, operandMeans,
              found]
          | cons second rest =>
            have isOps : isOperators (first :: second :: rest) = true := by
              refine (Bool.or_eq_true_iff.mp several).resolve_left fun short => ?_
              have few := of_decide_eq_true short
              rw [List.length_cons, List.length_cons] at few
              omega
            obtain ⟨children, others, rfl⟩ := map_parsed parsed
            rw [if_pos isOps, evalQuery, eval_parseOperators operators others]
termination_by structural _ value => value

theorem eval_parseOperators : ∀ {field : String} {withRegex : Bool} {members : List (String × Json)}
    {nodes : List (QueryNode lib.Double)}, plainOperators members = true →
    parseOperators lib field withRegex members = some nodes →
    ∀ doc, evalAll lib nodes doc = operatorsMean lib field withRegex members doc
  | field, withRegex, [], nodes, _, parsed, doc => by
      cases parsed
      rfl
  | field, withRegex, member :: rest, nodes, isPlain, parsed, doc => by
      obtain ⟨here, rests⟩ := Bool.and_eq_true_iff.mp isPlain
      rw [parseOperators] at parsed
      split at parsed
      next skipped =>
        rw [operatorsMean, skipped, Bool.true_or, Bool.true_and, eval_parseOperators rests parsed]
      next asked =>
        obtain ⟨child, children, first, others, rfl⟩ := cons_parsed parsed
        rw [evalAll, operatorsMean, Bool.eq_false_iff.mpr asked, Bool.false_or,
          eval_parseOperator here first, eval_parseOperators rests others]
termination_by structural _ _ members => members

theorem eval_parseOperator : ∀ {field : String} {member : String × Json}
    {node : QueryNode lib.Double}, plainOperator member = true →
    parseOperator lib field member = some node →
    ∀ doc, evalQuery lib node doc = operatorMeans lib field member doc
  | field, (key, operand), node, isPlain, parsed, doc => by
      rw [parseOperator] at parsed
      rw [plainOperator] at isPlain
      rw [operatorMeans]
      cases found : operator? key with
      | none =>
          rw [found] at parsed
          cases parsed
          rfl
      | some operator =>
          rw [found] at parsed isPlain
          cases operator with
          | test test => exact eval_parseTest parsed doc
          | regex => exact eval_parseRegex parsed doc
          | elemMatch =>
              obtain ⟨child, inner, rfl⟩ := map_parsed parsed
              have elems : (fun elem => evalQuery lib child elem) =
                  fun elem => means lib operand elem :=
                funext fun elem => eval_parseQuery isPlain inner elem
              rw [evalQuery]
              exact congrArg (fun holds : Json → Bool =>
                match doc.field? field with
                | some (.array items) => items.any holds
                | _ => false) elems
          | not =>
            obtain ⟨child, inner, rfl⟩ := map_parsed parsed
            rw [evalQuery, eval_parseField isPlain inner]
termination_by structural _ member => member

end

/-! ## Members taken away -/

theorem membersMean_eq (members : List (String × Json)) (doc : Json) :
    membersMean lib members doc = members.all fun member => means lib (.object [member]) doc := by
  induction members with
  | nil => rfl
  | cons member rest ih =>
    rw [List.all_cons, ← ih, means, membersMean, membersMean, membersMean, Bool.and_true]

/-- A filter with fewer members matches at least as many documents. -/
theorem means_of_sublist {fewer members : List (String × Json)} (sublist : fewer.Sublist members)
    {doc : Json} (matched : means lib (.object members) doc = true) :
    means lib (.object fewer) doc = true := by
  rw [means, membersMean_eq, List.all_eq_true] at matched ⊢
  exact fun member isMember => matched member (sublist.subset isMember)

theorem plainMembers_eq (members : List (String × Json)) :
    plainMembers members = members.all fun member => plain (.object [member]) := by
  induction members with
  | nil => rfl
  | cons member rest ih =>
    rw [List.all_cons, ← ih, plain, plainMembers, plainMembers, plainMembers, Bool.and_true]
    rfl

theorem plain_of_sublist {fewer members : List (String × Json)} (sublist : fewer.Sublist members)
    (isPlain : plain (.object members) = true) : plain (.object fewer) = true := by
  rw [plain, plainMembers_eq, Bool.and_eq_true, Bool.or_eq_true, decide_eq_true_eq,
    List.all_eq_true, List.all_eq_true] at isPlain ⊢
  obtain ⟨alone, members⟩ := isPlain
  refine ⟨?_, fun member isMember => members member (sublist.subset isMember)⟩
  rcases alone with short | fields
  · exact .inl (sublist.length_le.trans short)
  · exact .inr fun member isMember => fields member (sublist.subset isMember)

/-! ## The main result -/

/-- A plain filter matches what it means, and no more when a member is added to it. -/
theorem filter_matches_meaning {members : List (String × Json)} {node : QueryNode lib.Double}
    (isPlain : plain (.object members) = true)
    (parsed : parseQuery lib (.object members) = some node) :
    (∀ doc, evalQuery lib node doc = means lib (.object members) doc) ∧
      ∀ fewer fewerNode doc, fewer.Sublist members →
        parseQuery lib (.object fewer) = some fewerNode → evalQuery lib node doc = true →
        evalQuery lib fewerNode doc = true := by
  have means_members := eval_parseQuery isPlain parsed
  refine ⟨means_members, fun fewer fewerNode doc sublist fewerParsed matched => ?_⟩
  rw [means_members] at matched
  rw [eval_parseQuery (plain_of_sublist sublist isPlain) fewerParsed]
  exact means_of_sublist sublist matched

/-- Equality of texts and integers, and integers for numbers. -/
def sampleLibrary : Library where
  Double := Int
  equal
    | .string a, .string b => a == b
    | .integer a, .integer b => a == b
    | _, _ => false
  dump := fun _ => ""
  toInt
    | .integer value => value
    | _ => 0
  toDouble
    | .integer value => value
    | _ => 0
  ofRat := Rat.floor
  nan := 0
  stod := fun _ => none
  add := (· + ·)
  sub := (· - ·)
  mul := (· * ·)
  div := (· / ·)
  sqrt := id
  less := fun a b => decide (a < b)
  lessEq := fun a b => decide (a ≤ b)
  isNaN := fun _ => false
  re2 := fun _ _ => none

/-- Open entries of adults, asked for in two members. -/
def openAdults : List (String × Json) :=
  [("age", .object [("$gte", .integer 18), ("$lt", .integer 65)]), ("status", .string "open")]

theorem openAdults_matches : ∃ node, parseQuery sampleLibrary (.object openAdults) = some node ∧
    (∀ doc, evalQuery sampleLibrary node doc = means sampleLibrary (.object openAdults) doc) ∧
      evalQuery sampleLibrary node
        (.object [("age", .integer 30), ("status", .string "open")]) = true :=
  ⟨_, rfl, (filter_matches_meaning (by decide) rfl).1, by decide⟩

/-- Beside `$or` the tenant is not looked at. -/
theorem or_forgets_tenant : ¬∀ members node,
    parseQuery sampleLibrary (.object members) = some node →
      ∀ doc, evalQuery sampleLibrary node doc = means sampleLibrary (.object members) doc := by
  intro claim
  have same := claim
    [("$or", .array [.object [("kind", .string "note")]]), ("tenant", .string "ours")] _ rfl
    (.object [("kind", .string "note"), ("tenant", .string "theirs")])
  revert same
  decide

end PacificDb.Query
