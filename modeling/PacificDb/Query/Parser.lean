import Mathlib.Data.Rat.Defs
import PacificDb.Json

/-!
# The query parser

A filter is parsed to a `QueryNode`, and a node is evaluated on a document. The
parser recurses on filters it puts together from a member and its value; here each
such filter has its own function, of the field and the value.

Equality and text of JSON values, the arithmetic of `double` and regular expressions
come from outside. A filter that makes the parser throw has no node.
-/

namespace PacificDb.Query

/-- The JSON library, `double` and RE2. -/
structure Library where
  Double : Type
  equal : Json → Json → Bool
  dump : Json → String
  toInt : Json → Int
  toDouble : Json → Double
  ofRat : Rat → Double
  nan : Double
  stod : String → Option Double
  add : Double → Double → Double
  sub : Double → Double → Double
  mul : Double → Double → Double
  div : Double → Double → Double
  sqrt : Double → Double
  less : Double → Double → Bool
  lessEq : Double → Double → Bool
  isNaN : Double → Bool
  /-- The search of a pattern, with or without case. -/
  re2 : (pattern : String) → (caseSensitive : Bool) → Option (String → Bool)

def isNumber : Json → Bool
  | .integer _ | .unsigned _ | .float _ => true
  | _ => false

/-! ## Nodes -/

/-- The operators that look at the value of a field. -/
inductive FieldTest where
  | eq | ne | gt | gte | lt | lte | in | nin | all | size | exists | type | text
  deriving Repr, DecidableEq

inductive QueryNode (Double : Type) where
  | alwaysFalse
  | matchAll
  | invalid
  | and (children : List (QueryNode Double))
  | or (children : List (QueryNode Double))
  | not (child : QueryNode Double)
  | nor (children : List (QueryNode Double))
  | field (test : FieldTest) (field : String) (value : Json)
  | regex (field regexPattern regexOptions : String)
  | elemMatch (field : String) (child : QueryNode Double)
  | vectorSearch (field : String) (queryVector : List Double) (vectorThreshold : Double)
      (vectorMetric : String) (vectorTopK : Int)

variable (lib : Library)

/-! ## Regular expressions and vectors -/

/-- The cache of compiled patterns shows in no result. -/
def getOrCompileRegex (pattern options : String) : Option (String → Bool) :=
  if 4096 < pattern.utf8ByteSize then none
  else if options ≠ "" ∧ options ≠ "i" then none
  else lib.re2 pattern options.isEmpty

def dotProduct (a b : List lib.Double) : lib.Double :=
  if a.length ≠ b.length ∨ a.isEmpty then lib.nan
  else (a.zip b).foldl (fun sum pair => lib.add sum (lib.mul pair.1 pair.2)) (lib.ofRat 0)

def magnitude (v : List lib.Double) : lib.Double :=
  lib.sqrt (v.foldl (fun sum x => lib.add sum (lib.mul x x)) (lib.ofRat 0))

def cosineSimilarity (a b : List lib.Double) : lib.Double :=
  if a.length ≠ b.length ∨ a.isEmpty then lib.nan
  else if lib.less (magnitude lib a) (lib.ofRat (1 / 10 ^ 10)) ||
      lib.less (magnitude lib b) (lib.ofRat (1 / 10 ^ 10)) then lib.ofRat 0
  else lib.div (dotProduct lib a b) (lib.mul (magnitude lib a) (magnitude lib b))

def euclideanDistance (a b : List lib.Double) : lib.Double :=
  if a.length ≠ b.length ∨ a.isEmpty then lib.nan
  else
    let squares (sum : lib.Double) (pair : lib.Double × lib.Double) :=
      lib.add sum (lib.mul (lib.sub pair.1 pair.2) (lib.sub pair.1 pair.2))
    lib.sqrt ((a.zip b).foldl squares (lib.ofRat 0))

def jsonToVector : Json → List lib.Double
  | .array items => items.filterMap fun item =>
      match item with
      | .string text => some ((lib.stod text).getD (lib.ofRat 0))
      | item => if isNumber item then some (lib.toDouble item) else none
  | _ => []

def vectorMatches (queryVector : List lib.Double) (vectorThreshold : lib.Double)
    (vectorMetric : String) (value : Json) : Bool :=
  let docVector := jsonToVector lib value
  let similarity :=
    if vectorMetric = "euclidean" then
      lib.div (lib.ofRat 1) (lib.add (lib.ofRat 1) (euclideanDistance lib queryVector docVector))
    else if vectorMetric = "dot_product" then dotProduct lib queryVector docVector
    else cosineSimilarity lib queryVector docVector
  !docVector.isEmpty && !lib.isNaN similarity && lib.lessEq vectorThreshold similarity

/-! ## The parser -/

/-- The operators in the place of a field, in the order in which they are looked for. -/
inductive Logical where
  | or | and | nor | not | vectorSearch
  deriving Repr, DecidableEq

def Logical.name : Logical → String
  | or => "$or"
  | and => "$and"
  | nor => "$nor"
  | not => "$not"
  | vectorSearch => "$vectorSearch"

def Logical.all : List Logical := [or, and, nor, not, vectorSearch]

/-- The operators in the operand of a field. `$options` belongs to `$regex`. -/
inductive Operator where
  | test (kind : FieldTest)
  | elemMatch
  | regex
  | not
  deriving Repr, DecidableEq

def operator? : String → Option Operator
  | "$eq" => some (.test .eq)
  | "$ne" => some (.test .ne)
  | "$gt" => some (.test .gt)
  | "$gte" => some (.test .gte)
  | "$lt" => some (.test .lt)
  | "$lte" => some (.test .lte)
  | "$in" => some (.test .in)
  | "$nin" => some (.test .nin)
  | "$all" => some (.test .all)
  | "$size" => some (.test .size)
  | "$exists" => some (.test .exists)
  | "$type" => some (.test .type)
  | "$text" => some (.test .text)
  | "$elemMatch" => some .elemMatch
  | "$regex" => some .regex
  | "$not" => some .not
  | _ => none

/-- `value(name, otherwise)` of a text, which throws on another type. -/
def stringValue (members : List (String × Json)) (name otherwise : String) : Option String :=
  match members.lookup name with
  | none => some otherwise
  | some (.string text) => some text
  | some _ => none

def parseVectorSearch : Json → Option (QueryNode lib.Double)
  | .object members => do
      let field ← stringValue members "field" "vector"
      let queryVector := jsonToVector lib ((members.lookup "queryVector").getD (.array []))
      let threshold ← match members.lookup "threshold" with
        | none => some (lib.ofRat (8 / 10))
        | some number => if isNumber number then some (lib.toDouble number) else none
      let metric ← stringValue members "metric" "cosine"
      let topK ← match members.lookup "topK" with
        | none => some 10
        | some (.bool value) => some (if value then 1 else 0)
        | some number => if isNumber number then some (lib.toInt number) else none
      return .vectorSearch field queryVector threshold metric topK
  | _ => none

/-- The operand of a test, as the node keeps it: `$in`, `$nin` and `$all` ask for an
array, and `$text` is an object with the text to look for. -/
def parseTest (field : String) (test : FieldTest) (operand : Json) :
    Option (QueryNode lib.Double) :=
  match test, operand with
  | .in, .array items => some (.field .in field (.array items))
  | .in, _ => some .invalid
  | .nin, .array items => some (.field .nin field (.array items))
  | .nin, _ => some .invalid
  | .all, .array items => some (.field .all field (.array items))
  | .all, _ => some .invalid
  | .text, .object members => do
      let search ← stringValue members "$search" ""
      return .field .text field (.string search)
  | .text, _ => none
  | test, operand => some (.field test field operand)

/-- `$regex` with its `$options`, of which both have to be texts. -/
def parseRegex (field : String) (regex : Json) (options : Option Json) :
    Option (QueryNode lib.Double) :=
  match regex, options.getD (.string "") with
  | .string pattern, .string options => do
      let _ ← getOrCompileRegex lib pattern options
      return .regex field pattern options
  | _, _ => none

/-- A branch of `$or` that is kept. -/
def isBranch : Json → Bool
  | .object members => !members.isEmpty
  | _ => false

mutual

def parseQuery : Json → Option (QueryNode lib.Double)
  | .null => some .matchAll
  | .object [] => some .matchAll
  | .object (first :: rest) =>
      match parseNamed .or (first :: rest) <|> parseNamed .and (first :: rest) <|>
        parseNamed .nor (first :: rest) <|> parseNamed .not (first :: rest) <|>
        parseNamed .vectorSearch (first :: rest) with
      | some parsed => parsed
      | none =>
          -- With several members, each is parsed as a filter of its own.
          if rest.isEmpty then
            parseMember first
          else do
            let children ← parseMembers (first :: rest)
            return .and children
  | _ => some .invalid

/-- The operator if the filter has it. -/
def parseNamed (operator : Logical) : List (String × Json) → Option (Option (QueryNode lib.Double))
  | [] => none
  | member :: rest =>
      if member.1 = operator.name then some (parseLogical operator member)
      else parseNamed operator rest

def parseLogical : Logical → String × Json → Option (QueryNode lib.Double)
  | .or, (_, .array filters) => do
      let children ← parseBranches filters
      return if children.isEmpty then .alwaysFalse else .or children
  | .or, _ => some .invalid
  | .and, (_, .array filters) => do
      let children ← parseAll filters
      return .and children
  | .and, _ => some .invalid
  | .nor, (_, .array filters) => do
      let children ← parseAll filters
      return .nor children
  | .nor, _ => some .invalid
  | .not, (_, filter) => do
      let child ← parseQuery filter
      return .not child
  | .vectorSearch, (_, vsearch) => parseVectorSearch lib vsearch

def parseAll : List Json → Option (List (QueryNode lib.Double))
  | [] => some []
  | filter :: rest => do
      let child ← parseQuery filter
      let children ← parseAll rest
      return child :: children

def parseBranches : List Json → Option (List (QueryNode lib.Double))
  | [] => some []
  | filter :: rest =>
      if isBranch filter then do
        let child ← parseQuery filter
        let children ← parseBranches rest
        return child :: children
      else parseBranches rest

def parseMembers : List (String × Json) → Option (List (QueryNode lib.Double))
  | [] => some []
  | member :: rest => do
      let child ← parseMember member
      let children ← parseMembers rest
      return child :: children

/-- A filter with one member that is no logical operator. -/
def parseMember : String × Json → Option (QueryNode lib.Double)
  | (field, value) => parseField field value

def parseField (field : String) : Json → Option (QueryNode lib.Double)
  | .object members =>
      match members.lookup "$regex" with
      | some regex => do
          let options := members.lookup "$options"
          let node ← parseRegex lib field regex options
          if (if options.isSome then 2 else 1) < members.length then
            let children ← parseOperators field true members
            return .and (node :: children)
          else return node
      | none =>
          match members with
          | [] => some (.field .eq field (.object []))
          | [member] => parseOperator field member
          | members => do
              let children ← parseOperators field false members
              return .and children
  | value => some (.field .eq field value)

/-- The members of an operand, each as an operand of its own. -/
def parseOperators (field : String) (withRegex : Bool) :
    List (String × Json) → Option (List (QueryNode lib.Double))
  | [] => some []
  | member :: rest =>
      if withRegex && (member.1 == "$regex" || member.1 == "$options") then
        parseOperators field withRegex rest
      else do
        let child ← parseOperator field member
        let children ← parseOperators field withRegex rest
        return child :: children

/-- An operand with one member. -/
def parseOperator (field : String) : String × Json → Option (QueryNode lib.Double)
  | (key, operand) =>
      match operator? key with
      | some (.test test) => parseTest lib field test operand
      | some .elemMatch => do
          let child ← parseQuery operand
          return .elemMatch field child
      | some .regex => parseRegex lib field operand none
      | some .not => do
          let child ← parseField field operand
          return .not child
      | none => some (.field .eq field (.object [(key, operand)]))

end

/-! ## The evaluator -/

def getJsonTypeName : Json → String
  | .null => "null"
  | .bool _ => "bool"
  | .integer _ | .unsigned _ => "int"
  | .float _ => "double"
  | .string _ => "string"
  | .array _ => "array"
  | .object _ => "object"

def getJsonTypeCode : Json → Int
  | .float _ => 1
  | .string _ => 2
  | .object _ => 3
  | .array _ => 4
  | .bool _ => 8
  | .null => 10
  | .integer _ | .unsigned _ => 16

/-- `<` and `<=` of two values: of numbers, else of their texts. -/
def lessThan (a b : Json) (orEqual : Bool) : Bool :=
  if isNumber a && isNumber b then
    if orEqual then lib.lessEq (lib.toDouble a) (lib.toDouble b)
    else lib.less (lib.toDouble a) (lib.toDouble b)
  else
    let text : Json → String
      | .string value => value
      | value => lib.dump value
    if orEqual then !decide (text b < text a) else decide (text a < text b)

def inArray (dv : Json) (items : List Json) : Bool :=
  items.any (fun item => lib.equal dv item) ||
    match dv with
    | .array docItems => docItems.any fun docItem => items.any fun item => lib.equal docItem item
    | _ => false

def containsText (text search : String) : Bool :=
  decide (search.toLower.toList <:+: text.toLower.toList)

/-- The test of a field that is there. -/
def matchValue : FieldTest → Json → Json → Bool
  | .eq, value, dv => lib.equal dv value
  | .ne, value, dv => !lib.equal dv value
  | .gt, value, dv => lessThan lib value dv false
  | .gte, value, dv => lessThan lib value dv true
  | .lt, value, dv => lessThan lib dv value false
  | .lte, value, dv => lessThan lib dv value true
  | .in, .array items, dv => inArray lib dv items
  | .in, _, _ => false
  | .nin, .array items, dv => !inArray lib dv items
  | .nin, _, _ => true
  | .all, .array required, .array docItems =>
      required.all fun item => docItems.any fun docItem => lib.equal docItem item
  | .all, _, _ => false
  | .size, value, .array docItems =>
      decide (Int.bmod docItems.length (2 ^ 32) = if isNumber value then lib.toInt value else -1)
  | .size, _, _ => false
  | .type, .string typeName, dv => decide (getJsonTypeName dv = typeName)
  | .type, value, dv => isNumber value && decide (getJsonTypeCode dv = lib.toInt value)
  | .text, .string searchTerm, .string docText => containsText docText searchTerm
  | .text, _, _ => false
  | .exists, _, _ => false

/-- The parts of a field path. -/
def fieldPath (field : String) : List String := (field.toList.splitOn '.').map String.ofList

/-- The value at the path of the field. -/
def fieldValue? (field : String) (doc : Json) : Option Json := (fieldPath field).foldlM Json.field? doc

def shouldExist : Json → Bool
  | .bool value => value
  | _ => true

def matchField (test : FieldTest) (field : String) (value doc : Json) : Bool :=
  if test = .exists then (fieldValue? field doc).isSome == shouldExist value
  else
    match fieldValue? field doc with
    | none => false
    | some dv => matchValue lib test value dv

def matchRegex (field regexPattern regexOptions : String) (doc : Json) : Bool :=
  match fieldValue? field doc, getOrCompileRegex lib regexPattern regexOptions with
  | some (.string text), some search => search text
  | _, _ => false

mutual

def evalQuery : QueryNode lib.Double → Json → Bool
  | .matchAll, _ => true
  | .alwaysFalse, _ => false
  | .invalid, _ => false
  | .field test field value, doc => matchField lib test field value doc
  | .regex field regexPattern regexOptions, doc => matchRegex lib field regexPattern regexOptions doc
  | .elemMatch field child, doc =>
      match doc.field? field with
      | some (.array items) => items.any fun elem => evalQuery child elem
      | _ => false
  | .and children, doc => evalAll children doc
  | .or children, doc => evalAny children doc
  | .not child, doc => !evalQuery child doc
  | .nor children, doc => !evalAny children doc
  | .vectorSearch field queryVector vectorThreshold vectorMetric _, doc =>
      !queryVector.isEmpty &&
        match doc.field? field with
        | some value => vectorMatches lib queryVector vectorThreshold vectorMetric value
        | none => false

def evalAll : List (QueryNode lib.Double) → Json → Bool
  | [], _ => true
  | child :: children, doc => evalQuery child doc && evalAll children doc

def evalAny : List (QueryNode lib.Double) → Json → Bool
  | [], _ => false
  | child :: children, doc => evalQuery child doc || evalAny children doc

end

end PacificDb.Query
