import Mathlib.Algebra.Order.Ring.Unbundled.Rat
import Mathlib.Data.Sum.Order
import PacificDb.Lib.Decimal
import PacificDb.Lib.KeyedOrder
import PacificDb.Query.Parser

/-!
# Aggregation

A pipeline goes over the documents stage by stage. Its `$sort` compares values by three rules
in one function: equality of the JSON library first, then numbers as `double`, strings as
they are, and anything else as text.

The rules make an order of some values exactly when equality agrees with what is compared
(`compareJson_ordered_iff`). Where they make one of the values that a sort comes to compare, the
stage is a stable sort (`aggregateDocuments_sorts`).
Integers that a `double` does not tell apart are not equal and come out greater than each
other (`compareJson_notOrdered`).
-/

namespace PacificDb.Query

open Lib

/-! ## Values -/

/-- A 64-bit integer as `double`: 53 significant bits, halves to the even neighbour. -/
def nearestDouble (value : Nat) : Nat :=
  let extra := Nat.log2 value + 1 - 53
  let unit := 2 ^ extra
  let quotient := value / unit
  let remainder := value % unit
  if 2 * remainder < unit ∨ 2 * remainder = unit ∧ quotient % 2 = 0 then quotient * unit
  else (quotient + 1) * unit

def doubleOfInt (value : Int) : Rat :=
  if value < 0 then -(nearestDouble value.natAbs : Rat) else (nearestDouble value.natAbs : Rat)

/-- The floats of the documents, which are finite: the number of each, and its text. -/
structure Doubles where
  value : Nat → Rat
  text : Nat → List Char
  text_head : ∀ bits, ∃ c rest, text bits = c :: rest ∧ (c = '-' ∨ c.isDigit = true)

variable (doubles : Doubles)

/-- `get<double>()` of a number. -/
def toDouble : Json → Rat
  | .integer value => doubleOfInt value
  | .unsigned value => doubleOfInt value
  | .float bits => doubles.value bits
  | _ => 0

mutual

/-- `operator==` of the JSON library: an unsigned number is compared with a signed one as a
signed one, and an integer with a float as a float. -/
def jsonEqual : Json → Json → Bool
  | .null, .null => true
  | .bool a, .bool b => a == b
  | .string a, .string b => a == b
  | .integer a, .integer b => a == b
  | .unsigned a, .unsigned b => a == b
  | .float a, .float b => doubles.value a == doubles.value b
  | .integer a, .float b => doubleOfInt a == doubles.value b
  | .float a, .integer b => doubles.value a == doubleOfInt b
  | .unsigned a, .float b => doubleOfInt a == doubles.value b
  | .float a, .unsigned b => doubles.value a == doubleOfInt b
  | .unsigned a, .integer b => Json.wrapInt64 a == b
  | .integer a, .unsigned b => a == Json.wrapInt64 b
  | .array a, .array b => itemsEqual a b
  | .object a, .object b => membersEqual a b
  | _, _ => false

def itemsEqual : List Json → List Json → Bool
  | [], [] => true
  | a :: as, b :: bs => jsonEqual a b && itemsEqual as bs
  | _, _ => false

def membersEqual : List (String × Json) → List (String × Json) → Bool
  | [], [] => true
  | (name, a) :: as, (other, b) :: bs => name == other && jsonEqual a b && membersEqual as bs
  | _, _ => false

end

/-- A character in the text of a string. -/
def escapeChar (c : Char) : List Char :=
  match c.toNat with
  | 8 => ['\\', 'b']
  | 9 => ['\\', 't']
  | 10 => ['\\', 'n']
  | 12 => ['\\', 'f']
  | 13 => ['\\', 'r']
  | 34 => ['\\', '\x22']
  | 92 => ['\\', '\\']
  | code =>
      if code < 32 then ['\\', 'u', '0', '0', Nat.digitChar (code / 16), Nat.digitChar (code % 16)]
      else [c]

def dumpString (text : String) : List Char :=
  '\x22' :: text.toList.flatMap escapeChar ++ ['\x22']

def dumpInt (value : Int) : List Char :=
  if value < 0 then '-' :: Nat.toDigits 10 value.natAbs else Nat.toDigits 10 value.natAbs

mutual

/-- `dump()`. -/
def dump : Json → List Char
  | .null => ['n', 'u', 'l', 'l']
  | .bool true => ['t', 'r', 'u', 'e']
  | .bool false => ['f', 'a', 'l', 's', 'e']
  | .integer value => dumpInt value
  | .unsigned value => dumpInt value
  | .float bits => doubles.text bits
  | .string text => dumpString text
  | .array items => '[' :: (dumpItems items ++ [']'])
  | .object members => '\x7b' :: (dumpMembers members ++ ['\x7d'])

def dumpItems : List Json → List Char
  | [] => []
  | [item] => dump item
  | item :: rest => dump item ++ ',' :: dumpItems rest

def dumpMembers : List (String × Json) → List Char
  | [] => []
  | [(name, value)] => dumpString name ++ ':' :: dump value
  | (name, value) :: rest => dumpString name ++ ':' :: (dump value ++ ',' :: dumpMembers rest)

end

/-- The comparison of the sort. Strings compare by their bytes, which is by their characters. -/
def compareJson (left right : Json) : Int :=
  if jsonEqual doubles left right then 0
  else if isNumber left && isNumber right then
    (if toDouble doubles left < toDouble doubles right then -1 else 1)
  else
    match left, right with
    | .string a, .string b => if a.toList < b.toList then -1 else 1
    | _, _ => if dump doubles left < dump doubles right then -1 else 1

/-! ## The pipeline -/

inductive AggregateError where
  | invalidArgument (message : String)
  | typeError (id : Nat)
  deriving DecidableEq

/-- `is_number_integer()`, with the value as `get<long long>()`. -/
def integerOf : Json → Option Int
  | .integer value => some (Json.wrapInt64 value)
  | .unsigned value => some (Json.wrapInt64 value)
  | _ => none

/-- A sort direction: an integer that is `1` or `-1` as `get<int>()`. -/
def directionOf (direction : Json) : Option Bool :=
  match (integerOf direction).map fun value => Int.bmod value (2 ^ 32) with
  | some 1 => some true
  | some (-1) => some false
  | _ => none

def invalid {α : Type} (message : String) : Except AggregateError α := .error (.invalidArgument message)

/-- The checks of one stage; `terminal` says whether it is the last one. -/
def validateStage (terminal : Bool) (name : String) (value : Json) : Except AggregateError Unit :=
  match name, value with
  | "$match", .object _ => .ok ()
  | "$match", _ => invalid "$match must be an object"
  | "$project", .object (member :: members) =>
      if (member :: members).all fun entry =>
          jsonEqual doubles entry.2 (.integer 1) || jsonEqual doubles entry.2 (.bool true) then .ok ()
      else invalid "Community $project supports inclusion only"
  | "$project", _ => invalid "$project must be a nonempty object"
  | "$sort", .object (member :: members) =>
      if (member :: members).all fun entry => (directionOf entry.2).isSome then .ok ()
      else invalid "$sort directions must be 1 or -1"
  | "$sort", _ => invalid "$sort must be a nonempty object"
  | "$skip", value =>
      match integerOf value with
      | some count => if count < 0 then invalid "$skip must be a nonnegative integer" else .ok ()
      | none => invalid "$skip must be a nonnegative integer"
  | "$limit", value =>
      match integerOf value with
      | some count => if count ≤ 0 then invalid "$limit must be a positive integer" else .ok ()
      | none => invalid "$limit must be a positive integer"
  | "$count", .string field =>
      if terminal && !field.isEmpty then .ok () else invalid "$count must be terminal with a field name"
  | "$count", _ => invalid "$count must be terminal with a field name"
  | name, _ => invalid ("unsupported Community aggregation stage: " ++ name)

def validatePipeline : List Json → Except AggregateError Unit
  | [] => .ok ()
  | .object [(name, value)] :: later => do
      validateStage doubles later.isEmpty name value
      validatePipeline later
  | _ => invalid "each aggregation stage must have one operator"

/-- `value(field, json())` on a document. -/
def fieldValue (document : Json) (field : String) : Json := (document.field? field).getD .null

/-- The comparisons of a sort, in the order of its fields. -/
def sortKeys (spec : List (String × Json)) : List ((Json → Json → Int) × Bool) :=
  spec.map fun entry =>
    (fun a b => compareJson doubles (fieldValue a entry.1) (fieldValue b entry.1),
      directionOf entry.2 == some true)

/-- The stable sort. A comparison throws on a value that has no members; with two values or
more each of them is compared. -/
def sortDocuments (spec : List (String × Json)) (documents : List Json) :
    Except AggregateError (List Json) :=
  if 2 ≤ documents.length ∧ documents.any (fun document => !document.isObject) then
    .error (.typeError 306)
  else .ok (documents.mergeSort fun a b => !beforeBy (sortKeys doubles spec) b a)

/-- The documents behind a stage. -/
def runStage (accepts : Json → Json → Bool) (name : String) (value : Json) (documents : List Json) :
    Except AggregateError (List Json) :=
  match name, value with
  | "$match", filter => .ok (documents.filter fun document => accepts document filter)
  | "$project", .object fields => .ok (documents.map fun document =>
      .object (fields.filterMap fun entry => (document.field? entry.1).map fun value => (entry.1, value)))
  | "$sort", .object spec => sortDocuments doubles spec documents
  | "$skip", value => .ok (documents.drop ((integerOf value).getD 0).toNat)
  | "$limit", value => .ok (documents.take ((integerOf value).getD 0).toNat)
  | "$count", .string field => .ok [.object [(field, .unsigned documents.length)]]
  | _, _ => .ok documents

/-- What is told of a stage. -/
structure StageCounts where
  stage : String
  inputCount : Nat
  outputCount : Nat
  deriving DecidableEq

def runStages (accepts : Json → Json → Bool) :
    List Json → List Json → Except AggregateError (List Json × List StageCounts)
  | .object [(name, value)] :: later, documents => do
      let output ← runStage doubles accepts name value documents
      let rest ← runStages accepts later output
      return (rest.1, ⟨name, documents.length, output.length⟩ :: rest.2)
  | _, documents => .ok (documents, [])

def aggregateDocuments (accepts : Json → Json → Bool) (documents pipeline : Json) :
    Except AggregateError (List Json × List StageCounts) :=
  match documents, pipeline with
  | .array items, .array stages => do
      validatePipeline doubles stages
      runStages doubles accepts stages items
  | .array _, _ => invalid "pipeline must be an array"
  | _, _ => invalid "documents must be an array"

/-! ## Equality -/

variable {doubles} {documents : List Json} {a b : Json}

mutual

theorem jsonEqual_self : ∀ value : Json, jsonEqual doubles value value = true
  | .null => rfl
  | .bool _ => beq_self_eq_true _
  | .string _ => beq_self_eq_true _
  | .integer _ => beq_self_eq_true _
  | .unsigned _ => beq_self_eq_true _
  | .float _ => beq_self_eq_true _
  | .array items => itemsEqual_self items
  | .object members => membersEqual_self members

theorem itemsEqual_self : ∀ items : List Json, itemsEqual doubles items items = true
  | [] => rfl
  | item :: rest => by rw [itemsEqual, jsonEqual_self item, itemsEqual_self rest, Bool.and_self]

theorem membersEqual_self : ∀ members : List (String × Json), membersEqual doubles members members = true
  | [] => rfl
  | (name, value) :: rest => by
      rw [membersEqual, beq_self_eq_true, jsonEqual_self value, membersEqual_self rest, Bool.and_self,
        Bool.and_self]

end

mutual

theorem jsonEqual_comm : ∀ a b : Json, jsonEqual doubles b a = jsonEqual doubles a b
  | .array as, b => by
      cases b with
      | array bs => exact itemsEqual_comm as bs
      | _ => rfl
  | .object as, b => by
      cases b with
      | object bs => exact membersEqual_comm as bs
      | _ => rfl
  | .null, b => by cases b <;> rfl
  | .bool _, b => by
      cases b with
      | bool _ => exact Bool.beq_comm
      | _ => rfl
  | .string _, b => by
      cases b with
      | string _ => exact Bool.beq_comm
      | _ => rfl
  | .integer _, b => by
      cases b with
      | integer _ => exact Bool.beq_comm
      | unsigned _ => exact Bool.beq_comm
      | float _ => exact Bool.beq_comm
      | _ => rfl
  | .unsigned _, b => by
      cases b with
      | integer _ => exact Bool.beq_comm
      | unsigned _ => exact Bool.beq_comm
      | float _ => exact Bool.beq_comm
      | _ => rfl
  | .float _, b => by
      cases b with
      | integer _ => exact Bool.beq_comm
      | unsigned _ => exact Bool.beq_comm
      | float _ => exact Bool.beq_comm
      | _ => rfl

theorem itemsEqual_comm : ∀ as bs : List Json, itemsEqual doubles bs as = itemsEqual doubles as bs
  | [], [] => rfl
  | [], _ :: _ => rfl
  | _ :: _, [] => rfl
  | a :: as, b :: bs => by rw [itemsEqual, itemsEqual, jsonEqual_comm a b, itemsEqual_comm as bs]

theorem membersEqual_comm : ∀ as bs : List (String × Json),
    membersEqual doubles bs as = membersEqual doubles as bs
  | [], [] => rfl
  | [], _ :: _ => rfl
  | _ :: _, [] => rfl
  | (name, a) :: as, (other, b) :: bs => by
      rw [membersEqual, membersEqual, jsonEqual_comm a b, membersEqual_comm as bs, @Bool.beq_comm _ _ _ name]

end

/-! ## The key of a value -/

/-- What is compared of a value that is not equal to the other: strings are below numbers, and
numbers below the rest. -/
abbrev SortKey := Lex (List Char ⊕ Lex (Rat ⊕ List Char))

def sortKey (doubles : Doubles) : Json → SortKey
  | .string text => toLex (.inl text.toList)
  | .integer value => toLex (.inr (toLex (.inl (toDouble doubles (.integer value)))))
  | .unsigned value => toLex (.inr (toLex (.inl (toDouble doubles (.unsigned value)))))
  | .float bits => toLex (.inr (toLex (.inl (toDouble doubles (.float bits)))))
  | value => toLex (.inr (toLex (.inr (dump doubles value))))

theorem isDigit_bounds {c : Char} (number : c = '-' ∨ c.isDigit = true) : 34 < c.toNat ∧ c.toNat < 58 := by
  rcases number with rfl | digit
  · decide
  · have bounds := digit_bounds digit
    omega

theorem digits_head (value : Nat) : ∃ c rest, Nat.toDigits 10 value = c :: rest ∧ c.isDigit = true := by
  have digits : ∀ c ∈ Nat.toDigits 10 value, c.isDigit = true :=
    fun c member => Nat.isDigit_of_mem_toDigits (by decide) (by decide) member
  cases found : Nat.toDigits 10 value with
  | nil => exact absurd found Nat.toDigits_ne_nil
  | cons c rest =>
    rw [found] at digits
    exact ⟨c, rest, rfl, digits c (.head _)⟩

theorem dumpInt_head (value : Int) : ∃ c rest, dumpInt value = c :: rest ∧ (c = '-' ∨ c.isDigit = true) := by
  rw [dumpInt]
  split
  · exact ⟨'-', _, rfl, .inl rfl⟩
  · obtain ⟨c, rest, isDigits, digit⟩ := digits_head value.natAbs
    exact ⟨c, rest, isDigits, .inr digit⟩

/-- The three kinds of values that are compared in a way of their own, by their keys and the
first characters of their texts. -/
inductive Kind (doubles : Doubles) (value : Json) : Prop where
  | text (text : String) (same : value = .string text)
  | number (isNumber : isNumber value = true)
      (key : sortKey doubles value = toLex (.inr (toLex (.inl (toDouble doubles value)))))
      (head : ∃ c rest, dump doubles value = c :: rest ∧ 34 < c.toNat ∧ c.toNat < 58)
  | other (notNumber : isNumber value = false) (notText : ∀ text, value ≠ .string text)
      (key : sortKey doubles value = toLex (.inr (toLex (.inr (dump doubles value)))))
      (head : ∃ c rest, dump doubles value = c :: rest ∧ 58 ≤ c.toNat)

theorem kind (doubles : Doubles) (value : Json) : Kind doubles value := by
  have number : ∀ {text : List Char}, (∃ c rest, text = c :: rest ∧ (c = '-' ∨ c.isDigit = true)) →
      ∃ c rest, text = c :: rest ∧ 34 < c.toNat ∧ c.toNat < 58 := by
    intro text head
    obtain ⟨c, rest, same, isNumber⟩ := head
    exact ⟨c, rest, same, isDigit_bounds isNumber⟩
  cases value with
  | string text => exact .text text rfl
  | integer value => exact .number rfl rfl (number (dumpInt_head value))
  | unsigned value => exact .number rfl rfl (number (dumpInt_head value))
  | float bits => exact .number rfl rfl (number (doubles.text_head bits))
  | null => exact .other rfl (by simp) rfl ⟨_, _, rfl, by decide⟩
  | bool value =>
    cases value with
    | true => exact .other rfl (by simp) rfl ⟨_, _, rfl, by decide⟩
    | false => exact .other rfl (by simp) rfl ⟨_, _, rfl, by decide⟩
  | array items => exact .other rfl (by simp) rfl ⟨_, _, rfl, by decide⟩
  | object members => exact .other rfl (by simp) rfl ⟨_, _, rfl, by decide⟩

theorem text_lt {first second : List Char} {c d : Char} {rest later : List Char} (isFirst : first = c :: rest)
    (isSecond : second = d :: later) (below : c.toNat < d.toNat) : first < second ∧ ¬second < first := by
  have less : c < d := by
    rw [Char.lt_def]
    exact UInt32.lt_iff_toNat_lt.mpr below
  have isLess : first < second := by
    rw [isFirst, isSecond]
    exact List.cons_lt_cons_iff.mpr (.inl less)
  exact ⟨isLess, isLess.not_gt⟩

theorem compareJson_equal (isEqual : jsonEqual doubles a b = true) : compareJson doubles a b = 0 := by
  unfold compareJson
  rw [if_pos isEqual]

theorem compareJson_numbers (differ : jsonEqual doubles a b ≠ true) (first : isNumber a = true)
    (second : isNumber b = true) :
    compareJson doubles a b = if toDouble doubles a < toDouble doubles b then -1 else 1 := by
  unfold compareJson
  rw [if_neg differ, first, second, Bool.and_self, if_pos rfl]

theorem compareJson_strings {first second : String}
    (differ : jsonEqual doubles (.string first) (.string second) ≠ true) :
    compareJson doubles (.string first) (.string second) =
      if first.toList < second.toList then -1 else 1 := by
  unfold compareJson
  rw [if_neg differ]
  rfl

theorem compareJson_texts (differ : jsonEqual doubles a b ≠ true)
    (numbers : (isNumber a && isNumber b) = false)
    (strings : (∀ text, a ≠ .string text) ∨ ∀ text, b ≠ .string text) :
    compareJson doubles a b = if dump doubles a < dump doubles b then -1 else 1 := by
  unfold compareJson
  rw [if_neg differ, numbers, if_neg Bool.false_ne_true]
  split
  next first second =>
    rcases strings with notFirst | notSecond
    · exact absurd rfl (notFirst first)
    · exact absurd rfl (notSecond second)
  next => rfl

theorem sign_congr {p q : Prop} [Decidable p] [Decidable q] (same : p ↔ q) :
    (if p then -1 else 1 : Int) = if q then -1 else 1 := by
  simp only [same]

/-- The comparison of the sort is one by keys. -/
theorem compareJson_eq (a b : Json) :
    compareJson doubles a b = compareBy (jsonEqual doubles) (sortKey doubles) a b := by
  have quote : ∀ text, ∃ c rest, dump doubles (.string text) = c :: rest ∧ c.toNat = 34 :=
    fun text => ⟨_, _, rfl, rfl⟩
  rw [compareBy]
  by_cases differ : jsonEqual doubles a b = true
  · rw [if_pos differ, compareJson_equal differ]
  rw [if_neg differ]
  -- Values of two kinds compare by the first characters of their texts, as their keys do.
  rcases kind doubles a with ⟨text, rfl⟩ | ⟨number, key, head⟩ | ⟨notNumber, notText, key, head⟩
  · obtain ⟨c, rest, isText, code⟩ := quote text
    rcases kind doubles b with ⟨other, rfl⟩ | ⟨number', key', head'⟩ | ⟨notNumber', notText', key', head'⟩
    · rw [compareJson_strings differ]
      exact sign_congr Sum.Lex.inl_lt_inl_iff.symm
    · obtain ⟨d, later, isOther, low, high⟩ := head'
      rw [compareJson_texts differ rfl (.inr fun text same => by rw [same] at number'; cases number'), key']
      exact sign_congr (iff_of_true (text_lt isText isOther (by omega)).1 (Sum.Lex.inl_lt_inr _ _))
    · obtain ⟨d, later, isOther, low⟩ := head'
      rw [compareJson_texts differ rfl (.inr notText'), key']
      exact sign_congr (iff_of_true (text_lt isText isOther (by omega)).1 (Sum.Lex.inl_lt_inr _ _))
  · obtain ⟨c, rest, isText, low, high⟩ := head
    rcases kind doubles b with ⟨other, rfl⟩ | ⟨number', key', head'⟩ | ⟨notNumber', notText', key', head'⟩
    · obtain ⟨d, later, isOther, code⟩ := quote other
      rw [compareJson_texts differ (Bool.and_false _)
        (.inl fun text same => by rw [same] at number; cases number), key]
      exact sign_congr (iff_of_false (text_lt isOther isText (by omega)).2 (Sum.Lex.not_inr_lt_inl))
    · rw [compareJson_numbers differ number number', key, key']
      exact sign_congr (Sum.Lex.inl_lt_inl_iff.symm.trans Sum.Lex.inr_lt_inr_iff.symm)
    · obtain ⟨d, later, isOther, low'⟩ := head'
      rw [compareJson_texts differ (by rw [notNumber', Bool.and_false]) (.inr notText'), key, key']
      exact sign_congr (iff_of_true (text_lt isText isOther (by omega)).1
        (Sum.Lex.inr_lt_inr_iff.mpr (Sum.Lex.inl_lt_inr _ _)))
  · obtain ⟨c, rest, isText, low⟩ := head
    rcases kind doubles b with ⟨other, rfl⟩ | ⟨number', key', head'⟩ | ⟨notNumber', notText', key', head'⟩
    · obtain ⟨d, later, isOther, code⟩ := quote other
      rw [compareJson_texts differ (Bool.and_false _) (.inl notText), key]
      exact sign_congr (iff_of_false (text_lt isOther isText (by omega)).2 (Sum.Lex.not_inr_lt_inl))
    · obtain ⟨d, later, isOther, low', high⟩ := head'
      rw [compareJson_texts differ (by rw [notNumber, Bool.false_and]) (.inl notText), key, key']
      exact sign_congr (iff_of_false (text_lt isOther isText (by omega)).2
        fun less => Sum.Lex.not_inr_lt_inl (Sum.Lex.inr_lt_inr_iff.mp less))
    · rw [compareJson_texts differ (by rw [notNumber, Bool.false_and]) (.inl notText), key, key']
      exact sign_congr (Sum.Lex.inr_lt_inr_iff.symm.trans Sum.Lex.inr_lt_inr_iff.symm)

/-! ## The sort -/

/-- The comparison orders values exactly when equality agrees on them with what is compared:
the numbers as `double`, the characters of strings, the texts of the rest. -/
theorem compareJson_ordered_iff (values : List Json) :
    OrderedOn values (compareJson doubles) ↔ Coherent (jsonEqual doubles) (sortKey doubles) values := by
  have same : compareJson doubles = compareBy (jsonEqual doubles) (sortKey doubles) :=
    funext fun a => funext fun b => compareJson_eq a b
  rw [same]
  exact ordered_iff jsonEqual_self jsonEqual_comm

/-- The values that a sort comes to compare: those of the first field, and those of a later one
where the earlier ones compare equal. -/
def comparedValues (doubles : Doubles) : List (String × Json) → List Json → List (List Json)
  | [], _ => []
  | (field, _) :: later, documents =>
      documents.map (fun document => fieldValue document field) ::
        documents.flatMap fun document => comparedValues doubles later (documents.filter fun other =>
          compareJson doubles (fieldValue document field) (fieldValue other field) = 0)

theorem asked_sortKeys {spec : List (String × Json)}
    (ordered : ∀ values ∈ comparedValues doubles spec documents, OrderedOn values (compareJson doubles)) :
    ∀ question ∈ asked (sortKeys doubles spec) documents, OrderedOn question.2 question.1 := by
  induction spec generalizing documents with
  | nil => exact nofun
  | cons entry later ih =>
    obtain ⟨field, direction⟩ := entry
    obtain ⟨own, others⟩ := List.forall_mem_cons.mp ordered
    intro question member
    rcases List.mem_cons.mp member with rfl | further
    · exact (@orderedOn_map _ _ documents (fieldValue · field) (compareJson doubles)).mp own
    · obtain ⟨document, isDocument, isAsked⟩ := List.mem_flatMap.mp further
      exact ih (fun values isCompared => others values (List.mem_flatMap.mpr ⟨document, isDocument, isCompared⟩))
        question isAsked

/-- A pipeline of one sort. -/
def sortPipeline (spec : List (String × Json)) : Json := .array [.object [("$sort", .object spec)]]

theorem aggregateDocuments_sort {accepts : Json → Json → Bool} {spec : List (String × Json)}
    (fields : spec ≠ []) (directions : ∀ entry ∈ spec, (directionOf entry.2).isSome)
    (objects : 2 ≤ documents.length → ∀ document ∈ documents, document.isObject = true) :
    aggregateDocuments doubles accepts (.array documents) (sortPipeline spec) =
      .ok (documents.mergeSort fun a b => !beforeBy (sortKeys doubles spec) b a,
        [⟨"$sort", documents.length, documents.length⟩]) := by
  have checked : validateStage doubles true "$sort" (.object spec) = .ok () := by
    cases spec with
    | nil => exact absurd rfl fields
    | cons member members =>
      have all : (member :: members).all (fun entry => (directionOf entry.2).isSome) = true :=
        List.all_eq_true.mpr directions
      change (if _ then _ else _) = _
      rw [if_pos all]
  have noOther : ¬(2 ≤ documents.length ∧ documents.any (fun document => !document.isObject) = true) := by
    intro both
    obtain ⟨document, member, other⟩ := List.any_eq_true.mp both.2
    rw [objects both.1 document member] at other
    cases other
  have sorted : sortDocuments doubles spec documents =
      .ok (documents.mergeSort fun a b => !beforeBy (sortKeys doubles spec) b a) := by
    rw [sortDocuments, if_neg noOther]
  have stage : runStage doubles accepts "$sort" (.object spec) documents =
      sortDocuments doubles spec documents := rfl
  simp only [aggregateDocuments, sortPipeline, validatePipeline, runStages, List.isEmpty_nil, checked,
    stage, sorted, bind, Except.bind, pure, Except.pure, List.length_mergeSort]

/-- The stage sorts: its comparison is one that a stable sort can work with, and the pipeline
gives the documents in that order, each once, and those that compare equal as they came. -/
structure Sorts (doubles : Doubles) (accepts : Json → Json → Bool) (spec : List (String × Json))
    (documents : List Json) : Prop where
  order : StrictWeakOrderOn documents fun a b => beforeBy (sortKeys doubles spec) a b = true
  output : ∃ output, aggregateDocuments doubles accepts (.array documents) (sortPipeline spec) =
      .ok (output, [⟨"$sort", documents.length, documents.length⟩]) ∧
    StablySorted (fun a b => beforeBy (sortKeys doubles spec) a b = true) documents output

theorem sorts_of_order {accepts : Json → Json → Bool} {spec : List (String × Json)} (fields : spec ≠ [])
    (directions : ∀ entry ∈ spec, (directionOf entry.2).isSome)
    (objects : 2 ≤ documents.length → ∀ document ∈ documents, document.isObject = true)
    (order : StrictWeakOrderOn documents fun a b => beforeBy (sortKeys doubles spec) a b = true) :
    Sorts doubles accepts spec documents :=
  ⟨order, _, aggregateDocuments_sort fields directions objects, mergeSort_sorted order⟩

/-- One field sorts in both directions exactly when equality agrees on its values with what is
compared. -/
theorem sorts_both_iff {accepts : Json → Json → Bool} {field : String} {up down : Json}
    (ascends : directionOf up = some true) (descends : directionOf down = some false)
    (objects : 2 ≤ documents.length → ∀ document ∈ documents, document.isObject = true) :
    Sorts doubles accepts [(field, up)] documents ∧ Sorts doubles accepts [(field, down)] documents ↔
      Coherent (jsonEqual doubles) (sortKey doubles)
        (documents.map fun document => fieldValue document field) := by
  have keys : ∀ direction ascending, directionOf direction = some ascending →
      sortKeys doubles [(field, direction)] =
        [(fun a b => compareJson doubles (fieldValue a field) (fieldValue b field), ascending)] := by
    intro direction ascending isDirection
    rw [sortKeys, List.map_singleton, isDirection]
    cases ascending <;> rfl
  have checked : ∀ direction ascending, directionOf direction = some ascending →
      ∀ entry ∈ [(field, direction)], (directionOf entry.2).isSome := by
    intro direction ascending isDirection entry member
    rw [List.mem_singleton.mp member, isDirection]
    rfl
  rw [← compareJson_ordered_iff, orderedOn_map, ordered_iff_directions]
  · constructor
    · rintro ⟨first, second⟩ ascending
      cases ascending with
      | true => exact keys up true ascends ▸ first.order
      | false => exact keys down false descends ▸ second.order
    · intro both
      refine ⟨sorts_of_order (List.cons_ne_nil _ _) (checked up true ascends) objects ?_,
        sorts_of_order (List.cons_ne_nil _ _) (checked down false descends) objects ?_⟩
      · rw [keys up true ascends]
        exact both true
      · rw [keys down false descends]
        exact both false
  · exact fun a => compareJson_equal (jsonEqual_self _)
  all_goals
    intro a b
    simp only [compareJson_eq, compareBy, jsonEqual_comm (fieldValue a field) (fieldValue b field)]
    split_ifs <;> simp_all [not_lt_of_gt]

/-- The comparison is an order of some values exactly when equality agrees with what is
compared. A sort by one field in both directions is a stable sort exactly when it does so on the
values of the field, and a sort by several where it does so on the values that come to be
compared. -/
theorem aggregateDocuments_sorts (doubles : Doubles) (accepts : Json → Json → Bool) :
    (∀ values, OrderedOn values (compareJson doubles) ↔
      Coherent (jsonEqual doubles) (sortKey doubles) values) ∧
    ∀ documents, (2 ≤ documents.length → ∀ document ∈ documents, document.isObject = true) →
      (∀ field up down, directionOf up = some true → directionOf down = some false →
        (Sorts doubles accepts [(field, up)] documents ∧ Sorts doubles accepts [(field, down)] documents ↔
          Coherent (jsonEqual doubles) (sortKey doubles)
            (documents.map fun document => fieldValue document field))) ∧
      ∀ spec, spec ≠ [] → (∀ entry ∈ spec, (directionOf entry.2).isSome) →
        (∀ values ∈ comparedValues doubles spec documents,
          Coherent (jsonEqual doubles) (sortKey doubles) values) → Sorts doubles accepts spec documents := by
  refine ⟨compareJson_ordered_iff, fun documents objects =>
    ⟨fun field up down ascends descends => sorts_both_iff ascends descends objects,
      fun spec fields directions coherent => sorts_of_order fields directions objects ?_⟩⟩
  exact beforeBy_order (asked_sortKeys fun values member =>
    (compareJson_ordered_iff values).mpr (coherent values member))

/-! ## Integers beyond 53 bits -/

/-- Whole numbers for floats, with their texts. -/
def wholeFloats : Doubles where
  value bits := bits
  text bits := Nat.toDigits 10 bits ++ ['.', '0']
  text_head bits := by
    obtain ⟨c, rest, isDigits, digit⟩ := digits_head bits
    exact ⟨c, rest ++ ['.', '0'], by rw [isDigits, List.cons_append], .inr digit⟩

/-- Documents with ties in the first field. Two counts that a `double` does not tell apart are
in different groups. -/
def groupedDocuments : List Json :=
  [.object [("group", .string "b"), ("count", .integer (2 ^ 53))],
    .object [("group", .string "a"), ("count", .integer 1)],
    .object [("group", .string "b"), ("count", .integer 7)],
    .object [("group", .string "a"), ("count", .integer (2 ^ 53 + 1))],
    .object [("group", .string "a"), ("count", .float 1)],
    .object [("group", .string "b")]]

theorem aggregateDocuments_sorts_groups :
    Sorts wholeFloats (fun _ _ => true) [("group", .integer 1), ("count", .integer (-1))] groupedDocuments ∧
      Sorts wholeFloats (fun _ _ => true) [("group", .integer (-1))] groupedDocuments := by
  obtain ⟨both, several⟩ := (aggregateDocuments_sorts wholeFloats fun _ _ => true).2 groupedDocuments
    fun _ => by decide
  have up : directionOf (.integer 1) = some true := by decide
  have down : directionOf (.integer (-1)) = some false := by decide
  refine ⟨several _ (List.cons_ne_nil _ _) (by decide) (by decide), ?_⟩
  exact ((both "group" (.integer 1) (.integer (-1)) up down).mpr (by decide)).2

/-- Two integers with one `double` are each greater than the other. -/
theorem compareJson_notOrdered : ¬∀ values, OrderedOn values (compareJson wholeFloats) := by
  intro all
  have turns := (all [.integer (2 ^ 53), .integer (2 ^ 53 + 1)]).turns (.integer (2 ^ 53)) (by simp)
    (.integer (2 ^ 53 + 1)) (by simp)
  revert turns
  decide

end PacificDb.Query
