import PacificDb.JsonText.Number
import PacificDb.Sst.ValueRoundTrip

/-!
# JSON texts

`dump` of the JSON library with and without line breaks, and its parser. A text that was dumped is
parsed to the value again, with the numbers in the storage class of their text (`parse_dump`).
-/

namespace PacificDb.JsonText

open Lib JsonGrammar
open Sst (Bytes Value)
open Sst.Value (ofMembers inside)

/-! ## Writing -/

/-- `dump(step)` breaks lines, `dump()` does not. -/
structure Style where
  step : Option Nat

namespace Style

def newline (style : Style) (depth : Nat) : Bytes :=
  match style.step with
  | some step => 0x0a :: List.replicate (step * depth) 0x20
  | none => []

/-- What stands between a name and its value, behind the colon. -/
def gap (style : Style) : Bytes := if style.step.isSome then [0x20] else []

end Style

/-- Texts between brackets, with a comma between two of them. -/
def enclosed (before between behind : Bytes) (opening closing : UInt8) (texts : List Bytes) : Bytes :=
  if texts = [] then [opening, closing]
  else opening :: (before ++ ((texts.intersperse (0x2c :: between)).flatten ++ (behind ++ [closing])))

def Style.enclosed (style : Style) (depth : Nat) : UInt8 → UInt8 → List Bytes → Bytes :=
  JsonText.enclosed (style.newline (depth + 1)) (style.newline (depth + 1)) (style.newline depth)

def quoted (text : Bytes) : Bytes := 0x22 :: (text ++ [0x22])

def memberText (style : Style) (name text : Bytes) : Bytes := quoted name ++ (0x3a :: (style.gap ++ text))

def nullText : Bytes := [0x6e, 0x75, 0x6c, 0x6c]

/-- The bytes of a binary value stand on one line. -/
def dumpBinary (style : Style) (depth : Nat) (bytes : Bytes) (subtype : Option UInt64) : Bytes :=
  style.enclosed depth 0x7b 0x7d
    [memberText style [0x62, 0x79, 0x74, 0x65, 0x73]
      (enclosed [] style.gap [] 0x5b 0x5d (bytes.map fun byte => digits byte.toNat)),
    memberText style [0x73, 0x75, 0x62, 0x74, 0x79, 0x70, 0x65]
      (subtype.elim nullText fun subtype => digits subtype.toNat)]

mutual

/-- `dump`; none is an exception about a string that is not UTF-8. -/
def dump (lib : FloatText) (style : Style) : Nat → Value → Option Bytes
  | _, .null => some nullText
  | _, .boolean value => some (if value then [0x74, 0x72, 0x75, 0x65] else [0x66, 0x61, 0x6c, 0x73, 0x65])
  | _, .integer value => some (dumpInteger value.toInt)
  | _, .unsigned value => some (digits value.toNat)
  | _, .float bits => some (dumpFloat lib bits)
  | _, .string text => (escape [] text).map quoted
  | depth, .binary bytes subtype => some (dumpBinary style depth bytes subtype)
  | depth, .array items => (dumpItems lib style (depth + 1) items).map (style.enclosed depth 0x5b 0x5d)
  | depth, .object members =>
      (dumpMembers lib style (depth + 1) members).map (style.enclosed depth 0x7b 0x7d)

def dumpItems (lib : FloatText) (style : Style) : Nat → List Value → Option (List Bytes)
  | _, [] => some []
  | depth, item :: items =>
      (dump lib style depth item).bind fun text =>
        (dumpItems lib style depth items).map fun texts => text :: texts

def dumpMembers (lib : FloatText) (style : Style) : Nat → List (Bytes × Value) → Option (List Bytes)
  | _, [] => some []
  | depth, (name, value) :: members =>
      (escape [] name).bind fun name =>
        (dump lib style depth value).bind fun text =>
          (dumpMembers lib style depth members).map fun texts => memberText style name text :: texts

end

/-! ## Reading -/

def skipBlank (text : Bytes) : Bytes := text.dropWhile fun byte => decide (byte ∈ blanks)

/-- `scan_literal`, behind its first letter. -/
def scanLiteral (letters text : Bytes) : Option Bytes :=
  if letters <+: text then some (text.drop letters.length) else none

section Brackets

variable {α : Type}

/-- Items up to the closing bracket, no more than `count`. -/
def separated (read : Bytes → Option (α × Bytes)) (closing : UInt8) :
    Nat → Bytes → Option (List α × Bytes)
  | 0, _ => none
  | count + 1, text =>
      match read text with
      | some (item, rest) =>
          match skipBlank rest with
          | byte :: rest =>
              if byte = 0x2c then
                (separated read closing count rest).map fun read => (item :: read.1, read.2)
              else if byte = closing then some ([item], rest) else none
          | [] => none
      | none => none

/-- Behind an opening bracket. -/
def bracketed (read : Bytes → Option (α × Bytes)) (closing : UInt8) (text : Bytes) :
    Option (List α × Bytes) :=
  match skipBlank text with
  | byte :: rest =>
      if byte = closing then some ([], rest) else separated read closing text.length (byte :: rest)
  | [] => none

end Brackets

def parseMember (read : Bytes → Option (Value × Bytes)) (text : Bytes) :
    Option ((Bytes × Value) × Bytes) :=
  match skipBlank text with
  | byte :: rest =>
      if byte = 0x22 then
        match scanString (.follow []) rest with
        | some (name, rest) =>
            match skipBlank rest with
            | byte :: rest =>
                if byte = 0x3a then (read rest).map fun read => ((name, read.1), read.2) else none
            | [] => none
        | none => none
      else none
  | [] => none

/-- `sax_parse_internal` on the tokens of the lexer, with the levels that are left. -/
def parseValue (lib : FloatText) : Nat → Bytes → Option (Value × Bytes)
  | 0, _ => none
  | levels + 1, text =>
      match skipBlank text with
      | [] => none
      | byte :: rest =>
          if byte = 0x7b then
            (bracketed (parseMember (parseValue lib levels)) 0x7d rest).map fun read =>
              (ofMembers read.1, read.2)
          else if byte = 0x5b then
            (bracketed (parseValue lib levels) 0x5d rest).map fun read => (.array read.1, read.2)
          else if byte = 0x22 then
            (scanString (.follow []) rest).map fun read => (.string read.1, read.2)
          else if byte = 0x74 then
            (scanLiteral [0x72, 0x75, 0x65] rest).map fun rest => (.boolean true, rest)
          else if byte = 0x66 then
            (scanLiteral [0x61, 0x6c, 0x73, 0x65] rest).map fun rest => (.boolean false, rest)
          else if byte = 0x6e then
            (scanLiteral [0x75, 0x6c, 0x6c] rest).map fun rest => (.null, rest)
          else scanNumber lib (byte :: rest)

/-- The byte order mark that the lexer passes over. -/
def skipBom : Bytes → Option Bytes
  | 0xef :: rest => scanLiteral [0xbb, 0xbf] rest
  | text => some text

/-- `json::parse`; none is an error. A zero byte ends the input. -/
def parse (lib : FloatText) (text : Bytes) : Option Value :=
  (skipBom text).bind fun text =>
    (parseValue lib (text.length + 1) text).bind fun read =>
      match skipBlank read.2 with
      | [] => some read.1
      | byte :: _ => if byte = 0 then some read.1 else none

/-! ## Values as they come back -/

mutual

/-- A value as its text is read. -/
def reread : Value → Value
  | .integer value => if 0 ≤ value.toInt then .unsigned (UInt64.ofNat value.toInt.toNat) else .integer value
  | .float bits => if isFinite bits then .float bits else .null
  | .binary bytes subtype =>
      .object [([0x62, 0x79, 0x74, 0x65, 0x73], .array (bytes.map fun byte => .unsigned byte.toUInt64)),
        ([0x73, 0x75, 0x62, 0x74, 0x79, 0x70, 0x65], subtype.elim .null .unsigned)]
  | .array items => .array (itemsReread items)
  | .object members => ofMembers (membersReread members)
  | other => other

def itemsReread : List Value → List Value
  | [] => []
  | item :: items => reread item :: itemsReread items

def membersReread : List (Bytes × Value) → List (Bytes × Value)
  | [] => []
  | (name, value) :: members => (name, reread value) :: membersReread members

end

theorem itemsReread_eq (items : List Value) : itemsReread items = items.map reread := by
  induction items with
  | nil => rfl
  | cons item items ih => rw [itemsReread, List.map_cons, ih]

theorem membersReread_eq (members : List (Bytes × Value)) :
    membersReread members = members.map fun member => (member.1, reread member.2) := by
  induction members with
  | nil => rfl
  | cons member members ih =>
    obtain ⟨name, value⟩ := member
    rw [membersReread, List.map_cons, ih]

variable {lib : FloatText} {style : Style} {depth : Nat}

theorem dumpItems_eq {items : List Value} {texts : List Bytes} :
    dumpItems lib style depth items = some texts ↔
      List.Forall₂ (fun item text => dump lib style depth item = some text) items texts := by
  induction items generalizing texts with
  | nil => simp [dumpItems, eq_comm]
  | cons item items ih =>
    simp only [dumpItems, Option.bind_eq_some_iff, Option.map_eq_some_iff, ih]
    constructor
    · rintro ⟨text, isText, rest, isRest, rfl⟩
      exact .cons isText isRest
    · rintro (_ | ⟨isText, isRest⟩)
      exact ⟨_, isText, _, isRest, rfl⟩

/-- What `dump` makes of a member. -/
def MemberDump (lib : FloatText) (style : Style) (depth : Nat) (member : Bytes × Value) (text : Bytes) :
    Prop :=
  ∃ name value, escape [] member.1 = some name ∧ dump lib style depth member.2 = some value ∧
    text = memberText style name value

theorem dumpMembers_eq {members : List (Bytes × Value)} {texts : List Bytes} :
    dumpMembers lib style depth members = some texts ↔
      List.Forall₂ (MemberDump lib style depth) members texts := by
  induction members generalizing texts with
  | nil => simp [dumpMembers, eq_comm]
  | cons member members ih =>
    obtain ⟨name, value⟩ := member
    simp only [dumpMembers, Option.bind_eq_some_iff, Option.map_eq_some_iff, ih]
    constructor
    · rintro ⟨name, isName, text, isText, rest, isRest, rfl⟩
      exact .cons ⟨name, text, isName, isText, rfl⟩ isRest
    · rintro (_ | ⟨⟨name, text, isName, isText, rfl⟩, isRest⟩)
      exact ⟨name, isName, text, isText, _, isRest, rfl⟩

/-! ## Between brackets -/

theorem skipBlank_append {front rest : Bytes} (blank : IsBlank front) :
    skipBlank (front ++ rest) = skipBlank rest :=
  List.dropWhile_append_of_pos fun byte member => decide_eq_true (blank byte member)

theorem skipBlank_cons {byte : UInt8} {rest : Bytes} (notBlank : byte ∉ blanks) :
    skipBlank (byte :: rest) = byte :: rest := by
  rw [skipBlank, List.dropWhile_cons, if_neg]
  exact fun blank => notBlank (of_decide_eq_true blank)

/-- A closing bracket. -/
def IsClosing (byte : UInt8) : Prop := byte = 0x5d ∨ byte = 0x7d

theorem IsClosing.notBlank {byte : UInt8} (closing : IsClosing byte) : byte ∉ blanks := by
  rcases closing with rfl | rfl <;> decide

theorem ends_cons {byte : UInt8} {rest : Bytes}
    (other : isDigit byte = false ∧ byte ∉ ([0x2e, 0x65, 0x45] : Bytes)) : Ends (byte :: rest) := by
  intro head isHead
  cases isHead
  exact other

/-- A number ends before blanks and a closing bracket. -/
theorem ends_behind {behind rest : Bytes} {closing : UInt8} (isClosing : IsClosing closing)
    (blank : IsBlank behind) : Ends (behind ++ closing :: rest) := by
  cases behind with
  | nil => rcases isClosing with rfl | rfl <;> exact ends_cons (by decide)
  | cons byte behind =>
    have all : ∀ byte ∈ blanks, isDigit byte = false ∧ byte ∉ ([0x2e, 0x65, 0x45] : Bytes) := by decide +kernel
    exact ends_cons (all byte (blank byte (.head _)))

/-- A reader takes a text from the front, blanks before it included. -/
def ReadsAs {α : Type} (read : Bytes → Option (α × Bytes)) (text : Bytes) (item : α) : Prop :=
  ∀ blank rest, IsBlank blank → Ends rest → read (blank ++ (text ++ rest)) = some (item, rest)

theorem separated_texts {α : Type} {read : Bytes → Option (α × Bytes)} {closing : UInt8}
    (isClosing : IsClosing closing) {between behind : Bytes} (blank' : IsBlank between)
    (blank'' : IsBlank behind) {texts : List Bytes} {items : List α}
    (each : List.Forall₂ (ReadsAs read) texts items) (nonempty : texts ≠ []) :
    ∀ count, texts.length ≤ count → ∀ before rest, IsBlank before →
      separated read closing count
        (before ++ ((texts.intersperse (0x2c :: between)).flatten ++ (behind ++ closing :: rest))) =
          some (items, rest) := by
  induction each with
  | nil => exact absurd rfl nonempty
  | @cons text item texts items first each ih =>
    intro count enough before rest blank
    obtain ⟨count, rfl⟩ : ∃ less, count = less + 1 := ⟨count - 1, by simp at enough; omega⟩
    rw [separated]
    cases texts with
    | nil =>
      cases each
      have single : ([text].intersperse (0x2c :: between)).flatten = text := by simp
      rw [single, first before (behind ++ closing :: rest) blank (ends_behind isClosing blank'')]
      dsimp only
      rw [skipBlank_append blank'', skipBlank_cons isClosing.notBlank]
      have notComma : closing ≠ 0x2c := by
        rcases isClosing with rfl | rfl <;> decide
      dsimp only
      rw [if_neg notComma, if_pos rfl]
    | cons next texts =>
      have joined : ((text :: next :: texts).intersperse (0x2c :: between)).flatten ++
          (behind ++ closing :: rest) = text ++ (0x2c :: (between ++
            (((next :: texts).intersperse (0x2c :: between)).flatten ++ (behind ++ closing :: rest)))) := by
        simp [List.intersperse]
      rw [joined, first before _ blank (ends_cons (by decide))]
      dsimp only
      rw [skipBlank_cons (by decide)]
      dsimp only
      rw [if_pos rfl, ih (List.cons_ne_nil _ _) count (by simpa using enough) between rest blank']
      rfl

/-- Texts that do not look like the end of the brackets. -/
def Begins (closing : UInt8) (text : Bytes) : Prop :=
  ∃ byte rest, text = byte :: rest ∧ byte ∉ blanks ∧ byte ≠ closing

theorem length_le_flatten {texts : List Bytes} {between : Bytes} (nonempty : ∀ text ∈ texts, text ≠ []) :
    texts.length ≤ ((texts.intersperse (0x2c :: between)).flatten).length := by
  induction texts with
  | nil => simp
  | cons text texts ih =>
    obtain ⟨first, later⟩ := List.forall_mem_cons.mp nonempty
    have some_ : 0 < text.length := List.length_pos_iff.mpr first
    have more := ih later
    cases texts with
    | nil =>
      rw [List.intersperse_singleton, List.flatten_singleton]
      exact some_
    | cons next texts =>
      rw [List.intersperse_cons_cons]
      simp only [List.flatten_cons, List.length_append, List.length_cons] at more ⊢
      omega

theorem bracketed_enclosed {α : Type} {read : Bytes → Option (α × Bytes)} (opening : UInt8)
    {closing : UInt8} (isClosing : IsClosing closing) {before between behind : Bytes} (blank : IsBlank before)
    (blank' : IsBlank between) (blank'' : IsBlank behind) {texts : List Bytes} {items : List α}
    (begins : ∀ text ∈ texts, Begins closing text)
    (each : List.Forall₂ (ReadsAs read) texts items) (rest : Bytes) :
    ∃ inner, enclosed before between behind opening closing texts ++ rest = opening :: inner ∧
      bracketed read closing inner = some (items, rest) := by
  by_cases none_ : texts = []
  · obtain rfl := none_
    cases each
    refine ⟨closing :: rest, rfl, ?_⟩
    rw [bracketed, skipBlank_cons isClosing.notBlank]
    dsimp only
    rw [if_pos rfl]
  · refine ⟨before ++ ((texts.intersperse (0x2c :: between)).flatten ++ (behind ++ closing :: rest)), ?_, ?_⟩
    · rw [enclosed, if_neg none_]
      simp
    · obtain ⟨first, more, rfl⟩ := List.exists_cons_of_ne_nil none_
      obtain ⟨byte, tail, isFirst, notBlank, notClosing⟩ := begins first (.head _)
      have start : ∃ tail, ((first :: more).intersperse (0x2c :: between)).flatten ++
          (behind ++ closing :: rest) = byte :: tail := by
        rw [isFirst]
        cases more with
        | nil => exact ⟨_, rfl⟩
        | cons next more => exact ⟨_, rfl⟩
      obtain ⟨tail, start⟩ := start
      have enough : (first :: more).length ≤ (before ++ (((first :: more).intersperse
          (0x2c :: between)).flatten ++ (behind ++ closing :: rest))).length := by
        have fits := @length_le_flatten (first :: more) between fun text member => by
          obtain ⟨byte, tail, rfl, -, -⟩ := begins text member
          exact List.cons_ne_nil _ _
        rw [List.length_append, List.length_append]
        omega
      have result := separated_texts isClosing blank' blank'' each none_ _ enough [] rest
        fun _ member => absurd member List.not_mem_nil
      rw [List.nil_append] at result
      rw [bracketed, skipBlank_append blank]
      rw [start] at result ⊢
      rw [skipBlank_cons notBlank]
      dsimp only
      rw [if_neg notClosing]
      exact result

/-! ## What is written is read -/

/-- The first byte of a value. -/
def Opens (text : Bytes) : Prop :=
  ∃ byte rest, text = byte :: rest ∧ byte ∉ blanks ∧ byte ∉ ([0x5d, 0x7d, 0xef] : Bytes)

theorem Opens.begins {text : Bytes} (opens : Opens text) {closing : UInt8} (isClosing : IsClosing closing) :
    Begins closing text := by
  obtain ⟨byte, rest, rfl, notBlank, other⟩ := opens
  refine ⟨byte, rest, rfl, notBlank, ?_⟩
  rintro rfl
  rcases isClosing with rfl | rfl
  · exact other (.head _)
  · exact other (.tail _ (.head _))

section Parse

variable {levels : Nat}

theorem parseValue_blank {blank : Bytes} (isBlank : IsBlank blank) (text : Bytes) :
    parseValue lib levels (blank ++ text) = parseValue lib levels text := by
  cases levels with
  | zero => rfl
  | succ levels => rw [parseValue, parseValue, skipBlank_append isBlank]

theorem scanLiteral_append (letters rest : Bytes) : scanLiteral letters (letters ++ rest) = some rest := by
  rw [scanLiteral, if_pos (List.prefix_append _ _), List.drop_left]

theorem readsNull : ReadsAs (parseValue lib (levels + 1)) nullText .null := by
  intro blank rest isBlank _
  have whole : nullText ++ rest = 0x6e :: ([0x75, 0x6c, 0x6c] ++ rest) := rfl
  rw [whole, parseValue_blank isBlank]
  exact congrArg (Option.map _) (scanLiteral_append [0x75, 0x6c, 0x6c] rest)

theorem readsBoolean (value : Bool) : ReadsAs (parseValue lib (levels + 1))
    (if value then [0x74, 0x72, 0x75, 0x65] else [0x66, 0x61, 0x6c, 0x73, 0x65]) (.boolean value) := by
  intro blank rest isBlank _
  cases value with
  | true =>
    have whole : ([0x74, 0x72, 0x75, 0x65] : Bytes) ++ rest = 0x74 :: ([0x72, 0x75, 0x65] ++ rest) := rfl
    rw [if_pos rfl, whole, parseValue_blank isBlank]
    exact congrArg (Option.map _) (scanLiteral_append [0x72, 0x75, 0x65] rest)
  | false =>
    have whole : ([0x66, 0x61, 0x6c, 0x73, 0x65] : Bytes) ++ rest =
      0x66 :: ([0x61, 0x6c, 0x73, 0x65] ++ rest) := rfl
    rw [if_neg Bool.false_ne_true, whole, parseValue_blank isBlank]
    exact congrArg (Option.map _) (scanLiteral_append [0x61, 0x6c, 0x73, 0x65] rest)

theorem readsString {string text : Bytes} (written : escape [] string = some text) :
    ReadsAs (parseValue lib (levels + 1)) (quoted text) (.string string) := by
  intro blank rest isBlank _
  have whole : quoted text ++ rest = 0x22 :: (text ++ 0x22 :: rest) := by simp [quoted]
  rw [whole, parseValue_blank isBlank]
  exact congrArg (Option.map _) (scanString_escape written rest)

/-- The first byte of a number. -/
def OpensNumber (text : Bytes) : Prop :=
  ∃ byte rest, text = byte :: rest ∧ (isDigit byte = true ∨ byte = 0x2d)

theorem number_byte {byte : UInt8} (number : isDigit byte = true ∨ byte = 0x2d) :
    byte ∉ blanks ∧ byte ∉ ([0x5d, 0x7d, 0xef, 0x7b, 0x5b, 0x22, 0x74, 0x66, 0x6e] : Bytes) := by
  have all : ∀ other ∈ blanks ++ [0x5d, 0x7d, 0xef, 0x7b, 0x5b, 0x22, 0x74, 0x66, 0x6e],
      isDigit other = false ∧ other ≠ 0x2d := by decide +kernel
  have apart : byte ∉ blanks ++ [0x5d, 0x7d, 0xef, 0x7b, 0x5b, 0x22, 0x74, 0x66, 0x6e] := by
    intro member
    obtain ⟨notDigit, notMinus⟩ := all byte member
    rcases number with digit | minus
    · exact absurd (digit.symm.trans notDigit) Bool.noConfusion
    · exact notMinus minus
  rw [List.mem_append, not_or] at apart
  exact apart

theorem OpensNumber.opens {text : Bytes} (opens : OpensNumber text) : Opens text := by
  obtain ⟨byte, rest, rfl, number⟩ := opens
  obtain ⟨notBlank, apart⟩ := number_byte number
  refine ⟨byte, rest, rfl, notBlank, fun member => apart ?_⟩
  simp only [List.mem_cons, List.not_mem_nil, or_false] at member ⊢
  tauto

theorem readsNumber {text : Bytes} {value : Value} (opens : OpensNumber text)
    (scanned : ∀ rest, Ends rest → scanNumber lib (text ++ rest) = some (value, rest)) :
    ReadsAs (parseValue lib (levels + 1)) text value := by
  intro blank rest isBlank ends
  have result := scanned rest ends
  obtain ⟨byte, tail, rfl, number⟩ := opens
  obtain ⟨notBlank, apart⟩ := number_byte number
  simp only [List.mem_cons, List.not_mem_nil, or_false, not_or] at apart
  obtain ⟨-, -, -, object, array, string, true_, false_, null⟩ := apart
  rw [List.cons_append] at result ⊢
  rw [parseValue_blank isBlank, parseValue, skipBlank_cons notBlank]
  dsimp only
  rw [if_neg object, if_neg array, if_neg string, if_neg true_,
    if_neg false_, if_neg null]
  exact result

theorem opens_digits (value : Nat) : OpensNumber (digits value) := by
  obtain ⟨some_, all⟩ := isDigits_digits value
  obtain ⟨byte, rest, same⟩ := List.exists_cons_of_ne_nil some_
  exact ⟨byte, rest, same, .inl (isDigit_iff.mpr (all byte (same ▸ .head _)))⟩

theorem opens_dumpInteger (value : Int) : OpensNumber (dumpInteger value) := by
  rw [dumpInteger]
  split
  · exact ⟨0x2d, _, rfl, .inr rfl⟩
  · exact opens_digits _

theorem opens_toChars {bits : UInt64} (finite : isFinite bits = true) : OpensNumber (lib.toChars bits) := by
  obtain ⟨sign, int, fraction, exponent, isSign, isInt, -, -, -, same⟩ := lib.toChars_number finite
  rw [same]
  rcases isSign with rfl | rfl
  · obtain ⟨byte, tail, isInt'⟩ := List.exists_cons_of_ne_nil isInt.1.1
    rw [isInt']
    exact ⟨byte, _, rfl, .inl (isDigit_iff.mpr (isInt.1.2 byte (isInt' ▸ .head _)))⟩
  · exact ⟨0x2d, _, rfl, .inr rfl⟩

theorem readsUnsigned (value : UInt64) :
    ReadsAs (parseValue lib (levels + 1)) (digits value.toNat) (.unsigned value) :=
  readsNumber (opens_digits _) fun _ ends => scanNumber_unsigned value ends

theorem readsInteger (value : Int64) :
    ReadsAs (parseValue lib (levels + 1)) (dumpInteger value.toInt) (reread (.integer value)) := by
  apply readsNumber (opens_dumpInteger _)
  intro rest ends
  rw [reread]
  split
  next positive =>
    have high := Int64.toInt_lt value
    have same : (UInt64.ofNat value.toInt.toNat).toNat = value.toInt.toNat :=
      UInt64.toNat_ofNat_of_lt' (show value.toInt.toNat < 2 ^ 64 by omega)
    have result := @scanNumber_unsigned lib (UInt64.ofNat value.toInt.toNat) rest ends
    rw [same] at result
    rw [dumpInteger, if_neg (by omega)]
    exact result
  next negative => exact scanNumber_integer (by omega) ends

theorem readsFloat (bits : UInt64) :
    ReadsAs (parseValue lib (levels + 1)) (dumpFloat lib bits) (reread (.float bits)) := by
  rw [dumpFloat, reread]
  split
  next finite => exact readsNumber (opens_toChars finite) fun _ ends => scanNumber_float finite ends
  next => exact readsNull

theorem blank_gap (style : Style) : IsBlank style.gap := by
  rw [Style.gap]
  split
  · intro byte member
    rw [List.mem_singleton.mp member]
    decide
  · exact fun _ member => absurd member List.not_mem_nil

theorem readsMember (style : Style) {read : Bytes → Option (Value × Bytes)} {string name text : Bytes} {value : Value}
    (written : escape [] string = some name) (reads : ReadsAs read text value) :
    ReadsAs (parseMember read) (memberText style name text) (string, value) := by
  intro blank rest isBlank ends
  have whole : memberText style name text ++ rest =
      0x22 :: (name ++ 0x22 :: (0x3a :: (style.gap ++ (text ++ rest)))) := by
    simp [memberText, quoted]
  rw [parseMember, whole, skipBlank_append isBlank, skipBlank_cons (by decide)]
  dsimp only
  rw [if_pos rfl, scanString_escape written]
  dsimp only
  rw [skipBlank_cons (by decide)]
  dsimp only
  rw [if_pos rfl, reads _ _ (blank_gap style) ends]
  rfl

variable {before between behind : Bytes} {texts : List Bytes}

theorem readsArray (blank : IsBlank before) (blank' : IsBlank between) (blank'' : IsBlank behind)
    {items : List Value} (opens : ∀ text ∈ texts, Opens text)
    (each : List.Forall₂ (ReadsAs (parseValue lib levels)) texts items) :
    ReadsAs (parseValue lib (levels + 1)) (enclosed before between behind 0x5b 0x5d texts)
      (.array items) := by
  intro front rest isBlank _
  obtain ⟨inner, whole, read⟩ := bracketed_enclosed 0x5b (.inl rfl) blank blank' blank''
    (fun text member => (opens text member).begins (.inl rfl)) each rest
  rw [whole, parseValue_blank isBlank]
  exact congrArg (Option.map _) read

theorem readsObject (blank : IsBlank before) (blank' : IsBlank between) (blank'' : IsBlank behind)
    {members : List (Bytes × Value)} (opens : ∀ text ∈ texts, Opens text)
    (each : List.Forall₂ (ReadsAs (parseMember (parseValue lib levels))) texts members) :
    ReadsAs (parseValue lib (levels + 1)) (enclosed before between behind 0x7b 0x7d texts)
      (ofMembers members) := by
  intro front rest isBlank _
  obtain ⟨inner, whole, read⟩ := bracketed_enclosed 0x7b (.inr rfl) blank blank' blank''
    (fun text member => (opens text member).begins (.inr rfl)) each rest
  rw [whole, parseValue_blank isBlank]
  exact congrArg (Option.map _) read

theorem opens_enclosed (opening : UInt8) (bracket : opening = 0x5b ∨ opening = 0x7b) (closing : UInt8) :
    Opens (enclosed before between behind opening closing texts) := by
  have opens : opening ∉ blanks ∧ opening ∉ ([0x5d, 0x7d, 0xef] : Bytes) := by
    rcases bracket with rfl | rfl <;> decide
  rw [enclosed]
  split
  · exact ⟨opening, _, rfl, opens⟩
  · exact ⟨opening, _, rfl, opens⟩

theorem opens_quoted (text rest : Bytes) : Opens (quoted text ++ rest) :=
  ⟨0x22, _, rfl, by decide⟩

theorem blank_newline (style : Style) (depth : Nat) : IsBlank (style.newline depth) := by
  rw [Style.newline]
  split
  next step _ =>
    intro byte member
    rcases List.mem_cons.mp member with rfl | spaces
    · decide
    · rw [List.eq_of_mem_replicate spaces]
      decide
  · exact fun _ member => absurd member List.not_mem_nil

theorem blank_nil : IsBlank [] := fun _ member => absurd member List.not_mem_nil

theorem readsBinary (bytes : Bytes) (subtype : Option UInt64) :
    ReadsAs (parseValue lib (levels + 3)) (dumpBinary style depth bytes subtype)
      (reread (.binary bytes subtype)) := by
  have opens : ∀ name text, Opens (memberText style name text) := fun name text => opens_quoted name _
  have content : List.Forall₂ (ReadsAs (parseValue lib (levels + 1)))
      (bytes.map fun byte => digits byte.toNat) (bytes.map fun byte => .unsigned byte.toUInt64) := by
    induction bytes with
    | nil => exact .nil
    | cons byte bytes ih =>
      refine .cons ?_ ih
      have read := @readsUnsigned lib levels byte.toUInt64
      rwa [UInt8.toNat_toUInt64] at read
  have array := readsArray blank_nil (blank_gap style) blank_nil (fun text member => by
    obtain ⟨byte, -, rfl⟩ := List.mem_map.mp member
    exact (opens_digits _).opens) content
  have kind : ReadsAs (parseValue lib (levels + 2))
      (subtype.elim nullText fun subtype => digits subtype.toNat) (subtype.elim .null .unsigned) := by
    cases subtype with
    | none => exact readsNull
    | some subtype => exact readsUnsigned subtype
  have members := List.Forall₂.cons (readsMember style
      (show escape [] [0x62, 0x79, 0x74, 0x65, 0x73] = some _ from rfl) array)
    (.cons (readsMember style
      (show escape [] [0x73, 0x75, 0x62, 0x74, 0x79, 0x70, 0x65] = some _ from rfl) kind) .nil)
  have object := readsObject (blank_newline style (depth + 1)) (blank_newline style (depth + 1))
    (blank_newline style depth) (fun text member => by
      rcases List.mem_cons.mp member with rfl | later
      · exact opens _ _
      · rw [List.mem_singleton.mp later]
        exact opens _ _) members
  exact object

/-- A text between brackets is shorter than what encloses it. -/
theorem length_lt_enclosed (opening closing : UInt8) {text : Bytes} (member : text ∈ texts) :
    text.length + 1 < (enclosed before between behind opening closing texts).length := by
  have inside : text.length ≤ ((texts.intersperse (0x2c :: between)).flatten).length := by
    induction texts with
    | nil => exact absurd member List.not_mem_nil
    | cons first texts ih =>
      cases texts with
      | nil =>
        rw [List.mem_singleton.mp member, List.intersperse_singleton, List.flatten_singleton]
      | cons next texts =>
        rw [List.intersperse_cons_cons]
        simp only [List.flatten_cons, List.length_append]
        rcases List.mem_cons.mp member with rfl | later
        · omega
        · have below := ih later
          omega
  rw [enclosed, if_neg (List.ne_nil_of_mem member)]
  simp only [List.length_cons, List.length_append]
  omega

end Parse

theorem forall₂_map {α β γ : Type} {R : α → β → Prop} {P : β → γ → Prop} {f : α → γ} {items : List α}
    {texts : List β} (written : List.Forall₂ R items texts)
    (each : ∀ item ∈ items, ∀ text ∈ texts, R item text → P text (f item)) :
    List.Forall₂ P texts (items.map f) := by
  induction written with
  | nil => exact .nil
  | @cons item text items texts first rest ih =>
    refine .cons (each item (.head _) text (.head _) first) (ih ?_)
    exact fun item isItem text isText => each item (.tail _ isItem) text (.tail _ isText)

theorem forall₂_right {α β : Type} {R : α → β → Prop} {items : List α} {texts : List β}
    (written : List.Forall₂ R items texts) {text : β} (member : text ∈ texts) :
    ∃ item ∈ items, R item text := by
  induction written with
  | nil => exact absurd member List.not_mem_nil
  | cons first rest ih =>
    rcases List.mem_cons.mp member with rfl | later
    · exact ⟨_, .head _, first⟩
    · obtain ⟨item, isItem, isText⟩ := ih later
      exact ⟨item, .tail _ isItem, isText⟩

/-- What `dump` writes, the parser reads, blanks before it included and whatever follows. -/
theorem reads_dump (value : Value) : ∀ depth text levels, dump lib style depth value = some text →
    text.length < levels → Opens text ∧ ReadsAs (parseValue lib levels) text (reread value) := by
  induction value using inside with
  | array items ih =>
    intro depth text levels written short
    obtain ⟨levels, rfl⟩ : ∃ less, levels = less + 1 := ⟨levels - 1, by omega⟩
    rw [dump, Option.map_eq_some_iff] at written
    obtain ⟨texts, written, rfl⟩ := written
    have each := dumpItems_eq.mp written
    have inner : ∀ text ∈ texts, text.length < levels := by
      intro text member
      have below : text.length + 1 < (style.enclosed depth 0x5b 0x5d texts).length :=
        length_lt_enclosed _ _ member
      omega
    refine ⟨opens_enclosed 0x5b (.inl rfl) 0x5d, ?_⟩
    rw [reread, itemsReread_eq]
    refine readsArray (blank_newline _ _) (blank_newline _ _) (blank_newline _ _) ?_ (forall₂_map each ?_)
    · intro text member
      obtain ⟨item, isItem, isText⟩ := forall₂_right each member
      exact (ih item isItem _ text levels isText (inner text member)).1
    · exact fun item isItem text member isText => (ih item isItem _ text levels isText (inner text member)).2
  | object members ih =>
    intro depth text levels written short
    obtain ⟨levels, rfl⟩ : ∃ less, levels = less + 1 := ⟨levels - 1, by omega⟩
    rw [dump, Option.map_eq_some_iff] at written
    obtain ⟨texts, written, rfl⟩ := written
    have each := dumpMembers_eq.mp written
    refine ⟨opens_enclosed 0x7b (.inr rfl) 0x7d, ?_⟩
    rw [reread, membersReread_eq]
    refine readsObject (blank_newline _ _) (blank_newline _ _) (blank_newline _ _) ?_ (forall₂_map each ?_)
    · intro text member
      obtain ⟨_, -, name, value, -, -, rfl⟩ := forall₂_right each member
      exact opens_quoted name _
    · rintro ⟨name, value⟩ isMember _ member ⟨nameText, text, isName, isText, rfl⟩
      have below : (memberText style nameText text).length + 1 <
          (style.enclosed depth 0x7b 0x7d texts).length := length_lt_enclosed _ _ member
      have shorter : text.length < (memberText style nameText text).length := by
        simp only [memberText, quoted, List.length_append, List.length_cons]
        omega
      exact readsMember style isName (ih _ isMember _ text levels isText (by omega)).2
  | scalar value noArray noObject =>
    intro depth text levels written short
    obtain ⟨levels, rfl⟩ : ∃ less, levels = less + 1 := ⟨levels - 1, by omega⟩
    cases value with
    | array items => exact absurd rfl (noArray items)
    | object members => exact absurd rfl (noObject members)
    | null =>
      cases written
      exact ⟨⟨0x6e, _, rfl, by decide⟩, readsNull⟩
    | boolean value =>
      cases written
      refine ⟨?_, readsBoolean value⟩
      cases value
      · exact ⟨0x66, _, rfl, by decide⟩
      · exact ⟨0x74, _, rfl, by decide⟩
    | integer value =>
      cases written
      exact ⟨(opens_dumpInteger _).opens, readsInteger value⟩
    | unsigned value =>
      cases written
      exact ⟨(opens_digits _).opens, readsUnsigned value⟩
    | float bits =>
      cases written
      refine ⟨?_, readsFloat bits⟩
      rw [dumpFloat]
      split
      next finite => exact (opens_toChars finite).opens
      · exact ⟨0x6e, _, rfl, by decide⟩
    | string string =>
      rw [dump, Option.map_eq_some_iff] at written
      obtain ⟨text, written, rfl⟩ := written
      exact ⟨⟨0x22, _, rfl, by decide⟩, readsString written⟩
    | binary bytes subtype =>
      cases written
      have long : 2 < (dumpBinary style depth bytes subtype).length := by
        have member := @length_lt_enclosed (style.newline (depth + 1)) (style.newline (depth + 1))
          (style.newline depth) _ 0x7b 0x7d _ (List.mem_cons_self (a := memberText style
            [0x62, 0x79, 0x74, 0x65, 0x73] (enclosed [] style.gap [] 0x5b 0x5d
              (bytes.map fun byte => digits byte.toNat))) (l := [memberText style
                [0x73, 0x75, 0x62, 0x74, 0x79, 0x70, 0x65]
                  (subtype.elim nullText fun subtype => digits subtype.toNat)]))
        exact lt_of_le_of_lt (by simp [memberText, quoted]) member
      obtain ⟨levels, rfl⟩ : ∃ less, levels = less + 2 := ⟨levels - 2, by omega⟩
      refine ⟨?_, readsBinary bytes subtype⟩
      rw [dumpBinary, Style.enclosed]
      exact opens_enclosed 0x7b (.inr rfl) 0x7d

/-- A text that was dumped is parsed to the value again, as its text has it. -/
theorem parse_dump {value : Value} {text : Bytes} (written : dump lib style 0 value = some text) :
    parse lib text = some (reread value) := by
  obtain ⟨opens, reads⟩ := reads_dump value 0 text _ written (Nat.lt_succ_self _)
  have noBom : skipBom text = some text := by
    obtain ⟨byte, rest, rfl, -, other⟩ := opens
    rw [skipBom]
    intro more same
    rw [(List.cons.inj same).1] at other
    exact other (by decide)
  have read := reads [] [] blank_nil fun _ isHead => by cases isHead
  rw [List.nil_append, List.append_nil] at read
  rw [parse, noBom]
  dsimp only [Option.bind_some]
  rw [read]
  rfl

end PacificDb.JsonText
