import Mathlib.Order.Nat

/-!
# The grammar of JSON texts

JSON texts as derivations over bytes, with the number of levels they nest. Bytes from `0x80`
on stand for themselves in a string, so every text in UTF-8 is one of these.
-/

namespace PacificDb.Lib.JsonGrammar

def blanks : List UInt8 := [0x20, 0x09, 0x0a, 0x0d]

def IsBlank (text : List UInt8) : Prop := ∀ byte ∈ text, byte ∈ blanks

def IsDigit (byte : UInt8) : Prop := 0x30 ≤ byte ∧ byte ≤ 0x39

def IsHexDigit (byte : UInt8) : Prop :=
  IsDigit byte ∨ 0x41 ≤ byte ∧ byte ≤ 0x46 ∨ 0x61 ≤ byte ∧ byte ≤ 0x66

/-- What stands behind a backslash: `"`, `\`, `/`, `b`, `f`, `n`, `r` or `t`. -/
def escapes : List UInt8 := [0x22, 0x5c, 0x2f, 0x62, 0x66, 0x6e, 0x72, 0x74]

/-- What stands between the quotes of a string. -/
inductive IsChars : List UInt8 → Prop where
  | nil : IsChars []
  | plain {byte : UInt8} {rest : List UInt8} (control : 0x20 ≤ byte) (quote : byte ≠ 0x22)
      (backslash : byte ≠ 0x5c) : IsChars rest → IsChars (byte :: rest)
  | escape {byte : UInt8} {rest : List UInt8} (known : byte ∈ escapes) :
      IsChars rest → IsChars (0x5c :: byte :: rest)
  | unicode {digits rest : List UInt8} (four : digits.length = 4) (hex : ∀ byte ∈ digits, IsHexDigit byte) :
      IsChars rest → IsChars (0x5c :: 0x75 :: (digits ++ rest))

def IsString (text : List UInt8) : Prop := ∃ chars, IsChars chars ∧ text = 0x22 :: (chars ++ [0x22])

def IsDigits (text : List UInt8) : Prop := text ≠ [] ∧ ∀ byte ∈ text, IsDigit byte

def IsSign (text : List UInt8) : Prop := text = [] ∨ text = [0x2d]

/-- The part before the point: a zero, or digits that begin with another one. -/
def IsInt (text : List UInt8) : Prop := IsDigits text ∧ (text.head? = some 0x30 → text = [0x30])

def IsFraction (text : List UInt8) : Prop := text = [] ∨ ∃ digits, IsDigits digits ∧ text = 0x2e :: digits

def IsExponent (text : List UInt8) : Prop :=
  text = [] ∨ ∃ letter sign digits, letter ∈ ([0x65, 0x45] : List UInt8) ∧
    sign ∈ ([[], [0x2b], [0x2d]] : List (List UInt8)) ∧ IsDigits digits ∧ text = letter :: (sign ++ digits)

def IsNumber (text : List UInt8) : Prop :=
  ∃ sign int fraction exponent, IsSign sign ∧ IsInt int ∧ IsFraction fraction ∧ IsExponent exponent ∧
    text = sign ++ (int ++ (fraction ++ exponent))

/-- `true`, `false` and `null`. -/
def literals : List (List UInt8) :=
  [[0x74, 0x72, 0x75, 0x65], [0x66, 0x61, 0x6c, 0x73, 0x65], [0x6e, 0x75, 0x6c, 0x6c]]

/-- The nonterminals of the grammar. An item is a value with the blanks around it. -/
inductive Part where
  | object
  | value
  | item
  | elements
  | member
  | members

/-- A text of a nonterminal, and how many levels of brackets it has. -/
inductive Derives : Part → Nat → List UInt8 → Prop where
  | literal {text : List UInt8} (known : text ∈ literals) : Derives .value 0 text
  | number {text : List UInt8} (number : IsNumber text) : Derives .value 0 text
  | string {text : List UInt8} (string : IsString text) : Derives .value 0 text
  | emptyArray {inside : List UInt8} (blank : IsBlank inside) :
      Derives .value 1 (0x5b :: (inside ++ [0x5d]))
  | array {levels : Nat} {inside : List UInt8} (elements : Derives .elements levels inside) :
      Derives .value (levels + 1) (0x5b :: (inside ++ [0x5d]))
  | object {levels : Nat} {text : List UInt8} (object : Derives .object levels text) :
      Derives .value levels text
  | emptyObject {inside : List UInt8} (blank : IsBlank inside) :
      Derives .object 1 (0x7b :: (inside ++ [0x7d]))
  | members {levels : Nat} {inside : List UInt8} (members : Derives .members levels inside) :
      Derives .object (levels + 1) (0x7b :: (inside ++ [0x7d]))
  | item {levels : Nat} {before text behind : List UInt8} (blank : IsBlank before)
      (value : Derives .value levels text) (blank' : IsBlank behind) :
      Derives .item levels (before ++ (text ++ behind))
  | lastElement {levels : Nat} {text : List UInt8} (item : Derives .item levels text) :
      Derives .elements levels text
  | element {levels more : Nat} {text rest : List UInt8} (item : Derives .item levels text)
      (elements : Derives .elements more rest) :
      Derives .elements (max levels more) (text ++ 0x2c :: rest)
  | namedItem {levels : Nat} {before name between text : List UInt8} (blank : IsBlank before)
      (string : IsString name) (blank' : IsBlank between) (item : Derives .item levels text) :
      Derives .member levels (before ++ (name ++ (between ++ 0x3a :: text)))
  | lastMember {levels : Nat} {text : List UInt8} (member : Derives .member levels text) :
      Derives .members levels text
  | member {levels more : Nat} {text rest : List UInt8} (member : Derives .member levels text)
      (members : Derives .members more rest) :
      Derives .members (max levels more) (text ++ 0x2c :: rest)

/-! ## The bytes of numbers and literals -/

/-- A byte that is neither a quote nor a bracket. -/
def IsPlain (byte : UInt8) : Prop := byte ∉ ([0x22, 0x5b, 0x5d, 0x7b, 0x7d] : List UInt8)

instance (byte : UInt8) : Decidable (IsPlain byte) := inferInstanceAs (Decidable (_ ∉ _))

theorem isPlain_of_digit {byte : UInt8} (digit : IsDigit byte) : IsPlain byte := by
  obtain ⟨low, high⟩ := digit
  rw [UInt8.le_iff_toNat_le] at low high
  intro special
  have cases : byte = 0x22 ∨ byte = 0x5b ∨ byte = 0x5d ∨ byte = 0x7b ∨ byte = 0x7d := by
    simpa using special
  rcases cases with rfl | rfl | rfl | rfl | rfl <;> simp at low high

theorem isPlain_of_blank {byte : UInt8} (blank : byte ∈ blanks) : IsPlain byte := by
  have all : ∀ byte ∈ blanks, IsPlain byte := by simp [blanks, IsPlain]
  exact all byte blank

theorem isPlain_of_literal {text : List UInt8} (known : text ∈ literals) : ∀ byte ∈ text, IsPlain byte := by
  have all : ∀ text ∈ literals, ∀ byte ∈ text, IsPlain byte := by simp [literals, IsPlain]
  exact all text known

/-- What holds of digits, signs, points and exponent letters holds of the bytes of a number. -/
theorem forall_mem_number {P : UInt8 → Prop} {text : List UInt8} (digit : ∀ byte, IsDigit byte → P byte)
    (other : ∀ byte ∈ ([0x2d, 0x2e, 0x65, 0x45, 0x2b] : List UInt8), P byte) (number : IsNumber text) :
    ∀ byte ∈ text, P byte := by
  obtain ⟨sign, int, fraction, exponent, isSign, isInt, isFraction, isExponent, rfl⟩ := number
  have digits : ∀ {text}, IsDigits text → ∀ byte ∈ text, P byte := fun isDigits byte member =>
    digit byte (isDigits.2 byte member)
  have others : ∀ {text : List UInt8}, (∀ byte ∈ text, byte ∈ ([0x2d, 0x2e, 0x65, 0x45, 0x2b] : List UInt8)) →
      ∀ byte ∈ text, P byte := fun known byte member => other byte (known byte member)
  have inSign : ∀ byte ∈ sign, P byte := by
    rcases isSign with rfl | rfl <;> exact others (by simp)
  have inFraction : ∀ byte ∈ fraction, P byte := by
    rcases isFraction with rfl | ⟨behind, isDigits, rfl⟩
    · exact others (by simp)
    · exact List.forall_mem_cons.mpr ⟨other _ (by decide), digits isDigits⟩
  have inExponent : ∀ byte ∈ exponent, P byte := by
    rcases isExponent with rfl | ⟨letter, power, behind, isLetter, isPower, isDigits, rfl⟩
    · exact others (by simp)
    · have letters : ∀ letter ∈ ([0x65, 0x45] : List UInt8),
          letter ∈ ([0x2d, 0x2e, 0x65, 0x45, 0x2b] : List UInt8) := by simp
      have powers : ∀ power ∈ ([[], [0x2b], [0x2d]] : List (List UInt8)), ∀ byte ∈ power,
          byte ∈ ([0x2d, 0x2e, 0x65, 0x45, 0x2b] : List UInt8) := by simp
      exact List.forall_mem_cons.mpr ⟨other _ (letters letter isLetter),
        List.forall_mem_append.mpr ⟨others (powers power isPower), digits isDigits⟩⟩
  simp only [List.forall_mem_append]
  exact ⟨inSign, digits isInt.1, inFraction, inExponent⟩

theorem isPlain_of_number {text : List UInt8} (number : IsNumber text) : ∀ byte ∈ text, IsPlain byte :=
  forall_mem_number (fun _ => isPlain_of_digit) (by simp [IsPlain]) number

theorem not_control_of_hex {byte : UInt8} (hex : IsHexDigit byte) :
    0x20 ≤ byte ∧ byte ≠ 0x22 ∧ byte ≠ 0x5c := by
  refine ⟨?_, ?_, ?_⟩
  · rcases hex with digit | upper | lower
    · exact UInt8.le_trans (show (0x20 : UInt8) ≤ 0x30 by decide) digit.1
    · exact UInt8.le_trans (show (0x20 : UInt8) ≤ 0x41 by decide) upper.1
    · exact UInt8.le_trans (show (0x20 : UInt8) ≤ 0x61 by decide) lower.1
  all_goals
    rintro rfl
    revert hex
    simp [IsHexDigit, IsDigit]

theorem not_control_of_escape {byte : UInt8} (known : byte ∈ escapes) : 0x20 ≤ byte := by
  have all : ∀ byte ∈ escapes, 0x20 ≤ byte := by simp [escapes]
  exact all byte known

/-! ## Scans that keep track of strings and brackets -/

/-- What a scan goes over, at some depth and within a string there. `room` says how many
levels more it takes, `deeper` is the depth behind a bracket with this closing one. -/
structure Passes {D : Type} (pass within : D → List UInt8 → Prop) (deeper : UInt8 → D → D)
    (room : D → Nat → Prop) : Prop where
  nil (d : D) : pass d []
  append {d : D} {text more : List UInt8} : pass d text → pass d more → pass d (text ++ more)
  plain {d : D} {byte : UInt8} : IsPlain byte → pass d [byte]
  withinNil (d : D) : within d []
  withinAppend {d : D} {text more : List UInt8} :
    within d text → within d more → within d (text ++ more)
  char {d : D} {byte : UInt8} : 0x20 ≤ byte → byte ≠ 0x22 → byte ≠ 0x5c → within d [byte]
  escape {d : D} {byte : UInt8} : 0x20 ≤ byte → within d [0x5c, byte]
  quotes {d : D} {chars : List UInt8} : within d chars → pass d (0x22 :: (chars ++ [0x22]))
  brackets {d : D} {levels : Nat} {opening closing : UInt8} {inside : List UInt8} :
    opening = 0x7b ∧ closing = 0x7d ∨ opening = 0x5b ∧ closing = 0x5d → room d (levels + 1) →
      pass (deeper closing d) inside → pass d (opening :: (inside ++ [closing]))
  room_deeper {d : D} {levels : Nat} (closing : UInt8) : room d (levels + 1) → room (deeper closing d) levels
  room_mono {d : D} {levels fewer : Nat} : room d levels → fewer ≤ levels → room d fewer

namespace Passes

variable {D : Type} {pass within : D → List UInt8 → Prop} {deeper : UInt8 → D → D}
  {room : D → Nat → Prop} {d : D} {text : List UInt8}

theorem all_plain (scan : Passes pass within deeper room) (plain : ∀ byte ∈ text, IsPlain byte) :
    pass d text := by
  induction text with
  | nil => exact scan.nil d
  | cons byte rest ih =>
    obtain ⟨own, later⟩ := List.forall_mem_cons.mp plain
    exact scan.append (scan.plain own) (ih later)

theorem blank (scan : Passes pass within deeper room) (blank : IsBlank text) : pass d text :=
  scan.all_plain fun byte member => isPlain_of_blank (blank byte member)

theorem hex (scan : Passes pass within deeper room) (hex : ∀ byte ∈ text, IsHexDigit byte) :
    within d text := by
  induction text with
  | nil => exact scan.withinNil d
  | cons byte rest ih =>
    obtain ⟨own, later⟩ := List.forall_mem_cons.mp hex
    obtain ⟨control, quote, backslash⟩ := not_control_of_hex own
    exact scan.withinAppend (scan.char control quote backslash) (ih later)

theorem chars (scan : Passes pass within deeper room) (isChars : IsChars text) : within d text := by
  induction isChars with
  | nil => exact scan.withinNil d
  | plain control quote backslash _ ih => exact scan.withinAppend (scan.char control quote backslash) ih
  | escape known _ ih => exact scan.withinAppend (scan.escape (not_control_of_escape known)) ih
  | unicode _ hex _ ih =>
    exact scan.withinAppend (scan.escape (by decide)) (scan.withinAppend (scan.hex hex) ih)

theorem string (scan : Passes pass within deeper room) (string : IsString text) : pass d text := by
  obtain ⟨chars, isChars, rfl⟩ := string
  exact scan.quotes (scan.chars isChars)

/-- Every derived text is passed over where there is room for its levels. -/
theorem derived (scan : Passes pass within deeper room) {part : Part} {levels : Nat}
    (derives : Derives part levels text) : ∀ d, room d levels → pass d text := by
  induction derives with
  | literal known => exact fun _ _ => scan.all_plain (isPlain_of_literal known)
  | number number => exact fun _ _ => scan.all_plain (isPlain_of_number number)
  | string string => exact fun _ _ => scan.string string
  | emptyArray blank => exact fun d room => scan.brackets (.inr ⟨rfl, rfl⟩) room (scan.blank blank)
  | array _ ih =>
    exact fun d room => scan.brackets (.inr ⟨rfl, rfl⟩) room (ih _ (scan.room_deeper _ room))
  | object _ ih => exact ih
  | emptyObject blank => exact fun d room => scan.brackets (.inl ⟨rfl, rfl⟩) room (scan.blank blank)
  | members _ ih =>
    exact fun d room => scan.brackets (.inl ⟨rfl, rfl⟩) room (ih _ (scan.room_deeper _ room))
  | item blank _ blank' ih =>
    exact fun d room => scan.append (scan.blank blank) (scan.append (ih d room) (scan.blank blank'))
  | lastElement _ ih => exact ih
  | element _ _ ih ih' =>
    intro d room
    have comma : pass d [0x2c] := scan.plain (by decide)
    exact scan.append (ih d (scan.room_mono room (le_max_left _ _)))
      (scan.append comma (ih' d (scan.room_mono room (le_max_right _ _))))
  | namedItem blank string blank' _ ih =>
    intro d room
    have colon : pass d [0x3a] := scan.plain (by decide)
    exact scan.append (scan.blank blank) (scan.append (scan.string string)
      (scan.append (scan.blank blank') (scan.append colon (ih d room))))
  | lastMember _ ih => exact ih
  | member _ _ ih ih' =>
    intro d room
    have comma : pass d [0x2c] := scan.plain (by decide)
    exact scan.append (ih d (scan.room_mono room (le_max_left _ _)))
      (scan.append comma (ih' d (scan.room_mono room (le_max_right _ _))))

end Passes

end PacificDb.Lib.JsonGrammar
