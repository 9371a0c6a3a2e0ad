import PacificDb.JsonText.Escape
import PacificDb.Lib.Decimal
import PacificDb.Lib.JsonGrammar

/-!
# Numbers of JSON texts

Integers are written in decimal, doubles in the shortest form that is read back as the same
double. The lexer takes the longest number there is, and makes it an integer where it can.
-/

namespace PacificDb.JsonText

open Lib JsonGrammar
open Sst (Bytes Value)

def isFinite (bits : UInt64) : Bool := bits >>> 52 &&& 0x7ff != 0x7ff

/-- `to_chars` and `strtod`. A finite double is written with a fraction or an exponent. -/
structure FloatText where
  toChars : UInt64 → Bytes
  strtod : Bytes → UInt64
  strtod_toChars : ∀ {bits}, isFinite bits = true → strtod (toChars bits) = bits
  toChars_number : ∀ {bits}, isFinite bits = true → ∃ sign int fraction exponent,
    IsSign sign ∧ IsInt int ∧ IsFraction fraction ∧ IsExponent exponent ∧
    ¬(fraction = [] ∧ exponent = []) ∧ toChars bits = sign ++ (int ++ (fraction ++ exponent))

/-! ## Writing -/

def digits (value : Nat) : Bytes := (Nat.toDigits 10 value).map fun c => UInt8.ofNat c.toNat

/-- `dump_integer`. -/
def dumpInteger (value : Int) : Bytes :=
  if value < 0 then 0x2d :: digits value.natAbs else digits value.toNat

def dumpFloat (lib : FloatText) (bits : UInt64) : Bytes :=
  if isFinite bits then lib.toChars bits else [0x6e, 0x75, 0x6c, 0x6c]

/-! ## Reading -/

def isDigit (byte : UInt8) : Bool := decide (0x30 ≤ byte ∧ byte ≤ 0x39)

def readDigits (text : Bytes) : Nat := text.foldl (fun value byte => 10 * value + (byte.toNat - 0x30)) 0

def scanDigits (text : Bytes) : Option (Bytes × Bytes) :=
  if text.takeWhile isDigit = [] then none
  else some (text.takeWhile isDigit, text.dropWhile isDigit)

def scanSign : Bytes → Bytes × Bytes
  | 0x2d :: rest => ([0x2d], rest)
  | text => ([], text)

def scanInt : Bytes → Option (Bytes × Bytes)
  | 0x30 :: rest => some ([0x30], rest)
  | text => scanDigits text

def scanFraction : Bytes → Option (Bytes × Bytes)
  | 0x2e :: rest => (scanDigits rest).map fun read => (0x2e :: read.1, read.2)
  | text => some ([], text)

def scanExponentSign : Bytes → Bytes × Bytes
  | 0x2b :: rest => ([0x2b], rest)
  | text => scanSign text

def scanExponent : Bytes → Option (Bytes × Bytes)
  | [] => some ([], [])
  | letter :: rest =>
      if letter = 0x65 ∨ letter = 0x45 then
        (scanDigits (scanExponentSign rest).2).map fun read =>
          (letter :: ((scanExponentSign rest).1 ++ read.1), read.2)
      else some ([], letter :: rest)

/-- The parts of a number. -/
structure Number where
  sign : Bytes
  int : Bytes
  fraction : Bytes
  exponent : Bytes

/-- The automaton of `scan_number`. -/
def splitNumber (text : Bytes) : Option (Number × Bytes) := do
  let (int, rest) ← scanInt (scanSign text).2
  let (fraction, rest) ← scanFraction rest
  let (exponent, rest) ← scanExponent rest
  return (⟨(scanSign text).1, int, fraction, exponent⟩, rest)

/-- The end of `scan_number`, and the check of the parser that a double is finite. -/
def Number.value (lib : FloatText) (number : Number) : Option Value :=
  let whole := decide (number.fraction = [] ∧ number.exponent = [])
  let bits := lib.strtod (number.sign ++ (number.int ++ (number.fraction ++ number.exponent)))
  if whole ∧ number.sign = [] ∧ readDigits number.int < 2 ^ 64 then
    some (.unsigned (UInt64.ofNat (readDigits number.int)))
  else if whole ∧ number.sign ≠ [] ∧ readDigits number.int ≤ 2 ^ 63 then
    some (.integer (Int64.ofInt (-readDigits number.int)))
  else if isFinite bits then some (.float bits) else none

def scanNumber (lib : FloatText) (text : Bytes) : Option (Value × Bytes) := do
  let (number, rest) ← splitNumber text
  let value ← number.value lib
  return (value, rest)

/-! ## The parts of a number are found again -/

/-- Nothing of a number can follow. -/
def Ends (rest : Bytes) : Prop :=
  ∀ byte ∈ rest.head?, isDigit byte = false ∧ byte ∉ ([0x2e, 0x65, 0x45] : Bytes)

instance : DecidablePred Ends := fun rest =>
  inferInstanceAs (Decidable (∀ byte ∈ rest.head?, isDigit byte = false ∧
    byte ∉ ([0x2e, 0x65, 0x45] : Bytes)))

/-- No digit can follow. -/
def EndsDigits (rest : Bytes) : Prop := ∀ byte ∈ rest.head?, isDigit byte = false

theorem Ends.digits {rest : Bytes} (ends : Ends rest) : EndsDigits rest :=
  fun byte member => (ends byte member).1

theorem isDigit_iff {byte : UInt8} : isDigit byte = true ↔ IsDigit byte := decide_eq_true_iff

theorem scanDigits_append {text rest : Bytes} (isDigits : IsDigits text) (ends : EndsDigits rest) :
    scanDigits (text ++ rest) = some (text, rest) := by
  have all : ∀ byte ∈ text, isDigit byte = true := fun byte member =>
    isDigit_iff.mpr (isDigits.2 byte member)
  have none_ : rest.takeWhile isDigit = [] := by
    cases rest with
    | nil => rfl
    | cons byte rest =>
      rw [List.takeWhile_cons, if_neg (Bool.eq_false_iff.mp (ends byte rfl))]
  have whole : rest.dropWhile isDigit = rest := by
    cases rest with
    | nil => rfl
    | cons byte rest =>
      rw [List.dropWhile_cons, if_neg (Bool.eq_false_iff.mp (ends byte rfl))]
  rw [scanDigits, List.takeWhile_append_of_pos all, List.dropWhile_append_of_pos all, none_, whole,
    List.append_nil, if_neg isDigits.1]

theorem scanInt_append {int rest : Bytes} (isInt : IsInt int) (ends : EndsDigits rest) :
    scanInt (int ++ rest) = some (int, rest) := by
  obtain ⟨isDigits, zero⟩ := isInt
  cases int with
  | nil => exact absurd rfl isDigits.1
  | cons byte int =>
    by_cases isZero : byte = 0x30
    · have single := zero (congrArg some isZero)
      rw [single]
      rfl
    · have general : scanInt (byte :: int ++ rest) = scanDigits (byte :: int ++ rest) := by
        rw [List.cons_append, scanInt]
        intro rest same
        exact isZero (List.cons.inj same).1
      rw [general]
      exact scanDigits_append isDigits ends

/-- A first byte that is not a digit. -/
theorem endsDigits_cons {byte : UInt8} {rest : Bytes} (other : isDigit byte = false) :
    EndsDigits (byte :: rest) := by
  intro head isHead
  cases isHead
  exact other

theorem scanSign_append {sign rest : Bytes} (isSign : IsSign sign) (other : rest.head? ≠ some 0x2d) :
    scanSign (sign ++ rest) = (sign, rest) := by
  rcases isSign with rfl | rfl
  · rw [List.nil_append, scanSign]
    intro more same
    exact other (same ▸ rfl)
  · rfl

theorem scanFraction_append {fraction rest : Bytes} (isFraction : IsFraction fraction)
    (ends : EndsDigits rest) (noPoint : rest.head? ≠ some 0x2e) :
    scanFraction (fraction ++ rest) = some (fraction, rest) := by
  rcases isFraction with rfl | ⟨text, isDigits, rfl⟩
  · rw [List.nil_append, scanFraction]
    intro more same
    exact noPoint (same ▸ rfl)
  · rw [List.cons_append, scanFraction, scanDigits_append isDigits ends]
    rfl

theorem head_digits {text rest : Bytes} (isDigits : IsDigits text) :
    ∃ byte, (text ++ rest).head? = some byte ∧ isDigit byte = true := by
  cases text with
  | nil => exact absurd rfl isDigits.1
  | cons byte text => exact ⟨byte, rfl, isDigit_iff.mpr (isDigits.2 byte (.head _))⟩

theorem head_ne_of_digits {text rest : Bytes} (isDigits : IsDigits text) {byte : UInt8}
    (other : isDigit byte = false) : (text ++ rest).head? ≠ some byte := by
  intro same
  obtain ⟨digit, isHead, isDigit⟩ := head_digits isDigits
  obtain rfl := Option.some.inj (isHead.symm.trans same)
  exact absurd (isDigit.symm.trans other) Bool.noConfusion

theorem scanExponent_append {exponent rest : Bytes} (isExponent : IsExponent exponent) (ends : Ends rest) :
    scanExponent (exponent ++ rest) = some (exponent, rest) := by
  rcases isExponent with rfl | ⟨letter, sign, text, isLetter, isSign, isDigits, rfl⟩
  · rw [List.nil_append]
    cases rest with
    | nil => rfl
    | cons byte rest =>
      have other := (ends byte rfl).2
      rw [scanExponent, if_neg]
      rintro (rfl | rfl)
      · exact other (by decide)
      · exact other (by decide)
  · have letters : letter = 0x65 ∨ letter = 0x45 := by simpa using isLetter
    have signs : scanExponentSign (sign ++ (text ++ rest)) = (sign, text ++ rest) := by
      have cases : sign = [] ∨ sign = [0x2b] ∨ sign = [0x2d] := by simpa using isSign
      rcases cases with rfl | rfl | rfl
      · have general : scanExponentSign ([] ++ (text ++ rest)) = scanSign ([] ++ (text ++ rest)) := by
          rw [List.nil_append, scanExponentSign]
          intro more same
          have plus : (text ++ rest).head? = some 0x2b := congrArg List.head? same
          exact head_ne_of_digits isDigits (by decide) plus
        rw [general]
        exact scanSign_append (.inl rfl) (head_ne_of_digits isDigits (by decide))
      · rfl
      · rfl
    rw [List.cons_append, List.append_assoc, scanExponent, if_pos letters, signs]
    dsimp only
    rw [scanDigits_append isDigits ends.digits]
    rfl

/-- Behind digits comes a point, a letter, or the end. -/
theorem exponent_ends {exponent rest : Bytes} (isExponent : IsExponent exponent) (ends : Ends rest) :
    EndsDigits (exponent ++ rest) ∧ (exponent ++ rest).head? ≠ some 0x2e := by
  rcases isExponent with rfl | ⟨letter, sign, text, isLetter, -, -, rfl⟩
  · refine ⟨ends.digits, fun isPoint => (ends 0x2e isPoint).2 (.head _)⟩
  · have letters : letter = 0x65 ∨ letter = 0x45 := by simpa using isLetter
    rcases letters with rfl | rfl
    · exact ⟨endsDigits_cons (by decide), by simp⟩
    · exact ⟨endsDigits_cons (by decide), by simp⟩

theorem fraction_ends {fraction rest : Bytes} (isFraction : IsFraction fraction)
    (ends : EndsDigits rest) : EndsDigits (fraction ++ rest) := by
  rcases isFraction with rfl | ⟨text, -, rfl⟩
  · exact ends
  · exact endsDigits_cons (by decide)

theorem splitNumber_append {sign int fraction exponent rest : Bytes} (isSign : IsSign sign)
    (isInt : IsInt int) (isFraction : IsFraction fraction) (isExponent : IsExponent exponent)
    (ends : Ends rest) :
    splitNumber (sign ++ (int ++ (fraction ++ exponent)) ++ rest) =
      some (⟨sign, int, fraction, exponent⟩, rest) := by
  obtain ⟨exponentEnds, noPoint⟩ := exponent_ends isExponent ends
  have notMinus : (int ++ (fraction ++ (exponent ++ rest))).head? ≠ some 0x2d :=
    head_ne_of_digits isInt.1 (by decide)
  rw [splitNumber, List.append_assoc, List.append_assoc, List.append_assoc,
    scanSign_append isSign notMinus]
  dsimp only [bind, Option.bind_some]
  rw [scanInt_append isInt (fraction_ends isFraction exponentEnds)]
  dsimp only [Option.bind_some]
  rw [scanFraction_append isFraction exponentEnds noPoint]
  dsimp only [Option.bind_some]
  rw [scanExponent_append isExponent ends]
  rfl

/-! ## What is written is read -/

theorem readDigits_digits (value : Nat) : readDigits (digits value) = value := by
  have fold : ∀ (text : List Char) (start : Nat), (∀ c ∈ text, c.isDigit = true) →
      (text.map fun c => UInt8.ofNat c.toNat).foldl (fun value byte => 10 * value + (byte.toNat - 0x30)) start =
        Nat.ofDigitChars 10 text start := by
    intro text
    induction text with
    | nil => exact fun _ _ => rfl
    | cons c text ih =>
      intro start all
      have bounds := digit_bounds (all c (.head _))
      have byte : (UInt8.ofNat c.toNat).toNat = c.toNat := by
        rw [UInt8.toNat_ofNat']
        omega
      rw [List.map_cons, List.foldl_cons, Nat.ofDigitChars_cons, ih _ fun d member => all d (.tail _ member),
        byte]
      rfl
  rw [readDigits, digits, fold _ _ fun c member => Nat.isDigit_of_mem_toDigits (by decide) (by decide) member,
    Nat.ofDigitChars_ten_toDigits]

theorem isDigits_digits (value : Nat) : IsDigits (digits value) := by
  constructor
  · rw [digits, Ne, List.map_eq_nil_iff]
    exact Nat.toDigits_ne_nil
  · intro byte member
    obtain ⟨c, isDigit, rfl⟩ := List.mem_map.mp member
    have bounds := digit_bounds (Nat.isDigit_of_mem_toDigits (by decide) (by decide) isDigit)
    have toNat : (UInt8.ofNat c.toNat).toNat = c.toNat := by
      rw [UInt8.toNat_ofNat']
      omega
    rw [IsDigit, UInt8.le_iff_toNat_le, UInt8.le_iff_toNat_le, toNat]
    exact bounds

/-- Only zero begins with a zero. -/
theorem isInt_digits (value : Nat) : IsInt (digits value) := by
  refine ⟨isDigits_digits value, fun zero => ?_⟩
  have isDigit : ∀ c ∈ Nat.toDigits 10 value, c.isDigit = true := fun c member =>
    Nat.isDigit_of_mem_toDigits (by decide) (by decide) member
  cases text : Nat.toDigits 10 value with
  | nil => exact absurd text Nat.toDigits_ne_nil
  | cons c rest =>
    rw [text] at isDigit
    rw [digits, text, List.map_cons] at zero ⊢
    have first : UInt8.ofNat c.toNat = 0x30 := Option.some.inj zero
    cases rest with
    | nil =>
      rw [first]
      rfl
    | cons d rest =>
      exfalso
      have bounds := digit_bounds (isDigit c (.head _))
      have isZero : c.toNat - 48 = 0 := by
        have code := congrArg UInt8.toNat first
        rw [UInt8.toNat_ofNat'] at code
        have thirty : (0x30 : UInt8).toNat = 48 := rfl
        omega
      -- With a zero in front, fewer digits would do.
      have below : value < 10 ^ (d :: rest).length := by
        have number := ofDigitChars_cons_eq c (d :: rest)
        rw [← text, Nat.ofDigitChars_ten_toDigits, isZero, Nat.mul_zero, Nat.zero_add] at number
        rw [number]
        exact ofDigitChars_lt fun e member => isDigit e (.tail _ member)
      have short := (Nat.length_toDigits_le_iff (by decide) (Nat.succ_pos rest.length)).mpr below
      rw [text, List.length_cons, List.length_cons] at short
      omega

theorem scanNumber_unsigned {lib : FloatText} (value : UInt64) {rest : Bytes} (ends : Ends rest) :
    scanNumber lib (digits value.toNat ++ rest) = some (.unsigned value, rest) := by
  have split := splitNumber_append (.inl rfl) (isInt_digits value.toNat) (.inl rfl) (.inl rfl) ends
  rw [List.nil_append, List.append_nil, List.append_nil] at split
  rw [scanNumber, split]
  dsimp only [bind, Option.bind_some]
  rw [Number.value]
  dsimp only
  rw [readDigits_digits, if_pos ⟨decide_eq_true ⟨rfl, rfl⟩, rfl, value.toNat_lt⟩, UInt64.ofNat_toNat]
  rfl

theorem scanNumber_integer {lib : FloatText} {value : Int64} (negative : value.toInt < 0) {rest : Bytes}
    (ends : Ends rest) :
    scanNumber lib (dumpInteger value.toInt ++ rest) = some (.integer value, rest) := by
  have split := splitNumber_append (.inr rfl) (isInt_digits value.toInt.natAbs) (.inl rfl) (.inl rfl) ends
  rw [List.append_nil, List.append_nil] at split
  have low : -2 ^ 63 ≤ value.toInt := Int64.minValue_le_toInt value
  have magnitude : (value.toInt.natAbs : Int) = -value.toInt := by omega
  rw [scanNumber, dumpInteger, if_pos negative, ← List.singleton_append, split]
  dsimp only [bind, Option.bind_some]
  rw [Number.value]
  dsimp only
  rw [readDigits_digits, if_neg (fun all => List.cons_ne_nil _ _ all.2.1),
    if_pos ⟨decide_eq_true ⟨rfl, rfl⟩, List.cons_ne_nil _ _, by omega⟩, magnitude, neg_neg, Int64.ofInt_toInt]
  rfl

theorem scanNumber_float {lib : FloatText} {bits : UInt64} (finite : isFinite bits = true) {rest : Bytes}
    (ends : Ends rest) : scanNumber lib (lib.toChars bits ++ rest) = some (.float bits, rest) := by
  obtain ⟨sign, int, fraction, exponent, isSign, isInt, isFraction, isExponent, notWhole, same⟩ :=
    lib.toChars_number finite
  have back := lib.strtod_toChars finite
  have split := splitNumber_append isSign isInt isFraction isExponent ends
  rw [← same] at split
  rw [scanNumber, split]
  dsimp only [bind, Option.bind_some]
  rw [Number.value]
  dsimp only
  rw [← same, back, if_neg (fun all => notWhole (of_decide_eq_true all.1)),
    if_neg (fun all => notWhole (of_decide_eq_true all.1)), if_pos finite]
  rfl

end PacificDb.JsonText
