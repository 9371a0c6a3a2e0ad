import PacificDb.JsonText.Document

/-!
# Torn JSON texts

The parser takes an object up to its closing brace, whatever follows. So a text of an object that
has lost its end is not parsed at all (`parse_torn`).
-/

namespace PacificDb.JsonText

open Lib JsonGrammar
open Sst (Bytes Value)

variable {lib : FloatText} {rest more : Bytes}

/-- What `read` takes from a text it does not use up, `read'` takes from a longer text. -/
def Extends {α : Type} (read read' : Bytes → Option (α × Bytes)) : Prop :=
  ∀ text item rest more, read text = some (item, rest) → rest ≠ [] →
    read' (text ++ more) = some (item, rest ++ more)

/-- The same where all of the text is taken, if a number can end there. -/
def Continues {α : Type} (read read' : Bytes → Option (α × Bytes)) : Prop :=
  ∀ text item rest more, read text = some (item, rest) → rest ≠ [] ∨ Ends more →
    read' (text ++ more) = some (item, rest ++ more)

theorem Continues.extends {α : Type} {read read' : Bytes → Option (α × Bytes)}
    (continues : Continues read read') : Extends read read' :=
  fun text item rest more taken nonempty => continues text item rest more taken (.inl nonempty)

/-- What `read` takes from a text, `read'` takes from a longer one. -/
def Closes {α : Type} (read read' : Bytes → Option (α × Bytes)) : Prop :=
  ∀ text item rest more, read text = some (item, rest) → read' (text ++ more) = some (item, rest ++ more)

theorem dropWhile_extend {p : UInt8 → Bool} {text : Bytes} {byte : UInt8}
    (left : text.dropWhile p = byte :: rest) : (text ++ more).dropWhile p = byte :: (rest ++ more) ∧
      (text ++ more).takeWhile p = text.takeWhile p := by
  induction text with
  | nil => cases left
  | cons first text ih =>
    rw [List.cons_append]
    by_cases passed : p first
    · rw [List.dropWhile_cons_of_pos passed] at left
      obtain ⟨dropped, taken⟩ := ih left
      rw [List.dropWhile_cons_of_pos passed, List.takeWhile_cons_of_pos passed,
        List.takeWhile_cons_of_pos passed, dropped, taken]
      exact ⟨rfl, rfl⟩
    · rw [List.dropWhile_cons_of_neg passed] at left
      obtain ⟨rfl, rfl⟩ := List.cons.inj left
      rw [List.dropWhile_cons_of_neg passed, List.takeWhile_cons_of_neg passed,
        List.takeWhile_cons_of_neg passed]
      exact ⟨rfl, rfl⟩

theorem skipBlank_extend {text : Bytes} {byte : UInt8} (left : skipBlank text = byte :: rest) :
    skipBlank (text ++ more) = byte :: (rest ++ more) :=
  (dropWhile_extend left).1

theorem ne_nil_of_skipBlank {text : Bytes} {byte : UInt8} (left : skipBlank text = byte :: rest) :
    text ≠ [] := by
  rintro rfl
  cases left

theorem scanString_closes (state : Scan) : Closes (scanString state) (scanString state) := by
  intro text
  induction text generalizing state with
  | nil => exact fun _ _ _ scanned => by cases scanned
  | cons byte text ih =>
    intro item rest more scanned
    rw [scanString] at scanned
    rw [List.cons_append, scanString]
    split at scanned
    · cases scanned
    · cases scanned
      rfl
    next out next _ =>
      obtain ⟨read, later, same⟩ := Option.map_eq_some_iff.mp scanned
      cases same
      rw [ih next read.1 read.2 more later]
      rfl

/-! ## Numbers -/

theorem scanDigits_continues : Continues scanDigits scanDigits := by
  intro text item rest more scanned ends
  rw [scanDigits] at scanned
  split at scanned
  · cases scanned
  next some_ =>
    cases scanned
    cases isRest : text.dropWhile isDigit with
    | cons byte tail =>
      obtain ⟨dropped, taken⟩ := @dropWhile_extend tail more _ text byte isRest
      rw [scanDigits, taken, if_neg some_, dropped]
      rfl
    | nil =>
      -- all digits
      have whole := @List.takeWhile_append_dropWhile _ isDigit text
      rw [isRest, List.append_nil] at whole
      have isDigits : IsDigits text := by
        refine ⟨fun none_ => some_ (by rw [none_]; rfl), fun byte member => isDigit_iff.mp ?_⟩
        rw [← whole] at member
        exact List.all_eq_true.mp List.all_takeWhile byte member
      rw [whole]
      exact scanDigits_append isDigits (ends.resolve_left fun left => left isRest).digits

theorem scanSign_extend {text : Bytes} (nonempty : (scanSign text).2 ≠ []) :
    scanSign (text ++ more) = ((scanSign text).1, (scanSign text).2 ++ more) := by
  cases text with
  | nil => exact absurd rfl nonempty
  | cons byte text =>
    by_cases minus : byte = 0x2d
    · rw [minus]
      rfl
    · have plain : ∀ rest, scanSign (byte :: rest) = ([], byte :: rest) := by
        intro rest
        rw [scanSign]
        exact fun more same => minus (List.cons.inj same).1
      rw [List.cons_append, plain, plain]
      rfl

theorem scanInt_continues : Continues scanInt scanInt := by
  intro text item rest more scanned ends
  cases text with
  | nil => cases scanned
  | cons byte text =>
    by_cases zero : byte = 0x30
    · rw [zero] at scanned ⊢
      cases scanned
      rfl
    · have plain : ∀ rest, scanInt (byte :: rest) = scanDigits (byte :: rest) := by
        intro rest
        rw [scanInt]
        exact fun more same => zero (List.cons.inj same).1
      rw [plain] at scanned
      rw [List.cons_append, plain]
      exact scanDigits_continues _ _ _ _ scanned ends

theorem scanFraction_continues : Continues scanFraction scanFraction := by
  intro text item rest more scanned ends
  cases text with
  | nil =>
    cases scanned
    have noPoint := ends.resolve_left fun left => left rfl
    exact scanFraction_append (.inl rfl) noPoint.digits fun isPoint => (noPoint 0x2e isPoint).2 (.head _)
  | cons byte text =>
    by_cases point : byte = 0x2e
    · rw [point, scanFraction] at scanned
      obtain ⟨read, isRead, same⟩ := Option.map_eq_some_iff.mp scanned
      cases same
      rw [point, List.cons_append, scanFraction, scanDigits_continues _ _ _ more isRead ends]
      rfl
    · have plain : ∀ rest, scanFraction (byte :: rest) = some ([], byte :: rest) := by
        intro rest
        rw [scanFraction]
        exact fun more same => point (List.cons.inj same).1
      rw [plain] at scanned
      cases scanned
      rw [List.cons_append, plain]

theorem scanExponentSign_extend {text : Bytes} (nonempty : (scanExponentSign text).2 ≠ []) :
    scanExponentSign (text ++ more) =
      ((scanExponentSign text).1, (scanExponentSign text).2 ++ more) := by
  cases text with
  | nil => exact absurd rfl nonempty
  | cons byte text =>
    by_cases plus : byte = 0x2b
    · rw [plus]
      rfl
    · have plain : ∀ rest, scanExponentSign (byte :: rest) = scanSign (byte :: rest) := by
        intro rest
        rw [scanExponentSign]
        exact fun more same => plus (List.cons.inj same).1
      rw [plain] at nonempty
      rw [List.cons_append, plain, plain, ← List.cons_append]
      exact scanSign_extend nonempty

theorem scanExponent_continues : Continues scanExponent scanExponent := by
  intro text item rest more scanned ends
  cases text with
  | nil =>
    cases scanned
    exact scanExponent_append (.inl rfl) (ends.resolve_left fun left => left rfl)
  | cons letter text =>
    rw [scanExponent] at scanned
    rw [List.cons_append, scanExponent]
    split at scanned
    next isLetter =>
      obtain ⟨read, isRead, same⟩ := Option.map_eq_some_iff.mp scanned
      cases same
      have some_ : (scanExponentSign text).2 ≠ [] := by
        intro none_
        rw [none_] at isRead
        cases isRead
      rw [if_pos isLetter, scanExponentSign_extend some_, scanDigits_continues _ _ _ more isRead ends]
      rfl
    next notLetter =>
      cases scanned
      rw [if_neg notLetter]
      rfl

theorem scanNumber_continues : Continues (scanNumber lib) (scanNumber lib) := by
  intro text item rest more scanned ends
  rw [scanNumber] at scanned
  obtain ⟨⟨number, left⟩, isNumber, scanned⟩ := Option.bind_eq_some_iff.mp scanned
  obtain ⟨value, isValue, same⟩ := Option.bind_eq_some_iff.mp scanned
  cases same
  rw [splitNumber] at isNumber
  obtain ⟨⟨int, behindInt⟩, isInt, isNumber⟩ := Option.bind_eq_some_iff.mp isNumber
  obtain ⟨⟨fraction, behindFraction⟩, isFraction, isNumber⟩ := Option.bind_eq_some_iff.mp isNumber
  obtain ⟨⟨exponent, behind⟩, isExponent, isNumber⟩ := Option.bind_eq_some_iff.mp isNumber
  cases isNumber
  -- A part that leaves nothing is followed by parts that leave nothing.
  have fractionEnds : behindFraction ≠ [] ∨ Ends more := by
    refine or_iff_not_imp_left.mpr fun none_ => ends.resolve_left fun left => left ?_
    rw [not_not.mp none_] at isExponent
    cases isExponent
    rfl
  have intEnds : behindInt ≠ [] ∨ Ends more := by
    refine or_iff_not_imp_left.mpr fun none_ => fractionEnds.resolve_left fun left => left ?_
    rw [not_not.mp none_] at isFraction
    cases isFraction
    rfl
  have signLeft : (scanSign text).2 ≠ [] := by
    intro none_
    rw [none_] at isInt
    cases isInt
  rw [scanNumber, splitNumber, scanSign_extend signLeft]
  dsimp only [bind]
  rw [scanInt_continues _ _ _ more isInt intEnds]
  dsimp only [Option.bind_some]
  rw [scanFraction_continues _ _ _ more isFraction fractionEnds]
  dsimp only [Option.bind_some]
  rw [scanExponent_continues _ _ _ more isExponent ends]
  dsimp only [Option.bind_some, pure]
  rw [isValue]
  rfl

/-! ## Brackets -/

section Brackets

variable {α : Type} {read read' : Bytes → Option (α × Bytes)}

/-- The text behind an item is not empty, since a comma or the bracket is found there. -/
theorem separated_closes (extend : Extends read read') {closing : UInt8} :
    ∀ count count', count ≤ count' →
      Closes (separated read closing count) (separated read' closing count') := by
  intro count
  induction count with
  | zero => exact fun _ _ _ _ _ _ scanned => by cases scanned
  | succ count ih =>
    intro count' enough text items rest more scanned
    obtain ⟨count', rfl⟩ : ∃ less, count' = less + 1 := ⟨count' - 1, by omega⟩
    rw [separated] at scanned
    split at scanned
    next item behind isItem =>
      split at scanned
      next byte tail left =>
        have longer := extend text item behind more isItem (ne_nil_of_skipBlank left)
        rw [separated, longer]
        dsimp only
        rw [skipBlank_extend left]
        dsimp only
        split at scanned
        next comma =>
          obtain ⟨others, isOthers, same⟩ := Option.map_eq_some_iff.mp scanned
          cases same
          rw [if_pos comma, ih count' (Nat.le_of_succ_le_succ enough) _ _ _ more isOthers]
          rfl
        next notComma =>
          split at scanned
          next isClosing =>
            cases scanned
            rw [if_neg notComma, if_pos isClosing]
          · cases scanned
      · cases scanned
    · cases scanned

theorem bracketed_closes (extend : Extends read read') {closing : UInt8} :
    Closes (bracketed read closing) (bracketed read' closing) := by
  intro text items rest more scanned
  rw [bracketed] at scanned
  split at scanned
  next byte tail left =>
    rw [bracketed, skipBlank_extend left]
    dsimp only
    split at scanned
    next isClosing =>
      cases scanned
      rw [if_pos isClosing]
    next notClosing =>
      rw [if_neg notClosing, ← List.cons_append]
      exact separated_closes extend _ _ (by simp) _ _ _ more scanned
  · cases scanned

end Brackets

theorem parseMember_extend {read read' : Bytes → Option (Value × Bytes)} (extend : Extends read read') :
    Extends (parseMember read) (parseMember read') := by
  intro text item rest more scanned nonempty
  rw [parseMember] at scanned
  split at scanned
  next byte tail left =>
    split at scanned
    next quote =>
      split at scanned
      next name behind isName =>
        split at scanned
        next colon tail' left' =>
          split at scanned
          next isColon =>
            obtain ⟨value, isValue, same⟩ := Option.map_eq_some_iff.mp scanned
            cases same
            rw [parseMember, skipBlank_extend left]
            dsimp only
            rw [if_pos quote, scanString_closes _ _ _ _ more isName]
            dsimp only
            rw [skipBlank_extend left']
            dsimp only
            rw [if_pos isColon, extend _ _ _ more isValue nonempty]
            rfl
          · cases scanned
        · cases scanned
      · cases scanned
    · cases scanned
  · cases scanned

theorem scanLiteral_extend {letters text : Bytes} (scanned : scanLiteral letters text = some rest) :
    scanLiteral letters (text ++ more) = some (rest ++ more) := by
  rw [scanLiteral] at scanned
  split at scanned
  next isPrefix =>
    cases scanned
    obtain ⟨tail, rfl⟩ := isPrefix
    rw [List.append_assoc, scanLiteral_append, List.drop_left]
  · cases scanned

/-- With more levels and a longer text the parser takes the same value. -/
theorem parseValue_continues : ∀ levels levels', levels ≤ levels' →
    Continues (parseValue lib levels) (parseValue lib levels') := by
  intro levels
  induction levels with
  | zero => exact fun _ _ _ _ _ _ scanned => by cases scanned
  | succ levels ih =>
    intro levels' enough text item rest more scanned ends
    obtain ⟨levels', rfl⟩ : ∃ less, levels' = less + 1 := ⟨levels' - 1, by omega⟩
    have deeper := (ih levels' (Nat.le_of_succ_le_succ enough)).extends
    rw [parseValue] at scanned
    split at scanned
    · cases scanned
    next byte tail left =>
      rw [parseValue, skipBlank_extend left]
      dsimp only
      split at scanned
      next object =>
        obtain ⟨read, isRead, same⟩ := Option.map_eq_some_iff.mp scanned
        cases same
        rw [if_pos object, bracketed_closes (parseMember_extend deeper) _ _ _ more isRead]
        rfl
      next notObject =>
      rw [if_neg notObject]
      split at scanned
      next array =>
        obtain ⟨read, isRead, same⟩ := Option.map_eq_some_iff.mp scanned
        cases same
        rw [if_pos array, bracketed_closes deeper _ _ _ more isRead]
        rfl
      next notArray =>
      rw [if_neg notArray]
      split at scanned
      next string =>
        obtain ⟨read, isRead, same⟩ := Option.map_eq_some_iff.mp scanned
        cases same
        rw [if_pos string, scanString_closes _ _ _ _ more isRead]
        rfl
      next notString =>
      rw [if_neg notString]
      split at scanned
      next isTrue =>
        obtain ⟨behind, isRead, same⟩ := Option.map_eq_some_iff.mp scanned
        cases same
        rw [if_pos isTrue, scanLiteral_extend isRead]
        rfl
      next notTrue =>
      rw [if_neg notTrue]
      split at scanned
      next isFalse =>
        obtain ⟨behind, isRead, same⟩ := Option.map_eq_some_iff.mp scanned
        cases same
        rw [if_pos isFalse, scanLiteral_extend isRead]
        rfl
      next notFalse =>
      rw [if_neg notFalse]
      split at scanned
      next isNull =>
        obtain ⟨behind, isRead, same⟩ := Option.map_eq_some_iff.mp scanned
        cases same
        rw [if_pos isNull, scanLiteral_extend isRead]
        rfl
      next notNull =>
        rw [if_neg notNull, ← List.cons_append]
        exact scanNumber_continues _ _ _ more scanned ends

/-! ## Torn texts -/

theorem parseValue_object {levels : Nat} (text : Bytes) : parseValue lib (levels + 1) (0x7b :: text) =
    (bracketed (parseMember (parseValue lib levels)) 0x7d text).map fun read =>
      (Sst.Value.ofMembers read.1, read.2) := by
  rw [parseValue, skipBlank_cons (by decide)]
  rfl

/-- A text of an object that has lost its end does not parse. -/
theorem parse_torn {style : Style} {members : List (Bytes × Value)} {text : Bytes}
    (written : dump lib style 0 (.object members) = some text) {written' : Nat}
    (torn : written' < text.length) : parse lib (text.take written') = none := by
  obtain ⟨-, reads⟩ := reads_dump (.object members) 0 text _ written (Nat.lt_succ_self _)
  have whole := reads [] [] blank_nil fun _ isHead => by cases isHead
  rw [List.nil_append, List.append_nil] at whole
  rw [dump, Option.map_eq_some_iff] at written
  obtain ⟨texts, -, rfl⟩ := written
  obtain ⟨inner, isObject⟩ : ∃ inner, style.enclosed 0 0x7b 0x7d texts = 0x7b :: inner := by
    rw [Style.enclosed, enclosed]
    split
    · exact ⟨_, rfl⟩
    · exact ⟨_, rfl⟩
  rw [isObject] at whole torn ⊢
  cases written' with
  | zero => rfl
  | succ written' =>
    rw [List.take_succ_cons, parse]
    have noBom : skipBom (0x7b :: inner.take written') = some (0x7b :: inner.take written') := rfl
    rw [noBom]
    dsimp only [Option.bind_some]
    cases read : parseValue lib ((0x7b :: inner.take written').length + 1) (0x7b :: inner.take written') with
    | none => rfl
    | some result =>
      exfalso
      rw [parseValue_object] at read
      obtain ⟨found, isFound, -⟩ := Option.map_eq_some_iff.mp read
      have levels : (0x7b :: inner.take written').length ≤ (0x7b :: inner).length := by simp
      have longer := bracketed_closes (parseMember_extend (parseValue_continues _ _ levels).extends) _ _ _
        (inner.drop written') isFound
      rw [List.take_append_drop] at longer
      rw [parseValue_object, longer] at whole
      have nothing := congrArg Prod.snd (Option.some.inj whole)
      have left := congrArg List.length nothing
      rw [List.length_append, List.length_drop, List.length_nil] at left
      rw [List.length_cons] at torn
      omega

end PacificDb.JsonText
