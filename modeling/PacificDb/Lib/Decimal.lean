import Mathlib.Data.String.Basic
import Mathlib.Order.Nat

/-!
# Decimal numbers in text

Digits of the same number compare like the numbers they stand for. So do numbers
that are filled up with zeros to one width.
-/

namespace PacificDb.Lib

/-- `std::setw(width) << std::setfill('0')`. -/
def padDigits (width number : Nat) : List Char :=
  List.replicate (width - (Nat.toDigits 10 number).length) '0' ++ Nat.toDigits 10 number

theorem isDigit_padDigits {width number : Nat} {c : Char} (member : c ∈ padDigits width number) :
    c.isDigit = true := by
  rcases List.mem_append.mp member with zero | digit
  · rw [List.eq_of_mem_replicate zero]
    rfl
  · exact Nat.isDigit_of_mem_toDigits (by decide) (by decide) digit

theorem ofDigitChars_padDigits (width number : Nat) :
    Nat.ofDigitChars 10 (padDigits width number) 0 = number := by
  rw [padDigits, Nat.ofDigitChars_append, Nat.ofDigitChars_replicate_zero, Nat.mul_zero,
    Nat.ofDigitChars_ten_toDigits]

theorem length_padDigits {width number : Nat} (fits : number < 10 ^ width) (some : 0 < width) :
    (padDigits width number).length = width := by
  have short : (Nat.toDigits 10 number).length ≤ width :=
    (Nat.length_toDigits_le_iff (by decide) some).mpr fits
  rw [padDigits, List.length_append, List.length_replicate]
  omega

theorem digit_bounds {c : Char} (digit : c.isDigit = true) : 48 ≤ c.toNat ∧ c.toNat ≤ 57 := by
  simpa [Char.isDigit, UInt32.le_iff_toNat_le] using digit

theorem ofDigitChars_cons_eq (c : Char) (rest : List Char) :
    Nat.ofDigitChars 10 (c :: rest) 0 =
      10 ^ rest.length * (c.toNat - 48) + Nat.ofDigitChars 10 rest 0 := by
  have zero : 10 * 0 + (c.toNat - '0'.toNat) = c.toNat - 48 := Nat.zero_add _
  rw [Nat.ofDigitChars_cons, Nat.ofDigitChars_eq_ofDigitChars_zero, zero]

theorem ofDigitChars_lt {digits : List Char} (all : ∀ c ∈ digits, c.isDigit = true) :
    Nat.ofDigitChars 10 digits 0 < 10 ^ digits.length := by
  induction digits with
  | nil => simp
  | cons c rest ih =>
    obtain ⟨digit, later⟩ := List.forall_mem_cons.mp all
    have bounds := digit_bounds digit
    have below := ih later
    rw [ofDigitChars_cons_eq, List.length_cons, pow_succ]
    have small : c.toNat - 48 ≤ 9 := by omega
    have scaled := Nat.mul_le_mul_left (10 ^ rest.length) small
    omega

/-- As many digits compare as text like the numbers. -/
theorem digits_lt_iff {digits others : List Char} (size : digits.length = others.length)
    (all : ∀ c ∈ digits, c.isDigit = true) (all' : ∀ c ∈ others, c.isDigit = true) :
    digits < others ↔ Nat.ofDigitChars 10 digits 0 < Nat.ofDigitChars 10 others 0 := by
  induction digits generalizing others with
  | nil =>
    obtain rfl : others = [] := List.length_eq_zero_iff.mp size.symm
    simp
  | cons c rest ih =>
    cases others with
    | nil => cases size
    | cons d rest' =>
      obtain ⟨digit, later⟩ := List.forall_mem_cons.mp all
      obtain ⟨digit', later'⟩ := List.forall_mem_cons.mp all'
      have bounds := digit_bounds digit
      have bounds' := digit_bounds digit'
      have sameSize : rest.length = rest'.length := Nat.succ.inj size
      have below := ofDigitChars_lt later
      have below' := ofDigitChars_lt later'
      rw [List.cons_lt_cons_iff, ih sameSize later later', ofDigitChars_cons_eq,
        ofDigitChars_cons_eq, sameSize]
      rw [sameSize] at below
      generalize Nat.ofDigitChars 10 rest 0 = low at below ⊢
      generalize Nat.ofDigitChars 10 rest' 0 = low' at below' ⊢
      generalize 10 ^ rest'.length = scale at below below' ⊢
      have chars : c < d ↔ c.toNat < d.toNat := Char.lt_def.trans UInt32.lt_iff_toNat_lt
      have equal : c = d ↔ c.toNat = d.toNat := Char.toNat_inj.symm
      rw [chars, equal]
      constructor
      · rintro (less | ⟨same, less⟩)
        · have scaled := Nat.mul_le_mul_left scale
            (show c.toNat - 48 + 1 ≤ d.toNat - 48 by omega)
          rw [Nat.mul_add, Nat.mul_one] at scaled
          omega
        · rw [same]
          omega
      · intro less
        rcases lt_trichotomy c.toNat d.toNat with first | same | above
        · exact .inl first
        · rw [same] at less
          exact .inr ⟨same, by omega⟩
        · have scaled := Nat.mul_le_mul_left scale
            (show d.toNat - 48 + 1 ≤ c.toNat - 48 by omega)
          rw [Nat.mul_add, Nat.mul_one] at scaled
          omega

theorem toDigits_lt_iff {first second : Nat}
    (size : (Nat.toDigits 10 first).length = (Nat.toDigits 10 second).length) :
    Nat.toDigits 10 first < Nat.toDigits 10 second ↔ first < second := by
  have digits : ∀ number, ∀ c ∈ Nat.toDigits 10 number, c.isDigit = true := fun _ _ member =>
    Nat.isDigit_of_mem_toDigits (by decide) (by decide) member
  rw [digits_lt_iff size (digits first) (digits second), Nat.ofDigitChars_ten_toDigits,
    Nat.ofDigitChars_ten_toDigits]

theorem padDigits_lt_iff {width first second : Nat} (some : 0 < width) (fits : first < 10 ^ width)
    (fits' : second < 10 ^ width) :
    padDigits width first < padDigits width second ↔ first < second := by
  have size : (padDigits width first).length = (padDigits width second).length := by
    rw [length_padDigits fits some, length_padDigits fits' some]
  rw [digits_lt_iff size (fun c => isDigit_padDigits) (fun c => isDigit_padDigits),
    ofDigitChars_padDigits, ofDigitChars_padDigits]

theorem append_lt_append {first second tail tail' : List Char} (size : first.length = second.length)
    (less : first < second) : first ++ tail < second ++ tail' := by
  induction first generalizing second with
  | nil =>
    obtain rfl : second = [] := List.length_eq_zero_iff.mp size.symm
    exact absurd less (lt_irrefl _)
  | cons c rest ih =>
    cases second with
    | nil => cases size
    | cons d rest' =>
      rw [List.cons_append, List.cons_append, List.cons_lt_cons_iff]
      rcases List.cons_lt_cons_iff.mp less with below | ⟨same, later⟩
      · exact .inl below
      · exact .inr ⟨same, ih (Nat.succ.inj size) later⟩

end PacificDb.Lib
