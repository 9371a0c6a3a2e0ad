import Mathlib.Data.Nat.Bitwise
import PacificDb.Sst.Value

/-!
# Decoding one field

`decodeMsgpackField` decodes scalars itself, with its own sign extension, and leaves
the rest to the library. On every span of bytes it does what the library does
(`decodeMsgpackField_eq`): each of its branches takes a tag that the library takes in
the same way, and it decodes nothing that leaves bytes behind.
-/

namespace PacificDb.Sst.Value

open Lib
open Lsm hiding MsgpackRowView

variable {lib : JsonLibrary}

/-- `bits` as a signed number of so many bytes: the upper bits are filled up below eight. -/
def extendSign (width : Nat) (bits : UInt64) : Int64 :=
  let filled :=
    if width < 8 ∧ bits &&& ((1 : UInt64) <<< UInt64.ofNat (width * 8 - 1)) ≠ 0 then
      bits ||| ((0xffffffffffffffff : UInt64) <<< UInt64.ofNat (width * 8))
    else bits
  filled.toInt64

/-- The scalars `decodeMsgpackField` decodes itself; none is left to the library. -/
def decodeScalar (lib : JsonLibrary) : Bytes → Option Value
  | [] => none
  | tag :: rest =>
      if rest.isEmpty && tag ≤ 0x7f then some (.unsigned tag.toUInt64)
      else if rest.isEmpty && tag ≥ 0xe0 then some (.integer (Int64.ofInt (tag.toNat - 256)))
      else if rest.isEmpty && tag == 0xc0 then some .null
      else if rest.isEmpty && (tag == 0xc2 || tag == 0xc3) then some (.boolean (tag == 0xc3))
      else if 0xcc ≤ tag && tag ≤ 0xcf then
        (wholeWord? (2 ^ (tag.toNat - 0xcc)) rest).map fun bits => .unsigned (UInt64.ofNat bits)
      else if 0xd0 ≤ tag && tag ≤ 0xd3 then
        let width := 2 ^ (tag.toNat - 0xd0)
        (wholeWord? width rest).map fun bits => .integer (extendSign width (UInt64.ofNat bits))
      else if tag == 0xca then
        (wholeWord? 4 rest).map fun bits => .float (UInt64.ofNat (lib.widen bits))
      else if tag == 0xcb then (wholeWord? 8 rest).map fun bits => .float (UInt64.ofNat bits)
      else if tag &&& 0xe0 == 0xa0 || tag == 0xd9 || tag == 0xda || tag == 0xdb then
        match readMsgpackString (tag :: rest) with
        | some (text, []) => some (.string text)
        | _ => none
      else none

/-- `decodeMsgpackField`; none is an exception. -/
def decodeMsgpackField (lib : JsonLibrary) (bytes : Bytes) : Option Value :=
  match decodeScalar lib bytes with
  | some value => some value
  | none => fromMsgpack lib bytes

/-! ## Sign extension -/

/-- Filling up the bits above a number. -/
theorem or_filled {size bits : Nat} (low : bits < 2 ^ size) (wide : size ≤ 64) :
    bits ||| (2 ^ 64 - 2 ^ size) = bits + (2 ^ 64 - 2 ^ size) := by
  have split : 2 ^ 64 - 2 ^ size = 2 ^ size * (2 ^ (64 - size) - 1) := by
    rw [Nat.mul_sub, ← pow_add, Nat.mul_one]
    congr 2
    omega
  rw [split, Nat.or_comm, Nat.add_comm]
  exact (Nat.two_pow_add_eq_or_of_lt low _).symm

/-- The sign bit of a number of `size + 1` bits. -/
theorem and_signBit {size bits : Nat} (low : bits < 2 ^ (size + 1)) :
    bits &&& 2 ^ size ≠ 0 ↔ 2 ^ size ≤ bits := by
  rw [Nat.and_two_pow, Nat.testBit_eq_decide_div_mod_eq]
  have positive : 0 < 2 ^ size := Nat.two_pow_pos size
  have double : 2 ^ (size + 1) = 2 * 2 ^ size := pow_succ' 2 size
  constructor
  · intro set
    by_contra below
    rw [Nat.div_eq_of_lt (not_le.mp below)] at set
    exact set (by simp)
  · intro above
    have one : bits / 2 ^ size = 1 := by
      apply Nat.div_eq_of_lt_le
      · omega
      · omega
    rw [one]
    simp

theorem toInt64_eq_ofInt {bits : UInt64} {value : Int} (same : (bits.toNat : Int).bmod (2 ^ 64) =
    value.bmod (2 ^ 64)) : bits.toInt64 = Int64.ofInt value := by
  apply Int64.toInt_inj.mp
  rw [Int64.toInt_ofInt]
  exact (BitVec.toInt_eq_toNat_bmod bits.toBitVec).trans same

/-- Below eight bytes: `mask` is the sign bit and `fill` what stands above the number. -/
theorem filled_eq {size bits : Nat} {mask fill : UInt64} (low : bits < 2 ^ (size + 1))
    (short : size + 1 < 64) (isMask : mask.toNat = 2 ^ size)
    (isFill : fill.toNat = 2 ^ 64 - 2 ^ (size + 1)) :
    (if UInt64.ofNat bits &&& mask ≠ 0 then UInt64.ofNat bits ||| fill else UInt64.ofNat bits).toInt64 =
      Int64.ofInt (Int.bmod bits (2 ^ (size + 1))) := by
  have small : 2 ^ (size + 1) < 2 ^ 64 := Nat.pow_lt_pow_right (by decide) short
  have same : (UInt64.ofNat bits).toNat = bits := UInt64.toNat_ofNat_of_lt' (low.trans small)
  have double : 2 ^ (size + 1) = 2 * 2 ^ size := pow_succ' 2 size
  have signBit : UInt64.ofNat bits &&& mask ≠ 0 ↔ 2 ^ size ≤ bits := by
    rw [← and_signBit low, Ne, ← UInt64.toNat_inj, UInt64.toNat_and, same, isMask]
    rfl
  apply toInt64_eq_ofInt
  by_cases negative : 2 ^ size ≤ bits
  · have below : Int.bmod bits (2 ^ (size + 1)) = (bits : Int) - (2 ^ (size + 1) : Nat) := by
      rw [← Int.sub_bmod_right]
      apply Int.bmod_eq_of_le_mul_two <;> omega
    rw [if_pos (signBit.mpr negative), UInt64.toNat_or, same, isFill, or_filled low short.le, below]
    have shifted : ((bits + (2 ^ 64 - 2 ^ (size + 1)) : Nat) : Int) =
        (bits : Int) - (2 ^ (size + 1) : Nat) + (2 ^ 64 : Nat) := by omega
    rw [shifted, Int.add_bmod_right]
  · have above : Int.bmod bits (2 ^ (size + 1)) = bits := by
      apply Int.bmod_eq_of_le_mul_two <;> omega
    rw [if_neg (mt signBit.mp negative), same, above]

/-- The own sign extension is the one of the library, for each of the four widths. -/
theorem extendSign_eq {width bits : Nat} (widths : width = 1 ∨ width = 2 ∨ width = 4 ∨ width = 8)
    (low : bits < 256 ^ width) : extendSign width (UInt64.ofNat bits) = signedWord width bits := by
  unfold extendSign signedWord signed
  dsimp only
  rcases widths with rfl | rfl | rfl | rfl
  · simp only [Nat.reduceLT, true_and]
    exact @filled_eq 7 bits _ _ low (by decide) rfl rfl
  · simp only [Nat.reduceLT, true_and]
    exact @filled_eq 15 bits _ _ low (by decide) rfl rfl
  · simp only [Nat.reduceLT, true_and]
    exact @filled_eq 31 bits _ _ low (by decide) rfl rfl
  · simp only [lt_irrefl, false_and, if_false]
    apply toInt64_eq_ofInt
    rw [UInt64.toNat_ofNat_of_lt' low, Int.bmod_bmod]

/-! ## The same values -/

theorem wholeWord?_eq_some {width bits : Nat} {bytes : Bytes} :
    wholeWord? width bytes = some bits ↔ readBigWord width bytes = some (bits, []) := by
  rw [wholeWord?]
  cases readBigWord width bytes with
  | none => simp
  | some read =>
    obtain ⟨value, rest⟩ := read
    cases rest with
    | nil => simp
    | cons next rest => simp

/-- The engine and the library read strings alike. -/
theorem getMsgpackString_eq (bytes : Bytes) : getMsgpackString bytes = readMsgpackString bytes := by
  cases bytes with
  | nil => rfl
  | cons tag rest =>
    have tags : ∀ tag < 256, (0xa0 ≤ UInt8.ofNat tag ∧ UInt8.ofNat tag ≤ 0xbf) ↔
        (UInt8.ofNat tag &&& 0xe0 == 0xa0) = true := by decide +kernel
    have short := tags tag.toNat tag.toNat_lt
    rw [UInt8.ofNat_toNat] at short
    unfold getMsgpackString readMsgpackString
    dsimp only
    by_cases fix : (tag &&& 0xe0 == 0xa0) = true
    · rw [if_pos fix, if_pos (short.mpr fix)]
    · rw [if_neg fix, if_neg (mt short.mp fix)]
      simp only [beq_iff_eq]
      split
      next => rfl
      next => rfl
      next => rfl
      next byte word double =>
        rw [if_neg fun same => byte same, if_neg fun same => word same, if_neg fun same => double same]

section Decode

variable {tag : UInt8} {rest : Bytes} {value : Value}

/-- The library behind the first byte, when it leaves nothing. -/
theorem fromMsgpack_of_parse
    (parsed : ∀ levels, parseValue lib (levels + 1) (tag :: rest) = some (value, [])) :
    fromMsgpack lib (tag :: rest) = some value := by
  rw [fromMsgpack, parsed]

/-- What the rules of the tags are that `decodeMsgpackField` takes itself. -/
theorem parseRule_scalar (tag : UInt8) :
    (tag ≤ 0x7f → parseRule tag = .positive) ∧ (tag ≥ 0xe0 → parseRule tag = .negative) ∧
      (0xcc ≤ tag ∧ tag ≤ 0xcf → parseRule tag = .unsigned (2 ^ (tag.toNat - 0xcc))) ∧
      (0xd0 ≤ tag ∧ tag ≤ 0xd3 → parseRule tag = .signed (2 ^ (tag.toNat - 0xd0))) ∧
      (isTextTag tag = true → parseRule tag = .string) := by
  have tags : ∀ tag < 256, (UInt8.ofNat tag ≤ 0x7f → parseRule (UInt8.ofNat tag) = .positive) ∧
      (UInt8.ofNat tag ≥ 0xe0 → parseRule (UInt8.ofNat tag) = .negative) ∧
      (0xcc ≤ UInt8.ofNat tag ∧ UInt8.ofNat tag ≤ 0xcf →
        parseRule (UInt8.ofNat tag) = .unsigned (2 ^ ((UInt8.ofNat tag).toNat - 0xcc))) ∧
      (0xd0 ≤ UInt8.ofNat tag ∧ UInt8.ofNat tag ≤ 0xd3 →
        parseRule (UInt8.ofNat tag) = .signed (2 ^ ((UInt8.ofNat tag).toNat - 0xd0))) ∧
      (isTextTag (UInt8.ofNat tag) = true → parseRule (UInt8.ofNat tag) = .string) := by
    decide +kernel
  have facts := tags tag.toNat tag.toNat_lt
  rwa [UInt8.ofNat_toNat] at facts

theorem signedWord_large (large : tag ≥ 0xe0) :
    Int64.ofInt (tag.toNat - 256) = signedWord 1 tag.toNat := by
  have tags : ∀ tag < 256, UInt8.ofNat tag ≥ 0xe0 →
      signed 1 (UInt8.ofNat tag).toNat = (UInt8.ofNat tag).toNat - 256 := by decide +kernel
  have same := tags tag.toNat tag.toNat_lt
  rw [UInt8.ofNat_toNat] at same
  rw [signedWord, same large]

/-- The widths of the numbers with a tag of their own. -/
theorem width_cases {first number : Nat} (low : first ≤ number) (high : number ≤ first + 3) :
    2 ^ (number - first) = 1 ∨ 2 ^ (number - first) = 2 ∨
      2 ^ (number - first) = 4 ∨ 2 ^ (number - first) = 8 := by
  have four : number - first = 0 ∨ number - first = 1 ∨ number - first = 2 ∨ number - first = 3 := by
    omega
  rcases four with exponent | exponent | exponent | exponent <;> simp [exponent]

/-- What `decodeMsgpackField` decodes itself is what the library decodes. -/
theorem fromMsgpack_of_decodeScalar (decoded : decodeScalar lib (tag :: rest) = some value) :
    fromMsgpack lib (tag :: rest) = some value := by
  obtain ⟨small, large, unsigned, signed, text⟩ := parseRule_scalar tag
  apply fromMsgpack_of_parse
  intro levels
  rw [decodeScalar] at decoded
  split at decoded
  next fix =>
    cases decoded
    simp only [Bool.and_eq_true, List.isEmpty_iff, decide_eq_true_eq] at fix
    rw [parseValue, small fix.2, fix.1]
  split at decoded
  next fix =>
    cases decoded
    simp only [Bool.and_eq_true, List.isEmpty_iff, decide_eq_true_eq] at fix
    rw [parseValue, large fix.2, fix.1, signedWord_large fix.2]
  split at decoded
  next fix =>
    cases decoded
    simp only [Bool.and_eq_true, List.isEmpty_iff, beq_iff_eq] at fix
    rw [fix.1, fix.2]
    rfl
  split at decoded
  next fix =>
    cases decoded
    simp only [Bool.and_eq_true, Bool.or_eq_true, List.isEmpty_iff, beq_iff_eq] at fix
    obtain ⟨rfl, rfl | rfl⟩ := fix <;> rfl
  split at decoded
  next own =>
    simp only [Bool.and_eq_true, decide_eq_true_eq] at own
    obtain ⟨bits, whole, rfl⟩ := Option.map_eq_some_iff.mp decoded
    rw [parseValue, unsigned own]
    dsimp only
    rw [wholeWord?_eq_some.mp whole]
    rfl
  split at decoded
  next own =>
    simp only [Bool.and_eq_true, decide_eq_true_eq] at own
    obtain ⟨bits, whole, rfl⟩ := Option.map_eq_some_iff.mp decoded
    have read := wholeWord?_eq_some.mp whole
    have low : 0xd0 ≤ tag.toNat := UInt8.le_iff_toNat_le.mp own.1
    have high : tag.toNat ≤ 0xd0 + 3 := UInt8.le_iff_toNat_le.mp own.2
    rw [parseValue, signed own]
    dsimp only
    rw [read, extendSign_eq (width_cases low high) (readBigWord_lt read)]
    rfl
  split at decoded
  next own =>
    obtain ⟨bits, whole, rfl⟩ := Option.map_eq_some_iff.mp decoded
    rw [beq_iff_eq.mp own]
    exact congrArg (Option.map _) (wholeWord?_eq_some.mp whole)
  split at decoded
  next own =>
    obtain ⟨bits, whole, rfl⟩ := Option.map_eq_some_iff.mp decoded
    rw [beq_iff_eq.mp own]
    exact congrArg (Option.map _) (wholeWord?_eq_some.mp whole)
  split at decoded
  next isText =>
    rw [parseValue, text isText]
    dsimp only
    rw [getMsgpackString_eq]
    split at decoded
    next read =>
      cases decoded
      rw [read]
      rfl
    · cases decoded
  · cases decoded

/-- Every span of bytes decodes to what the library decodes it to. -/
theorem decodeMsgpackField_eq (bytes : Bytes) : decodeMsgpackField lib bytes = fromMsgpack lib bytes := by
  rw [decodeMsgpackField]
  cases decoded : decodeScalar lib bytes with
  | none => rfl
  | some value =>
    cases bytes with
    | nil => cases decoded
    | cons tag rest => exact (fromMsgpack_of_decodeScalar decoded).symm

end Decode

end PacificDb.Sst.Value
