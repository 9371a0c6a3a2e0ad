import Mathlib.Algebra.Order.Ring.Int
import Mathlib.Algebra.Order.Ring.Nat
import Mathlib.Data.List.Basic
import Mathlib.Data.List.Lex
import Mathlib.Order.Lattice

/-!
# Fixed-width numbers and torn concatenations

Little-endian numbers of a fixed width, and the shape of a prefix of a
concatenation: some whole blocks, and then a proper prefix of the next block.
-/

namespace PacificDb.Lib

/-- The `width` low bytes of a number, least significant first. -/
def leBytes : Nat → Nat → List UInt8
  | 0, _ => []
  | width + 1, value => UInt8.ofNat value :: leBytes width (value / 256)

/-- The number that bytes stand for, least significant first. -/
def readLe : List UInt8 → Nat
  | [] => 0
  | byte :: rest => byte.toNat + 256 * readLe rest

@[simp] theorem length_leBytes (width value : Nat) : (leBytes width value).length = width := by
  induction width generalizing value with
  | zero => rfl
  | succ width ih => rw [leBytes, List.length_cons, ih]

/-- Reading back keeps what the width can hold. -/
theorem readLe_leBytes (width value : Nat) : readLe (leBytes width value) = value % 256 ^ width := by
  induction width generalizing value with
  | zero => rw [leBytes, readLe, pow_zero, Nat.mod_one]
  | succ width ih =>
    rw [leBytes, readLe, ih, pow_succ, mul_comm (256 ^ width) 256, Nat.mod_mul]
    rfl

theorem readLe_leBytes_of_lt {width value : Nat} (fits : value < 256 ^ width) :
    readLe (leBytes width value) = value := by
  rw [readLe_leBytes, Nat.mod_eq_of_lt fits]

theorem readLe_lt (bytes : List UInt8) : readLe bytes < 256 ^ bytes.length := by
  induction bytes with
  | nil => exact Nat.one_pos
  | cons byte rest ih =>
    have low := byte.toNat_lt
    rw [readLe, List.length_cons, pow_succ]
    omega

theorem leBytes_readLe (bytes : List UInt8) : leBytes bytes.length (readLe bytes) = bytes := by
  induction bytes with
  | nil => rfl
  | cons byte rest ih =>
    have small : byte.toNat < 256 := byte.toNat_lt
    have head : UInt8.ofNat (byte.toNat + 256 * readLe rest) = byte := by
      rw [← UInt8.toNat_inj, UInt8.toNat_ofNat']
      omega
    have tail : (byte.toNat + 256 * readLe rest) / 256 = readLe rest := by omega
    rw [List.length_cons, readLe, leBytes, head, tail, ih]

instance byteOrder : LinearOrder UInt8 where
  le_refl _ := UInt8.le_refl _
  le_trans _ _ _ := UInt8.le_trans
  lt_iff_le_not_ge _ _ := by
    rw [UInt8.lt_iff_toNat_lt, UInt8.le_iff_toNat_le, UInt8.le_iff_toNat_le]
    omega
  le_antisymm _ _ := UInt8.le_antisymm
  le_total _ _ := UInt8.le_total _ _
  toDecidableLE := inferInstance

instance bytesOrder : LinearOrder (List UInt8) := inferInstance

instance bytesLawful : LawfulBEq (List UInt8) := inferInstance

variable {α : Type}

/-- A proper prefix: what is left of a block that was not written to its end. -/
def Torn (torn block : List α) : Prop := ∃ k, k < block.length ∧ torn = block.take k

theorem Torn.length_lt {torn block : List α} (isTorn : Torn torn block) :
    torn.length < block.length := by
  obtain ⟨k, short, rfl⟩ := isTorn
  rw [List.length_take]
  omega

/-- A prefix of a concatenation ends inside one of its blocks, or at its end. -/
theorem take_flatten (blocks : List (List α)) (k : Nat) :
    (∃ m torn, blocks.flatten.take k = (blocks.take m).flatten ++ torn ∧
      ∃ block, blocks[m]? = some block ∧ Torn torn block) ∨
      blocks.flatten.take k = blocks.flatten := by
  induction blocks generalizing k with
  | nil =>
    apply Or.inr
    rw [List.flatten_nil, List.take_nil]
  | cons block rest ih =>
    rw [List.flatten_cons, List.take_append]
    by_cases short : k < block.length
    · apply Or.inl
      refine ⟨0, block.take k, ?_, block, rfl, k, short, rfl⟩
      rw [Nat.sub_eq_zero_of_le short.le, List.take_zero, List.take_zero, List.flatten_nil,
        List.append_nil, List.nil_append]
    · have whole : block.take k = block := List.take_of_length_le (by omega)
      rw [whole]
      rcases ih (k - block.length) with ⟨m, torn, split, next, isNext, isTorn⟩ | all
      · apply Or.inl
        refine ⟨m + 1, torn, ?_, next, isNext, isTorn⟩
        rw [split, List.take_succ_cons, List.flatten_cons, List.append_assoc]
      · apply Or.inr
        rw [all]

end PacificDb.Lib
