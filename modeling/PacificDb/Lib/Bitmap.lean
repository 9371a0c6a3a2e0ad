import Mathlib.Data.Nat.Bitwise
import PacificDb.Lib.Reader

/-!
# Bit sets in words

A set of numbers below `64 * n` as the bits of `n` words, and the words as bytes.
-/

namespace PacificDb.Lib.Bitmap

def setBit (words : List Nat) (bit : Nat) : List Nat :=
  words.modify (bit / 64) fun word => word ||| 2 ^ (bit % 64)

def testBit (words : List Nat) (bit : Nat) : Bool := (words.getD (bit / 64) 0).testBit (bit % 64)

/-- No word is wider than 64 bits. -/
def Narrow (words : List Nat) : Prop := ∀ word ∈ words, word < 2 ^ 64

variable {words : List Nat} {bit : Nat}

@[simp] theorem length_setBit : (setBit words bit).length = words.length := List.length_modify _ _ _

theorem length_foldl_setBit (bits : List Nat) : (bits.foldl setBit words).length = words.length := by
  induction bits generalizing words with
  | nil => rfl
  | cons bit bits ih => rw [List.foldl_cons, ih, length_setBit]

/-- Setting a bit adds this one number. -/
theorem testBit_setBit (inside : bit / 64 < words.length) (other : Nat) :
    testBit (setBit words bit) other = true ↔ testBit words other = true ∨ other = bit := by
  unfold testBit setBit
  rw [List.getD_eq_getElem?_getD, List.getD_eq_getElem?_getD, List.getElem?_modify]
  by_cases same : bit / 64 = other / 64
  · have there : words[other / 64]? = some words[bit / 64] := by
      rw [← same]
      exact List.getElem?_eq_getElem inside
    rw [there]
    simp only [same, if_true, Option.map_eq_map, Option.map_some, Option.getD_some, Nat.testBit_or,
      Nat.testBit_two_pow, Bool.or_eq_true, decide_eq_true_eq]
    apply or_congr Iff.rfl
    omega
  · have apart : other ≠ bit := fun equal => same (by rw [equal])
    simp only [same, if_false, apart, or_false, Option.map_eq_map, Option.map_id']

theorem testBit_foldl {bits : List Nat} (inside : ∀ bit ∈ bits, bit / 64 < words.length) (other : Nat) :
    testBit (bits.foldl setBit words) other = true ↔ testBit words other = true ∨ other ∈ bits := by
  induction bits generalizing words with
  | nil => simp
  | cons bit bits ih =>
    obtain ⟨first, later⟩ := List.forall_mem_cons.mp inside
    rw [List.foldl_cons, ih, testBit_setBit first, or_assoc, List.mem_cons]
    rw [length_setBit]
    exact later

theorem testBit_zeros (count other : Nat) : testBit (List.replicate count 0) other = false := by
  unfold testBit
  rw [List.getD_eq_getElem?_getD, List.getElem?_replicate]
  split <;> exact Nat.zero_testBit _

theorem Narrow.setBit (narrow : Narrow words) : Narrow (setBit words bit) := by
  unfold Bitmap.setBit
  intro word member
  obtain ⟨index, inside, rfl⟩ := List.mem_iff_getElem.mp member
  rw [List.length_modify] at inside
  have old : words[index] < 2 ^ 64 := narrow _ (List.getElem_mem inside)
  rw [List.getElem_modify]
  split
  · apply Nat.or_lt_two_pow old
    exact Nat.pow_lt_pow_right (by decide) (Nat.mod_lt _ (by decide))
  · exact old

theorem Narrow.foldl {bits : List Nat} (narrow : Narrow words) : Narrow (bits.foldl Bitmap.setBit words) := by
  induction bits generalizing words with
  | nil => exact narrow
  | cons bit bits ih => exact ih narrow.setBit

theorem narrow_zeros (count : Nat) : Narrow (List.replicate count 0) := by
  intro word member
  rw [List.eq_of_mem_replicate member]
  decide

/-! ## Words as bytes -/

def wordBytes (words : List Nat) : List UInt8 := words.flatMap (leBytes 8)

/-- So many words from the front. -/
def readWords (count : Nat) (bytes : List UInt8) : List Nat :=
  (List.range count).map fun index => readLe ((bytes.drop (8 * index)).take 8)

theorem length_wordBytes : (wordBytes words).length = 8 * words.length := by
  induction words with
  | nil => rfl
  | cons word words ih =>
    rw [wordBytes, List.flatMap_cons, List.length_append, length_leBytes, ← wordBytes, ih,
      List.length_cons]
    omega

theorem readWords_wordBytes (narrow : Narrow words) : readWords words.length (wordBytes words) = words := by
  induction words with
  | nil => rfl
  | cons word words ih =>
    obtain ⟨fits, later⟩ := List.forall_mem_cons.mp narrow
    have rest : ∀ index, (wordBytes (word :: words)).drop (8 * (index + 1)) =
        (wordBytes words).drop (8 * index) := by
      intro index
      rw [wordBytes, List.flatMap_cons, Nat.mul_add, Nat.add_comm, ← List.drop_drop]
      apply congrArg (List.drop (8 * index))
      exact List.drop_left' (length_leBytes 8 word)
    have first : (wordBytes (word :: words)).take 8 = leBytes 8 word :=
      List.take_left' (length_leBytes 8 word)
    unfold readWords at ih ⊢
    rw [List.length_cons, List.range_succ_eq_map, List.map_cons, List.map_map, Nat.mul_zero,
      List.drop_zero, first, readLe_leBytes_of_lt fits]
    congr 1
    apply Eq.trans ?_ (ih later)
    apply List.map_congr_left
    intro index _
    rw [Function.comp_apply, rest]

end PacificDb.Lib.Bitmap
