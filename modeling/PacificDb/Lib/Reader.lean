import PacificDb.Lib.Bytes
import Mathlib.Data.List.Basic

/-!
# Readers over bytes

A reader takes what it needs from the front and hands on the rest. Every reader
has one lemma: what it does on the bytes of its writer, followed by anything.
-/

namespace PacificDb.Lib

/-- So many bytes from the front. -/
def readFixed (count : Nat) (bytes : List UInt8) : Option (List UInt8 × List UInt8) :=
  if bytes.length < count then none else some (bytes.take count, bytes.drop count)

@[simp] theorem readFixed_append (first rest : List UInt8) :
    readFixed first.length (first ++ rest) = some (first, rest) := by
  rw [readFixed, if_neg (by simp), List.take_left', List.drop_left'] <;> rfl

theorem readFixed_append' {count : Nat} {first : List UInt8} (rest : List UInt8)
    (size : first.length = count) : readFixed count (first ++ rest) = some (first, rest) := by
  rw [← size, readFixed_append]

theorem readFixed_some {count : Nat} {bytes first rest : List UInt8}
    (taken : readFixed count bytes = some (first, rest)) : bytes = first ++ rest ∧ first.length = count := by
  rw [readFixed] at taken
  split at taken
  · cases taken
  next long =>
    cases taken
    exact ⟨(List.take_append_drop _ _).symm, by rw [List.length_take]; omega⟩

/-- A number of so many bytes, least significant first. -/
def readWord (width : Nat) (bytes : List UInt8) : Option (Nat × List UInt8) :=
  (readFixed width bytes).map fun taken => (readLe taken.1, taken.2)

theorem readWord_leBytes (width value : Nat) (rest : List UInt8) :
    readWord width (leBytes width value ++ rest) = some (value % 256 ^ width, rest) := by
  rw [readWord, readFixed_append' rest (length_leBytes width value), Option.map_some, readLe_leBytes]

theorem readWord_leBytes_of_lt {width value : Nat} (rest : List UInt8) (fits : value < 256 ^ width) :
    readWord width (leBytes width value ++ rest) = some (value, rest) := by
  rw [readWord_leBytes, Nat.mod_eq_of_lt fits]

theorem readWord_some {width value : Nat} {bytes rest : List UInt8}
    (read : readWord width bytes = some (value, rest)) :
    bytes = leBytes width value ++ rest ∧ value < 256 ^ width := by
  obtain ⟨⟨first, after⟩, taken, same⟩ := Option.map_eq_some_iff.mp read
  cases same
  obtain ⟨split, size⟩ := readFixed_some taken
  have back := leBytes_readLe first
  rw [size] at back
  dsimp only at back ⊢
  rw [back]
  exact ⟨split, size ▸ readLe_lt first⟩

theorem leBytes_append_inj {width value other : Nat} {rest others : List UInt8}
    (fits : value < 256 ^ width) (fitsToo : other < 256 ^ width)
    (same : leBytes width value ++ rest = leBytes width other ++ others) :
    value = other ∧ rest = others := by
  have read := readWord_leBytes_of_lt rest fits
  rw [same, readWord_leBytes_of_lt others fitsToo] at read
  cases read
  exact ⟨rfl, rfl⟩

/-- The `width` low bytes of a number, most significant first. -/
def beBytes (width value : Nat) : List UInt8 := (leBytes width value).reverse

@[simp] theorem length_beBytes (width value : Nat) : (beBytes width value).length = width := by
  rw [beBytes, List.length_reverse, length_leBytes]

/-- A number of so many bytes, most significant first. -/
def readBigWord (width : Nat) (bytes : List UInt8) : Option (Nat × List UInt8) :=
  (readFixed width bytes).map fun taken => (readLe taken.1.reverse, taken.2)

theorem readBigWord_beBytes (width value : Nat) (rest : List UInt8) :
    readBigWord width (beBytes width value ++ rest) = some (value % 256 ^ width, rest) := by
  rw [readBigWord, readFixed_append' rest (length_beBytes width value), Option.map_some, beBytes,
    List.reverse_reverse, readLe_leBytes]

theorem readBigWord_beBytes_of_lt {width value : Nat} (rest : List UInt8) (fits : value < 256 ^ width) :
    readBigWord width (beBytes width value ++ rest) = some (value, rest) := by
  rw [readBigWord_beBytes, Nat.mod_eq_of_lt fits]

theorem readBigWord_lt {width value : Nat} {bytes rest : List UInt8}
    (read : readBigWord width bytes = some (value, rest)) : value < 256 ^ width := by
  obtain ⟨⟨first, after⟩, taken, same⟩ := Option.map_eq_some_iff.mp read
  cases same
  have size := (readFixed_some taken).2
  rw [← size, ← List.length_reverse]
  exact readLe_lt _

/-- The same pass so many times. -/
def passMany (pass : List UInt8 → Option (List UInt8)) : Nat → List UInt8 → Option (List UInt8)
  | 0, bytes => some bytes
  | count + 1, bytes => (pass bytes).bind (passMany pass count)

/-- A pass that either passes an item or stops at it goes over all items or stops. -/
theorem passMany_flatMap {α : Type} {pass : List UInt8 → Option (List UInt8)} {passes : α → Bool}
    {write : α → List UInt8} {items : List α}
    (each : ∀ item ∈ items, ∀ rest, pass (write item ++ rest) = if passes item then some rest else none)
    (rest : List UInt8) : passMany pass items.length (items.flatMap write ++ rest) =
      if items.all passes then some rest else none := by
  induction items with
  | nil => rfl
  | cons item items ih =>
    obtain ⟨first, later⟩ := List.forall_mem_cons.mp each
    rw [List.length_cons, passMany, List.flatMap_cons, List.append_assoc, first, List.all_cons]
    cases passes item with
    | false => rfl
    | true => exact ih later

end PacificDb.Lib
