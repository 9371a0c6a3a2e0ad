import Mathlib.Algebra.Order.Ring.Int
import Mathlib.Data.List.Basic

/-!
# Copies from behind

The copy of a match in a dictionary coder reads the text that it is writing: the source may
run into what the same copy has put there. When the text behind agrees with the text ahead,
as far as the copy goes, the copy extends a prefix of the text.
-/

namespace PacificDb.Lib

variable {α : Type}

/-- Read the entries from `source` on, one at a time, and put each at the end, until the text
has `limit` entries. None is a read outside the text. -/
def copyFrom (limit : Nat) : Nat → Nat → List α → Option (List α)
  | 0, _, text => some text
  | count + 1, source, text =>
      if text.length < limit then
        match text[source]? with
        | some entry => copyFrom limit count (source + 1) (text ++ [entry])
        | none => none
      else some text

variable {limit count source place : Nat} {text whole : List α}

/-- A copy from inside the text stays inside it, and within the limit. -/
theorem copyFrom_total (inside : source < text.length) (bounded : text.length ≤ limit) :
    ∃ result, copyFrom limit count source text = some result ∧ result.length ≤ limit ∧
      text.length ≤ result.length := by
  induction count generalizing source text with
  | zero => exact ⟨text, rfl, bounded, le_rfl⟩
  | succ count ih =>
    rw [copyFrom]
    split
    next room =>
      rw [List.getElem?_eq_getElem inside]
      have longer : (text ++ [text[source]]).length = text.length + 1 := by simp
      obtain ⟨result, copied, within, least⟩ :=
        @ih (source + 1) (text ++ [text[source]]) (by omega) (by omega)
      exact ⟨result, copied, within, by omega⟩
    next => exact ⟨text, rfl, bounded, le_rfl⟩

/-- A copy of text that agrees with what comes next extends the prefix. -/
theorem copyFrom_take (inside : place + count ≤ whole.length) (behind : source < place)
    (agrees : ∀ i < count, whole[source + i]? = whole[place + i]?) :
    copyFrom whole.length count source (whole.take place) = some (whole.take (place + count)) := by
  induction count generalizing source place with
  | zero => rfl
  | succ count ih =>
    have before : place < whole.length := by omega
    have length : (whole.take place).length = place := List.length_take_of_le before.le
    have entry : (whole.take place)[source]? = some whole[place] := by
      have first := agrees 0 (Nat.succ_pos count)
      rw [List.getElem?_take_of_lt behind]
      rwa [Nat.add_zero, Nat.add_zero, List.getElem?_eq_getElem before] at first
    have next : whole.take place ++ [whole[place]] = whole.take (place + 1) := by
      rw [List.take_add_one, List.getElem?_eq_getElem before]
      rfl
    rw [copyFrom, if_pos (by omega), entry]
    dsimp only
    rw [next, ih (by omega) (by omega) fun i bound => ?_]
    · rw [Nat.add_assoc, Nat.add_comm 1 count]
    · have later := agrees (i + 1) (by omega)
      rwa [show source + (i + 1) = source + 1 + i by omega,
        show place + (i + 1) = place + 1 + i by omega] at later

end PacificDb.Lib
