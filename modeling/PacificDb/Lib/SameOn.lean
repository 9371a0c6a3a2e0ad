import Mathlib.Data.List.AList

/-!
# Frames of finite maps

An operation on a finite map changes some keys and leaves the others. `SameOn`
says that two maps agree on every key of a predicate; an operation has the
frame `keep` when none of the keys it changes is in it.
-/

namespace PacificDb.Lib

variable {κ : Type} [DecidableEq κ] {β : κ → Type}

/-- Both maps agree on the keys of `keep`. -/
def SameOn (keep : κ → Prop) (before after : AList β) : Prop :=
  ∀ key, keep key → after.lookup key = before.lookup key

namespace SameOn

variable {keep : κ → Prop} {before after last : AList β}

theorem refl : SameOn keep before before := fun _ _ => rfl

theorem trans (first : SameOn keep before after) (second : SameOn keep after last) :
    SameOn keep before last :=
  fun key kept => (second key kept).trans (first key kept)

theorem mono {fewer : κ → Prop} (same : SameOn keep before after)
    (sub : ∀ key, fewer key → keep key) : SameOn fewer before after :=
  fun key kept => same key (sub key kept)

theorem insert {key : κ} {value : β key} (changed : ¬keep key) :
    SameOn keep before (before.insert key value) := by
  intro other kept
  exact AList.lookup_insert_ne fun same => changed (same ▸ kept)

theorem erase {key : κ} (changed : ¬keep key) : SameOn keep before (before.erase key) := by
  intro other kept
  exact AList.lookup_erase_ne fun same => changed (same ▸ kept)

end SameOn

section Lookup

variable {V : Type} {map : AList fun _ : κ => V} {key other : κ} {value found : V}

theorem lookup_insert_eq_some (looked : (map.insert key value).lookup other = some found) :
    (other = key ∧ found = value) ∨ (other ≠ key ∧ map.lookup other = some found) := by
  by_cases same : other = key
  · subst same
    rw [AList.lookup_insert] at looked
    exact .inl ⟨rfl, (Option.some.inj looked).symm⟩
  · rw [AList.lookup_insert_ne same] at looked
    exact .inr ⟨same, looked⟩

theorem lookup_erase_eq_some (looked : (map.erase key).lookup other = some found) :
    other ≠ key ∧ map.lookup other = some found := by
  by_cases same : other = key
  · subst same
    rw [AList.lookup_erase] at looked
    cases looked
  · rw [AList.lookup_erase_ne same] at looked
    exact ⟨same, looked⟩

end Lookup

end PacificDb.Lib
