import Mathlib.Logic.Basic

/-!
# Sequences of checks

A function that refuses its input with a reason at the first failed check is a
computation in `Except`. These are the inversion rules for such computations:
what a success says about the checks it went through.
-/

namespace PacificDb.Lib

variable {ε α β : Type}

/-- One check: refuse with `reason` unless it holds. -/
def ensure (holds : Bool) (reason : ε) : Except ε Unit :=
  if holds then .ok () else .error reason

theorem ensure_eq_ok {holds : Bool} {reason : ε} {done : Unit} :
    ensure holds reason = .ok done ↔ holds = true := by
  cases holds <;> simp [ensure]

theorem bind_eq_ok {first : Except ε α} {rest : α → Except ε β} {result : β} :
    first >>= rest = .ok result ↔ ∃ value, first = .ok value ∧ rest value = .ok result := by
  cases first <;> simp [bind, Except.bind]

theorem pure_eq_ok {value result : α} :
    (pure value : Except ε α) = .ok result ↔ value = result := by
  simp [pure, Except.pure]

theorem forall_ok_pair_iff {first : α} {second : β} {goal : α → β → Prop} :
    (∀ a b, (.ok (first, second) : Except ε (α × β)) = .ok (a, b) → goal a b) ↔
      goal first second :=
  ⟨fun all => all first second rfl, by rintro one _ _ ⟨⟩; exact one⟩

/-- A list of checks succeeds exactly when each of them does. -/
theorem forM_eq_ok {check : α → Except ε Unit} {items : List α} {done : Unit} :
    items.forM check = .ok done ↔ ∀ item ∈ items, check item = .ok () := by
  induction items with
  | nil => simp [pure, Except.pure]
  | cons item items ih =>
    rw [List.forM_eq_forM] at ih ⊢
    rw [List.forM_cons, bind_eq_ok]
    simp only [ih, List.forall_mem_cons]
    exact ⟨fun ⟨_, head, tail⟩ => ⟨head, tail⟩, fun ⟨head, tail⟩ => ⟨(), head, tail⟩⟩

/-- A sequence of checks depends on what each says of its own item. -/
theorem forM_congr {check other : α → Except ε Unit} {items : List α}
    (same : ∀ item ∈ items, check item = other item) : items.forM check = items.forM other := by
  induction items with
  | nil => rfl
  | cons item items ih =>
    change (check item >>= fun _ => items.forM check) = (other item >>= fun _ => items.forM other)
    rw [same item (.head _), ih fun item member => same item (.tail _ member)]

end PacificDb.Lib
