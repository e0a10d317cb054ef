import Mathlib

/-! Functions that may fail, and when a chain of their checks succeeds. -/

namespace CodeMemory.Lib.Result

variable {ε α β : Type} {x : Except ε α} {b : β} {e : ε}

theorem bind_eq_ok_iff {f : α → Except ε β} : x >>= f = .ok b ↔ ∃ a, x = .ok a ∧ f a = .ok b := by
  cases x with
  | error e | ok a => simp [bind, Except.bind]

/-- Two calls of which the first has no result. -/
theorem andThen_eq_ok_iff {x : Except ε Unit} {y : Except ε β} :
    (x >>= fun _ => y) = .ok b ↔ x = .ok () ∧ y = .ok b := by
  rw [bind_eq_ok_iff]
  constructor
  · rintro ⟨_, hx, hy⟩
    exact ⟨hx, hy⟩
  · exact fun h => ⟨(), h⟩

/-- A check that fails with an error before the rest is reached. -/
theorem guard_eq_ok_iff {p : Prop} [Decidable p] {a : α} : (if p then .error e else x) = .ok a ↔ ¬ p ∧ x = .ok a := by
  by_cases hp : p
  · simp [hp]
  · simp [hp]

/-- Whether the call succeeds with a result that passes a test. -/
def succeeds (x : Except ε α) (p : α → Bool) : Bool :=
  match x with
  | .ok a => p a
  | .error _ => false

theorem succeeds_iff {p : α → Bool} : succeeds x p = true ↔ ∃ a, x = .ok a ∧ p a = true := by
  cases x <;> simp [succeeds]

end CodeMemory.Lib.Result
