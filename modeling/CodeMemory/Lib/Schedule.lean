import Mathlib

/-! Runs of a system, an event at a time, in which some condition is met by every
event in the state it finds. -/

namespace CodeMemory.Lib.Schedule

variable {S E : Type} (step : S → E → S)

/-- Every event of the run meets the condition in the state it finds. -/
def Meets (C : S → E → Prop) : S → List E → Prop
  | _, [] => True
  | s, e :: es => C s e ∧ Meets C (step s e) es

instance (C : S → E → Prop) [∀ s e, Decidable (C s e)] : ∀ s es, Decidable (Meets step C s es)
  | _, [] => isTrue trivial
  | s, e :: es =>
    have := instDecidableMeets C (step s e) es
    inferInstanceAs (Decidable (C s e ∧ Meets step C (step s e) es))

variable {step} {C : S → E → Prop}

theorem meets_of_forall {es : List E} (h : ∀ e ∈ es, ∀ s, C s e) (s : S) : Meets step C s es := by
  induction es generalizing s with
  | nil => trivial
  | cons e es ih => exact ⟨h e (.head _) s, ih (fun e' he' => h e' (List.mem_cons_of_mem e he')) (step s e)⟩

theorem meets_append {s : S} {es es' : List E} :
    Meets step C s (es ++ es') ↔ Meets step C s es ∧ Meets step C (es.foldl step s) es' := by
  induction es generalizing s with
  | nil => simp [Meets]
  | cons e es ih => simp only [List.cons_append, Meets, ih, List.foldl_cons, and_assoc]

/-- What every event keeps that meets the condition, the run keeps. -/
theorem Meets.keeps {P : S → Prop} (hP : ∀ s e, C s e → P s → P (step s e)) {s : S} {es : List E}
    (h : Meets step C s es) (hs : P s) : P (es.foldl step s) := by
  induction es generalizing s with
  | nil => exact hs
  | cons e es ih => exact ih h.2 (hP s e h.1 hs)

/-- A condition on the events themselves joins one on the states they find. -/
theorem Meets.and_forall {Q : E → Prop} {s : S} {es : List E} (h : Meets step C s es) (hQ : ∀ e ∈ es, Q e) :
    Meets step (fun s e => Q e ∧ C s e) s es := by
  induction es generalizing s with
  | nil => trivial
  | cons e es ih =>
    exact ⟨⟨hQ e (.head _), h.1⟩, ih h.2 fun e' he' => hQ e' (List.mem_cons_of_mem e he')⟩

end CodeMemory.Lib.Schedule
