import Mathlib

/-! Commands that act on a state and may fail, keeping the state they reached, and
what holds when they end. A command is taken apart by the rules for `Ends`, one for
each way of building it. -/

namespace CodeMemory.Lib

/-- A computation on a state; a failure keeps what was done before it. -/
abbrev Command (S ε α : Type) := ExceptT ε (StateM S) α

namespace Command

variable {S ε ε' α β : Type}

/-- Started in `s`, the command ends in `Q` if it succeeds and in `E` if it fails. -/
def Ends (x : Command S ε α) (Q : α → S → Prop) (E : ε → S → Prop) (s : S) : Prop :=
  match x.run.run s with
  | (.ok a, t) => Q a t
  | (.error e, t) => E e t

/-- The outcome of a call as a value, as a caller sees it that looks at the error. -/
def attempt (x : Command S ε α) : Command S ε' (Except ε α) := fun s => ((.ok (x.run.run s).1), (x.run.run s).2)

def orElse (x : Command S ε α) (e : ε') : Command S ε' α := do
  match ← x.attempt with
  | .ok a => pure a
  | .error _ => throw e

def mapError (x : Command S ε α) (f : ε → ε') : Command S ε' α := do
  match ← x.attempt with
  | .ok a => pure a
  | .error e => throw (f e)

section Rules

variable {Q : α → S → Prop} {E : ε → S → Prop} {s : S}

@[simp] theorem ends_pure (a : α) : Ends (pure a : Command S ε α) Q E s ↔ Q a s := Iff.rfl

@[simp] theorem ends_throw (e : ε) : Ends (throw e : Command S ε α) Q E s ↔ E e s := Iff.rfl

@[simp] theorem ends_get {Q : S → S → Prop} : Ends (get : Command S ε S) Q E s ↔ Q s s := Iff.rfl

@[simp] theorem ends_set {Q : PUnit → S → Prop} (t : S) : Ends (set t : Command S ε PUnit) Q E s ↔ Q ⟨⟩ t := Iff.rfl

@[simp] theorem ends_bind {x : Command S ε β} {f : β → Command S ε α} :
    Ends (x >>= f) Q E s ↔ Ends x (fun b t => Ends (f b) Q E t) E s := by
  simp only [Ends, ExceptT.run_bind, StateT.run_bind]
  rcases x.run.run s with ⟨r, t⟩
  cases r with
  | ok b => rfl
  | error e => rfl

@[simp] theorem ends_attempt {x : Command S ε β} {Q : Except ε β → S → Prop} {E : ε' → S → Prop} :
    Ends x.attempt Q E s ↔ Ends x (fun b => Q (.ok b)) (fun e => Q (.error e)) s := by
  change Q (x.run.run s).1 (x.run.run s).2 ↔ _
  unfold Ends
  rcases x.run.run s with ⟨r, t⟩
  cases r with
  | ok b => rfl
  | error e => rfl

@[simp] theorem ends_orElse {x : Command S ε α} {E : ε' → S → Prop} {e : ε'} :
    Ends (x.orElse e) Q E s ↔ Ends x Q (fun _ => E e) s := by
  simp only [orElse, ends_bind, ends_attempt, ends_pure, ends_throw]

variable {x : Command S ε α}

theorem Ends.mono {Q' : α → S → Prop} {E' : ε → S → Prop} (h : Ends x Q E s)
    (hQ : ∀ a t, Q a t → Q' a t) (hE : ∀ e t, E e t → E' e t) : Ends x Q' E' s := by
  unfold Ends at h ⊢
  revert h
  rcases x.run.run s with ⟨r, t⟩
  cases r with
  | ok a => exact hQ a t
  | error e => exact hE e t

/-- What holds at every end holds of the state the command leaves. -/
theorem Ends.state {P : S → Prop} (h : Ends x (fun _ t => P t) (fun _ t => P t) s) : P (x.run.run s).2 := by
  unfold Ends at h
  revert h
  rcases x.run.run s with ⟨r, t⟩
  cases r with
  | ok a => exact id
  | error e => exact id

end Rules

end Command

end CodeMemory.Lib
