import Mathlib

/-! Lists that grow at their end by entries that carry their number, counted from
one, and the name of the entry before them. -/

namespace CodeMemory.Lib

section

variable {α β : Type} (number : α → ℕ) (name previous : α → β) (root : β)

/-- The first entry has the root before it. -/
inductive Chain : List α → Prop
  | nil : Chain []
  | snoc (l : List α) (a : α) (rest : Chain l) (numbered : number a = l.length + 1)
    (linked : previous a = (l.getLast?.map name).getD root) : Chain (l ++ [a])

end

variable {α β : Type} {number : α → ℕ} {name previous : α → β} {root : β} {l : List α}

theorem getElem?_snoc_cases {a b : α} {i : ℕ} (h : (l ++ [a])[i]? = some b) :
    l[i]? = some b ∨ i = l.length ∧ a = b := by
  rcases Nat.lt_trichotomy i l.length with hi | rfl | hi
  · rw [List.getElem?_append_left hi] at h
    exact .inl h
  · rw [List.getElem?_concat_length] at h
    exact .inr ⟨rfl, Option.some.inj h⟩
  · rw [List.getElem?_eq_none (by simpa using hi)] at h
    cases h

section

variable (h : Chain number name previous root l)
include h

theorem Chain.number_eq {i : ℕ} {a : α} (ha : l[i]? = some a) :
    number a = i + 1 := by
  induction h with
  | nil => cases ha
  | snoc l b rest numbered linked ih =>
    rcases getElem?_snoc_cases ha with hold | ⟨rfl, rfl⟩
    · exact ih hold
    · exact numbered

theorem Chain.number_last {a : α} (ha : l.getLast? = some a) :
    number a = l.length := by
  cases h with
  | nil => cases ha
  | snoc l b rest numbered linked =>
    rw [List.getLast?_concat] at ha
    cases ha
    rw [numbered, List.length_append, List.length_singleton]

theorem Chain.previous_first {a : α} (ha : l[0]? = some a) :
    previous a = root := by
  induction h with
  | nil => cases ha
  | snoc l b rest numbered linked ih =>
    rcases getElem?_snoc_cases ha with hold | ⟨hlen, rfl⟩
    · exact ih hold
    · rw [List.eq_nil_of_length_eq_zero hlen.symm] at linked
      exact linked

theorem Chain.previous_next {i : ℕ} {a b : α} (ha : l[i]? = some a)
    (hb : l[i + 1]? = some b) : previous b = name a := by
  induction h with
  | nil => cases ha
  | snoc l c rest numbered linked ih =>
    rcases getElem?_snoc_cases ha with ha | ⟨rfl, rfl⟩
    · rcases getElem?_snoc_cases hb with hb | ⟨hlen, rfl⟩
      · exact ih ha hb
      · rw [List.getLast?_eq_getElem?, ← hlen, Nat.add_sub_cancel, ha] at linked
        exact linked
    · rw [List.getElem?_eq_none (by simp)] at hb
      cases hb

end

end CodeMemory.Lib
