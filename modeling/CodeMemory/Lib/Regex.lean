import Mathlib

/-! Regular expressions whose atoms are predicates on an arbitrary alphabet,
with the language of an expression and a matcher by derivatives that decides
membership in it. -/

namespace CodeMemory.Lib

inductive Regex (α : Type) where
  | fail
  | eps
  | sym (p : α → Bool)
  | alt (a b : Regex α)
  | cat (a b : Regex α)
  | star (a : Regex α)

namespace Regex

variable {α : Type}

def opt (a : Regex α) : Regex α := alt eps a

/-- The language of an expression. -/
def Matches : Regex α → List α → Prop
  | fail, _ => False
  | eps, w => w = []
  | sym p, w => ∃ c, w = [c] ∧ p c = true
  | alt a b, w => Matches a w ∨ Matches b w
  | cat a b, w => ∃ u v, w = u ++ v ∧ Matches a u ∧ Matches b v
  | star a, w => ∃ ws : List (List α), w = ws.flatten ∧ ∀ u ∈ ws, Matches a u

def nullable : Regex α → Bool
  | fail => false
  | eps => true
  | sym _ => false
  | alt a b => nullable a || nullable b
  | cat a b => nullable a && nullable b
  | star _ => true

def deriv (c : α) : Regex α → Regex α
  | fail => fail
  | eps => fail
  | sym p => if p c then eps else fail
  | alt a b => alt (deriv c a) (deriv c b)
  | cat a b => if nullable a then alt (cat (deriv c a) b) (deriv c b) else cat (deriv c a) b
  | star a => cat (deriv c a) (star a)

/-- The matcher: take the derivative by each symbol in turn. -/
def accepts (r : Regex α) : List α → Bool
  | [] => nullable r
  | c :: w => accepts (deriv c r) w

theorem nullable_iff (r : Regex α) : nullable r = true ↔ Matches r [] := by
  induction r with
  | fail | eps | sym p => simp [nullable, Matches]
  | alt a b iha ihb => simp [nullable, Matches, iha, ihb]
  | cat a b iha ihb =>
    simp only [nullable, Matches, Bool.and_eq_true, iha, ihb]
    constructor
    · rintro ⟨ha, hb⟩; exact ⟨[], [], rfl, ha, hb⟩
    · rintro ⟨u, v, h, ha, hb⟩
      obtain ⟨rfl, rfl⟩ := List.nil_eq_append_iff.mp h
      exact ⟨ha, hb⟩
  | star a _ => simp only [nullable, Matches, true_iff]; exact ⟨[], rfl, by simp⟩

/-- A non-empty word of `star a` starts with a non-empty word of `a`. -/
theorem matches_star_cons {a : Regex α} {c : α} {w : List α} :
    Matches (star a) (c :: w) ↔ ∃ u v, w = u ++ v ∧ Matches a (c :: u) ∧ Matches (star a) v := by
  constructor
  · rintro ⟨ws, h, hw⟩
    induction ws with
    | nil => simp at h
    | cons x ws ih =>
      cases x with
      | nil => exact ih (by simpa using h) (fun u hu => hw u (by simp [hu]))
      | cons d x =>
        obtain ⟨rfl, rfl⟩ := h
        exact ⟨x, ws.flatten, rfl, hw _ (by simp), ws, rfl, fun u hu => hw u (by simp [hu])⟩
  · rintro ⟨u, v, rfl, ha, ws, rfl, hw⟩
    refine ⟨(c :: u) :: ws, by simp, ?_⟩
    intro x hx
    rcases List.mem_cons.mp hx with rfl | hx
    · exact ha
    · exact hw x hx

theorem matches_deriv (r : Regex α) (c : α) (w : List α) :
    Matches (deriv c r) w ↔ Matches r (c :: w) := by
  induction r generalizing w with
  | fail | eps => simp [deriv, Matches]
  | sym p =>
    simp only [deriv]
    split_ifs with hp
    · simp [Matches, hp]
    · simp only [Matches, List.cons.injEq, false_iff, not_exists, not_and]
      rintro x ⟨rfl, _⟩; exact hp
  | alt a b iha ihb => simp [deriv, Matches, iha, ihb]
  | cat a b iha ihb =>
    -- a split of `c :: w` either leaves the first part empty or gives it `c`
    have hcat : Matches (cat a b) (c :: w) ↔
        Matches (cat (deriv c a) b) w ∨ (Matches a [] ∧ Matches b (c :: w)) := by
      constructor
      · rintro ⟨u, v, h, ha, hb⟩
        cases u with
        | nil => exact Or.inr ⟨ha, by rwa [h]⟩
        | cons d u =>
          obtain ⟨rfl, rfl⟩ := h
          exact Or.inl ⟨u, v, rfl, (iha u).mpr ha, hb⟩
      · rintro (⟨u, v, rfl, ha, hb⟩ | ⟨ha, hb⟩)
        · exact ⟨c :: u, v, rfl, (iha u).mp ha, hb⟩
        · exact ⟨[], c :: w, rfl, ha, hb⟩
    rw [hcat, ← nullable_iff]
    simp only [deriv]
    split_ifs with hn
    · simp only [Matches, hn, true_and, ihb]
    · simp [hn]
  | star a iha =>
    rw [matches_star_cons]
    constructor
    · rintro ⟨u, v, h, ha, hs⟩; exact ⟨u, v, h, (iha u).mp ha, hs⟩
    · rintro ⟨u, v, h, ha, hs⟩; exact ⟨u, v, h, (iha u).mpr ha, hs⟩

/-- The matcher decides the language. -/
theorem accepts_iff (r : Regex α) (w : List α) : accepts r w = true ↔ Matches r w := by
  induction w generalizing r with
  | nil => exact nullable_iff r
  | cons c w ih => rw [accepts, ih, matches_deriv]

theorem matches_star_sym {p : α → Bool} {w : List α} :
    Matches (star (sym p)) w ↔ ∀ c ∈ w, p c = true := by
  induction w with
  | nil => simp only [List.not_mem_nil, false_implies, implies_true, iff_true]
           exact ⟨[], rfl, by simp⟩
  | cons c w ih =>
    rw [matches_star_cons]
    simp only [List.mem_cons, forall_eq_or_imp]
    constructor
    · rintro ⟨u, v, rfl, ⟨d, hd, hp⟩, hs⟩
      obtain ⟨rfl, rfl⟩ := hd
      exact ⟨hp, ih.mp hs⟩
    · rintro ⟨hp, hw⟩
      exact ⟨[], w, rfl, ⟨c, rfl, hp⟩, ih.mpr hw⟩

end Regex

end CodeMemory.Lib
