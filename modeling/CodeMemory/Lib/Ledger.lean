import CodeMemory.Lib.GoMap
import CodeMemory.Lib.Result

/-! Stores of records that are created once under a fresh key, change one at a
time and are never removed. What a record may become is a relation between two
versions of it, so that an invariant of all records, and the history of each
single one, follow from the step alone. -/

namespace CodeMemory.Lib.Ledger

variable {K V : Type} [DecidableEq K] {Init : V → Prop} {Step : V → V → Prop}

/-- What one command does to the store. -/
inductive Change (Init : V → Prop) (Step : V → V → Prop) (m : GoMap K V) : GoMap K V → Prop
  | same : Change Init Step m m
  | create (k : K) (v : V) (fresh : m.lookup k = none) (init : Init v) : Change Init Step m (m.insert k v)
  | evolve (k : K) (v v' : V) (found : m.lookup k = some v) (step : Step v v') :
    Change Init Step m (m.insert k v')

variable {m m' : GoMap K V}

theorem Change.mono {Step' : V → V → Prop} (hstep : ∀ v v', Step v v' → Step' v v')
    (h : Change Init Step m m') : Change Init Step' m m' := by
  cases h with
  | same => exact .same
  | create k v fresh init => exact .create k v fresh init
  | evolve k v v' found step => exact .evolve k v v' found (hstep v v' step)

def All (P : V → Prop) (m : GoMap K V) : Prop := ∀ k v, m.lookup k = some v → P v

theorem all_empty (P : V → Prop) : All P (∅ : GoMap K V) := by
  intro k v h
  simp at h

theorem All.insert {P : V → Prop} (h : All P m) {k : K} {v : V} (hv : P v) : All P (m.insert k v) := by
  intro k' v' h'
  rw [GoMap.lookup_insert_eq] at h'
  split_ifs at h'
  · cases h'
    exact hv
  · exact h k' v' h'

theorem Change.all {P : V → Prop} (hinit : ∀ v, Init v → P v) (hstep : ∀ v v', P v → Step v v' → P v')
    (h : Change Init Step m m') (hm : All P m) : All P m' := by
  cases h with
  | same => exact hm
  | create k v fresh init => exact hm.insert (hinit v init)
  | evolve k v v' found step => exact hm.insert (hstep v v' (hm k v found) step)

/-- A record stays and goes through steps only. -/
theorem Change.evolves (h : Change Init Step m m') {k : K} {v : V}
    (hk : m.lookup k = some v) : ∃ v', m'.lookup k = some v' ∧ Relation.ReflTransGen Step v v' := by
  cases h with
  | same => exact ⟨v, hk, .refl⟩
  | create k₀ v₀ fresh init =>
    have hne : k ≠ k₀ := by
      rintro rfl
      rw [hk] at fresh
      cases fresh
    exact ⟨v, by rw [GoMap.lookup_insert_eq, if_neg hne, hk], .refl⟩
  | evolve k₀ v₀ v₁ found step =>
    by_cases hne : k = k₀
    · subst hne
      rw [hk] at found
      cases found
      exact ⟨v₁, by rw [GoMap.lookup_insert_eq, if_pos rfl], .single step⟩
    · exact ⟨v, by rw [GoMap.lookup_insert_eq, if_neg hne, hk], .refl⟩

section Runs

variable {S C : Type} {records : S → GoMap K V} {step : S → C → S}
  (hchange : ∀ s c, Change Init Step (records s) (records (step s c)))
include hchange

theorem all_run {P : V → Prop} (hinit : ∀ v, Init v → P v) (hstep : ∀ v v', P v → Step v v' → P v') {s : S}
    (hs : All P (records s)) (cs : List C) : All P (records (cs.foldl step s)) := by
  induction cs generalizing s with
  | nil => exact hs
  | cons c cs ih => exact ih ((hchange s c).all hinit hstep hs)

theorem evolves_run (s : S) (cs : List C) {k : K} {v : V} (hk : (records s).lookup k = some v) :
    ∃ v', (records (cs.foldl step s)).lookup k = some v' ∧ Relation.ReflTransGen Step v v' := by
  induction cs generalizing s v with
  | nil => exact ⟨v, hk, .refl⟩
  | cons c cs ih =>
    obtain ⟨v₁, h₁, hstep⟩ := (hchange s c).evolves hk
    obtain ⟨v₂, h₂, hrun⟩ := ih (step s c) h₁
    exact ⟨v₂, h₂, hstep.trans hrun⟩

end Runs

section Rows

variable {ε : Type}

/-- A row under a primary key: refused when the key is taken. -/
def insertNew (e : ε) (m : GoMap K V) (k : K) (v : V) : Except ε (GoMap K V) :=
  if (m.lookup k).isSome then .error e else .ok (m.insert k v)

def insertAll (e : ε) : GoMap K V → List (K × V) → Except ε (GoMap K V)
  | m, [] => .ok m
  | m, (k, v) :: rows => do
    let m ← insertNew e m k v
    insertAll e m rows

theorem insertNew_eq_ok_iff {e : ε} {m m' : GoMap K V} {k : K} {v : V} :
    insertNew e m k v = .ok m' ↔ m.lookup k = none ∧ m' = m.insert k v := by
  rw [insertNew, Result.guard_eq_ok_iff, Except.ok.injEq, Bool.not_eq_true, Option.isSome_eq_false_iff,
    Option.isNone_iff_eq_none]
  exact and_congr_right' eq_comm

/-- The rows of the result are the old ones and the new ones. -/
theorem lookup_insertAll {e : ε} {m m' : GoMap K V} {rows : List (K × V)} (h : insertAll e m rows = .ok m')
    (k : K) (v : V) : m'.lookup k = some v ↔ m.lookup k = some v ∨ (k, v) ∈ rows := by
  induction rows generalizing m with
  | nil =>
    cases h
    simp
  | cons row rows ih =>
    obtain ⟨k₀, v₀⟩ := row
    obtain ⟨m₁, h₁, h⟩ := Result.bind_eq_ok_iff.mp h
    obtain ⟨hfresh, rfl⟩ := insertNew_eq_ok_iff.mp h₁
    rw [ih h, GoMap.lookup_insert_eq, List.mem_cons, Prod.mk.injEq]
    by_cases hk : k = k₀
    · subst hk
      simp [hfresh, eq_comm]
    · simp [hk]

end Rows

end CodeMemory.Lib.Ledger
