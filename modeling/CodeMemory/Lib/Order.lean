import CodeMemory.Lib.GoMap
import CodeMemory.Lib.GoString

/-! The byte order of strings, and the keys of a map listed in that order. -/

namespace CodeMemory.Lib

namespace GoString

def strLe : GoString → GoString → Bool
  | [], _ => true
  | _ :: _, [] => false
  | a :: s, b :: t => a < b || (a == b && strLe s t)

/-- `sort.Strings`. -/
def sortStrings (xs : List GoString) : List GoString := xs.insertionSort (fun a b => strLe a b = true)

theorem strLe_cons {a b : UInt8} {s t : GoString} :
    strLe (a :: s) (b :: t) = true ↔ a < b ∨ a = b ∧ strLe s t = true := by
  simp [strLe]

theorem strLe_total (s t : GoString) : strLe s t = true ∨ strLe t s = true := by
  induction s generalizing t with
  | nil => exact .inl rfl
  | cons a s ih =>
    cases t with
    | nil => exact .inr rfl
    | cons b t =>
      rw [strLe_cons, strLe_cons]
      by_cases hab : a = b
      · rcases ih t with h | h
        · exact .inl (.inr ⟨hab, h⟩)
        · exact .inr (.inr ⟨hab.symm, h⟩)
      · rcases UInt8.lt_or_lt_of_ne hab with h | h
        · exact .inl (.inl h)
        · exact .inr (.inl h)

theorem strLe_trans {s t u : GoString} (h₁ : strLe s t = true) (h₂ : strLe t u = true) :
    strLe s u = true := by
  induction s generalizing t u with
  | nil => rfl
  | cons a s ih =>
    match t, u, h₁, h₂ with
    | b :: t, c :: u, h₁, h₂ =>
      rw [strLe_cons] at h₁ h₂ ⊢
      rcases h₁ with hab | ⟨rfl, hst⟩
      · rcases h₂ with hbc | ⟨rfl, -⟩
        · exact .inl (UInt8.lt_trans hab hbc)
        · exact .inl hab
      · rcases h₂ with hbc | ⟨rfl, htu⟩
        · exact .inl hbc
        · exact .inr ⟨rfl, ih hst htu⟩

theorem strLe_antisymm {s t : GoString} (h₁ : strLe s t = true) (h₂ : strLe t s = true) : s = t := by
  induction s generalizing t with
  | nil =>
    cases t with
    | nil => rfl
    | cons b t => cases h₂
  | cons a s ih =>
    match t, h₁, h₂ with
    | b :: t, h₁, h₂ =>
      rw [strLe_cons] at h₁ h₂
      rcases h₁ with hab | ⟨rfl, hst⟩
      · rcases h₂ with hba | ⟨rfl, -⟩
        · exact absurd (UInt8.lt_trans hab hba) (UInt8.lt_irrefl a)
        · exact absurd hab (UInt8.lt_irrefl b)
      · rcases h₂ with haa | ⟨-, hts⟩
        · exact absurd haa (UInt8.lt_irrefl a)
        · rw [ih hst hts]

instance : Std.Total (fun a b => strLe a b = true) := ⟨strLe_total⟩

instance : IsTrans GoString (fun a b => strLe a b = true) := ⟨fun _ _ _ => strLe_trans⟩

theorem pairwise_sortStrings (xs : List GoString) :
    (sortStrings xs).Pairwise (fun a b => strLe a b = true) :=
  List.pairwise_insertionSort _ xs

theorem perm_sortStrings (xs : List GoString) : (sortStrings xs).Perm xs := List.perm_insertionSort _ xs

theorem sortStrings_congr {xs ys : List GoString} (h : xs.Perm ys) : sortStrings xs = sortStrings ys := by
  refine List.Perm.eq_of_pairwise ?_ (pairwise_sortStrings xs) (pairwise_sortStrings ys)
    ((perm_sortStrings xs).trans (h.trans (perm_sortStrings ys).symm))
  exact fun a b _ _ => strLe_antisymm

theorem nodup_eraseDups (fs : List GoString) : fs.eraseDups.Nodup := by
  induction hn : fs.length using Nat.strong_induction_on generalizing fs with
  | _ n ih =>
    subst hn
    cases fs with
    | nil => simp
    | cons f fs =>
      rw [List.eraseDups_cons, List.nodup_cons]
      exact ⟨by simp, ih _ (Nat.lt_succ_of_le (List.length_filter_le _ fs)) _ rfl⟩

def sortedSet (s : Finset GoString) : List GoString :=
  Quot.liftOn s.val sortStrings (fun _ _ => sortStrings_congr)

theorem perm_sortedSet (s : Finset GoString) : (sortedSet s : Multiset GoString) = s.val := by
  rw [sortedSet]
  induction s.val using Quot.inductionOn with
  | _ xs => exact Quot.sound (perm_sortStrings xs)

theorem sum_sortedSet {M : Type} [AddCommMonoid M] (s : Finset GoString) (f : GoString → M) :
    ((sortedSet s).map f).sum = ∑ x ∈ s, f x := by
  rw [Finset.sum, ← perm_sortedSet s, Multiset.map_coe, Multiset.sum_coe]

@[simp] theorem mem_sortedSet {s : Finset GoString} {x : GoString} : x ∈ sortedSet s ↔ x ∈ s := by
  rw [← Multiset.mem_coe, perm_sortedSet, Finset.mem_val]

end GoString

namespace GoMap

open GoString

variable {V : Type}

def sortedKeys (m : GoMap GoString V) : List GoString := sortedSet m.keys

@[simp] theorem mem_sortedKeys {m : GoMap GoString V} {k : GoString} : k ∈ sortedKeys m ↔ k ∈ m.keys := mem_sortedSet

/-- The keys of a map as a `range` loop finds them: those that `order` names first. -/
def iterated (order : List GoString) (m : GoMap GoString V) : List GoString :=
  (order ++ sortedKeys m).eraseDups.filter (· ∈ m.keys)

theorem mem_iterated {order : List GoString} {m : GoMap GoString V} {k : GoString} :
    k ∈ iterated order m ↔ k ∈ m.keys := by
  simp only [iterated, List.mem_filter, List.mem_eraseDups, List.mem_append, mem_sortedKeys, decide_eq_true_eq]
  exact ⟨fun h => h.2, fun h => ⟨.inr h, h⟩⟩

theorem nodup_iterated (order : List GoString) (m : GoMap GoString V) : (iterated order m).Nodup :=
  (nodup_eraseDups _).filter _

end GoMap

end CodeMemory.Lib
