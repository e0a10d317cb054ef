import CodeMemory.Lib.Decimal

/-! Fields written one after the other, each after its size. The text of a list of
fields determines the list when the text of a size shows where it ends. -/

namespace CodeMemory.Lib.Frames

open List

/-- The text of `n` in `w` bytes, the most significant first. -/
def bytesBE : Nat → Nat → GoString
  | 0, _ => []
  | w + 1, n => bytesBE w (n / 256) ++ [n.toUInt8]

@[simp] theorem length_bytesBE (w n : Nat) : (bytesBE w n).length = w := by
  induction w generalizing n with
  | zero => rfl
  | succ w ih => simp [bytesBE, ih]

theorem bytesBE_inj {w m n : Nat} (hm : m < 256 ^ w) (hn : n < 256 ^ w) (h : bytesBE w m = bytesBE w n) : m = n := by
  induction w generalizing m n with
  | zero => omega
  | succ w ih =>
    obtain ⟨hhigh, hlow⟩ := append_inj' h rfl
    have hdiv : m / 256 = n / 256 := ih (by omega) (by omega) hhigh
    have hmod : m % 256 = n % 256 := by simpa using congrArg UInt8.toNat (singleton_inj.mp hlow)
    omega

/-- The sizes below the bound are written so that what follows can be told from them. -/
structure Sizes (size : Nat → GoString) (bound : Nat) : Prop where
  ne_nil : ∀ n, size n ≠ []
  inj : ∀ {m n : Nat} {x y : GoString}, m < bound → n < bound → size m ++ x = size n ++ y → m = n ∧ x = y

theorem sizes_bytesBE (w : Nat) : Sizes (bytesBE (w + 1)) (256 ^ (w + 1)) where
  ne_nil n := by simp [bytesBE]
  inj hm hn h := by
    obtain ⟨hsize, hrest⟩ := append_inj h (by simp)
    exact ⟨bytesBE_inj hm hn hsize, hrest⟩

theorem takeWhile_natText (n : Nat) {b : UInt8} (hb : Decimal.isDigit b = false) (x : GoString) :
    (Decimal.natText n ++ b :: x).takeWhile Decimal.isDigit = Decimal.natText n := by
  rw [takeWhile_append_of_pos fun c hc => Decimal.isDigit_of_mem_natText hc]
  simp [hb]

/-- A decimal numeral before a byte that is no digit. -/
theorem sizes_natText {b : UInt8} (hb : Decimal.isDigit b = false) (bound : Nat) :
    Sizes (fun n => Decimal.natText n ++ [b]) bound where
  ne_nil n := by simp
  inj {m n x y} _ _ h := by
    simp only [append_assoc, singleton_append] at h
    have htext : Decimal.natText m = Decimal.natText n := by
      rw [← takeWhile_natText m hb x, h, takeWhile_natText n hb y]
    rw [htext] at h
    refine ⟨?_, cons_injective (append_cancel_left h)⟩
    rw [← Decimal.natValue_natText m, htext, Decimal.natValue_natText]

variable (size : Nat → GoString) (close : GoString)

/-- A field after its size and before the closing text. -/
def frame (s : GoString) : GoString := size s.length ++ (s ++ close)

def frames (fields : List GoString) : GoString := fields.flatMap (frame size close)

variable {size close} {bound : Nat}

theorem frame_append_inj (h : Sizes size bound) {s t x y : GoString} (hs : s.length < bound) (ht : t.length < bound)
    (heq : frame size close s ++ x = frame size close t ++ y) : s = t ∧ x = y := by
  simp only [frame, append_assoc] at heq
  obtain ⟨hlen, hrest⟩ := h.inj hs ht heq
  obtain ⟨hfield, hclose⟩ := append_inj hrest hlen
  exact ⟨hfield, append_cancel_left hclose⟩

theorem frames_inj (h : Sizes size bound) {fields fields' : List GoString} (hf : ∀ s ∈ fields, s.length < bound)
    (hf' : ∀ s ∈ fields', s.length < bound) (heq : frames size close fields = frames size close fields') :
    fields = fields' := by
  induction fields generalizing fields' with
  | nil =>
    cases fields' with
    | nil => rfl
    | cons t fields' => simp [frames, frame, h.ne_nil] at heq
  | cons s fields ih =>
    cases fields' with
    | nil => simp [frames, frame, h.ne_nil] at heq
    | cons t fields' =>
      rw [forall_mem_cons] at hf hf'
      obtain ⟨rfl, hrest⟩ := frame_append_inj h hf.1 hf'.1 heq
      rw [ih hf.2 hf'.2 hrest]

/-- When the sizes can be told apart however long the fields are, so can the texts. -/
theorem frames_injective (h : ∀ bound, Sizes size bound) : Function.Injective (frames size close) := by
  intro fields fields' heq
  have hbound : ∀ s ∈ fields ++ fields', s.length < ((fields ++ fields').map List.length).sum + 1 := by
    intro s hs
    exact Nat.lt_succ_of_le (le_sum_of_mem (mem_map_of_mem hs))
  exact frames_inj (h _) (fun s hs => hbound s (mem_append_left _ hs))
    (fun s hs => hbound s (mem_append_right _ hs)) heq

/-- Blocks of one size can be told apart. -/
theorem flatMap_block_inj {α β : Type} {f : α → List β} {n : Nat} (hn : 0 < n) (hf : ∀ a, (f a).length = n)
    {xs ys : List α} (h : xs.flatMap f = ys.flatMap f) : xs.map f = ys.map f := by
  induction xs generalizing ys with
  | nil =>
    cases ys with
    | nil => rfl
    | cons y ys =>
      have hlen := congrArg List.length h
      simp only [flatMap_nil, length_nil, flatMap_cons, length_append, hf] at hlen
      omega
  | cons x xs ih =>
    cases ys with
    | nil =>
      have hlen := congrArg List.length h
      simp only [flatMap_nil, length_nil, flatMap_cons, length_append, hf] at hlen
      omega
    | cons y ys =>
      obtain ⟨hblock, hrest⟩ := append_inj h ((hf x).trans (hf y).symm)
      rw [map_cons, map_cons, hblock, ih hrest]

end CodeMemory.Lib.Frames
