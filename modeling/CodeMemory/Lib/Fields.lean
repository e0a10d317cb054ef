import CodeMemory.Lib.Frames
import CodeMemory.Lib.Json

/-! Fields written one after the other with a separator byte between them. The text
determines the fields once it is known how many separators each field holds; numerals
and hexadecimal texts hold none. -/

namespace CodeMemory.Lib.Fields

open Decimal List

variable {b : UInt8} {s : GoString} {fields fields' : List GoString}

theorem append_cons_inj_of_count {s' t t' : GoString} (hcount : s.count b = s'.count b)
    (h : s ++ b :: t = s' ++ b :: t') : s = s' ∧ t = t' := by
  induction s generalizing s' with
  | nil =>
    cases s' with
    | nil => exact ⟨rfl, cons_injective h⟩
    | cons c s' =>
      obtain ⟨rfl, -⟩ := List.cons.inj h
      simp at hcount
  | cons c s ih =>
    cases s' with
    | nil =>
      obtain ⟨rfl, -⟩ := List.cons.inj h
      simp at hcount
    | cons c' s' =>
      obtain ⟨rfl, htail⟩ := List.cons.inj h
      simp only [count_cons, Nat.add_right_cancel_iff] at hcount
      obtain ⟨rfl, rfl⟩ := ih hcount htail
      exact ⟨rfl, rfl⟩

def separated (b : UInt8) (fields : List GoString) : GoString := List.intercalate [b] fields

theorem separated_cons_cons (b : UInt8) (s t : GoString) (fields : List GoString) :
    separated b (s :: t :: fields) = s ++ b :: separated b (t :: fields) := by
  simp [separated, List.intercalate]

/-- Fields that hold equally many separators can be read back from the text. -/
theorem separated_inj_of_count
    (hcount : fields.map (List.count b) = fields'.map (List.count b)) (h : separated b fields = separated b fields') :
    fields = fields' := by
  induction fields generalizing fields' with
  | nil => exact (map_eq_nil_iff.mp hcount.symm).symm
  | cons s fields ih =>
    obtain ⟨s', rest, rfl, hs, hrest⟩ := map_eq_cons_iff.mp hcount.symm
    cases fields with
    | nil =>
      obtain rfl : rest = [] := map_eq_nil_iff.mp hrest
      simpa [separated] using h
    | cons t fields =>
      obtain ⟨t', rest, rfl, -, -⟩ := map_eq_cons_iff.mp hrest
      obtain ⟨rfl, htail⟩ := append_cons_inj_of_count hs.symm h
      rw [ih hrest.symm htail]

/-- The first fields can be read back, whatever the others hold. -/
theorem separated_append_eq_iff {lead lead' rest rest' : List GoString}
    (hcount : lead.map (List.count b) = lead'.map (List.count b)) (hrest : rest ≠ []) (hrest' : rest' ≠ []) :
    separated b (lead ++ rest) = separated b (lead' ++ rest') ↔ lead = lead' ∧
      separated b rest = separated b rest' := by
  induction lead generalizing lead' with
  | nil =>
    obtain rfl := map_eq_nil_iff.mp hcount.symm
    exact (and_iff_right rfl).symm
  | cons s lead ih =>
    obtain ⟨s', lead', rfl, hs, hlead⟩ := map_eq_cons_iff.mp hcount.symm
    obtain ⟨t, fields, ht⟩ := exists_cons_of_ne_nil (append_ne_nil_of_right_ne_nil lead hrest)
    obtain ⟨t', fields', ht'⟩ := exists_cons_of_ne_nil (append_ne_nil_of_right_ne_nil lead' hrest')
    rw [cons_append, cons_append, ht, ht', separated_cons_cons, separated_cons_cons, ← ht, ← ht', List.cons.injEq,
      and_assoc, ← ih hlead.symm]
    constructor
    · exact append_cons_inj_of_count hs.symm
    · rintro ⟨rfl, htail⟩
      rw [htail]

/-- Fields without separators; a single empty field is written like none at all. -/
theorem separated_inj_of_notMem (h : ∀ s ∈ fields, b ∉ s) (h' : ∀ s ∈ fields', b ∉ s)
    (hne : fields ≠ [[]]) (hne' : fields' ≠ [[]]) (heq : separated b fields = separated b fields') :
    fields = fields' := by
  have hcount : ∀ {fields : List GoString}, (∀ s ∈ fields, b ∉ s) → fields ≠ [[]] →
      (separated b fields = [] ↔ fields = []) ∧ (separated b fields).count b = fields.length - 1 := by
    intro fields h hne
    refine ⟨?_, ?_⟩
    · rcases fields with _ | ⟨s, _ | ⟨t, fields⟩⟩
      · simp [separated]
      · simpa [separated] using hne
      · simp [separated_cons_cons]
    · clear hne
      induction fields with
      | nil => simp [separated]
      | cons s fields ih =>
        obtain ⟨hb, hrest⟩ := forall_mem_cons.mp h
        cases fields with
        | nil => simp [separated, count_eq_zero.mpr hb]
        | cons t fields =>
          rw [separated_cons_cons, count_append, count_cons_self, ih hrest, count_eq_zero.mpr hb]
          simp
  have hnil : fields = [] ↔ fields' = [] := by rw [← (hcount h hne).1, heq, (hcount h' hne').1]
  have hlen : fields.length = fields'.length := by
    have := (hcount h hne).2
    rw [heq, (hcount h' hne').2] at this
    rw [← length_eq_zero_iff, ← length_eq_zero_iff] at hnil
    omega
  refine separated_inj_of_count ?_ heq
  rw [map_congr_left fun s hs => count_eq_zero.mpr (h s hs),
    map_congr_left fun s hs => count_eq_zero.mpr (h' s hs), map_const', map_const', hlen]

theorem count_natText (hb : isDigit b = false) (n : ℕ) : (natText n).count b = 0 := by
  rw [count_eq_zero]
  intro hmem
  rw [isDigit_of_mem_natText hmem] at hb
  cases hb

theorem count_intText (hb : isDigit b = false) (hminus : b ≠ 0x2D) (n : ℤ) : (intText n).count b = 0 := by
  cases n with
  | ofNat n => exact count_natText hb n
  | negSucc n =>
    rw [intText, count_cons_of_ne hminus.symm]
    exact count_natText hb (n + 1)

theorem natText_injective : Function.Injective natText :=
  Function.LeftInverse.injective natValue_natText

theorem intText_injective : Function.Injective intText := by
  intro m n h
  rw [← Option.some_inj, ← parseInt?_intText m, h, parseInt?_intText]

def hexPair (b : UInt8) : GoString := [Json.hexDigit (b.toNat / 16), Json.hexDigit (b.toNat % 16)]

/-- `hex.EncodeToString`. -/
def hexText (s : GoString) : GoString := s.flatMap hexPair

theorem hexPair_injective : Function.Injective hexPair := by
  intro b c h
  obtain ⟨hhigh, hlow⟩ : Json.hexDigit (b.toNat / 16) = Json.hexDigit (c.toNat / 16) ∧
      Json.hexDigit (b.toNat % 16) = Json.hexDigit (c.toNat % 16) := by
    simpa [hexPair] using h
  have digit_inj : ∀ {m n : ℕ}, m < 16 → n < 16 → Json.hexDigit m = Json.hexDigit n → m = n := by
    intro m n hm hn heq
    rw [← Option.some_inj, ← Json.hexValue_hexDigit hm, heq, Json.hexValue_hexDigit hn]
  have hb := b.toNat_lt
  have hc := c.toNat_lt
  have hdiv := digit_inj (by omega) (by omega) hhigh
  have hmod := digit_inj (Nat.mod_lt _ (by decide)) (Nat.mod_lt _ (by decide)) hlow
  exact UInt8.toNat_inj.mp (by omega)

theorem hexText_injective : Function.Injective hexText := by
  intro s t h
  exact map_injective_iff.mpr hexPair_injective (Frames.flatMap_block_inj (by decide : 0 < 2) (fun _ => rfl) h)

/-- Every byte of a hexadecimal text is a digit or one of the letters `a` to `f`. -/
theorem isSome_hexValue_of_mem (h : b ∈ hexText s) : (Json.hexValue b).isSome = true := by
  obtain ⟨c, -, hb⟩ := mem_flatMap.mp h
  have hc := c.toNat_lt
  rcases mem_cons.mp hb with rfl | hb
  · rw [Json.hexValue_hexDigit (by omega)]
    rfl
  · rw [mem_singleton.mp hb, Json.hexValue_hexDigit (by omega)]
    rfl

theorem count_hexText (hb : Json.hexValue b = none) (s : GoString) : (hexText s).count b = 0 := by
  rw [count_eq_zero]
  intro hmem
  have h := isSome_hexValue_of_mem hmem
  rw [hb] at h
  cases h

end CodeMemory.Lib.Fields
