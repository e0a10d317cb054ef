import CodeMemory.Lib.JsonRoundTrip
import CodeMemory.Lib.Order

/-! Structs, maps and slices in JSON text, as `encoding/json` writes and reads
them. A struct is written field by field, without those that are empty and may
be omitted. It is read member by member: a key names the field spelled alike, or
else the first that differs in case only, and a later member of the same field is
decoded over the earlier one. -/

namespace CodeMemory.Lib.Json

open GoString Decimal List

/-- The members of a struct, from its fields with their values or their absence. -/
def emit (fs : List (GoString × Option Json)) : List (GoString × Json) :=
  fs.filterMap (fun f => f.2.map (fun j => (f.1, j)))

def int64 (n : Int64) : Json := .num (intText n.toInt)

def uint64 (n : UInt64) : Json := .num (natText n.toNat)

def omitString (s : GoString) : Option Json := if s = [] then none else some (.str s)

def omitInt64 (n : Int64) : Option Json := if n = 0 then none else some (int64 n)

def omitStrings (xs : List GoString) : Option Json := if xs = [] then none else some (.arr (xs.map .str))

/-- A map is written in the order of its keys. -/
def omitCounts (m : GoMap GoString Int64) : Option Json :=
  if m.keys = ∅ then none
  else some (.obj ((GoMap.sortedKeys m).map (fun k => (k, int64 ((m.lookup k).getD 0)))))

/-- Simple case folding, as far as it can reach an ASCII letter. -/
def foldRune (r : Rune) : Rune :=
  if 0x61 ≤ r ∧ r ≤ 0x7A then r - 0x20
  else if r = 0x17F then 0x53
  else if r = 0x212A then 0x4B
  else r

def foldName (s : GoString) : List Rune := (runes s).map foldRune

/-- The field that a key is decoded into. -/
def fieldOf (names : List GoString) (key : GoString) : Option GoString :=
  (names.find? (fun n => n = key)).or (names.find? (fun n => foldName n = foldName key))

def known (names : List GoString) (ms : List (GoString × Json)) : Bool :=
  ms.all (fun m => (fieldOf names m.1).isSome)

def valuesOf (names : List GoString) (ms : List (GoString × Json)) (name : GoString) : List Json :=
  ms.filterMap (fun m => if fieldOf names m.1 = some name then some m.2 else none)

/-- The value of a field after all members were decoded into it. -/
def readField {α : Type} (names : List GoString) (ms : List (GoString × Json)) (decode : α → Json → Option α)
    (name : GoString) (old : α) : Option α :=
  (valuesOf names ms name).foldlM decode old

def decodeString (old : GoString) : Json → Option GoString
  | .str s => some s
  | .null => some old
  | _ => none

def decodeUint64 (old : UInt64) : Json → Option UInt64
  | .num text => ((parseNat? text).filter (fun n => n < 2 ^ 64)).map UInt64.ofNat
  | .null => some old
  | _ => none

def decodeInt64 (old : Int64) : Json → Option Int64
  | .num text => ((parseInt? text).filter (fun n => -2 ^ 63 ≤ n ∧ n < 2 ^ 63)).map Int64.ofInt
  | .null => some old
  | _ => none

/-- The elements of an array, each decoded over the one of the old slice in its place. -/
def decodeList {α : Type} (zero : α) (decode : α → Json → Option α) : List α → List Json → Option (List α)
  | _, [] => some []
  | old, x :: xs => do
    let y ← decode (old.headD zero) x
    let ys ← decodeList zero decode old.tail xs
    return y :: ys

def decodeArray {α : Type} (zero : α) (decode : α → Json → Option α) (old : List α) : Json → Option (List α)
  | .arr xs => decodeList zero decode old xs
  | .null => some []
  | _ => none

/-- A pointer to a struct that is made when it is not there. -/
def decodePointer {α : Type} (zero : α) (decode : α → Json → Option α) (old : Option α) : Json → Option (Option α)
  | .null => some none
  | j => (decode (old.getD zero) j).map some

theorem cleanMembers_eq (ms : List (GoString × Json)) :
    cleanMembers ms = ms.map (fun m => (toValid m.1, clean m.2)) := by
  induction ms with
  | nil => rfl
  | cons m ms ih => rw [cleanMembers, ih, map_cons]

theorem fieldOf_mem {names : List GoString} {n : GoString} (h : n ∈ names) : fieldOf names n = some n := by
  rw [fieldOf]
  cases hf : names.find? (fun m => m = n) with
  | none => simpa using List.find?_eq_none.mp hf n h
  | some m =>
    have hm : m = n := by simpa using List.find?_some hf
    rw [hm]
    rfl

/-- The numbers in a value that may be omitted are those of the grammar. -/
def NumbersOf (o : Option Json) : Prop := ∀ j, o = some j → Numbers j

variable {fs : List (GoString × Option Json)} {α V : Type}

theorem numbersMembers_emit (h : ∀ f ∈ fs, NumbersOf f.2) : NumbersMembers (emit fs) := by
  induction fs with
  | nil => trivial
  | cons f fs ih =>
    rw [forall_mem_cons] at h
    obtain ⟨n, o⟩ := f
    cases o with
    | none => exact ih h.2
    | some j => exact ⟨h.1 j rfl, ih h.2⟩

variable {j : Json}

@[simp] theorem numbersOf_some_iff : NumbersOf (some j) ↔ Numbers j := by
  simp [NumbersOf]

@[simp] theorem numbers_str (s : GoString) : Numbers (.str s) := trivial

theorem numbersOf_ite {p : Prop} [Decidable p] (h : Numbers j) : NumbersOf (if p then none else some j) := by
  split_ifs
  · rintro _ ⟨⟩
  · exact numbersOf_some_iff.mpr h

@[simp] theorem numbers_int64 (n : Int64) : Numbers (int64 n) := isNumber_intText n.toInt

@[simp] theorem numbers_uint64 (n : UInt64) : Numbers (uint64 n) := isNumber_natText n.toNat

/-- The fields of a struct to write, with distinct names in valid UTF-8. -/
structure Fields (names : List GoString) (fs : List (GoString × Option Json)) : Prop where
  map_fst : fs.map Prod.fst = names
  nodup : names.Nodup
  valid : ∀ n ∈ names, validString n = true

variable {names : List GoString} {fs : List (GoString × Option Json)}

section

variable (h : Fields names fs)
include h

theorem Fields.mem_names {f : GoString × Option Json} (hf : f ∈ fs) : f.1 ∈ names :=
  h.map_fst ▸ mem_map_of_mem hf

theorem mem_cleanMembers_emit {n : GoString}
    (hm : (n, j) ∈ cleanMembers (emit fs)) : ∃ v, (n, some v) ∈ fs ∧ j = clean v := by
  rw [cleanMembers_eq, mem_map] at hm
  obtain ⟨⟨n', v⟩, hm, he⟩ := hm
  obtain ⟨⟨n'', o⟩, hf, ho⟩ := mem_filterMap.mp hm
  obtain ⟨v', rfl, hv⟩ := Option.map_eq_some_iff.mp ho
  obtain ⟨rfl, rfl⟩ := Prod.mk.inj hv
  have hvalid := h.valid n'' (h.mem_names hf)
  obtain ⟨rfl, rfl⟩ := Prod.mk.inj he
  refine ⟨v', ?_, rfl⟩
  have hn : toValid n'' = n'' := (toValid_eq_self_iff n'').mpr hvalid
  exact hn.symm ▸ hf

theorem known_emit : known names (cleanMembers (emit fs)) = true := by
  refine all_eq_true.mpr (fun m hm => ?_)
  obtain ⟨v, hv, -⟩ := mem_cleanMembers_emit h (n := m.1) (j := m.2) hm
  rw [fieldOf_mem (h.mem_names hv)]
  rfl

theorem valuesOf_emit (name : GoString) :
    valuesOf names (cleanMembers (emit fs)) name =
      fs.filterMap (fun f => if f.1 = name then f.2.map clean else none) := by
  rw [valuesOf, cleanMembers_eq, emit, filterMap_map, filterMap_filterMap]
  refine filterMap_congr (fun f hf => ?_)
  have hmem := h.mem_names hf
  cases hv : f.2 with
  | none => simp
  | some v =>
    simp only [Option.map_some, Option.bind_some, Function.comp_apply,
      (toValid_eq_self_iff _).mpr (h.valid _ hmem), fieldOf_mem hmem, Option.some.injEq]

end

variable {name : GoString}

theorem filterMap_unique (h : (fs.map Prod.fst).Nodup) {v : Option Json} (hm : (name, v) ∈ fs) :
    fs.filterMap (fun f => if f.1 = name then f.2.map clean else none) = (v.map clean).toList := by
  induction fs with
  | nil => cases hm
  | cons f fs ih =>
    rw [map_cons, nodup_cons] at h
    rcases mem_cons.mp hm with rfl | hm
    · have hrest : fs.filterMap (fun f => if f.1 = name then f.2.map clean else none) = [] := by
        refine filterMap_eq_nil_iff.mpr (fun f hf => if_neg ?_)
        exact fun he => h.1 (mem_map.mpr ⟨f, hf, he⟩)
      cases v <;> simp [hrest]
    · have hne : f.1 ≠ name := fun he => h.1 (mem_map.mpr ⟨(name, v), hm, he.symm⟩)
      rw [filterMap_cons, if_neg hne]
      exact ih h.2 hm

/-- Reading a field of a written struct. -/
theorem readField_present (h : Fields names fs) (hm : (name, some j) ∈ fs) (decode : α → Json → Option α) (old : α) :
    readField names (cleanMembers (emit fs)) decode name old = decode old (clean j) := by
  rw [readField, valuesOf_emit h, filterMap_unique (h.map_fst ▸ h.nodup) hm]
  simp

theorem readField_absent (h : Fields names fs) (hm : (name, none) ∈ fs) (decode : α → Json → Option α) (old : α) :
    readField names (cleanMembers (emit fs)) decode name old = some old := by
  rw [readField, valuesOf_emit h, filterMap_unique (h.map_fst ▸ h.nodup) hm]
  rfl

section

variable (h : Fields names fs) {name : GoString}
include h

variable {s : GoString} {n : Int64} {α β : Type} {zero : α} {decode : α → Json → Option α} {encode : β → Json}
  {asRead : β → α}

theorem readField_str (hm : (name, some (.str s)) ∈ fs) :
    readField names (cleanMembers (emit fs)) decodeString name [] = some (toValid s) :=
  readField_present h hm decodeString []

theorem readField_uint64 {n : UInt64} (hm : (name, some (uint64 n)) ∈ fs) :
    readField names (cleanMembers (emit fs)) decodeUint64 name 0 = some n := by
  have hn : n.toNat < 2 ^ 64 := n.toNat_lt
  rw [readField_present h hm]
  simp only [uint64, clean, decodeUint64, parseNat?_natText, Option.filter_some, hn, decide_true, if_true,
    Option.map_some, UInt64.ofNat_toNat]

omit h in
theorem decodeInt64_int64 (old n : Int64) : decodeInt64 old (int64 n) = some n := by
  have hrange : -2 ^ 63 ≤ n.toInt ∧ n.toInt < 2 ^ 63 := ⟨n.le_toInt, n.toInt_lt⟩
  rw [int64, decodeInt64, parseInt?_intText, Option.filter_some, if_pos (by simpa using hrange),
    Option.map_some, Int64.ofInt_toInt]

theorem readField_int64 (hm : (name, some (int64 n)) ∈ fs) :
    readField names (cleanMembers (emit fs)) decodeInt64 name 0 = some n := by
  rw [readField_present h hm]
  exact decodeInt64_int64 0 n

omit h in
theorem decodeList_map (hdecode : ∀ b, decode zero (clean (encode b)) = some (asRead b)) (bs : List β) :
    decodeList zero decode [] (cleanElems (bs.map encode)) = some (bs.map asRead) := by
  induction bs with
  | nil => rfl
  | cons b bs ih =>
    rw [map_cons, cleanElems, decodeList, tail_nil, ih, headD_nil, hdecode]
    rfl

theorem readField_array (hdecode : ∀ b, decode zero (clean (encode b)) = some (asRead b)) {l : List β}
    (hm : (name, some (.arr (l.map encode))) ∈ fs) :
    readField names (cleanMembers (emit fs)) (decodeArray zero decode) name [] = some (l.map asRead) := by
  rw [readField_present h hm, clean]
  exact decodeList_map hdecode l

end

end CodeMemory.Lib.Json
