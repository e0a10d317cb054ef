import CodeMemory.Lib.Fields
import CodeMemory.Lib.Order
import CodeMemory.Lib.Trim

/-! The text that the key of a cached retrieval is the hash of. Its fields end in a NUL
byte and its lists are joined with the byte one; no field is kept from holding either. -/

namespace CodeMemory.Hosted

open Lib Lib.GoString List

structure SecurityContext where
  profile : GoString
  principal : GoString
  owner : GoString

/-- What `retrieveCacheKey` puts into a key: `plan` and `prod` as they are printed, the digest of the settings and the
identity of the filter. -/
structure Retrieval where
  brainID : GoString
  generation : GoString
  security : SecurityContext
  question : GoString
  topK : ℤ
  questionType : GoString
  mode : GoString
  plan : GoString
  sourceTypes : List GoString
  expandLite : Bool
  prod : GoString
  configDigest : GoString
  filterIdentity : GoString

/-- `strings.Fields`: the pieces between white space; `word` is the piece at hand. -/
def stringFields : ℕ → GoString → GoString → List GoString
  | 0, word, _ => [word]
  | _, word, [] => [word]
  | n + 1, word, b :: s =>
    match spaces.find? (·.isPrefixOf (b :: s)) with
    | some w => word :: stringFields n [] ((b :: s).drop w.length)
    | none => stringFields n (word ++ [b]) s

section Key

variable (toLower : GoString → GoString)

def normalizeCacheQuestion (q : GoString) : GoString :=
  Fields.separated 0x20 ((stringFields (toLower q).length [] (toLower q)).filter (· ≠ []))

def SecurityContext.fields (s : SecurityContext) : List GoString :=
  [s.profile, trimSpace s.principal, trimSpace s.owner]

def secDigest (s : SecurityContext) : GoString := Fields.separated 0x01 s.fields

/-- The loop of `itoa`: the digits of a number, as long as there is room for them. -/
def itoaLoop : ℕ → ℕ → GoString → Option (ℕ × GoString)
  | room, 0, text => some (room, text)
  | 0, _ + 1, _ => none
  | room + 1, n + 1, text => itoaLoop room ((n + 1) / 10) (UInt8.ofNat (0x30 + (n + 1) % 10) :: text)

/-- `itoa` has a buffer of 16 bytes and panics where that is too short. The least `int` is its own negative. -/
def itoa (n : ℤ) : Option GoString :=
  if n = 0 then some (lit "0")
  else
    (itoaLoop 16 (if n < 0 then (-n).bmod (2 ^ 64) else n).toNat []).bind fun digits =>
      if 0 ≤ n then some digits.2 else if digits.1 = 0 then none else some (0x2D :: digits.2)

def Retrieval.sourceText (r : Retrieval) : GoString := Fields.separated 0x01 (sortStrings r.sourceTypes)

/-- The fields up to the source types, and those after them. -/
def Retrieval.lead (r : Retrieval) (topK : GoString) : List GoString :=
  [r.brainID, r.generation, secDigest r.security, normalizeCacheQuestion toLower r.question, topK,
    toLower (trimSpace r.questionType), toLower (trimSpace r.mode), r.plan, r.sourceText]

def Retrieval.rest (r : Retrieval) : List GoString :=
  [if r.expandLite then lit "1" else [], r.prod, r.configDigest, r.filterIdentity, []]

/-- The text that `cacheKey` hashes: every field ends in a NUL byte. -/
def cacheKeyText (r : Retrieval) : Option GoString :=
  (itoa r.topK).map fun topK => Fields.separated 0 (r.lead toLower topK ++ r.rest)

/-- What two requests may not share an answer across. -/
def Retrieval.identity (r : Retrieval) : List GoString × Finset GoString :=
  ([r.brainID, r.generation, r.mode, r.security.principal, r.security.owner, r.security.profile,
    normalizeCacheQuestion toLower r.question], r.sourceTypes.toFinset)

/-- The identity as the key writes it, and the other fields. -/
structure Retrieval.WrittenAlike (r r' : Retrieval) : Prop where
  identity : Retrieval.identity toLower
      { r with mode := toLower (trimSpace r.mode)
               security := ⟨r.security.profile, trimSpace r.security.principal, trimSpace r.security.owner⟩ } =
    Retrieval.identity toLower
      { r' with mode := toLower (trimSpace r'.mode)
                security := ⟨r'.security.profile, trimSpace r'.security.principal, trimSpace r'.security.owner⟩ }
  types : sortStrings r.sourceTypes = sortStrings r'.sourceTypes
  others : itoa r.topK = itoa r'.topK ∧ toLower (trimSpace r.questionType) = toLower (trimSpace r'.questionType) ∧
    r.plan = r'.plan ∧ Fields.separated 0 r.rest = Fields.separated 0 r'.rest

/-- Corresponding fields of two requests hold equally many separators; lists of source types may instead hold none, if
neither is that of one empty type. -/
structure Retrieval.LinedUp (r r' : Retrieval) : Prop where
  fields : (r.lead toLower []).map (List.count 0) = (r'.lead toLower []).map (List.count 0)
  security : r.security.fields.map (List.count 1) = r'.security.fields.map (List.count 1)
  sourceTypes : (sortStrings r.sourceTypes).map (List.count 1) = (sortStrings r'.sourceTypes).map (List.count 1) ∨
    ((∀ s ∈ r.sourceTypes ++ r'.sourceTypes, 1 ∉ s) ∧ r.sourceTypes ≠ [[]] ∧ r'.sourceTypes ≠ [[]])

end Key

theorem notMem_itoaLoop {room n : ℕ} {text : GoString} {digits : ℕ × GoString} (h : itoaLoop room n text = some digits)
    (htext : 0 ∉ text) : 0 ∉ digits.2 := by
  fun_induction itoaLoop room n text with
  | case1 room text =>
    cases h
    exact htext
  | case2 => cases h
  | case3 room n text ih =>
    refine ih h fun hmem => (mem_cons.mp hmem).elim (fun hzero => ?_) htext
    have := congrArg UInt8.toNat hzero
    simp only [UInt8.toNat_ofNat', UInt8.toNat_zero] at this
    omega

theorem notMem_itoa {n : ℤ} {text : GoString} (h : itoa n = some text) : 0 ∉ text := by
  unfold itoa at h
  by_cases hzero : n = 0
  · rw [if_pos hzero] at h
    cases h
    decide
  · rw [if_neg hzero] at h
    obtain ⟨digits, hdigits, htext⟩ := Option.bind_eq_some_iff.mp h
    have hfree := notMem_itoaLoop hdigits not_mem_nil
    split_ifs at htext
    · cases htext
      exact hfree
    · cases htext
      exact fun hmem => (mem_cons.mp hmem).elim (by decide) hfree

variable {toLower : GoString → GoString} {r r' : Retrieval} {text text' : GoString}

theorem Retrieval.LinedUp.sourceTypes_eq (h : r.LinedUp toLower r') (heq : r.sourceText = r'.sourceText) :
    sortStrings r.sourceTypes = sortStrings r'.sourceTypes := by
  rcases h.sourceTypes with hcount | ⟨hfree, hne, hne'⟩
  · exact Fields.separated_inj_of_count hcount heq
  · have hsingle : ∀ {types : List GoString}, types ≠ [[]] → sortStrings types ≠ [[]] := by
      intro types hne hsort
      exact hne (perm_singleton.mp ((perm_sortStrings types).symm.trans (.of_eq hsort)))
    refine Fields.separated_inj_of_notMem (fun s hs => hfree s ?_) (fun s hs => hfree s ?_) (hsingle hne)
      (hsingle hne') heq
    · exact mem_append_left _ ((perm_sortStrings _).mem_iff.mp hs)
    · exact mem_append_right _ ((perm_sortStrings _).mem_iff.mp hs)

/-- Where the separators line up, two requests have different key texts just when they are not written alike. -/
theorem cacheKey_separates_iff (hlined : r.LinedUp toLower r') (h : cacheKeyText toLower r = some text)
    (h' : cacheKeyText toLower r' = some text') : text ≠ text' ↔ ¬ r.WrittenAlike toLower r' := by
  obtain ⟨topK, htopK, rfl⟩ := Option.map_eq_some_iff.mp h
  obtain ⟨topK', htopK', rfl⟩ := Option.map_eq_some_iff.mp h'
  have hcount : (r.lead toLower topK).map (List.count 0) = (r'.lead toLower topK').map (List.count 0) := by
    have hfields := hlined.fields
    simp only [Retrieval.lead, map_cons, List.cons.injEq] at hfields ⊢
    rw [count_eq_zero.mpr (notMem_itoa htopK), count_eq_zero.mpr (notMem_itoa htopK')]
    tauto
  refine not_congr ((Fields.separated_append_eq_iff hcount (cons_ne_nil _ _) (cons_ne_nil _ _)).trans ?_)
  constructor
  · rintro ⟨hlead, hrest⟩
    simp only [Retrieval.lead, List.cons.injEq, and_true] at hlead
    obtain ⟨hbrain, hgen, hsecurity, hq, rfl, htype, hmode, hplan, hsources⟩ := hlead
    have htypes := hlined.sourceTypes_eq hsources
    have hset : r.sourceTypes.toFinset = r'.sourceTypes.toFinset := by
      rw [← toFinset_eq_of_perm _ _ (perm_sortStrings r.sourceTypes), htypes,
        toFinset_eq_of_perm _ _ (perm_sortStrings r'.sourceTypes)]
    have hfs := Fields.separated_inj_of_count hlined.security hsecurity
    simp only [SecurityContext.fields, List.cons.injEq, and_true] at hfs
    refine ⟨?_, htypes, htopK.trans htopK'.symm, htype, hplan, hrest⟩
    simp only [Retrieval.identity, hbrain, hgen, hmode, hfs, hq, hset]
  · rintro ⟨hid, htypes, ⟨htop, htype, hplan, hrest⟩⟩
    rw [htopK, htopK', Option.some.injEq] at htop
    simp only [Retrieval.identity, Prod.mk.injEq, List.cons.injEq, and_true] at hid
    obtain ⟨⟨hbrain, hgen, hmode, hprincipal, howner, hprofile, hq⟩, -⟩ := hid
    refine ⟨?_, hrest⟩
    simp only [Retrieval.lead, Retrieval.sourceText, secDigest, SecurityContext.fields, hbrain, hgen, hmode, hprincipal,
      howner, hprofile, hq, htypes, htop, htype, hplan]

def sampleRetrieval (brainID generation mode principal owner : GoString) (sourceTypes : List GoString) : Retrieval :=
  ⟨brainID, generation, ⟨[], principal, owner⟩, [], 8, [], mode, [], sourceTypes, false, [], [], []⟩

/-- Pairs of requests of different brains, owners, source types and principals with one key text. -/
theorem cacheKey_collides :
    cacheKeyText id (sampleRetrieval [0x61, 0, 0x62] [0x63] [] [] [] []) =
      cacheKeyText id (sampleRetrieval [0x61] [0x62, 0, 0x63] [] [] [] []) ∧
    cacheKeyText id (sampleRetrieval [] [] [] [0x61, 1, 0x62] [0x63] []) =
      cacheKeyText id (sampleRetrieval [] [] [] [0x61] [0x62, 1, 0x63] []) ∧
    cacheKeyText id (sampleRetrieval [] [] [] [] [] [[0x61, 1, 0x62]]) =
      cacheKeyText id (sampleRetrieval [] [] [] [] [] [[0x61], [0x62]]) ∧
    cacheKeyText id (sampleRetrieval [] [] [] [0x61] [] []) =
      cacheKeyText id (sampleRetrieval [] [] [] [0x20, 0x61] [] []) ∧
    (cacheKeyText id (sampleRetrieval [] [] [] [0x61] [] [])).isSome = true := by
  decide +kernel

/-- Two principals that ask in one mode, which is not in lower case. -/
theorem cacheKey_separates_principals :
    (cacheKeyText id (sampleRetrieval [0x61] [0x62] [0x46] [0x63] [0x64] [[0x65]])).get (by decide +kernel) ≠
      (cacheKeyText id (sampleRetrieval [0x61] [0x62] [0x46] [0x64] [0x63] [[0x65]])).get (by decide +kernel) := by
  refine (cacheKey_separates_iff ⟨?_, ?_, .inl ?_⟩ (Option.some_get _).symm (Option.some_get _).symm).mpr fun h => ?_
  · decide +kernel
  · decide +kernel
  · decide +kernel
  · exact absurd h.identity (by decide +kernel)

end CodeMemory.Hosted
