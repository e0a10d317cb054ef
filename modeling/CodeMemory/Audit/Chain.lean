import CodeMemory.Lib.Fields
import CodeMemory.Lib.Result

/-! The hash-linked audit chain. A link hashes the columns of its event and the digest
before it, with a NUL byte between each two. The columns are free texts and may hold NUL
bytes themselves, so the last digest of an accepted chain determines the chain up to the
place where one column ends and the next begins: two chains with the same end are equal
exactly when corresponding columns hold equally many NUL bytes. -/

namespace CodeMemory.Audit

open Lib Lib.Decimal Lib.Fields Lib.GoString Lib.Result List

/-- Every event column bound by the chain. -/
structure EventMetadata where
  sequence : UInt64
  eventID : GoString
  tenant : GoString
  aggregateType : GoString
  aggregateID : GoString
  aggregateVersion : UInt64
  commandID : GoString
  payloadDigest : GoString
  occurredAtMs : Int64
  deriving DecidableEq

structure Entry where
  metadata : EventMetadata
  previous : GoString
  digest : GoString
  deriving DecidableEq

inductive Error where
  | corrupt
  deriving DecidableEq

def validMetadata (m : EventMetadata) : Bool :=
  m.sequence > 0 && m.eventID ≠ [] && m.tenant ≠ [] && m.aggregateType ≠ [] && m.aggregateID ≠ [] &&
    m.aggregateVersion > 0 && m.commandID ≠ [] && m.payloadDigest ≠ [] && m.occurredAtMs > 0

/-- What stands between the NUL bytes of the hashed text. -/
def fields (m : EventMetadata) (previous : GoString) : List GoString :=
  [lit "v1", natText m.sequence.toNat, m.eventID, m.tenant, m.aggregateType, m.aggregateID,
    natText m.aggregateVersion.toNat, m.commandID, m.payloadDigest, intText m.occurredAtMs.toInt, previous]

def material (m : EventMetadata) (previous : GoString) : GoString := separated 0x00 (fields m previous)

section

variable (sha256 : GoString → GoString)

def next (m : EventMetadata) (previous : GoString) : Except Error GoString :=
  if validMetadata m then .ok (hexText (sha256 (material m previous))) else .error .corrupt

/-- One turn of the loop of `verify`: the entry before, if there is one, and the digest expected as the
predecessor's. -/
def verifyEntry (before : Option Entry) (previous : GoString) (entry : Entry) : Except Error Unit :=
  if before.any (fun b => entry.metadata.sequence ≤ b.metadata.sequence) then .error .corrupt
  else if entry.previous ≠ previous then .error .corrupt
  else if next sha256 entry.metadata previous ≠ .ok entry.digest then .error .corrupt
  else .ok ()

def verifyFrom : Option Entry → GoString → List Entry → Except Error Unit
  | _, _, [] => .ok ()
  | before, previous, entry :: entries => do
    verifyEntry sha256 before previous entry
    verifyFrom (some entry) entry.digest entries

def verify (entries : List Entry) : Except Error Unit := verifyFrom sha256 none [] entries

end

section

variable {sha256 : GoString → GoString} {previous : GoString} {entry : Entry} {before : Option Entry}
  {m m' : EventMetadata} {previous' : GoString}

theorem verifyEntry_eq_ok_iff : verifyEntry sha256 before previous entry = .ok () ↔
      (∀ b ∈ before, b.metadata.sequence < entry.metadata.sequence) ∧ entry.previous = previous ∧
        next sha256 entry.metadata previous = .ok entry.digest := by
  rw [verifyEntry, guard_eq_ok_iff, guard_eq_ok_iff, guard_eq_ok_iff]
  cases before with
  | none => simp
  | some b => simp

theorem next_eq_ok_iff {digest : GoString} :
    next sha256 m previous = .ok digest ↔ validMetadata m = true ∧ digest = hexText (sha256 (material m previous)) := by
  rw [next]
  split
  · rename_i hvalid
    simp only [Except.ok.injEq, hvalid, true_and]
    exact eq_comm
  · rename_i hvalid
    simp [hvalid]

def head (entries : List Entry) : GoString := (entries.getLast?.map (·.digest)).getD []

variable {entries : List Entry}

theorem verifyFrom_concat (h : verifyFrom sha256 before previous (entries ++ [entry]) = .ok ()) :
    verifyFrom sha256 before previous entries = .ok () ∧
      entry.previous = (entries.getLast?.map (·.digest)).getD previous ∧
        next sha256 entry.metadata entry.previous = .ok entry.digest := by
  induction entries generalizing before previous with
  | nil =>
    obtain ⟨hentry, -⟩ := andThen_eq_ok_iff.mp h
    obtain ⟨-, hprev, hnext⟩ := verifyEntry_eq_ok_iff.mp hentry
    exact ⟨rfl, hprev, hprev ▸ hnext⟩
  | cons first entries ih =>
    obtain ⟨hfirst, hrest⟩ := andThen_eq_ok_iff.mp h
    obtain ⟨hok, hprev, hnext⟩ := ih hrest
    refine ⟨andThen_eq_ok_iff.mpr ⟨hfirst, hok⟩, ?_, hnext⟩
    rw [hprev]
    cases entries with
    | nil => rfl
    | cons second entries =>
      rfl

/-- An entry accepted after others names their last digest, and its own is the hash of its text. -/
theorem verify_concat (h : verify sha256 (entries ++ [entry]) = .ok ()) :
    verify sha256 entries = .ok () ∧ entry.previous = head entries ∧
      entry.digest = hexText (sha256 (material entry.metadata entry.previous)) := by
  obtain ⟨hok, hprev, hnext⟩ := verifyFrom_concat h
  exact ⟨hok, hprev, (next_eq_ok_iff.mp hnext).2⟩

@[simp] theorem head_concat (entries : List Entry) (entry : Entry) : head (entries ++ [entry]) = entry.digest := by
  simp [head]

theorem count_head (h : verify sha256 entries = .ok ()) : (head entries).count 0x00 = 0 := by
  induction entries using List.reverseRecOn with
  | nil => rfl
  | append_singleton entries entry _ =>
    rw [head_concat, (verify_concat h).2.2]
    exact count_hexText (by decide) _

def EventMetadata.texts (m : EventMetadata) : List GoString :=
  [m.eventID, m.tenant, m.aggregateType, m.aggregateID, m.commandID, m.payloadDigest]

/-- How many NUL bytes each of these columns holds. -/
def EventMetadata.nuls (m : EventMetadata) : List ℕ := m.texts.map (List.count 0x00)

theorem fields_inj (h : fields m previous = fields m' previous') : m = m' ∧ previous = previous' := by
  obtain ⟨sequence, eventID, tenant, aggregateType, aggregateID, aggregateVersion, commandID, payloadDigest,
    occurredAtMs⟩ := m
  simp only [fields, List.cons.injEq, and_true, true_and] at h
  obtain ⟨hsequence, rfl, rfl, rfl, rfl, hversion, rfl, rfl, hoccurred, hprev⟩ := h
  obtain rfl := UInt64.toNat_inj.mp (natText_injective hsequence)
  obtain rfl := UInt64.toNat_inj.mp (natText_injective hversion)
  obtain rfl := Int64.toInt_inj.mp (intText_injective hoccurred)
  exact ⟨rfl, hprev⟩

/-- The hashed text determines the columns, if it is known how many NUL bytes each holds. -/
theorem material_inj (hnuls : m.nuls = m'.nuls) (hprev : previous.count 0x00 = 0) (hprev' : previous'.count 0x00 = 0)
    (h : material m previous = material m' previous') : m = m' ∧ previous = previous' := by
  apply fields_inj
  refine separated_inj_of_count ?_ h
  have hdigit : isDigit 0x00 = false := rfl
  simp only [EventMetadata.nuls, EventMetadata.texts, map_cons, map_nil, List.cons.injEq, and_true] at hnuls
  simp [fields, count_natText hdigit, count_intText hdigit (by decide), hnuls, hprev, hprev']

def hashed (entries : List Entry) : List GoString := entries.map fun e => material e.metadata e.previous

theorem eq_of_head_eq {entries' : List Entry}
    (hfree : ∀ s ∈ hashed entries, ∀ t ∈ hashed entries', sha256 s = sha256 t → s = t)
    (h : verify sha256 entries = .ok ()) (h' : verify sha256 entries' = .ok ())
    (hnuls : entries.map (·.metadata.nuls) = entries'.map (·.metadata.nuls))
    (hhead : head entries = head entries') : entries = entries' := by
  -- from the last entry back: equal digests have equal texts, and a text ends in the digest before it
  induction entries using List.reverseRecOn generalizing entries' with
  | nil => exact (map_eq_nil_iff.mp hnuls.symm).symm
  | append_singleton entries e ih =>
    cases entries' using List.reverseRecOn with
    | nil => simp at hnuls
    | append_singleton entries' e' =>
      obtain ⟨hok, hprev, hdig⟩ := verify_concat h
      obtain ⟨hok', hprev', hdig'⟩ := verify_concat h'
      rw [map_append, map_append] at hnuls
      obtain ⟨hrest, hlast⟩ := append_inj' hnuls rfl
      simp only [head_concat] at hhead
      have htext : material e.metadata e.previous = material e'.metadata e'.previous := by
        refine hfree _ (by simp [hashed]) _ (by simp [hashed]) (hexText_injective ?_)
        rw [← hdig, ← hdig', hhead]
      obtain ⟨hmetadata, hsame⟩ := material_inj (by simpa using hlast) (hprev ▸ count_head hok)
        (hprev' ▸ count_head hok') htext
      have hentries : entries = entries' := by
        refine ih (fun s hs t ht => hfree s ?_ t ?_) hok hok' hrest (by rw [← hprev, ← hprev', hsame])
        · exact mem_map.mpr ((mem_map.mp hs).imp fun _ ha => ⟨mem_append_left _ ha.1, ha.2⟩)
        · exact mem_map.mpr ((mem_map.mp ht).imp fun _ ha => ⟨mem_append_left _ ha.1, ha.2⟩)
      have hentry : e = e' := by
        cases e
        cases e'
        exact (Entry.mk.injEq ..).mpr ⟨hmetadata, hsame, hhead⟩
      rw [hentries, hentry]

/-- Two accepted chains of one length that end in the same digest are equal exactly when at every position corresponding
columns hold equally many NUL bytes; columns with no NUL byte at all are a case of that. -/
theorem verify_determined_iff {entries entries' : List Entry}
    (hfree : ∀ s ∈ hashed entries, ∀ t ∈ hashed entries', sha256 s = sha256 t → s = t)
    (h : verify sha256 entries = .ok ()) (h' : verify sha256 entries' = .ok ())
    (hlength : entries.length = entries'.length)
    (hlast : entries.getLast?.map (·.digest) = entries'.getLast?.map (·.digest)) :
    entries = entries' ↔
      ∀ (i : ℕ) (e e' : Entry), entries[i]? = some e → entries'[i]? = some e' → e.metadata.nuls = e'.metadata.nuls := by
  constructor
  · rintro rfl i e e' he he'
    rw [Option.some.inj (he.symm.trans he')]
  · intro hnuls
    refine eq_of_head_eq hfree h h' (ext_getElem (by simp [hlength]) fun i hi hi' => ?_) (by rw [head, hlast, head])
    simp only [length_map] at hi hi'
    rw [getElem_map, getElem_map]
    exact hnuls i _ _ (List.getElem?_eq_getElem hi) (List.getElem?_eq_getElem hi')

end

def sampleMetadata (sequence : UInt64) (eventID tenant : GoString) : EventMetadata where
  sequence := sequence
  eventID := eventID
  tenant := tenant
  aggregateType := lit "run"
  aggregateID := lit "r1"
  aggregateVersion := 1
  commandID := lit "c1"
  payloadDigest := lit "d1"
  occurredAtMs := 1

/-- The chain of the given events, with the hashed text itself in the place of its hash. -/
def chainFrom (previous : GoString) : List EventMetadata → List Entry
  | [] => []
  | m :: ms => ⟨m, previous, hexText (material m previous)⟩ :: chainFrom (hexText (material m previous)) ms

/-- The event `a NUL b` of the tenant `c`, and another event after it. -/
def sampleChain : List Entry :=
  chainFrom [] [sampleMetadata 1 (lit "a\x00b") (lit "c"), sampleMetadata 2 (lit "e") (lit "t")]

/-- The event `a` of the tenant `b NUL c` in the place of the first. -/
def forgedChain : List Entry :=
  chainFrom [] [sampleMetadata 1 (lit "a") (lit "b\x00c"), sampleMetadata 2 (lit "e") (lit "t")]

/-- The forged chain is accepted with the digest of the other, although no two texts collide. -/
theorem verify_determined_fails :
    verify id sampleChain = .ok () ∧ verify id forgedChain = .ok () ∧ sampleChain.length = forgedChain.length ∧
      sampleChain.getLast?.map (·.digest) = forgedChain.getLast?.map (·.digest) ∧ sampleChain ≠ forgedChain := by
  decide +kernel

theorem verify_determined_sample :
    ¬ ∀ (i : ℕ) (e e' : Entry), sampleChain[i]? = some e → forgedChain[i]? = some e' →
      e.metadata.nuls = e'.metadata.nuls := by
  have h : verify id sampleChain = .ok () := by decide +kernel
  have h' : verify id forgedChain = .ok () := by decide +kernel
  have hlast : sampleChain.getLast?.map (·.digest) = forgedChain.getLast?.map (·.digest) := by decide +kernel
  have hne : sampleChain ≠ forgedChain := by decide +kernel
  exact fun hnuls => hne ((verify_determined_iff (fun _ _ _ _ heq => heq) h h' rfl hlast).mpr hnuls)

end CodeMemory.Audit
