import CodeMemory.Ingestion.Authority
import CodeMemory.Lib.Chain

/-! The generations of a source form one line, whatever runs between the sections
of the calls. Identities are hashes: what is shown holds unless two of the texts that
were hashed in the run collide. -/

namespace CodeMemory.Ingestion

open Lib Lib.GoString List

variable {F C : Type} {cfg : Config F C}

theorem denialError_eq_none {a : Authority F C} : a.denialError = none ↔ a.tombstoned = false ∧ a.revoked = false := by
  unfold Authority.denialError
  cases a.tombstoned <;> cases a.revoked <;> simp

def Authority.recorded (cfg : Config F C) (a : Authority F C) (r : Request) (g : Generation F C) (publishes : Bool) :
    Authority F C :=
  { a with
    operations := a.operations.insert (cfg.digest r.key) ⟨signature cfg r, some g⟩
    normalOperations := a.normalOperations + 1
    current := if publishes then some g else a.current }

/-- What a section of a call for `r`, which scanned over `base`, can do. -/
inductive Turn (cfg : Config F C) (a : Authority F C) (r : Request) (base : Option (Generation F C)) :
    Outcome F C → Authority F C → Prop
  | fails (e : Err) : Turn cfg a r base (.fails e) a
  | scans (start : Option (Generation F C)) (live : a.denialError = none) (asks : r.denies = false)
    (known : ∀ g, start = some g → a.current = some g) : Turn cfg a r base (.scans start) a
  | replays (record : OperationRecord F C) (result : Option (Generation F C))
    (found : a.operations.lookup (cfg.digest r.key) = some record) (signed : record.signature = signature cfg r)
    (live : r.denies = false → a.denialError = none)
    (same : if r.denies then result = none else record.result = result) : Turn cfg a r base (.replays result) a
  | records (g : Generation F C) (live : a.denialError = none) (asks : r.denies = false)
    (fresh : a.operations.lookup (cfg.digest r.key) = none) (room : a.normalOperations < cfg.maxIdempotencyRecords)
    (known : a.current = some g) : Turn cfg a r base (.takes (some g) false) (a.recorded cfg r g false)
  | publishes (g : Generation F C) (live : a.denialError = none) (asks : r.denies = false)
    (fresh : a.operations.lookup (cfg.digest r.key) = none) (room : a.normalOperations < cfg.maxIdempotencyRecords)
    (identified : g.id = cfg.identity g.fields)
    (follows : (a.current = none ∧ g.sequence = 1 ∧ g.expectedPreviousID = []) ∨
      ∃ c b, a.current = some c ∧ base = some b ∧ c.id = b.id ∧ g.sequence = b.sequence + 1 ∧
        g.expectedPreviousID = b.id) : Turn cfg a r base (.takes (some g) true) (a.recorded cfg r g true)
  | revokes (asks : r.denies = true) (fresh : a.operations.lookup (cfg.digest r.key) = none) :
    Turn cfg a r base (.takes none false) { a.commitLifecycle cfg r with revoked := true }
  | tombstones (c : Option (Generation F C)) (asks : r.denies = true) (revoked : a.revoked = true)
    (fresh : a.operations.lookup (cfg.digest r.key) = none) :
    Turn cfg a r base (.takes none false) { a.commitLifecycle cfg r with tombstoned := true, current := c }

section Sections

variable {a : Authority F C} {r : Request} {base : Option (Generation F C)}

/-- The check of the key: a used key ends the section. -/
theorem turn_checked (hlive : r.denies = false → a.denialError = none) {fresh : Outcome F C × Authority F C}
    (h : a.operations.lookup (cfg.digest r.key) = none → Turn cfg a r base fresh.1 fresh.2) :
    Turn cfg a r base (a.checked cfg r fresh).1 (a.checked cfg r fresh).2 := by
  unfold Authority.checked
  split
  · next hfresh => exact h hfresh
  · next record hfound =>
    split
    · exact .fails _
    · next hsigned =>
      split
      · next hdenies => exact .replays record none hfound (not_not.mp hsigned) hlive (by rw [if_pos hdenies])
      · next hasks =>
        split
        · exact .fails _
        · next g hg => exact .replays record (some g) hfound (not_not.mp hsigned) hlive (by rw [if_neg hasks, hg])

/-- With a new key, a generation is recorded unless the records are full. -/
theorem turn_commit (hfresh : a.operations.lookup (cfg.digest r.key) = none) {g : Generation F C} {publishes : Bool}
    (h : a.normalOperations < cfg.maxIdempotencyRecords →
      Turn cfg a r base (.takes (some g) publishes) (a.recorded cfg r g publishes)) :
    Turn cfg a r base (a.commitGeneration cfg r g publishes).1 (a.commitGeneration cfg r g publishes).2 := by
  unfold Authority.commitGeneration
  simp only [hfresh, Option.isNone_none, true_and, if_true]
  by_cases hfull : cfg.maxIdempotencyRecords ≤ a.normalOperations
  · rw [if_pos hfull]
    exact .fails _
  · rw [if_neg hfull]
    exact h (Nat.lt_of_not_le hfull)

theorem turn_begin (a : Authority F C) (r : Request) :
    Turn cfg a r none (a.begin cfg r).1 (a.begin cfg r).2 := by
  cases r with
  | admitCommit commit key =>
    simp only [Authority.begin, Authority.admitCommit]
    split
    · exact .fails _
    · next hlive =>
      refine turn_checked (fun _ => hlive) fun hfresh => ?_
      split
      · next g hg =>
        split
        · exact turn_commit hfresh fun hroom => .records g hlive rfl hfresh hroom hg
        · exact .fails _
      · exact .scans none hlive rfl fun _ h => by cases h
  | reconcile generation commit target key =>
    simp only [Authority.begin, Authority.reconcile]
    split
    · exact .fails _
    · next hlive =>
      refine turn_checked (fun _ => hlive) fun hfresh => ?_
      split
      · exact .fails _
      · next g hg =>
        split
        · exact .fails _
        · split
          · exact turn_commit hfresh fun hroom => .records g hlive rfl hfresh hroom hg
          · refine .scans (some g) hlive rfl fun g' h => ?_
            rw [hg, h]
  | revoke generation key =>
    refine turn_checked (fun h => by cases h) fun hfresh => ?_
    split
    · exact .fails _
    · split
      · exact .fails _
      · split
        · exact .fails _
        · split
          · exact .fails _
          · exact .revokes rfl hfresh
  | tombstone generation key =>
    refine turn_checked (fun h => by cases h) fun hfresh => ?_
    split
    · exact .fails _
    · split
      · exact .fails _
      · split
        · exact .fails _
        · next hrev =>
          exact .tombstones _ rfl (by simpa using (not_or.mp hrev).1) hfresh

theorem turn_resume (a : Authority F C) (call : Call F C) (source : Option (Snapshot F)) :
    Turn cfg a call.request call.base (a.resume cfg call source).1 (a.resume cfg call source).2 := by
  unfold Authority.resume
  split
  · next commit key hr =>
    simp only [Authority.admitScanned]
    rw [hr]
    split
    · exact .fails _
    · exact .fails _
    · next source hlive =>
      refine turn_checked (fun _ => hlive) fun hfresh => ?_
      split
      · next g hg =>
        split
        · exact .fails _
        · exact turn_commit hfresh fun hroom => .records g hlive rfl hfresh hroom hg
      · next hnone =>
        exact turn_commit hfresh fun hroom => .publishes _ hlive rfl hfresh hroom rfl (.inl ⟨hnone, rfl, rfl⟩)
  · next generation commit target key base hr hbase =>
    simp only [Authority.reconcileScanned]
    rw [hr, hbase]
    split
    · exact .fails _
    · exact .fails _
    · next source hlive =>
      refine turn_checked (fun _ => hlive) fun hfresh => ?_
      split
      · exact .fails _
      · next g hg =>
        split
        · exact .fails _
        · next hsame =>
          have hid : g.id = base.id := not_not.mp (not_or.mp hsame).1
          exact turn_commit hfresh fun hroom =>
            .publishes _ hlive rfl hfresh hroom rfl (.inr ⟨g, base, hg, rfl, hid, rfl, rfl⟩)
  · exact .fails _

/-- The section of a request whose key and signature are recorded. -/
theorem begin_found {record : OperationRecord F C} (hfound : a.operations.lookup (cfg.digest r.key) = some record)
    (hsigned : record.signature = signature cfg r) (hkind : record.result.isSome = !r.denies) :
    a.begin cfg r = (.replays record.result, a) ∨
      (r.denies = false ∧ ∃ e, a.denialError = some e ∧ a.begin cfg r = (.fails e, a)) := by
  have hchk : ∀ fresh, a.checked cfg r fresh = (.replays record.result, a) := by
    intro fresh
    simp only [Authority.checked, hfound, hsigned, ne_eq, not_true_eq_false, if_false]
    cases hdenies : r.denies with
    | true =>
      rw [hdenies, Bool.not_true, Option.isSome_eq_false_iff, Option.isNone_iff_eq_none] at hkind
      simp [hkind]
    | false =>
      obtain ⟨g, hg⟩ := Option.isSome_iff_exists.mp (by rw [hkind, hdenies]; rfl)
      simp [hg]
  cases r with
  | admitCommit commit key =>
    simp only [Authority.begin, Authority.admitCommit]
    split
    · next e he => exact .inr ⟨rfl, e, he, rfl⟩
    · exact .inl (hchk _)
  | reconcile generation commit target key =>
    simp only [Authority.begin, Authority.reconcile]
    split
    · next e he => exact .inr ⟨rfl, e, he, rfl⟩
    · exact .inl (hchk _)
  | revoke generation key | tombstone generation key => exact .inl (hchk _)

end Sections

/-- No two of the texts that were hashed have one hash. -/
def Unmixed (cfg : Config F C) (s : System F C) : Prop :=
  ∀ x ∈ s.hashed, ∀ y ∈ s.hashed, cfg.identity x = cfg.identity y → x = y

instance (s : System F C) : Decidable (Unmixed cfg s) :=
  inferInstanceAs (Decidable (∀ x ∈ s.hashed, ∀ y ∈ s.hashed, cfg.identity x = cfg.identity y → x = y))

/-- The fields of a request and its key are all of it. -/
theorem Request.eq_of_fields {r r' : Request} (hfs : r.fields = r'.fields) (hkey : r.key = r'.key) : r = r' := by
  cases r <;> cases r' <;> simp_all [Request.fields, Request.key] <;> exact absurd hfs.1 (by decide)

theorem Request.denies_eq {r r' : Request} (hfs : r.fields = r'.fields) : r.denies = r'.denies := by
  cases r <;> cases r' <;> simp_all [Request.fields, Request.denies] <;> exact absurd hfs.1 (by decide)

/-- The records are those of the operations that took effect, one for each key, and an answer is that of an operation
with its fields. -/
structure Recorded (cfg : Config F C) (s : System F C) : Prop where
  call : ∀ c ∈ s.calls, c.request.valid = true ∧ c.request.fields ∈ s.hashed
  asked : ∀ e ∈ s.effects, e.request.valid = true ∧ e.request.fields ∈ s.hashed
  kind : ∀ e ∈ s.effects, e.result.isSome = !e.request.denies
  effect : ∀ e ∈ s.effects,
    s.authority.operations.lookup (cfg.digest e.request.key) = some ⟨signature cfg e.request, e.result⟩
  record : ∀ k record, s.authority.operations.lookup k = some record → ∃ e ∈ s.effects, cfg.digest e.request.key = k
  distinct : (s.effects.map fun e => cfg.digest e.request.key).Nodup
  answer : ∀ a ∈ s.answers, ∃ e ∈ s.effects,
    cfg.digest e.request.key = cfg.digest a.request.key ∧ e.request.fields = a.request.fields ∧ e.result = a.result
  answered : ∀ e ∈ s.effects, e ∈ s.answers
  denied : ∀ e ∈ s.effects, e.request.denies = true → s.authority.revoked = true

section Records

variable {s : System F C}

theorem recorded_start : Recorded cfg (System.start : System F C) where
  call _ h := by cases h
  asked _ h := by cases h
  kind _ h := by cases h
  effect _ h := by cases h
  record _ _ h := by simp [System.start] at h
  distinct := nodup_nil
  answer _ h := by cases h
  answered _ h := by cases h
  denied _ h := by cases h

theorem Recorded.weaken (h : Recorded cfg s) {calls : List (Call F C)} {hashed : List (List GoString)}
    (hcalls : ∀ c ∈ calls, c ∈ s.calls) (hhashed : ∀ x ∈ s.hashed, x ∈ hashed) :
    Recorded cfg { s with calls := calls, hashed := hashed } where
  call c hc := ⟨(h.call c (hcalls c hc)).1, hhashed _ (h.call c (hcalls c hc)).2⟩
  asked e he := ⟨(h.asked e he).1, hhashed _ (h.asked e he).2⟩
  kind := h.kind
  effect := h.effect
  record := h.record
  distinct := h.distinct
  answer := h.answer
  answered := h.answered
  denied := h.denied

variable {r : Request}

section

variable (h : Recorded cfg s)
include h

/-- A record with the signature of a request is that of an operation with its fields. -/
theorem Recorded.found (hfree : Unmixed cfg s) (hr : r.fields ∈ s.hashed)
    {record : OperationRecord F C} (hfound : s.authority.operations.lookup (cfg.digest r.key) = some record)
    (hsigned : record.signature = signature cfg r) :
    ∃ e ∈ s.effects, cfg.digest e.request.key = cfg.digest r.key ∧ e.request.fields = r.fields ∧
      record.result = e.result := by
  obtain ⟨e, he, hkey⟩ := h.record _ record hfound
  have hrec := h.effect e he
  rw [hkey, hfound] at hrec
  cases hrec
  exact ⟨e, he, hkey, hfree _ (h.asked e he).2 _ hr hsigned, rfl⟩

/-- An operation with a new key takes effect. -/
theorem Recorded.takes (hvalid : r.valid = true) (hr : r.fields ∈ s.hashed)
    (hfresh : s.authority.operations.lookup (cfg.digest r.key) = none) {result : Option (Generation F C)}
    (hkind : result.isSome = !r.denies) (a : Authority F C)
    (hops : a.operations = s.authority.operations.insert (cfg.digest r.key) ⟨signature cfg r, result⟩)
    (hrev : s.authority.revoked = true ∨ r.denies = true → a.revoked = true) {published : List (Generation F C)} :
    Recorded cfg { s with
      authority := a, answers := s.answers ++ [⟨r, result⟩], effects := s.effects ++ [⟨r, result⟩]
      published := published } := by
  -- No earlier operation has the key.
  have hnew : ∀ e ∈ s.effects, cfg.digest e.request.key ≠ cfg.digest r.key := by
    intro e he hkey
    have hrec := h.effect e he
    rw [hkey, hfresh] at hrec
    cases hrec
  refine ⟨h.call, forall_mem_append.mpr ⟨h.asked, forall_mem_singleton.mpr ⟨hvalid, hr⟩⟩,
    forall_mem_append.mpr ⟨h.kind, forall_mem_singleton.mpr hkind⟩,
    forall_mem_append.mpr ⟨fun e he => ?_, forall_mem_singleton.mpr ?_⟩, fun k record hrec => ?_, ?_,
    forall_mem_append.mpr ⟨fun answer hans => ?_, forall_mem_singleton.mpr ?_⟩,
    forall_mem_append.mpr ⟨fun e he => mem_append_left _ (h.answered e he), fun e he => mem_append_right _ he⟩,
    forall_mem_append.mpr ⟨fun e he hdenies => hrev (.inl (h.denied e he hdenies)),
      forall_mem_singleton.mpr fun hdenies => hrev (.inr hdenies)⟩⟩
  · rw [hops, Finmap.lookup_insert_of_ne _ (hnew e he)]
    exact h.effect e he
  · rw [hops]
    exact Finmap.lookup_insert _
  · by_cases hk : k = cfg.digest r.key
    · exact ⟨_, mem_append_right _ (mem_singleton_self _), hk.symm⟩
    · rw [hops, Finmap.lookup_insert_of_ne _ hk] at hrec
      obtain ⟨e, he, hkey⟩ := h.record k record hrec
      exact ⟨e, mem_append_left _ he, hkey⟩
  · rw [map_append, nodup_append]
    refine ⟨h.distinct, nodup_singleton _, fun k hk k' hk' heq => ?_⟩
    obtain ⟨e, he, rfl⟩ := mem_map.mp hk
    obtain rfl := mem_singleton.mp hk'
    exact hnew e he heq
  · obtain ⟨e, he, hsame⟩ := h.answer answer hans
    exact ⟨e, mem_append_left _ he, hsame⟩
  · exact ⟨_, mem_append_right _ (mem_singleton_self _), rfl, rfl, rfl⟩

/-- An answer that repeats that of an operation. -/
theorem Recorded.replays {e : Answer F C} (he : e ∈ s.effects)
    (hkey : cfg.digest e.request.key = cfg.digest r.key) (hfs : e.request.fields = r.fields) :
    Recorded cfg { s with answers := s.answers ++ [⟨r, e.result⟩] } :=
  ⟨h.call, h.asked, h.kind, h.effect, h.record, h.distinct,
    forall_mem_append.mpr ⟨h.answer, forall_mem_singleton.mpr ⟨e, he, hkey, hfs, rfl⟩⟩,
    fun e he => mem_append_left _ (h.answered e he), h.denied⟩

theorem Recorded.ends (hfree : Unmixed cfg s) (hvalid : r.valid = true)
    (hr : r.fields ∈ s.hashed) {base : Option (Generation F C)} {turn : Outcome F C × Authority F C}
    (hturn : Turn cfg s.authority r base turn.1 turn.2) : Recorded cfg (s.ends r turn) := by
  obtain ⟨o, a⟩ := turn
  cases hturn with
  | fails e => exact h
  | scans start live asks known =>
    exact ⟨forall_mem_append.mpr ⟨h.call, forall_mem_singleton.mpr ⟨hvalid, hr⟩⟩, h.asked, h.kind, h.effect, h.record,
      h.distinct, h.answer, h.answered, h.denied⟩
  | replays record result found signed live same =>
    obtain ⟨e, he, hkey, hfs, hres⟩ := h.found hfree hr found signed
    have hsame : result = e.result := by
      have hkind := h.kind e he
      rw [Request.denies_eq hfs] at hkind
      split at same
      · next hdenies =>
        rw [hdenies, Bool.not_true, Option.isSome_eq_false_iff, Option.isNone_iff_eq_none] at hkind
        rw [same, hkind]
      · rw [← same, hres]
    rw [hsame]
    exact h.replays he hkey hfs
  | records g live asks fresh room known =>
    exact h.takes hvalid hr fresh (by rw [asks]; rfl) (s.authority.recorded cfg r g false) rfl
      fun hor => hor.elim id (by simp [asks])
  | publishes g live asks fresh room identified follows =>
    exact (h.takes hvalid hr fresh (by rw [asks]; rfl) (s.authority.recorded cfg r g true) rfl
      fun hor => hor.elim id (by simp [asks])).weaken (fun _ hc => hc) fun _ hx => mem_append_left _ hx
  | revokes asks fresh =>
    exact h.takes hvalid hr fresh (by rw [asks]; rfl) { s.authority.commitLifecycle cfg r with revoked := true } rfl
      fun _ => rfl
  | tombstones c asks revoked fresh =>
    exact h.takes hvalid hr fresh (by rw [asks]; rfl)
      { s.authority.commitLifecycle cfg r with tombstoned := true, current := c } rfl fun _ => revoked

end

end Records

/-- The generations are numbered from one, each names the one before it, and a scan starts from one of them. -/
structure Chained (cfg : Config F C) (s : System F C) : Prop where
  chain : Chain (fun g => g.sequence.toNat) Generation.id Generation.expectedPreviousID [] s.published
  current : s.authority.denialError = none → s.authority.current = s.published.getLast?
  base : ∀ c ∈ s.calls, ∀ g, c.base = some g → g ∈ s.published
  identified : ∀ g ∈ s.published, g.id = cfg.identity g.fields ∧ g.fields ∈ s.hashed
  counted : s.published.length ≤ s.authority.normalOperations
  room : s.authority.normalOperations ≤ cfg.maxIdempotencyRecords

section Chain

variable {s : System F C}

theorem chained_start : Chained cfg (System.start : System F C) where
  chain := .nil
  current _ := rfl
  base _ h := by cases h
  identified g h := by cases h
  counted := Nat.le_refl _
  room := Nat.zero_le _

theorem Chained.weaken (h : Chained cfg s) {calls : List (Call F C)} {hashed : List (List GoString)}
    (hcalls : ∀ c ∈ calls, c ∈ s.calls) (hhashed : ∀ x ∈ s.hashed, x ∈ hashed) :
    Chained cfg { s with calls := calls, hashed := hashed } where
  chain := h.chain
  current := h.current
  base c hc := h.base c (hcalls c hc)
  identified g hg := ⟨(h.identified g hg).1, hhashed _ (h.identified g hg).2⟩
  counted := h.counted
  room := h.room

variable {g : Generation F C}

section

variable (h : Chained cfg s)
include h

/-- Generations with one id have one number. -/
theorem Chained.sequence_eq (hfree : Unmixed cfg s) {g' : Generation F C} (hg : g ∈ s.published)
    (hg' : g' ∈ s.published) (hid : g.id = g'.id) : g.sequence = g'.sequence := by
  have hhash : cfg.identity g.fields = cfg.identity g'.fields := by
    rw [← (h.identified g hg).1, ← (h.identified g' hg').1, hid]
  have hfs := hfree _ (h.identified g hg).2 _ (h.identified g' hg').2 hhash
  simp only [Generation.fields, List.cons.injEq] at hfs
  have hvalue := congrArg Decimal.natValue hfs.2.2.1
  rw [Decimal.natValue_natText, Decimal.natValue_natText] at hvalue
  exact UInt64.toNat_inj.mp hvalue

variable {base : Option (Generation F C)} {r : Request}

/-- The number and the predecessor of a generation that comes next. -/
theorem Chained.follows (hfree : Unmixed cfg s) (hlive : s.authority.denialError = none)
    (hbase : ∀ b, base = some b → b ∈ s.published) (hroom : s.authority.normalOperations < cfg.maxIdempotencyRecords)
    (hfollows : (s.authority.current = none ∧ g.sequence = 1 ∧ g.expectedPreviousID = []) ∨
      ∃ c b, s.authority.current = some c ∧ base = some b ∧ c.id = b.id ∧ g.sequence = b.sequence + 1 ∧
        g.expectedPreviousID = b.id) : g.sequence.toNat = s.published.length + 1 ∧
      g.expectedPreviousID = (s.published.getLast?.map Generation.id).getD [] := by
  have hcur := h.current hlive
  rcases hfollows with ⟨hnone, hseq, hprev⟩ | ⟨c, b, hc, hb, hid, hseq, hprev⟩
  · have hempty : s.published = [] := by rwa [hnone, eq_comm, List.getLast?_eq_none_iff] at hcur
    rw [hempty, hseq, hprev]
    exact ⟨rfl, rfl⟩
  · rw [hc] at hcur
    have hmem : c ∈ s.published := mem_of_getLast? hcur.symm
    have hsame := h.sequence_eq hfree hmem (hbase b hb) hid
    have hlast : c.sequence.toNat = s.published.length := h.chain.number_last hcur.symm
    constructor
    · -- The number of records is a Go `int`, so the number of generations stays below the wrap.
      have hbound := h.counted
      have hmax := cfg.bounded
      rw [hseq, ← hsame, UInt64.toNat_add, UInt64.toNat_one]
      omega
    · rw [← hcur, hprev, ← hid]
      rfl

theorem Chained.publish (hid : g.id = cfg.identity g.fields)
    (hroom : s.authority.normalOperations < cfg.maxIdempotencyRecords)
    (hseq : g.sequence.toNat = s.published.length + 1)
    (hprev : g.expectedPreviousID = (s.published.getLast?.map Generation.id).getD []) :
    Chained cfg (s.ends r (.takes (some g) true, s.authority.recorded cfg r g true)) where
  chain := .snoc _ _ h.chain hseq hprev
  current _ := List.getLast?_concat.symm
  base c hc b hb := mem_append_left _ (h.base c hc b hb)
  identified := forall_mem_append.mpr
    ⟨fun g' hg' => ⟨(h.identified g' hg').1, mem_append_left _ (h.identified g' hg').2⟩,
      forall_mem_singleton.mpr ⟨hid, mem_append_right _ (mem_singleton_self _)⟩⟩
  counted := by
    change (s.published ++ [g]).length ≤ s.authority.normalOperations + 1
    rw [length_append, length_singleton]
    exact Nat.succ_le_succ h.counted
  room := hroom

theorem Chained.ends (hfree : Unmixed cfg s)
    (hbase : ∀ b, base = some b → b ∈ s.published) {turn : Outcome F C × Authority F C}
    (hturn : Turn cfg s.authority r base turn.1 turn.2) : Chained cfg (s.ends r turn) := by
  obtain ⟨o, a⟩ := turn
  cases hturn with
  | fails e => exact h
  | scans start live asks known =>
    refine ⟨h.chain, h.current, forall_mem_append.mpr ⟨h.base, forall_mem_singleton.mpr fun g hg => ?_⟩, h.identified,
      h.counted, h.room⟩
    have hcur := h.current live
    rw [known g hg] at hcur
    exact mem_of_getLast? hcur.symm
  | replays record result found signed live same => exact ⟨h.chain, h.current, h.base, h.identified, h.counted, h.room⟩
  | records g live asks fresh room known =>
    exact ⟨h.chain, h.current, h.base, h.identified, Nat.le_succ_of_le h.counted, room⟩
  | publishes g live asks fresh room identified follows =>
    obtain ⟨hseq, hprev⟩ := h.follows hfree live hbase room follows
    exact h.publish identified room hseq hprev
  | revokes asks fresh =>
    refine ⟨h.chain, fun hlive => ?_, h.base, h.identified, h.counted, h.room⟩
    cases (denialError_eq_none.mp hlive).2
  | tombstones c asks revoked fresh =>
    refine ⟨h.chain, fun hlive => ?_, h.base, h.identified, h.counted, h.room⟩
    cases (denialError_eq_none.mp hlive).1

end

end Chain

section Runs

variable {s : System F C} {r : Request} {turn : Outcome F C × Authority F C} {x : List GoString} {e : Answer F C}
  {s' : System F C}

theorem hashed_ends (hx : x ∈ s.hashed) : x ∈ (s.ends r turn).hashed := by
  unfold System.ends
  split
  · exact hx
  · exact hx
  · exact hx
  · split
    · exact mem_append_left _ hx
    · exact hx

theorem effects_ends (he : e ∈ s.effects) : e ∈ (s.ends r turn).effects := by
  unfold System.ends
  split
  · exact he
  · exact he
  · exact he
  · exact mem_append_left _ he

/-- What an event does: nothing, or the end of a section of a call, in a state with the calls and the hashed texts that
the section finds. -/
inductive Ending (cfg : Config F C) (s : System F C) : System F C → Prop
  | same : Ending cfg s s
  | ends (r : Request) (base : Option (Generation F C)) (turn : Outcome F C × Authority F C) (calls : List (Call F C))
    (hashed : List (List GoString)) (turns : Turn cfg s.authority r base turn.1 turn.2)
    (kept : ∀ c ∈ calls, c ∈ s.calls) (grown : ∀ x ∈ s.hashed, x ∈ hashed)
    (origin : (r.valid = true ∧ r.fields ∈ hashed ∧ base = none) ∨ ⟨r, base⟩ ∈ s.calls) :
    Ending cfg s ({ s with calls := calls, hashed := hashed }.ends r turn)

theorem ending_step (cfg : Config F C) (s : System F C) (e : Event F) : Ending cfg s (s.step cfg e) := by
  cases e with
  | call r =>
    simp only [System.step]
    split
    · next hvalid =>
      exact .ends r none _ s.calls _ (turn_begin _ _) (fun _ hc => hc) (fun _ hx => mem_append_left _ hx)
        (.inl ⟨hvalid, mem_append_right _ (mem_singleton_self _), rfl⟩)
    · exact .same
  | scanned i source =>
    simp only [System.step]
    split
    · exact .same
    · next call hcall =>
      exact .ends call.request call.base _ _ s.hashed (turn_resume _ _ _) (fun _ hc => mem_of_mem_eraseIdx hc)
        (fun _ hx => hx) (.inr (mem_of_getElem? hcall))

theorem Ending.hashed (h : Ending cfg s s') (hx : x ∈ s.hashed) : x ∈ s'.hashed := by
  cases h with
  | same => exact hx
  | ends r base turn calls hashed turns kept grown origin => exact hashed_ends (grown x hx)

theorem Ending.effects (h : Ending cfg s s') (he : e ∈ s.effects) : e ∈ s'.effects := by
  cases h with
  | same => exact he
  | ends => exact effects_ends he

theorem hashed_run (es : List (Event F)) (hx : x ∈ s.hashed) : x ∈ (s.run cfg es).hashed :=
  List.foldlRecOn (motive := (x ∈ ·.hashed)) es _ hx fun s hs e _ => (ending_step cfg s e).hashed hs

theorem effects_run (es : List (Event F)) (he : e ∈ s.effects) : e ∈ (s.run cfg es).effects :=
  List.foldlRecOn (motive := (e ∈ ·.effects)) es _ he fun s hs event _ => (ending_step cfg s event).effects hs

theorem Unmixed.of_grown (h : Unmixed cfg s') (hgrown : ∀ x ∈ s.hashed, x ∈ s'.hashed) : Unmixed cfg s :=
  fun x hx y hy => h x (hgrown x hx) y (hgrown y hy)

theorem Ending.sound (hending : Ending cfg s s') (hfree : Unmixed cfg s')
    (h : Recorded cfg s ∧ Chained cfg s) : Recorded cfg s' ∧ Chained cfg s' := by
  cases hending with
  | same => exact h
  | ends r base turn calls hashed turns kept grown origin =>
    have hr : r.valid = true ∧ r.fields ∈ hashed ∧ ∀ b, base = some b → b ∈ s.published := by
      rcases origin with ⟨hvalid, hr, rfl⟩ | hcall
      · exact ⟨hvalid, hr, fun _ hb => by cases hb⟩
      · exact ⟨(h.1.call _ hcall).1, grown _ (h.1.call _ hcall).2, h.2.base _ hcall⟩
    have hfree' := hfree.of_grown (s := { s with calls := calls, hashed := hashed }) fun _ hx => hashed_ends hx
    exact ⟨(h.1.weaken kept grown).ends hfree' hr.1 hr.2.1 turns, (h.2.weaken kept grown).ends hfree' hr.2.2 turns⟩

theorem sound_run (es : List (Event F)) (hfree : Unmixed cfg (System.start.run cfg es : System F C)) :
    Recorded cfg (System.start.run cfg es : System F C) ∧ Chained cfg (System.start.run cfg es : System F C) := by
  induction es using List.reverseRecOn with
  | nil => exact ⟨recorded_start, chained_start⟩
  | append_singleton es e ih =>
    rw [System.run, foldl_concat] at hfree ⊢
    have hending := ending_step cfg (System.start.run cfg es) e
    exact hending.sound hfree (ih (hfree.of_grown fun _ hx => hending.hashed hx))

/-- Once the source is revoked it stays so, nothing is published and no generation is answered. -/
theorem Ending.revoked (hending : Ending cfg s s') (hrev : s.authority.revoked = true) :
    s'.authority.revoked = true ∧ s'.published = s.published ∧
      (s'.answers.filter fun a => !a.request.denies) = s.answers.filter fun a => !a.request.denies := by
  have hdead : s.authority.denialError ≠ none := by simp [denialError_eq_none, hrev]
  cases hending with
  | same => exact ⟨hrev, rfl, rfl⟩
  | ends r base turn calls hashed turns kept grown origin =>
    obtain ⟨o, a⟩ := turn
    cases turns with
    | fails e => exact ⟨hrev, rfl, rfl⟩
    | scans start live asks known => exact absurd live hdead
    | replays record result found signed live same =>
      have hdenies : r.denies = true := by
        by_contra hasks
        exact hdead (live (by simpa using hasks))
      exact ⟨hrev, rfl, by simp [System.ends, hdenies]⟩
    | records g live asks fresh room known | publishes g live asks fresh room identified follows =>
      exact absurd live hdead
    | revokes asks fresh => exact ⟨rfl, rfl, by simp [System.ends, asks]⟩
    | tombstones c asks revoked fresh => exact ⟨hrev, rfl, by simp [System.ends, asks]⟩

theorem revoked_run (cfg : Config F C) (hrev : s.authority.revoked = true) (es : List (Event F)) :
    (s.run cfg es).authority.revoked = true ∧ (s.run cfg es).published = s.published ∧
      ((s.run cfg es).answers.filter fun a => !a.request.denies) = s.answers.filter fun a => !a.request.denies := by
  induction es generalizing s with
  | nil => exact ⟨hrev, rfl, rfl⟩
  | cons e es ih =>
    obtain ⟨hstep, hpub, hanswers⟩ := (ending_step cfg s e).revoked hrev
    obtain ⟨hrun, hpub', hanswers'⟩ := ih hstep
    exact ⟨hrun, hpub'.trans hpub, hanswers'.trans hanswers⟩

theorem readCurrent_of_revoked {a : Authority F C} (h : a.revoked = true) : ∃ e, a.readCurrent = .error e := by
  unfold Authority.readCurrent
  split
  · exact ⟨_, rfl⟩
  · exact ⟨_, rfl⟩

/-- Answers with one key are one answer. -/
theorem Recorded.answer_unique (h : Recorded cfg s) {a b : Answer F C} (ha : a ∈ s.answers) (hb : b ∈ s.answers)
    (hkey : a.request.key = b.request.key) : a = b := by
  obtain ⟨e, he, hkeye, hfieldse, hresulte⟩ := h.answer a ha
  obtain ⟨f, hf, hkeyf, hfieldsf, hresultf⟩ := h.answer b hb
  have hsame : e = f := by
    refine inj_on_of_nodup_map h.distinct he hf ?_
    rw [hkeye, hkeyf, hkey]
  subst hsame
  obtain ⟨ra, ga⟩ := a
  obtain ⟨rb, gb⟩ := b
  have hreq : ra = rb := Request.eq_of_fields (hfieldse.symm.trans hfieldsf) hkey
  have hres : ga = gb := hresulte.symm.trans hresultf
  rw [hreq, hres]

/-- A retry of an operation that took effect is answered the same, unless the source denies generations. -/
theorem Recorded.retry (h : Recorded cfg s) (he : e ∈ s.effects) :
    (s.step cfg (.call e.request)).answers = s.answers ++ [e] ∨
      (e.request.denies = false ∧ s.authority.denialError ≠ none ∧
        (s.step cfg (.call e.request)).answers = s.answers) := by
  have hbegin := begin_found (h.effect e he) rfl (h.kind e he)
  simp only [System.step, if_pos (h.asked e he).1]
  rcases hbegin with hreplay | ⟨hasks, err, hdenial, hfails⟩
  · rw [hreplay]
    exact .inl rfl
  · rw [hfails, hdenial]
    exact .inr ⟨hasks, Option.some_ne_none err, rfl⟩

end Runs

/-- The generations of a source form one line. In every interleaving without a collision: generation `i` has the number
`i + 1` and names the generation before it; a key takes effect once, a retry of it is answered the same unless the
source denies generations, and no other request with the key is ever answered; once a `Revoke` or a `Tombstone` was
answered, nothing more is published and no generation is given out. -/
theorem generations_linear (cfg : Config F C) (before after : List (Event F)) (s t : System F C)
    (hs : s = System.start.run cfg before) (ht : t = s.run cfg after) (hfree : Unmixed cfg t) :
    ((∀ i g, t.published[i]? = some g → g.sequence.toNat = i + 1) ∧
      (∀ g, t.published[0]? = some g → g.expectedPreviousID = []) ∧
      ∀ i g g', t.published[i]? = some g → t.published[i + 1]? = some g' → g'.expectedPreviousID = g.id) ∧
    ((t.effects.map fun e => e.request.key).Nodup ∧
      (∀ e ∈ s.effects, e ∈ t.effects ∧ e ∈ t.answers ∧
        ((t.step cfg (.call e.request)).answers = t.answers ++ [e] ∨
          (e.request.denies = false ∧ t.authority.denialError ≠ none ∧
            (t.step cfg (.call e.request)).answers = t.answers))) ∧
      ∀ a ∈ t.answers, ∀ b ∈ t.answers, a.request.key = b.request.key → a = b) ∧
    ((∃ d ∈ s.answers, d.request.denies = true) →
      t.published = s.published ∧
      ((t.answers.filter fun a => !a.request.denies) = s.answers.filter fun a => !a.request.denies) ∧
      ∃ e, t.authority.readCurrent = .error e) := by
  have hrun : t = System.start.run cfg (before ++ after) := by
    rw [ht, hs, System.run, System.run, System.run, foldl_append]
  have hsound : Recorded cfg t ∧ Chained cfg t := by
    rw [hrun]
    exact sound_run _ (hrun ▸ hfree)
  obtain ⟨hrec, hchained⟩ := hsound
  refine ⟨⟨fun i g hg => hchained.chain.number_eq hg, fun g hg => hchained.chain.previous_first hg,
    fun i g g' hg hg' => hchained.chain.previous_next hg hg'⟩, ⟨?_, fun e he => ?_, fun a ha b hb hkey => ?_⟩, ?_⟩
  · -- Keys with different digests differ.
    refine List.Nodup.of_map cfg.digest ?_
    rw [map_map]
    exact hrec.distinct
  · have he' : e ∈ t.effects := ht ▸ effects_run after he
    exact ⟨he', hrec.answered e he', hrec.retry he'⟩
  · exact hrec.answer_unique ha hb hkey
  · rintro ⟨d, hd, hdenies⟩
    have hgrown : ∀ x ∈ s.hashed, x ∈ t.hashed := fun x hx => ht ▸ hashed_run after hx
    have hsound := sound_run before (hs ▸ hfree.of_grown hgrown)
    rw [← hs] at hsound
    obtain ⟨e, he, -, hfs, -⟩ := hsound.1.answer d hd
    have hrev := hsound.1.denied e he (by rw [Request.denies_eq hfs, hdenies])
    obtain ⟨hstill, hpub, hanswers⟩ := revoked_run cfg hrev after
    rw [← ht] at hstill hpub hanswers
    exact ⟨hpub, hanswers, readCurrent_of_revoked hstill⟩

/-- A source with stand-ins for its hashes: texts of 64 hexadecimal digits that tell lengths apart. -/
def sampleConfig : Config Unit Unit where
  sourceID := lit "repo1"
  maxIdempotencyRecords := 10
  bounded := by decide
  identity fields := List.replicate 63 0x30 ++ [Decimal.digit (fields.flatten.length % 10)]
  digest key := key
  deriveDelta _ _ := [()]

def sampleOID (b : UInt8) : GoString := List.replicate 40 b

def sampleSnapshot (b : UInt8) : Snapshot Unit := ⟨[b], sampleOID b, sampleOID b, ⟨[], [], [()]⟩⟩

def sampleID (n : ℕ) : GoString := List.replicate 63 0x30 ++ [Decimal.digit n]

/-- A source is admitted by two calls that scan at once, reconciled, asked again under a used key, and revoked. -/
def sampleBefore : List (Event Unit) :=
  [.call (.admitCommit (sampleOID 0x61) (lit "k1")), .call (.admitCommit (sampleOID 0x61) (lit "k2")),
    .scanned 0 (some (sampleSnapshot 0x61)), .scanned 0 (some (sampleSnapshot 0x61)),
    .call (.reconcile (sampleID 7) (sampleOID 0x61) (sampleOID 0x62) (lit "k3")),
    .scanned 0 (some (sampleSnapshot 0x62)),
    .call (.reconcile (sampleID 7) (sampleOID 0x61) (sampleOID 0x62) (lit "k1")),
    .call (.revoke (sampleID 1) (lit "k4"))]

def sampleAfter : List (Event Unit) :=
  [.call (.admitCommit (sampleOID 0x61) (lit "k1")), .call (.revoke (sampleID 1) (lit "k4"))]

/-- Two generations are published, and the source is revoked. -/
theorem generations_linear_revoked :
    let s := System.start.run sampleConfig sampleBefore
    let t := s.run sampleConfig sampleAfter
    (t.published.length = 2 ∧ t.effects.length = 4 ∧ t.answers.length = 5) ∧
      (∀ i g, t.published[i]? = some g → g.sequence.toNat = i + 1) ∧ t.published = s.published := by
  intro s t
  have hfree : Unmixed sampleConfig t := by decide +kernel
  have hlinear := generations_linear sampleConfig sampleBefore sampleAfter s t rfl rfl hfree
  have hden : ∃ d ∈ s.answers, d.request.denies = true := by decide +kernel
  exact ⟨by decide +kernel, hlinear.1.1, (hlinear.2.2 hden).1⟩

end CodeMemory.Ingestion
