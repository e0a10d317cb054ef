import CodeMemory.Lib.Schedule
import CodeMemory.Privacy.Guard

/-! The guard over the log of its tombstones: what blocks an id in memory, what
the log holds of it, and what a guard that starts from the log knows. Admissions,
publications, reads, expiries and tombstones come in any order, each write to the log
may fail with none, a part or all of its line written, and the guard may restart at any
time. -/

namespace CodeMemory.Privacy

open Lib Lib.GoString List

/-- What a write to the log comes to: the line is written and synced, or the write fails and leaves nothing, a part of
the record, the record without its line feed, or the line that was not synced. -/
inductive Write where
  | synced | nothing | cut | unended | unsynced
  deriving DecidableEq

/-- The lines of the log, `none` for one that is not a record, and whether the last one has no line feed. -/
structure LogFile where
  lines : List (Option (ContentKey × TombstoneReason))
  torn : Bool

/-- What is written after a line without a line feed is read as a part of it. -/
def LogFile.put (f : LogFile) (line : Option (ContentKey × TombstoneReason)) (torn : Bool) : LogFile :=
  if f.torn then ⟨f.lines.dropLast ++ [none], torn⟩ else ⟨f.lines ++ [line], torn⟩

/-- `appendRecord`. -/
def LogFile.append (f : LogFile) (key : ContentKey) (reason : TombstoneReason) : Write → LogFile
  | .synced | .unsynced => f.put (some (key, reason)) false
  | .unended => f.put (some (key, reason)) true
  | .cut => f.put none true
  | .nothing => f

/-- `LoadState`: a last line that is not a record is dropped, any other one is an error. -/
def LogFile.load (f : LogFile) : Option (List (ContentKey × TombstoneReason)) :=
  if none ∈ f.lines.dropLast then none else some (f.lines.filterMap id)

/-- The state of a guard and its log; no guard runs after a restart that could not read the log. -/
structure Durable where
  state : GuardState
  log : LogFile
  running : Bool

/-- What an operation tells: the error it returns, the ids it reports as tombstoned and the ids whose content it hands
out. The ids whose tombstone the log did not take are noted beside. -/
structure Output where
  error : Option GuardError
  tombstoned : List ContentKey
  published : List ContentKey
  failed : List ContentKey
  deriving DecidableEq

def Output.quiet : Output := ⟨none, [], [], []⟩

def Output.refuse (e : GuardError) : Output := ⟨some e, [], [], []⟩

def Output.publish (key : ContentKey) : Output := ⟨none, [], [key], []⟩

def validKey (key : ContentKey) : Bool := validID key.tenantID && validID key.contentID && validScope key.scope

/-- The guard of one operation. -/
def Guard.once (policy : Policy) (detector : Detector) (now : Int) (write : Write) : Guard where
  policy := policy
  detector := detector
  now := fun _ => now
  committedAt := fun _ => now
  persists := fun _ => write = .synced

section Operations

variable (d : Durable)

/-- `admit`. The log is written for a policy tombstone only, and a decision that says so came after the write. -/
def Durable.admitInput (policy : Policy) (detector : Detector) (now : Int) (write : Write) (input : Input)
    (deferPublish : Bool) : Output × Durable :=
  match (Guard.once policy detector now write).admitInput d.state input deferPublish with
  | (.ok (decision, _), st) =>
    if decision.status = .tombstoned then
      (⟨none, [input.key], [], []⟩, { d with state := st, log := d.log.append input.key .policy write })
    else (if decision.projection.isSome then .publish input.key else .quiet, { d with state := st })
  | (.error .detector, st) =>
    (⟨some .detector, if input.key ∈ st.tombstones.keys then [input.key] else [], [], []⟩, { d with state := st })
  | (.error .denied, st) =>
    if input.key ∈ d.state.tombstones.keys then (.refuse .denied, { d with state := st })
    else (⟨some .denied, [], [], [input.key]⟩, { d with state := st, log := d.log.append input.key .policy write })
  | (.error e, st) => (.refuse e, { d with state := st })

def Durable.commitPublish (g : Guard) (admission : PublishAdmission) : Output × Durable :=
  match g.commitPublish d.state admission with
  | (.ok _, st) => (.publish admission.key, { d with state := st })
  | (.error e, st) => (.refuse e, { d with state := st })

def Durable.rollbackPublish (admission : PublishAdmission) : Output × Durable :=
  match d.state.records.lookup admission.key with
  | some record =>
    if record.generation = admission.generation ∧ record.pending = true then
      (.quiet, { d with state := { d.state with records := d.state.records.erase admission.key } })
    else (.quiet, d)
  | none => (.quiet, d)

/-- `persistTombstoneLocked`: memory first, then the log. -/
def Durable.persistTombstone (key : ContentKey) (reason : TombstoneReason) (write : Write) : Durable :=
  { d with state := d.state.tombstone key reason, log := d.log.append key reason write }

/-- The guard without the record of the id. -/
def Durable.forget (key : ContentKey) : Durable :=
  { d with state := { d.state with records := d.state.records.erase key } }

/-- `expireLocked`, called by an operation that returns `error`: if the log does not take the tombstone, the record
comes back. -/
def Durable.expire (key : ContentKey) (record : StoredRecord) (time : Int) (write : Write)
    (error : Option GuardError) : Output × Durable :=
  let buried := (d.forget key).persistTombstone key .retention write
  if write = .synced then
    (⟨error, [key], [], []⟩, { buried with state := buried.state.receipt key .tombstoned false time })
  else (⟨error, [], [], [key]⟩, { buried with
    state := { buried.state with
      tombstones := buried.state.tombstones.erase key
      records := buried.state.records.insert key record } })

/-- An expired record as `EnforceRetention` finds it. -/
def Durable.sweep (key : ContentKey) (time now : Int) (write : Write) : Output × Durable :=
  match d.state.records.lookup key with
  | some record =>
    if record.pending = false ∧ record.expiresAt ≤ time then d.expire key record now write none else (.quiet, d)
  | none => (.quiet, d)

def Durable.projection (key : ContentKey) (now : Int) (write : Write) : Output × Durable :=
  match d.state.records.lookup key with
  | some record =>
    if record.pending = true ∨ record.status ≠ .clean ∧ record.status ≠ .redacted then (.refuse .denied, d)
    else if record.expiresAt ≤ now then d.expire key record now write (some .denied)
    else (.publish key, d)
  | none => (.refuse .denied, d)

/-- The last section of an authorized `Reveal`; its first one can only expire the record. -/
def Durable.reveal (key : ContentKey) (generation : ℕ) (now : Int) (write : Write) : Output × Durable :=
  match d.state.records.lookup key with
  | some record =>
    if record.expiresAt ≤ now then d.expire key record now write (some .denied)
    else if record.generation ≠ generation then (.refuse .denied, d)
    else (.publish key, { d with state := d.state.receipt key record.status false now })
  | none => (.refuse .denied, d)

def Durable.tombstone (key : ContentKey) (reason : GoString) (now : Int) (write : Write) : Output × Durable :=
  if validKey key = false ∨ reason = [] ∨ 256 < reason.length then (.refuse .invalid, d)
  else if key ∈ d.state.tombstones.keys then (.refuse .denied, d)
  else
    let buried := (d.forget key).persistTombstone key (.manual reason) write
    if write = .synced then
      (⟨none, [key], [], []⟩, { buried with state := buried.state.receipt key .tombstoned false now })
    else (⟨some .denied, [], [], [key]⟩, buried)

/-- `restoreLocked`, in a new guard. -/
def Durable.restart (receipts : List Receipt) : Durable :=
  match d.log.load with
  | some stones => ⟨⟨∅, stones.foldl (fun m stone => m.insert stone.1 stone.2) ∅, receipts, 0⟩, d.log, true⟩
  | none => { d with running := false }

end Operations

/-- An operation with what its surroundings do: the detector, the clock and the log. The receipts after a restart are
those the store took. -/
inductive Op where
  | admission (detector : Detector) (now : Int) (write : Write) (input : Input) (deferPublish : Bool)
  | commitPublish (now : Int) (admission : PublishAdmission)
  | rollbackPublish (admission : PublishAdmission)
  | sweep (key : ContentKey) (time now : Int) (write : Write)
  | projection (key : ContentKey) (now : Int) (write : Write)
  | reveal (key : ContentKey) (generation : ℕ) (now : Int) (write : Write)
  | tombstone (key : ContentKey) (reason : GoString) (now : Int) (write : Write)
  | restart (receipts : List Receipt)

/-- An operation of a running guard, or a restart. -/
def Durable.operate (policy : Policy) (d : Durable) : Op → Output × Durable
  | .admission detector now write input deferPublish => d.admitInput policy detector now write input deferPublish
  | .commitPublish now admission => d.commitPublish (Guard.once policy (fun _ _ => none) now .synced) admission
  | .rollbackPublish admission => d.rollbackPublish admission
  | .sweep key time now write => d.sweep key time now write
  | .projection key now write => d.projection key now write
  | .reveal key generation now write => d.reveal key generation now write
  | .tombstone key reason now write => d.tombstone key reason now write
  | .restart receipts => (.quiet, d.restart receipts)

def Op.isRestart : Op → Bool
  | .restart _ => true
  | _ => false

/-- Where no guard runs, nothing can be asked of it. -/
def Durable.apply (policy : Policy) (d : Durable) (op : Op) : Output × Durable :=
  if d.running || op.isRestart then d.operate policy op else (.quiet, d)

/-- The guard, and the ids that operations have reported as tombstoned. -/
structure History where
  durable : Durable
  reported : List ContentKey

def History.step (policy : Policy) (h : History) (op : Op) : History :=
  ⟨(h.durable.apply policy op).2, h.reported ++ (h.durable.apply policy op).1.tombstoned⟩

def History.start : History := ⟨⟨.empty, ⟨[], false⟩, true⟩, []⟩

def History.run (policy : Policy) (h : History) (ops : List Op) : History := ops.foldl (History.step policy) h

/-- What an operation can do to what blocks an id, and what it tells. -/
inductive Effect (d : Durable) : Output → Durable → Prop
  /-- Records come and go, those of blocked ids only go; only ids with a record, or not blocked, are handed out. -/
  | keep (out : Output) (d' : Durable) (tombstones : d'.state.tombstones = d.state.tombstones) (log : d'.log = d.log)
    (running : d'.running = d.running)
    (records : ∀ k ∈ d'.state.records.keys, k ∈ d.state.records.keys ∨ k ∉ d.state.tombstones.keys)
    (published : ∀ k ∈ out.published, k ∈ d.state.records.keys ∨ k ∉ d.state.tombstones.keys)
    (tells : out.tombstoned = [] ∧ out.failed = []) : Effect d out d'
  /-- A tombstone in memory and in the log. -/
  | bury (key : ContentKey) (reason : TombstoneReason) (error : Option GuardError) (d' : Durable)
    (tombstones : d'.state.tombstones = d.state.tombstones.insert key reason)
    (log : d'.log = d.log.append key reason .synced) (running : d'.running = d.running)
    (records : ∀ k ∈ d'.state.records.keys, k ∈ d.state.records.keys ∧ k ≠ key) : Effect d ⟨error, [key], [], []⟩ d'
  /-- The expiry of a record that the log did not take. -/
  | revive (key : ContentKey) (error : GuardError) (d' : Durable) (there : key ∈ d.state.records.keys)
    (tombstones : d'.state.tombstones = (d.state.tombstones.insert key .retention).erase key) (log : d'.log = d.log)
    (running : d'.running = d.running) (records : d'.state.records.keys = d.state.records.keys) :
    Effect d ⟨some error, [], [], [key]⟩ d'
  | restart (receipts : List Receipt) (d' : Durable) (starts : d' = d.restart receipts) : Effect d .quiet d'

/-- The answer and the state after an operation are an effect. -/
abbrev Durable.Allows (d : Durable) (r : Output × Durable) : Prop := Effect d r.1 r.2

/-- An operation that tells nothing and changes nothing. -/
theorem Effect.unchanged (d : Durable) (error : Option GuardError) : d.Allows (⟨error, [], [], []⟩, d) :=
  .keep _ _ rfl rfl rfl (fun _ hk => .inl hk) (fun _ hk => absurd hk not_mem_nil) ⟨rfl, rfl⟩

variable {V : Type} {m : GoMap ContentKey V} {k key : ContentKey}

theorem mem_keys_erase : k ∈ (m.erase key).keys ↔ k ≠ key ∧ k ∈ m.keys := by
  simp only [Finmap.mem_keys, Finmap.mem_erase]

theorem mem_keys_insert {v : V} : k ∈ (m.insert key v).keys ↔ k = key ∨ k ∈ m.keys := by
  simp only [Finmap.mem_keys, Finmap.mem_insert]

section Effects

variable {d : Durable} {record : StoredRecord} {st : GuardState} {now : Int} {write : Write} {policy : Policy}

/-- An expiry whose write succeeds, or leaves nothing behind where the caller returns an error. -/
theorem effect_expire {error : Option GuardError} (hkey : d.state.records.lookup key = some record) (time : Int)
    (hwrite : write = .synced ∨ write = .nothing ∧ error = some .denied) :
    d.Allows (d.expire key record time write error) := by
  have hmem : key ∈ d.state.records.keys := GoMap.mem_keys_of_lookup hkey
  rcases hwrite with rfl | ⟨rfl, rfl⟩
  · refine .bury key .retention error _ rfl rfl rfl fun k hk => ?_
    exact (mem_keys_erase.mp hk).symm
  · refine .revive key .denied _ hmem rfl rfl rfl ?_
    ext k
    change k ∈ ((d.state.records.erase key).insert key record).keys ↔ _
    rw [mem_keys_insert, mem_keys_erase]
    by_cases hk : k = key
    · simp [hk, hmem]
    · simp [hk]

theorem effect_sweep (key : ContentKey) (time now : Int) : d.Allows (d.sweep key time now .synced) := by
  unfold Durable.sweep
  split
  · next record hkey =>
    split_ifs
    · exact effect_expire hkey now (.inl rfl)
    · exact .unchanged d _
  · exact .unchanged d _

/-- Handing out the content of a record. -/
theorem effect_publish (hkey : d.state.records.lookup key = some record)
    (htomb : st.tombstones = d.state.tombstones) (hrecords : st.records = d.state.records) :
    Effect d (.publish key) { d with state := st } := by
  refine .keep _ _ htomb rfl rfl (fun k hk => .inl (hrecords ▸ hk)) (fun k hk => ?_) ⟨rfl, rfl⟩
  cases mem_singleton.mp hk
  exact .inl (GoMap.mem_keys_of_lookup hkey)

theorem effect_projection (key : ContentKey) (now : Int) (h : write = .synced ∨ write = .nothing) :
    d.Allows (d.projection key now write) := by
  unfold Durable.projection
  split
  · next record hkey =>
    split_ifs
    · exact .unchanged d _
    · exact effect_expire hkey now (h.imp_right fun h => ⟨h, rfl⟩)
    · exact effect_publish hkey rfl rfl
  · exact .unchanged d _

theorem effect_reveal (key : ContentKey) (generation : ℕ) (now : Int) (h : write = .synced ∨ write = .nothing) :
    d.Allows (d.reveal key generation now write) := by
  unfold Durable.reveal
  split
  · next record hkey =>
    split_ifs
    · exact effect_expire hkey now (h.imp_right fun h => ⟨h, rfl⟩)
    · exact .unchanged d _
    · exact effect_publish hkey rfl rfl
  · exact .unchanged d _

theorem effect_rollbackPublish (admission : PublishAdmission) :
    d.Allows (d.rollbackPublish admission) := by
  unfold Durable.rollbackPublish
  split
  · split_ifs
    · refine .keep _ _ rfl rfl rfl (fun k hk => ?_) (fun k hk => absurd hk not_mem_nil) ⟨rfl, rfl⟩
      exact .inl (mem_keys_erase.mp hk).2
    · exact .unchanged d _
  · exact .unchanged d _

theorem effect_commitPublish (g : Guard) (admission : PublishAdmission) :
    d.Allows (d.commitPublish g admission) := by
  unfold Durable.commitPublish
  rcases g.commitPublish_cases d.state admission with ⟨e, heq⟩ | ⟨record, record', time, hkey, heq⟩
  · rw [heq]
    exact .unchanged d _
  · rw [heq]
    have hmem : admission.key ∈ d.state.records.keys := GoMap.mem_keys_of_lookup hkey
    refine .keep _ _ rfl rfl rfl (fun k hk => .inl ?_) (fun k hk => .inl ?_) ⟨rfl, rfl⟩
    · rcases mem_keys_insert.mp hk with rfl | hk
      · exact hmem
      · exact hk
    · cases mem_singleton.mp hk
      exact hmem

/-- The operation does not block an id without the log: no detector fails where the policy asks for a tombstone, and the
log takes every tombstone, save that the write of an expiry found by a read may fail and leave nothing. -/
def Kept (policy : Policy) (d : Durable) : Op → Prop
  | .admission detector _ write input _ => ¬ d.state.Known input.key →
    ∀ scopePolicy ∈ policy.scopes.lookup input.scope.kind,
      (inspect policy scopePolicy detector input.content = none → scopePolicy.detectorFailure ≠ .tombstone) ∧
      ((inspect policy scopePolicy detector input.content).any (·.2 = .tombstoned) = true → write = .synced)
  | .tombstone key _ _ write => key ∉ d.state.tombstones.keys → write = .synced
  | .sweep _ _ _ write => write = .synced
  | .projection _ _ write | .reveal _ _ _ write => write = .synced ∨ write = .nothing
  | _ => True

theorem effect_tombstone {reason : GoString} (h : key ∉ d.state.tombstones.keys → write = .synced) :
    d.Allows (d.tombstone key reason now write) := by
  unfold Durable.tombstone
  split
  · exact .unchanged d _
  · split
    · exact .unchanged d _
    · next hdead =>
      cases h hdead
      refine .bury key (.manual reason) none _ rfl rfl rfl fun k hk => ?_
      exact (mem_keys_erase.mp hk).symm

/-- A new record for an id that is not blocked. -/
theorem effect_record (hkey : key ∉ d.state.tombstones.keys) {r : StoredRecord}
    {out : Output} (htomb : st.tombstones = d.state.tombstones)
    (hrecords : st.records = d.state.records.insert key r) (hpub : ∀ k ∈ out.published, k = key)
    (htells : out.tombstoned = [] ∧ out.failed = []) : Effect d out { d with state := st } := by
  refine .keep _ _ htomb rfl rfl (fun k hk => ?_) (fun k hk => .inr (hpub k hk ▸ hkey)) htells
  rw [hrecords] at hk
  rcases mem_keys_insert.mp hk with rfl | hk
  · exact .inr hkey
  · exact .inl hk

theorem effect_admit {detector : Detector} {input : Input} {deferPublish : Bool}
    (h : Kept policy d (.admission detector now write input deferPublish)) :
    d.Allows (d.admitInput policy detector now write input deferPublish) := by
  unfold Durable.admitInput
  rcases (Guard.once policy detector now write).admitInput_cases d.state input deferPublish with
    ⟨e, heq, hdetector, hden⟩ | ⟨hnew, scopePolicy, hscope, hcase⟩
  · rw [heq]
    cases e with
    | detector => exact absurd rfl hdetector
    | denied =>
      simp only [if_pos (hden rfl)]
      exact .unchanged d _
    | invalid | conflict => exact .unchanged d _
  · obtain ⟨hdead, -⟩ := not_or.mp hnew
    obtain ⟨hfailure, hwritten⟩ := h hnew scopePolicy hscope
    rcases hcase with ⟨hi, heq⟩ | ⟨text, status, hi, heq⟩
    · simp only [heq, Guard.commitDetectorFailure, if_neg (hfailure hi)]
      rw [if_neg (by exact hdead)]
      exact effect_record hdead rfl rfl (fun k hk => absurd hk not_mem_nil) ⟨rfl, rfl⟩
    · rw [heq]
      cases status with
      | clean | redacted =>
        cases deferPublish with
        | true | false => exact effect_record hdead rfl rfl (fun k hk => mem_singleton.mp hk) ⟨rfl, rfl⟩
      | quarantined => exact effect_record hdead rfl rfl (fun k hk => absurd hk not_mem_nil) ⟨rfl, rfl⟩
      | tombstoned =>
        change inspect policy scopePolicy detector input.content = some (text, .tombstoned) at hi
        cases hwritten (by rw [hi]; rfl)
        refine .bury input.key .policy none _ rfl rfl rfl fun k hk => ⟨hk, ?_⟩
        rintro rfl
        exact hnew (.inr hk)

theorem effect_operate {op : Op} (h : Kept policy d op) : d.Allows (d.operate policy op) := by
  cases op with
  | admission => exact effect_admit h
  | commitPublish now admission => exact effect_commitPublish _ admission
  | rollbackPublish admission => exact effect_rollbackPublish admission
  | sweep key time now write =>
    cases h
    exact effect_sweep key time now
  | projection key now write => exact effect_projection key now h
  | reveal key generation now write => exact effect_reveal key generation now h
  | tombstone => exact effect_tombstone h
  | restart receipts => exact .restart receipts _ rfl

theorem effect_apply {op : Op} (h : Kept policy d op) : d.Allows (d.apply policy op) := by
  unfold Durable.apply
  split
  · exact effect_operate h
  · exact .unchanged d _

end Effects

theorem mem_keys_restored (log : List (ContentKey × TombstoneReason)) : ∀ m : GoMap ContentKey TombstoneReason,
      k ∈ (log.foldl (fun m stone => m.insert stone.1 stone.2) m).keys ↔ k ∈ m.keys ∨ k ∈ log.map Prod.fst := by
  induction log with
  | nil => simp
  | cons stone log ih =>
    intro m
    rw [foldl_cons, ih, mem_keys_insert, map_cons, mem_cons, or_comm (a := k = stone.1), or_assoc]

/-- A log of whole lines. -/
def LogFile.of (stones : List (ContentKey × TombstoneReason)) : LogFile := ⟨stones.map some, false⟩

theorem LogFile.append_of (stones : List (ContentKey × TombstoneReason)) (key : ContentKey) (reason : TombstoneReason) :
    (LogFile.of stones).append key reason .synced = .of (stones ++ [(key, reason)]) := by
  simp [LogFile.append, LogFile.put, LogFile.of]

theorem LogFile.load_of (stones : List (ContentKey × TombstoneReason)) : (LogFile.of stones).load = some stones := by
  have hwhole : none ∉ (stones.map some).dropLast := fun h => by simpa using mem_of_mem_dropLast h
  simp [LogFile.load, LogFile.of, hwhole, filterMap_map]

/-- The guard runs, what blocks an id is what was reported and what the log holds, and a blocked id has no record. -/
structure History.Faithful (h : History) : Prop where
  running : h.durable.running = true
  reported : ∀ k, k ∈ h.durable.state.tombstones.keys ↔ k ∈ h.reported
  logged : ∃ stones, h.durable.log = .of stones ∧
    ∀ k, k ∈ h.durable.state.tombstones.keys ↔ k ∈ stones.map Prod.fst
  apart : ∀ k ∈ h.durable.state.tombstones.keys, k ∉ h.durable.state.records.keys

section Histories

variable {policy : Policy} {h : History} {op : Op}

theorem History.Faithful.step (hf : h.Faithful) (hop : Kept policy h.durable op) : (h.step policy op).Faithful := by
  obtain ⟨stones, hlog, hlogged⟩ := hf.logged
  have heff := effect_apply hop
  unfold History.step
  generalize h.durable.apply policy op = r at heff ⊢
  obtain ⟨out, d⟩ := r
  cases heff with
  | keep _ _ tombstones log running records _ tells =>
    refine ⟨running.trans hf.running, fun k => ?_, ⟨stones, log.trans hlog, fun k => ?_⟩, fun k hk hrec => ?_⟩
    · rw [tombstones, tells.1, append_nil]
      exact hf.reported k
    · rw [tombstones]
      exact hlogged k
    · rw [tombstones] at hk
      rcases records k hrec with hrec | hfree
      · exact hf.apart k hk hrec
      · exact hfree hk
  | bury key reason _ _ tombstones log running records =>
    refine ⟨running.trans hf.running, fun k => ?_, ⟨stones ++ [(key, reason)], ?_, fun k => ?_⟩, fun k hk hrec => ?_⟩
    · rw [tombstones, mem_keys_insert, hf.reported, mem_append, mem_singleton, or_comm]
    · exact log.trans (by rw [hlog, LogFile.append_of])
    · rw [tombstones, mem_keys_insert, hlogged, map_append, mem_append, or_comm]
      simp
    · obtain ⟨hrec, hne⟩ := records k hrec
      rw [tombstones, mem_keys_insert] at hk
      exact hf.apart k (hk.resolve_left hne) hrec
  | revive key _ _ there tombstones log running records =>
    -- The id has a record, so it was not blocked before and is not now.
    have hsame : ∀ k, k ∈ d.state.tombstones.keys ↔ k ∈ h.durable.state.tombstones.keys := by
      intro k
      rw [tombstones, mem_keys_erase, mem_keys_insert]
      constructor
      · rintro ⟨hne, hk⟩
        exact hk.resolve_left hne
      · intro hk
        refine ⟨?_, .inr hk⟩
        rintro rfl
        exact hf.apart k hk there
    refine ⟨running.trans hf.running, fun k => ?_, ⟨stones, log.trans hlog, fun k => ?_⟩, fun k hk hrec => ?_⟩
    · rw [hsame, append_nil]
      exact hf.reported k
    · rw [hsame]
      exact hlogged k
    · rw [records] at hrec
      exact hf.apart k ((hsame k).mp hk) hrec
  | restart receipts _ starts =>
    rw [Durable.restart, hlog, LogFile.load_of] at starts
    subst starts
    have hsame : ∀ k, k ∈ (stones.foldl (fun (m : GoMap ContentKey TombstoneReason) stone => m.insert stone.1 stone.2)
        ∅).keys ↔ k ∈ stones.map Prod.fst := by
      intro k
      rw [mem_keys_restored]
      simp
    refine ⟨rfl, fun k => ?_, ⟨stones, rfl, hsame⟩, fun k _ hrec => ?_⟩
    · refine (hsame k).trans ((hlogged k).symm.trans ((hf.reported k).trans ?_))
      simp
    · simp at hrec

theorem History.Faithful.published (hf : h.Faithful) (hop : Kept policy h.durable op)
    (hk : k ∈ h.reported) : k ∉ (h.durable.apply policy op).1.published := by
  have heff := effect_apply hop
  have hblocked := (hf.reported k).mpr hk
  generalize h.durable.apply policy op = r at heff ⊢
  obtain ⟨out, d⟩ := r
  cases heff with
  | keep _ _ _ _ _ _ published =>
    intro hpub
    rcases published k hpub with hrec | hfree
    · exact hf.apart k hblocked hrec
    · exact hfree hblocked
  | bury | revive | restart => exact not_mem_nil

/-- A tombstone the log did not take: the operation returns an error and does not block the id. -/
theorem History.Faithful.failed (hf : h.Faithful) (hop : Kept policy h.durable op)
    (hk : k ∈ (h.durable.apply policy op).1.failed) :
    (h.durable.apply policy op).1.error.isSome ∧ k ∉ (h.step policy op).durable.state.tombstones.keys := by
  have heff := effect_apply hop
  have hafter := hf.step hop
  unfold History.step at hafter ⊢
  generalize h.durable.apply policy op = r at heff hk hafter ⊢
  obtain ⟨out, d⟩ := r
  cases heff with
  | keep _ _ _ _ _ _ _ tells =>
    rw [tells.2] at hk
    cases hk
  | bury => cases hk
  | revive key _ _ there _ _ _ records =>
    cases mem_singleton.mp hk
    refine ⟨rfl, fun hblocked => hafter.apart k hblocked ?_⟩
    rw [records]
    exact there
  | restart => cases hk

end Histories

def sampleInput : Input := ⟨lit "t", lit "c", ⟨.company, []⟩, lit "text"⟩

def sampleAdmission (detector : Detector) : Op := .admission detector 0 .synced sampleInput false

def sampleTombstone (write : Write) : Op := .tombstone sampleInput.key (lit "erased") 0 write

/-- An expiry whose write fails on a read, a tombstone, a restart, and an admission that is refused. -/
def sampleHistory : List Op :=
  [sampleAdmission fun _ _ => some [], .projection sampleInput.key 10 .nothing, sampleTombstone .synced, .restart []]

end CodeMemory.Privacy
