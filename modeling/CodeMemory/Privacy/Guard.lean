import CodeMemory.Lib.GoMap
import CodeMemory.Lib.Utf8

/-! The content-privacy guard: a policy and a detector classify a text, the
sensitive spans of a text that may be published are masked, and the guard keeps a
record of every content id it has decided about. Claims and citations of an
input, reveals and retention sweeps are not part of ingestion. -/

namespace CodeMemory.Privacy

open Lib Lib.GoString

inductive ScopeKind where
  | individual | team | company
  deriving DecidableEq

structure Scope where
  kind : ScopeKind
  id : GoString
  deriving DecidableEq

inductive Class where
  | email | phone | ssn | creditCard | apiKey | bearerToken | privateKey | passwordAssignment
  deriving DecidableEq

inductive PolicyAction where
  | redact | quarantine | tombstone
  deriving DecidableEq

inductive Status where
  | clean | redacted | quarantined | tombstoned
  deriving DecidableEq

structure ScopePolicy where
  actions : GoMap Class PolicyAction
  detectorFailure : PolicyAction
  retention : Nat

def hardMaxContentBytes : ℕ := 1048576

def hardMaxFindings : ℕ := 1024

/-- Ten years, in nanoseconds. -/
def hardMaxRetention : ℕ := 10 * 365 * 24 * 3600 * 1000000000

/-- What `validateAndDigestPolicy` asks of the policy of a scope. -/
def ScopePolicy.valid (s : ScopePolicy) : Bool :=
  s.actions.keys ≠ ∅ && 0 < s.retention && s.retention ≤ hardMaxRetention && s.detectorFailure ≠ .redact

def validScopes (scopes : GoMap ScopeKind ScopePolicy) : Bool :=
  scopes.keys ≠ ∅ && [ScopeKind.individual, .team, .company].all (fun kind =>
    (scopes.lookup kind).all ScopePolicy.valid)

/-- A policy that `New` accepts. -/
structure Policy where
  maxContentBytes : ℕ
  maxFindings : ℕ
  scopes : GoMap ScopeKind ScopePolicy
  bounded : 0 < maxContentBytes ∧ maxContentBytes ≤ hardMaxContentBytes ∧ 0 < maxFindings ∧
    maxFindings ≤ hardMaxFindings
  valid : validScopes scopes = true

/-- A detector result; `start` and `stop` are byte offsets. -/
structure Finding where
  cls : Class
  start : Int
  stop : Int
  surface : GoString

/-- `none` is an error or a panic. -/
abbrev Detector := GoString → Finset Class → Option (List Finding)

structure Input where
  tenantID : GoString
  id : GoString
  scope : Scope
  content : GoString

/-- `unicode.IsControl`. -/
def isControl (r : Rune) : Bool := r < 0x20 || (0x7f ≤ r && r ≤ 0x9f)

def validID (value : GoString) : Bool :=
  value ≠ [] && decide (value.length ≤ 512) && validString value && trimSpace value = value &&
    value.all (fun b => b ∉ lit "|/\\") && !decide (lit ".." <:+: value) && (runes value).all (!isControl ·)

def validScope (scope : Scope) : Bool :=
  match scope.kind with
  | .individual | .team => validID scope.id
  | .company => scope.id = []

def validInput (input : Input) (maxBytes : Nat) : Bool :=
  validID input.tenantID && validID input.id && validScope input.scope && input.content ≠ [] &&
    validString input.content && decide (input.content.length ≤ maxBytes)

/-- Whether no rune of the text is cut at the offset. -/
def utf8Boundary (text : GoString) (offset : Nat) : Bool :=
  offset = 0 || offset = text.length || (text[offset]?).any (fun b => !cont b)

def validFinding (actions : GoMap Class PolicyAction) (text : GoString) (f : Finding) : Bool :=
  f.surface = [] && 0 ≤ f.start && f.start < f.stop && f.stop ≤ text.length &&
    utf8Boundary text f.start.toNat && utf8Boundary text f.stop.toNat && f.cls ∈ actions.keys

/-- Every byte of a finding becomes a star. -/
def redactBytes (text : GoString) (findings : List Finding) : GoString :=
  text.mapIdx (fun i b => if findings.any (fun f => f.start ≤ i && (i : Int) < f.stop) then 0x2a else b)

/-- The masked text and the findings; `none` if the detector failed. -/
def inspectSurface (policy : Policy) (scopePolicy : ScopePolicy) (detector : Detector) (text : GoString) :
    Option (GoString × List Finding) :=
  (detector text scopePolicy.actions.keys).bind (fun findings =>
    if findings.all (validFinding scopePolicy.actions text) && decide (findings.length ≤ policy.maxFindings) then
      some (redactBytes text findings, findings)
    else none)

def strongestStatus (actions : GoMap Class PolicyAction) : List Finding → Status → Status
  | [], status => status
  | f :: rest, status =>
    match actions.lookup f.cls with
    | some .tombstone => .tombstoned
    | some .quarantine => strongestStatus actions rest .quarantined
    | some .redact => strongestStatus actions rest (if status = .clean then .redacted else status)
    | none => strongestStatus actions rest status

/-- What the policy makes of a text: how it is published, and its status. -/
def inspect (policy : Policy) (scopePolicy : ScopePolicy) (detector : Detector) (text : GoString) :
    Option (GoString × Status) :=
  (inspectSurface policy scopePolicy detector text).map (fun r =>
    (r.1, strongestStatus scopePolicy.actions r.2 .clean))

/-- Tenant, scope and content id. -/
structure ContentKey where
  tenantID : GoString
  scope : Scope
  contentID : GoString
  deriving DecidableEq

def Input.key (input : Input) : ContentKey := ⟨input.tenantID, input.scope, input.id⟩

structure StoredRecord where
  content : GoString
  projection : Option GoString
  status : Status
  expiresAt : Int
  generation : Nat
  pending : Bool

inductive TombstoneReason where
  | policy | detectorFailure | retention
  | manual (reason : GoString)
  deriving DecidableEq

structure Receipt where
  key : ContentKey
  status : Status
  ofDetector : Bool
  time : Int

structure GuardState where
  records : GoMap ContentKey StoredRecord
  tombstones : GoMap ContentKey TombstoneReason
  receipts : List Receipt
  generation : Nat

def GuardState.empty : GuardState := ⟨∅, ∅, [], 0⟩

/-- A guard and its surroundings: what the clock says at the `n`th admission and
at its commit, and whether the state store takes a tombstone then. -/
structure Guard where
  policy : Policy
  detector : Detector
  now : Nat → Int
  committedAt : Nat → Int
  persists : Nat → Bool

inductive GuardError where
  | invalid | denied | conflict | detector
  deriving DecidableEq

/-- An admission that waits for its publication. -/
structure PublishAdmission where
  key : ContentKey
  status : Status
  generation : Nat

structure Decision where
  status : Status
  projection : Option GoString

/-- A decision has been made about this content id. -/
def GuardState.Known (st : GuardState) (key : ContentKey) : Prop :=
  key ∈ st.tombstones.keys ∨ key ∈ st.records.keys

instance (st : GuardState) (key : ContentKey) : Decidable (st.Known key) := inferInstanceAs (Decidable (_ ∨ _))

def GuardState.receipt (st : GuardState) (key : ContentKey) (status : Status) (ofDetector : Bool) (time : Int) :
    GuardState :=
  { st with receipts := st.receipts ++ [⟨key, status, ofDetector, time⟩] }

def GuardState.record (st : GuardState) (key : ContentKey) (r : StoredRecord) : GuardState :=
  { st with records := st.records.insert key r }

def GuardState.tombstone (st : GuardState) (key : ContentKey) (reason : TombstoneReason) : GuardState :=
  { st with tombstones := st.tombstones.insert key reason }

/-- The state for the next admission. -/
def GuardState.advance (st : GuardState) : GuardState := { st with generation := st.generation + 1 }

def Guard.commitDetectorFailure (g : Guard) (st : GuardState) (input : Input) (scopePolicy : ScopePolicy) :
    GuardState :=
  let now := g.now st.generation
  if scopePolicy.detectorFailure = .tombstone then
    (st.advance.tombstone input.key .detectorFailure).receipt input.key .tombstoned true now
  else
    (st.advance.record input.key ⟨input.content, none, .quarantined, now + scopePolicy.retention,
      st.advance.generation, false⟩).receipt input.key .quarantined true now

/-- The state after a text has been classified. -/
def Guard.settle (g : Guard) (st : GuardState) (input : Input) (scopePolicy : ScopePolicy) (deferPublish : Bool)
    (text : GoString) (status : Status) :
    Except GuardError (Decision × Option PublishAdmission) × GuardState :=
  let now := g.now st.generation
  let generation := st.advance.generation
  match status with
  | .clean | .redacted =>
    let st := st.advance.record input.key
      ⟨input.content, some text, status, now + scopePolicy.retention, generation, deferPublish⟩
    if deferPublish then (.ok (⟨status, some text⟩, some ⟨input.key, status, generation⟩), st)
    else (.ok (⟨status, some text⟩, none), st.receipt input.key status false now)
  | .quarantined =>
    let st := st.advance.record input.key
      ⟨input.content, none, status, now + scopePolicy.retention, generation, false⟩
    (.ok (⟨status, none⟩, none), st.receipt input.key status false now)
  | .tombstoned =>
    let stone := st.advance.tombstone input.key .policy
    if g.persists st.generation then (.ok (⟨status, none⟩, none), stone.receipt input.key status false now)
    else (.error .denied, stone)

/-- The guard's `admit`. -/
def Guard.admitInput (g : Guard) (st : GuardState) (input : Input) (deferPublish : Bool) :
    Except GuardError (Decision × Option PublishAdmission) × GuardState :=
  match g.policy.scopes.lookup input.scope.kind with
  | none => (.error .invalid, st)
  | some scopePolicy =>
    if validInput input g.policy.maxContentBytes = false then (.error .invalid, st)
    else if input.key ∈ st.tombstones.keys then (.error .denied, st)
    else if input.key ∈ st.records.keys then (.error .conflict, st)
    else
      match inspect g.policy scopePolicy g.detector input.content with
      | none => (.error .detector, g.commitDetectorFailure st input scopePolicy)
      | some (text, status) => g.settle st input scopePolicy deferPublish text status

def Guard.commitPublish (g : Guard) (st : GuardState) (admission : PublishAdmission) :
    Except GuardError Unit × GuardState :=
  match st.records.lookup admission.key with
  | some record =>
    if record.generation = admission.generation ∧ record.pending = true then
      let time := g.committedAt st.generation
      let retention := ((g.policy.scopes.lookup admission.key.scope.kind).map ScopePolicy.retention).getD 0
      (.ok (), (st.record admission.key { record with pending := false, expiresAt := time + retention }).receipt
        admission.key admission.status false time)
    else if admission.key ∈ st.tombstones.keys then (.error .denied, st) else (.error .conflict, st)
  | none => if admission.key ∈ st.tombstones.keys then (.error .denied, st) else (.error .conflict, st)

/-- What an ingest learns about one document. -/
inductive Verdict where
  | failed
  | withheld (status : Status)
  | published (indexText : GoString)
  deriving DecidableEq

/-- `AdmitAndPublish` with a sink that takes every projection. -/
def Guard.admitAndPublish (g : Guard) (st : GuardState) (input : Input) : Verdict × GuardState :=
  match g.admitInput st input true with
  | (.error _, st) => (.failed, st)
  | (.ok (decision, admission), st) =>
    match decision.projection, admission with
    | some text, some admission =>
      match g.commitPublish st admission with
      | (.ok _, st) => (.published text, st)
      | (.error _, st) => (.failed, st)
    | some _, none => (.failed, st)
    | none, _ => (.withheld decision.status, st)

/-- An admission is refused without a trace, or decided about by the detector. -/
theorem Guard.admitInput_cases (g : Guard) (st : GuardState) (input : Input) (deferPublish : Bool) :
    (∃ e, g.admitInput st input deferPublish = (.error e, st) ∧ e ≠ .detector ∧
        (e = .denied → input.key ∈ st.tombstones.keys)) ∨
      (¬ st.Known input.key ∧ ∃ scopePolicy, g.policy.scopes.lookup input.scope.kind = some scopePolicy ∧
        ((inspect g.policy scopePolicy g.detector input.content = none ∧
            g.admitInput st input deferPublish = (.error .detector, g.commitDetectorFailure st input scopePolicy)) ∨
          ∃ text status, inspect g.policy scopePolicy g.detector input.content = some (text, status) ∧
            g.admitInput st input deferPublish = g.settle st input scopePolicy deferPublish text status)) := by
  unfold Guard.admitInput
  split
  · exact .inl ⟨.invalid, rfl, by simp, by simp⟩
  · next scopePolicy hscope =>
    split
    · exact .inl ⟨.invalid, rfl, by simp, by simp⟩
    · split
      · next hdead => exact .inl ⟨.denied, rfl, by simp, fun _ => hdead⟩
      · next hdead =>
        split
        · exact .inl ⟨.conflict, rfl, by simp, by simp⟩
        · next hnew =>
          refine .inr ⟨not_or.mpr ⟨hdead, hnew⟩, scopePolicy, hscope, ?_⟩
          split
          · next hi => exact .inl ⟨hi, rfl⟩
          · next text status hi => exact .inr ⟨text, status, hi, rfl⟩

/-- A publication is committed for a record that waits, or nothing happens. -/
theorem Guard.commitPublish_cases (g : Guard) (st : GuardState) (admission : PublishAdmission) :
    (∃ e, g.commitPublish st admission = (.error e, st)) ∨
      ∃ record record' time, st.records.lookup admission.key = some record ∧ g.commitPublish st admission =
        (.ok (), (st.record admission.key record').receipt admission.key admission.status false time) := by
  have hrefused : ∃ e, (if admission.key ∈ st.tombstones.keys then
      ((.error .denied, st) : Except GuardError Unit × GuardState) else (.error .conflict, st)) = (.error e, st) := by
    split_ifs
    · exact ⟨_, rfl⟩
    · exact ⟨_, rfl⟩
  unfold Guard.commitPublish
  split
  · next record hkey =>
    split
    · exact .inr ⟨record, _, _, hkey, rfl⟩
    · exact .inl hrefused
  · exact .inl hrefused

theorem known_record (st : GuardState) (key k : ContentKey) (r : StoredRecord) :
    (st.record key r).Known k ↔ k = key ∨ st.Known k := by
  simp only [GuardState.Known, GuardState.record, Finmap.mem_keys, Finmap.mem_insert]
  exact or_left_comm

theorem known_tombstone (st : GuardState) (key k : ContentKey) (reason : TombstoneReason) :
    (st.tombstone key reason).Known k ↔ k = key ∨ st.Known k := by
  simp only [GuardState.Known, GuardState.tombstone, Finmap.mem_keys, Finmap.mem_insert]
  exact or_assoc

variable {g : Guard} {st : GuardState} {input : Input} {scopePolicy : ScopePolicy} {deferPublish : Bool}
  {text : GoString} {status : Status} {k : ContentKey}

/-- Classifying a text makes only its own id known. -/
theorem Guard.known_settle
    (h : (g.settle st input scopePolicy deferPublish text status).2.Known k) : k = input.key ∨ st.Known k := by
  cases status with
  | clean | redacted =>
    cases deferPublish with
    | true | false => exact (known_record ..).mp h
  | quarantined => exact (known_record ..).mp h
  | tombstoned =>
    simp only [Guard.settle] at h
    split at h
    · exact (known_tombstone ..).mp h
    · exact (known_tombstone ..).mp h

theorem Guard.known_commitDetectorFailure (h : (g.commitDetectorFailure st input scopePolicy).Known k) :
    k = input.key ∨ st.Known k := by
  simp only [Guard.commitDetectorFailure] at h
  split at h
  · exact (known_tombstone ..).mp h
  · exact (known_record ..).mp h

theorem Guard.known_admitInput (h : (g.admitInput st input deferPublish).2.Known k) : k = input.key ∨ st.Known k := by
  rcases g.admitInput_cases st input deferPublish with ⟨e, heq, -⟩ | ⟨-, _, -, ⟨-, heq⟩ | ⟨_, _, -, heq⟩⟩
  · exact .inr (by rwa [heq] at h)
  · exact known_commitDetectorFailure (heq ▸ h)
  · exact known_settle (heq ▸ h)

variable {admission : PublishAdmission}

theorem Guard.known_commitPublish
    (h : (g.commitPublish st admission).2.Known k) : k = admission.key ∨ st.Known k := by
  rcases g.commitPublish_cases st admission with ⟨e, heq⟩ | ⟨_, _, _, -, heq⟩
  · exact .inr (by rwa [heq] at h)
  · exact (known_record ..).mp (heq ▸ h)

/-- An admission waits under the key of its input. -/
theorem Guard.key_of_settle {decision : Decision}
    (h : (g.settle st input scopePolicy deferPublish text status).1 = .ok (decision, some admission)) :
    admission.key = input.key := by
  cases status with
  | clean | redacted =>
    cases deferPublish with
    | true =>
      cases h
      rfl
    | false => cases h
  | quarantined => cases h
  | tombstoned =>
    simp only [Guard.settle] at h
    split at h <;> cases h

theorem Guard.key_of_admitInput {decision : Decision}
    (h : (g.admitInput st input deferPublish).1 = .ok (decision, some admission)) : admission.key = input.key := by
  rcases g.admitInput_cases st input deferPublish with ⟨e, heq, -⟩ | ⟨-, _, -, ⟨-, heq⟩ | ⟨_, _, -, heq⟩⟩
  · cases heq ▸ h
  · cases heq ▸ h
  · exact key_of_settle (heq ▸ h)

/-- Publishing a document makes only its own id known. -/
theorem Guard.known_admitAndPublish (h : (g.admitAndPublish st input).2.Known k) : k = input.key ∨ st.Known k := by
  unfold Guard.admitAndPublish at h
  have hadmit : (g.admitInput st input true).2.Known k → k = input.key ∨ st.Known k := known_admitInput
  have hkey := @key_of_admitInput g st input true
  revert h hadmit hkey
  rcases g.admitInput st input true with ⟨_ | ⟨decision, admission⟩, st₁⟩
  · exact fun h hadmit _ => hadmit h
  · intro h hadmit hkey
    rcases hp : decision.projection with _ | text
    · simp only [hp] at h
      exact hadmit h
    · rcases admission with _ | admission
      · simp only [hp] at h
        exact hadmit h
      · simp only [hp] at h
        have hcom : (g.commitPublish st₁ admission).2.Known k → k = admission.key ∨ st₁.Known k :=
          known_commitPublish
        revert h hcom
        rcases g.commitPublish st₁ admission with ⟨_ | _, st₂⟩
        all_goals
          intro h hcom
          rcases hcom h with hk | hk
          · exact .inl (hk.trans (hkey rfl))
          · exact hadmit hk

/-- A new text that the policy lets through is published with its spans masked. -/
theorem Guard.published_of_new (hscope : g.policy.scopes.lookup input.scope.kind = some scopePolicy)
    (hvalid : validInput input g.policy.maxContentBytes = true) (hnew : ¬ st.Known input.key)
    (hi : inspect g.policy scopePolicy g.detector input.content = some (text, status))
    (hs : status = .clean ∨ status = .redacted) : (g.admitAndPublish st input).1 = .published text := by
  obtain ⟨htomb, hrec⟩ := not_or.mp hnew
  have hadmit : g.admitInput st input true = g.settle st input scopePolicy true text status := by
    simp only [Guard.admitInput, hscope, hvalid, Bool.true_eq_false, if_false, if_neg htomb, if_neg hrec, hi]
  let record : StoredRecord := ⟨input.content, some text, status, g.now st.generation + scopePolicy.retention,
    st.advance.generation, true⟩
  have hsettle : g.settle st input scopePolicy true text status =
      (.ok (⟨status, some text⟩, some ⟨input.key, status, st.advance.generation⟩),
        st.advance.record input.key record) := by
    rcases hs with rfl | rfl <;> rfl
  have hcom : (g.commitPublish (st.advance.record input.key record)
      ⟨input.key, status, st.advance.generation⟩).1 = .ok () := by
    simp only [Guard.commitPublish, GuardState.record, Finmap.lookup_insert]
    rw [if_pos ⟨rfl, rfl⟩]
  simp only [Guard.admitAndPublish, hadmit, hsettle]
  split
  · rfl
  · rename_i heq
    rw [heq] at hcom
    cases hcom

end CodeMemory.Privacy
