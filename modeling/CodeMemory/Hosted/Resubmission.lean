import CodeMemory.Hosted.Ingest

/-! Guarded ingestion over repeated calls. The guard keeps a record of every
document that it has decided about and refuses a second submission of its id, so
a burst stores what was submitted exactly as long as no id comes back. -/

namespace CodeMemory.Hosted

open Lib Lib.GoString Crawl Privacy List

/-- The guard as one client uses it. -/
def guardInspector (g : Guard) (tenant : GoString) (scope : Scope) : Inspector GuardState :=
  fun st id text => g.admitAndPublish st ⟨tenant, id, scope, text⟩

/-- What the policy makes of a text: how it is redacted, and its status. -/
def classify (g : Guard) (scope : Scope) (text : GoString) : Option (GoString × Status) :=
  (g.policy.scopes.lookup scope.kind).bind (fun scopePolicy => inspect g.policy scopePolicy g.detector text)

structure GuardedBrain where
  tc : Toolchain
  guard : Guard
  tenant : GoString
  scope : Scope
  hasCortex : Bool
  hasDense : Bool

def GuardedBrain.brain (b : GuardedBrain) : Brain GuardState :=
  ⟨b.tc, guardInspector b.guard b.tenant b.scope, b.hasCortex, b.hasDense⟩

def GuardedBrain.input (b : GuardedBrain) (d : LocalDocument) : Input := ⟨b.tenant, d.id, b.scope, d.text⟩

/-- The policy's own classification withholds the text. -/
def GuardedBrain.Withholds (b : GuardedBrain) (text : GoString) : Prop :=
  ∃ masked status, classify b.guard b.scope text = some (masked, status) ∧
    (status = .quarantined ∨ status = .tombstoned)

/-- The stored chunk of the document is made of the redaction of its text. -/
def GuardedBrain.Stores (b : GuardedBrain) (bag : Bag) (d : LocalDocument) : Prop :=
  ∃ masked status, classify b.guard b.scope d.text = some (masked, status) ∧
    (bag.lookup (chunkIDOf (trimSpace d.id))).map (fun c => (c.dsid, c.text)) =
      some (trimSpace d.id, chunkText d.title masked)

/-- Every submitted document is stored as submitted, or withheld by the policy. -/
def GuardedBrain.Follows (b : GuardedBrain) (bag : Bag) (docs : List LocalDocument) : Prop :=
  ∀ d ∈ docs, b.Withholds d.text ∨ b.Stores bag d

/-- The detector reads the text: what it finds is well formed and no more than the policy allows. -/
def GuardedBrain.Detects (b : GuardedBrain) (text : GoString) : Prop :=
  ∃ scopePolicy findings, b.guard.policy.scopes.lookup b.scope.kind = some scopePolicy ∧
    b.guard.detector text scopePolicy.actions.keys = some findings ∧
    findings.all (validFinding scopePolicy.actions text) = true ∧ findings.length ≤ b.guard.policy.maxFindings

/-- Every document has an id of its own that the guard has not decided about, is
acceptable to it and read by its detector, and is not blank once redacted. -/
structure GuardedBrain.AllNew (b : GuardedBrain) (st : GuardState) (docs : List LocalDocument) : Prop where
  distinct : (docs.map LocalDocument.id).Nodup
  valid : ∀ d ∈ docs, validInput (b.input d) b.guard.policy.maxContentBytes = true
  unknown : ∀ d ∈ docs, ¬ st.Known (b.input d).key
  detected : ∀ d ∈ docs, b.Detects d.text
  notBlank : ∀ d ∈ docs, ∀ masked status, classify b.guard b.scope d.text = some (masked, status) →
    chunkText d.title masked ≠ []

section Redact

variable {b : GuardedBrain} {st : GuardState} {d : LocalDocument} {out : PrivacyOutcome} {docs : List LocalDocument}

theorem admitted_subset_redactLoop {inspect : Inspector GuardState} (h : d ∈ out.admitted) :
    d ∈ (redactLoop inspect out st docs).1.admitted := by
  induction docs generalizing out st with
  | nil => exact h
  | cons d₁ rest ih =>
    apply ih
    cases (inspect st d₁.id d₁.text).1 with
    | failed | withheld _ => exact h
    | published _ => exact mem_append_left _ h

/-- The ids of the admitted documents are ids of submitted ones, in their order. -/
theorem ids_redactLoop (inspect : Inspector GuardState) (out : PrivacyOutcome) (st : GuardState)
    (docs : List LocalDocument) :
    ∃ ids, ids.Sublist (docs.map LocalDocument.id) ∧
      (redactLoop inspect out st docs).1.admitted.map LocalDocument.id = out.admitted.map LocalDocument.id ++ ids := by
  induction docs generalizing out st with
  | nil => exact ⟨[], List.Sublist.slnil, by simp [redactLoop]⟩
  | cons d rest ih =>
    rw [redactLoop_cons]
    obtain ⟨ids, hsub, he⟩ := ih (redactDocument out d (inspect st d.id d.text).1) (inspect st d.id d.text).2
    rw [he]
    cases (inspect st d.id d.text).1 with
    | failed | withheld _ => exact ⟨ids, hsub.cons _, rfl⟩
    | published text => exact ⟨d.id :: ids, hsub.cons_cons _, by simp [redactDocument]⟩

theorem GuardedBrain.AllNew.tail {rest : List LocalDocument}
    (h : b.AllNew st (d :: rest)) : b.AllNew (guardInspector b.guard b.tenant b.scope st d.id d.text).2 rest where
  distinct := (nodup_cons.mp h.distinct).2
  valid d' hd' := h.valid d' (mem_cons_of_mem d hd')
  unknown d' hd' hk := by
    rcases Guard.known_admitAndPublish hk with he | hold
    · have hid : d'.id = d.id := congrArg ContentKey.contentID he
      exact (nodup_cons.mp h.distinct).1 (hid ▸ mem_map_of_mem hd')
    · exact h.unknown d' (mem_cons_of_mem d hd') hold
  detected d' hd' := h.detected d' (mem_cons_of_mem d hd')
  notBlank d' hd' := h.notBlank d' (mem_cons_of_mem d hd')

/-- A new document that the policy lets through is admitted with its redaction. -/
theorem admitted_of_new (hnew : b.AllNew st docs) (hd : d ∈ docs) {masked : GoString} {status : Status}
    (hc : classify b.guard b.scope d.text = some (masked, status)) (hs : status = .clean ∨ status = .redacted) :
    { d with text := masked } ∈ (redactLoop (guardInspector b.guard b.tenant b.scope) out st docs).1.admitted := by
  induction docs generalizing out st with
  | nil => cases hd
  | cons d₁ rest ih =>
    rcases mem_cons.mp hd with rfl | hmem
    · obtain ⟨scopePolicy, hscope, hi⟩ := Option.bind_eq_some_iff.mp hc
      have hv : (guardInspector b.guard b.tenant b.scope st d.id d.text).1 = .published masked :=
        Guard.published_of_new hscope (hnew.valid d hd) (hnew.unknown d hd) hi hs
      rw [redactLoop_cons, hv]
      apply admitted_subset_redactLoop
      exact mem_append_right _ (mem_singleton.mpr rfl)
    · exact ih hnew.tail hmem

end Redact

variable {docs : List LocalDocument} {order : Interleaving} {flushed : Bool} {r : IngestResult} {σ : Type}
  {b : Brain σ} {st : GuardState} {c c' : Client GuardState}

/-- Documents with different ids give chunks with different ids. -/
theorem nodup_documentsToChunks (htrim : ∀ d ∈ docs, trimSpace d.id = d.id)
    (hd : (docs.map LocalDocument.id).Nodup) : ((documentsToChunks docs).map ChunkWrite.chunkID).Nodup := by
  induction docs with
  | nil => exact nodup_nil
  | cons d rest ih =>
    obtain ⟨hnot, hrest⟩ := nodup_cons.mp hd
    have htail := ih (fun d' hd' => htrim d' (mem_cons_of_mem d hd')) hrest
    cases hch : documentChunk d with
    | none =>
      rw [documentsToChunks, filterMap_cons_none hch]
      exact htail
    | some ch =>
      rw [documentsToChunks, filterMap_cons_some hch, map_cons, nodup_cons]
      refine ⟨fun hmem => ?_, htail⟩
      obtain ⟨ch', hch', he⟩ := mem_map.mp hmem
      obtain ⟨d', hd', hdc⟩ := mem_documentsToChunks.mp hch'
      obtain ⟨-, -, rfl⟩ := documentChunk_eq_some_iff.mp hch
      obtain ⟨-, -, rfl⟩ := documentChunk_eq_some_iff.mp hdc
      have hids : d'.id = d.id := by
        simpa only [htrim d (.head _), htrim d' (mem_cons_of_mem d hd')] using chunkIDOf_inj.mp he
      exact hnot (hids ▸ mem_map_of_mem hd')

/-- A burst that succeeds stores the chunks of the admitted documents. -/
theorem bag_burstIngestLocal {c c' : Client σ} (h : b.burstIngestLocal c docs order flushed = (.ok r, c')) :
    c'.memory.bag = putChunks c.memory.bag
      (order.arrange (documentsToChunks (redactDocuments b.inspect c.guard docs).1.admitted)) := by
  unfold Brain.burstIngestLocal at h
  dsimp only at h
  split_ifs at h
  · cases h
  · cases h
  · cases h
  · obtain rfl := (Prod.mk.inj h).2
    exact (bag_ensureHotLexIncremental ..).trans (bag_burstUpsert _ _ _ ready_documentsToChunks)
  · obtain rfl := (Prod.mk.inj h).2
    exact bag_burstUpsert _ _ _ ready_documentsToChunks

theorem id_of_validInput {input : Input} {maxBytes : Nat} (h : validInput input maxBytes = true) :
    input.id ≠ [] ∧ trimSpace input.id = input.id := by
  simp only [validInput, validID, Bool.and_eq_true, decide_eq_true_eq] at h
  tauto

variable {b : GuardedBrain}

/-- The chunks of the admitted documents of a call with new documents have
different ids. -/
theorem GuardedBrain.AllNew.nodup_chunks (hnew : b.AllNew st docs) :
    ((documentsToChunks (redactDocuments b.brain.inspect st docs).1.admitted).map ChunkWrite.chunkID).Nodup := by
  obtain ⟨ids, hsub, he⟩ := ids_redactLoop b.brain.inspect ⟨[], ∅, 0⟩ st docs
  have hids : (redactDocuments b.brain.inspect st docs).1.admitted.map LocalDocument.id = ids := he
  apply nodup_documentsToChunks
  · intro d hd
    have hmem : d.id ∈ ids := hids ▸ mem_map_of_mem hd
    obtain ⟨d₀, hd₀, hid⟩ := mem_map.mp (hsub.subset hmem)
    have htrim : trimSpace d₀.id = d₀.id := (id_of_validInput (hnew.valid d₀ hd₀)).2
    rwa [hid] at htrim
  · rw [hids]
    exact hsub.nodup hnew.distinct

/-- A new document that the policy lets through is stored. -/
theorem GuardedBrain.AllNew.stores (hnew : b.AllNew c.guard docs)
    (h : b.brain.burstIngestLocal c docs order flushed = (.ok r, c')) {d : LocalDocument} (hd : d ∈ docs)
    {masked : GoString} {status : Status} (hc : classify b.guard b.scope d.text = some (masked, status))
    (hs : status = .clean ∨ status = .redacted) : b.Stores c'.memory.bag d := by
  obtain ⟨hid, htrim⟩ := id_of_validInput (hnew.valid d hd)
  have hadmitted : { d with text := masked } ∈ (redactDocuments b.brain.inspect c.guard docs).1.admitted :=
    admitted_of_new hnew hd hc hs
  have hchunk : documentChunk { d with text := masked } =
      some ⟨trimSpace d.id, chunkIDOf (trimSpace d.id), chunkText d.title masked, d.sourceURI⟩ :=
    documentChunk_eq_some_iff.mpr ⟨htrim.symm ▸ hid, hnew.notBlank d hd masked status hc, rfl⟩
  have hmem := (order.perm _).mem_iff.mpr (mem_documentsToChunks.mpr ⟨_, hadmitted, hchunk⟩)
  have hnodup := ((order.perm _).map ChunkWrite.chunkID).nodup_iff.mpr hnew.nodup_chunks
  refine ⟨masked, status, hc, ?_⟩
  rw [bag_burstIngestLocal h, lookup_putChunks_of_mem hnodup hmem]
  rfl

theorem GuardedBrain.Detects.classify {text : GoString} (h : b.Detects text) :
    ∃ masked status, classify b.guard b.scope text = some (masked, status) := by
  obtain ⟨scopePolicy, findings, hscope, hfound, hvalid, hlen⟩ := h
  have hinspect : inspect b.guard.policy scopePolicy b.guard.detector text =
      some (redactBytes text findings, strongestStatus scopePolicy.actions findings .clean) := by
    simp only [inspect, inspectSurface, hfound, hvalid, hlen, Option.bind_some, decide_true, Bool.and_true, if_true,
      Option.map_some]
  exact ⟨_, _, Option.bind_eq_some_iff.mpr ⟨scopePolicy, hscope, hinspect⟩⟩

/-- After a burst of new documents each is stored as submitted, or the policy
withholds it. -/
theorem GuardedBrain.AllNew.follows (hnew : b.AllNew c.guard docs)
    (h : b.brain.burstIngestLocal c docs order flushed = (.ok r, c')) : b.Follows c'.memory.bag docs := by
  intro d hd
  obtain ⟨masked, status, hc⟩ := (hnew.detected d hd).classify
  cases status with
  | clean => exact .inr (hnew.stores h hd hc (.inl rfl))
  | redacted => exact .inr (hnew.stores h hd hc (.inr rfl))
  | quarantined => exact .inl ⟨masked, _, hc, .inl rfl⟩
  | tombstoned => exact .inl ⟨masked, _, hc, .inr rfl⟩

/-- The documents of a `BurstIngestLocal` call and how its workers ran. -/
structure Burst where
  docs : List LocalDocument
  order : Interleaving

def GuardedBrain.burst (b : GuardedBrain) (c : Client GuardState) (call : Burst) :
    Except IngestError IngestResult × Client GuardState :=
  b.brain.burstIngestLocal c call.docs call.order true

/-- A run of successful calls that all meet a condition on the guard's state and
the documents: what the last call submitted, and the client after it. -/
inductive GuardedBrain.Ran (b : GuardedBrain) (P : GuardState → List LocalDocument → Prop)
    (start : Client GuardState) : List LocalDocument → Client GuardState → Prop where
  | start : b.Ran P start [] start
  | call {docs : List LocalDocument} {c : Client GuardState} (call : Burst) (before : b.Ran P start docs c)
      (meets : P c.guard call.docs) (ok : (b.burst c call).1.isOk = true) :
      b.Ran P start call.docs (b.burst c call).2

/-- In every run of calls that submit new documents, each document of a call is
stored with the redaction of its text after the call, or the policy withholds it. -/
theorem guarded_ingest_follows_source {start c : Client GuardState}
    {docs : List LocalDocument} (h : b.Ran b.AllNew start docs c) : b.Follows c.memory.bag docs := by
  cases h with
  | start =>
    intro d hd
    cases hd
  | call call before new ok =>
    cases hr : (b.burst _ call).1 with
    | error e =>
      rw [hr] at ok
      cases ok
    | ok r => exact new.follows (Prod.ext hr rfl)

/-- A company policy that masks addresses, of which the texts below have none. -/
def maskingPolicy : ScopePolicy := ⟨(∅ : GoMap Class PolicyAction).insert .email .redact, .quarantine, 3600⟩

def plainGuard : Guard where
  policy :=
    { maxContentBytes := 1000
      maxFindings := 10
      scopes := (∅ : GoMap ScopeKind ScopePolicy).insert .company maskingPolicy
      bounded := by decide
      valid := by decide +kernel }
  detector _ _ := some []
  now _ := 0
  committedAt _ := 0
  persists _ := true

def plainBrain : GuardedBrain := ⟨.ascii, plainGuard, lit "acme", ⟨.company, []⟩, true, true⟩

def unusedClient : Client GuardState := ⟨.empty, ⟨∅, ⟨∅, false⟩⟩, 0, []⟩

def draft : LocalDocument := ⟨lit "d", [], lit "draft", []⟩

def revision : LocalDocument := ⟨lit "d", [], lit "revision", []⟩

def another : LocalDocument := ⟨lit "e", [], lit "another", []⟩

def afterDraft : Client GuardState := (plainBrain.burst unusedClient ⟨[draft], .inOrder⟩).2

theorem plainBrain_allNew_draft : plainBrain.AllNew unusedClient.guard [draft] where
  distinct := by decide
  valid := by decide +kernel
  unknown := by decide +kernel
  detected _ _ := ⟨maskingPolicy, [], Finmap.lookup_insert _, rfl, rfl, by decide⟩
  notBlank d hd masked status hc := by
    obtain rfl := mem_singleton.mp hd
    obtain rfl : lit "draft" = masked := congrArg Prod.fst (Option.some.inj hc)
    decide +kernel

theorem guarded_ingest_follows_source_draft : plainBrain.Follows afterDraft.memory.bag [draft] :=
  guarded_ingest_follows_source
    (.call ⟨[draft], .inOrder⟩ .start plainBrain_allNew_draft (by decide +kernel))

/-- The second text of a document is withheld, and the first one stays stored. -/
theorem revision_is_withheld :
    ¬ ∀ docs c, plainBrain.Ran (fun _ _ => True) unusedClient docs c → plainBrain.Follows c.memory.bag docs := by
  intro h
  have hran : plainBrain.Ran (fun _ _ => True) unusedClient [draft] afterDraft :=
    .call ⟨[draft], .inOrder⟩ .start trivial (by decide +kernel)
  have hfollows := h _ _ (.call ⟨[revision, another], .inOrder⟩ hran trivial (by decide +kernel)) revision
    (.head _)
  have hclass : classify plainBrain.guard plainBrain.scope revision.text = some (lit "revision", .clean) := by
    decide +kernel
  rcases hfollows with ⟨masked, status, hc, hs⟩ | ⟨masked, status, hc, hstored⟩
  · obtain ⟨-, rfl⟩ := Prod.mk.inj (Option.some.inj (hclass.symm.trans hc))
    exact absurd hs (by decide)
  · obtain ⟨rfl, -⟩ := Prod.mk.inj (Option.some.inj (hclass.symm.trans hc))
    exact absurd hstored (by decide +kernel)

end CodeMemory.Hosted
