import CodeMemory.Hosted.Ingest

/-! Which texts reach the stores of a guarded client. With the guard taken as a
function of the text, every text that a store is given is made of the guard's
projections, as long as the titles, and the documents of deltas, are texts that
the guard publishes as they are. -/

namespace CodeMemory.Hosted

open Lib Lib.GoString Crawl Privacy List

/-- A client whose guard decides on the text alone. -/
def guardedBrain (tc : Toolchain) (verdict : GoString → Verdict) (hasCortex hasDense : Bool) : Brain Unit :=
  ⟨tc, fun _ _ text => (verdict text, ()), hasCortex, hasDense⟩

def openedClient (m : Memory) : Client Unit := ⟨(), m, 0, []⟩

inductive IngestCall where
  | burst (docs : List LocalDocument) (order : Interleaving) (flushed : Bool)
  | delta (docs : List LocalDocument) (flushed : Bool)

def IngestCall.docs : IngestCall → List LocalDocument
  | .burst docs _ _ => docs
  | .delta docs _ => docs

variable {σ : Type}

def Brain.call (b : Brain σ) (c : Client σ) : IngestCall → Client σ
  | .burst docs order flushed => (b.burstIngestLocal c docs order flushed).2
  | .delta docs flushed => (b.continualDeltaLocal c docs flushed).2

def Brain.run (b : Brain σ) (c : Client σ) (calls : List IngestCall) : Client σ := calls.foldl b.call c

/-- Everything stored and everything handed on satisfies `P`. -/
structure Client.All (P : GoString → GoString → Prop) (c : Client σ) : Prop where
  stored : ∀ k ch, c.memory.bag.lookup k = some ch → P ch.dsid ch.text
  handed : ∀ e ∈ c.handed, P e.documentID e.text

section Origin

variable {P : GoString → GoString → Prop} {tc : Toolchain} {m : Memory} {b : Brain σ} {c : Client σ}

theorem mem_ensureHotLex {e : Handed} (h : e ∈ (m.ensureHotLex tc).2) :
    ∃ k ch, m.bag.lookup k = some ch ∧ e = ⟨.lexicalIndex, ch.dsid, ch.text⟩ := by
  obtain ⟨k, -, hk⟩ := mem_filterMap.mp h
  obtain ⟨ch, hch, he⟩ := Option.map_eq_some_iff.mp hk
  exact ⟨k, ch, hch, he.symm⟩

theorem Client.All.ensureHotLex (hc : c.All P) : (c.give (c.memory.ensureHotLex tc)).All P := by
  refine ⟨hc.stored, fun e he => ?_⟩
  rcases mem_append.mp he with h | h
  · exact hc.handed e h
  · obtain ⟨k, ch, hch, rfl⟩ := mem_ensureHotLex h
    exact hc.stored k ch hch

/-- Upserting chunks that satisfy `P` keeps `P`, in whatever order they arrive. -/
theorem Client.All.burstUpsert (hc : c.All P) (order : Interleaving) {chunks : List ChunkWrite}
    (hready : ∀ ch ∈ chunks, ch.Ready) (hP : ∀ ch ∈ chunks, P ch.documentID ch.text) :
    (c.give (c.memory.burstUpsert tc order chunks)).All P := by
  have hmem : ∀ ch, ch ∈ order.arrange chunks ↔ ch ∈ chunks := fun ch => (order.perm chunks).mem_iff
  have hbag : (upsertChunks c.memory.bag (order.arrange chunks)).1 =
      putChunks c.memory.bag (order.arrange chunks) := by
    rw [upsertChunks_of_ready (fun ch h => hready ch ((hmem ch).mp h))]
  have hstored : ∀ k ch, (upsertChunks c.memory.bag (order.arrange chunks)).1.lookup k = some ch →
      P ch.dsid ch.text := by
    intro k ch h
    rw [hbag] at h
    rcases lookup_putChunks_cases h with hold | ⟨w, hw, -, rfl⟩
    · exact hc.stored k ch hold
    · exact hP w ((hmem w).mp hw)
  refine ⟨hstored, fun e he => ?_⟩
  rcases mem_append.mp he with h | h
  · exact hc.handed e h
  rcases mem_append.mp h with h | h
  · obtain ⟨w, hw, rfl⟩ := mem_map.mp h
    exact hP w ((hmem w).mp hw)
  · obtain ⟨k, ch, hch, rfl⟩ := mem_ensureHotLex h
    exact hstored k ch hch

variable {docs : List LocalDocument}

theorem Client.All.ensureHotLexIncremental (hc : c.All P)
    (hP : ∀ ch ∈ documentsToChunks docs, P ch.documentID ch.text) :
    (c.give (c.memory.ensureHotLexIncremental tc docs).1).All P := by
  unfold Memory.ensureHotLexIncremental
  dsimp only
  split_ifs
  · exact hc.ensureHotLex
  · exact ⟨hc.stored, by simpa [Client.give] using hc.handed⟩
  · exact hc.ensureHotLex
  · refine ⟨hc.stored, fun e he => ?_⟩
    rcases mem_append.mp he with h | h
    · exact hc.handed e h
    · obtain ⟨ch, hch, rfl⟩ := mem_map.mp h
      exact hP ch hch

/-- The cortex body only holds texts of the given documents. -/
theorem lookup_cortexBody {body : GoMap GoString GoString} {id text : GoString}
    (h : (docs.foldl (fun body d => if d.id = [] then body else body.insert d.id d.text) body).lookup id = some text) :
    body.lookup id = some text ∨ ∃ d ∈ docs, d.id = id ∧ d.text = text := by
  induction docs generalizing body with
  | nil => exact .inl h
  | cons d rest ih =>
    rw [foldl_cons] at h
    rcases ih h with hb | ⟨d', hd', he⟩
    · split_ifs at hb with hid
      · exact .inl hb
      · rw [GoMap.lookup_insert_eq] at hb
        split_ifs at hb with hk
        · exact .inr ⟨d, (.head _), hk.symm, Option.some.inj hb⟩
        · exact .inl hb
    · exact .inr ⟨d', mem_cons_of_mem d hd', he⟩

theorem mem_seedCortex {e : Handed} (h : e ∈ seedCortex docs) : ∃ d ∈ docs, e = ⟨.cortex, d.id, d.text⟩ := by
  obtain ⟨id, -, hid⟩ := mem_filterMap.mp h
  obtain ⟨text, htext, rfl⟩ := Option.map_eq_some_iff.mp hid
  rcases lookup_cortexBody htext with hnone | ⟨d, hd, rfl, rfl⟩
  · simp at hnone
  · exact ⟨d, hd, rfl⟩

theorem Client.All.seed (hc : c.All P) (hP : ∀ d ∈ docs, P d.id d.text) : (b.seed c docs).All P := by
  refine ⟨hc.stored, fun e he => ?_⟩
  simp only [Brain.seed, mem_append] at he
  rcases he with (h | h) | h
  · exact hc.handed e h
  · split_ifs at h
    · obtain ⟨d, hd, rfl⟩ := mem_seedCortex h
      exact hP d hd
    · cases h
  · split_ifs at h
    · obtain ⟨d, hd, rfl⟩ := mem_map.mp h
      exact hP d (mem_of_mem_filter hd)
    · cases h

/-- A burst hands on texts of the admitted documents and of their chunks. -/
theorem Client.All.burstIngestLocal (hc : c.All P) (order : Interleaving)
    (flushed : Bool) (hP : ∀ d ∈ (redactDocuments b.inspect c.guard docs).1.admitted, P d.id d.text)
    (hchunks : ∀ ch ∈ documentsToChunks (redactDocuments b.inspect c.guard docs).1.admitted,
      P ch.documentID ch.text) : (b.burstIngestLocal c docs order flushed).2.All P := by
  have hguard : ∀ s, ({ c with guard := s } : Client σ).All P := fun s => ⟨hc.stored, hc.handed⟩
  unfold Brain.burstIngestLocal
  dsimp only
  split_ifs
  · exact hguard _
  · exact hguard _
  · exact (hguard _).burstUpsert order ready_documentsToChunks hchunks
  · exact (((hguard _).burstUpsert order ready_documentsToChunks hchunks).seed hP).ensureHotLexIncremental hchunks
  · exact ((hguard _).burstUpsert order ready_documentsToChunks hchunks).seed hP

/-- A delta hands on the texts of the chunks that changed. -/
theorem Client.All.continualDeltaLocal (hc : c.All P) (flushed : Bool)
    (hP : ∀ ch ∈ changedChunks c.memory.bag (documentsToChunks docs), P ch.documentID ch.text) :
    (b.continualDeltaLocal c docs flushed).2.All P := by
  have hsub : ∀ ch ∈ changedChunks c.memory.bag (documentsToChunks docs), ch ∈ documentsToChunks docs :=
    fun ch h => (mem_changedChunks.mp h).1
  have hready : ∀ ch ∈ changedChunks c.memory.bag (documentsToChunks docs), ch.Ready :=
    fun ch h => ready_documentsToChunks ch (hsub ch h)
  have hdocs : ∀ d ∈ deltaDocuments (changedChunks c.memory.bag (documentsToChunks docs)), P d.id d.text := by
    intro d hd
    obtain ⟨ch, hch, rfl⟩ := mem_map.mp hd
    exact hP ch hch
  unfold Brain.continualDeltaLocal
  dsimp only
  split_ifs
  · exact hc
  · exact hc.burstUpsert .inOrder hready hP
  · apply ((hc.burstUpsert .inOrder hready hP).seed hdocs).ensureHotLexIncremental
    rw [documentsToChunks_deltaDocuments hsub]
    exact hP

end Origin

/-- How the guard publishes a part of a document; there is nothing to inspect in an
empty one. -/
def PublishedAs (verdict : GoString → Verdict) (raw out : GoString) : Prop :=
  raw = [] ∧ out = [] ∨ verdict raw = .published out

/-- The text is the guard's projection of the document's text, alone or below the
projection of its title. -/
def MadeOfProjections (verdict : GoString → Verdict) (d : LocalDocument) (text : GoString) : Prop :=
  ∃ title' text', PublishedAs verdict d.title title' ∧ verdict d.text = .published text' ∧
    (text = chunkText title' text' ∨ text = text')

/-- The guard has nothing to mask in the title. -/
def TitleIsClean (verdict : GoString → Verdict) (d : LocalDocument) : Prop :=
  d.title = [] ∨ verdict d.title = .published d.title

/-- Titles are clean, and the documents that a delta writes are clean. -/
def IngestCall.Safe (verdict : GoString → Verdict) (c : Client σ) : IngestCall → Prop
  | .burst docs _ _ => ∀ d ∈ docs, (∃ text, verdict d.text = .published text) → TitleIsClean verdict d
  | .delta docs _ => ∀ d ∈ docs, ∀ ch, documentChunk d = some ch →
      (c.memory.bag.lookup ch.chunkID).map MemChunk.text ≠ some ch.text →
      TitleIsClean verdict d ∧ verdict d.text = .published d.text

def SafeRun (verdict : GoString → Verdict) (b : Brain σ) : Client σ → List IngestCall → Prop
  | _, [] => True
  | c, call :: rest => call.Safe verdict c ∧ SafeRun verdict b (b.call c call) rest

/-- Text that was stored before, or that is made of projections of one of the
documents. -/
def Accounted (verdict : GoString → Verdict) (bag : Bag) (docs : List LocalDocument) (id text : GoString) : Prop :=
  (∃ k ch, bag.lookup k = some ch ∧ ch.dsid = id ∧ ch.text = text) ∨
    ∃ d ∈ docs, (id = d.id ∨ id = trimSpace d.id) ∧ MadeOfProjections verdict d text

theorem Accounted.mono {verdict : GoString → Verdict} {bag : Bag} {docs docs' : List LocalDocument}
    {id text : GoString} (hsub : ∀ d ∈ docs, d ∈ docs') (h : Accounted verdict bag docs id text) :
    Accounted verdict bag docs' id text := by
  rcases h with hold | ⟨d, hd, hid, hm⟩
  · exact .inl hold
  · exact .inr ⟨d, hsub d hd, hid, hm⟩

theorem TitleIsClean.publishedAs {verdict : GoString → Verdict} {d : LocalDocument} (h : TitleIsClean verdict d) :
    PublishedAs verdict d.title d.title := by
  rcases h with he | hp
  · exact .inl ⟨he, he⟩
  · exact .inr hp

section Guarded

variable {tc : Toolchain} {verdict : GoString → Verdict} {hasCortex hasDense : Bool} {docs : List LocalDocument}

/-- The admitted documents carry the projections of their texts. -/
theorem admitted_redactLoop {inspect : Inspector Unit} (hi : inspect = fun _ _ text => (verdict text, ()))
    {out : PrivacyOutcome} {d' : LocalDocument}
    (h : d' ∈ (redactLoop inspect out () docs).1.admitted) :
    d' ∈ out.admitted ∨ ∃ d ∈ docs, ∃ text, verdict d.text = .published text ∧ d' = { d with text := text } := by
  induction docs generalizing out with
  | nil => exact .inl h
  | cons d rest ih =>
    subst hi
    rcases ih h with hout | ⟨d₁, hd₁, he⟩
    · cases hv : verdict d.text with
      | failed | withheld s =>
        rw [hv] at hout
        exact .inl hout
      | published text =>
        rw [hv] at hout
        rcases mem_append.mp hout with hold | hnew
        · exact .inl hold
        · exact .inr ⟨d, (.head _), text, hv, mem_singleton.mp hnew⟩
    · exact .inr ⟨d₁, mem_cons_of_mem d hd₁, he⟩

theorem accounted_call {c : Client Unit} {bag : Bag} {call : IngestCall}
    (hc : c.All (Accounted verdict bag docs)) (hsafe : call.Safe verdict c) :
    ((guardedBrain tc verdict hasCortex hasDense).call c call).All (Accounted verdict bag (docs ++ call.docs)) := by
  have hold : c.All (Accounted verdict bag (docs ++ call.docs)) :=
    ⟨fun k ch h => (hc.stored k ch h).mono (fun d => mem_append_left _),
      fun e he => (hc.handed e he).mono (fun d => mem_append_left _)⟩
  cases call with
  | burst new order flushed =>
    have hadmitted :
      ∀ d' ∈ (redactDocuments (guardedBrain tc verdict hasCortex hasDense).inspect c.guard new).1.admitted,
        ∃ d ∈ new, ∃ text, verdict d.text = .published text ∧ d' = { d with text := text } := by
      intro d' hd'
      rcases admitted_redactLoop rfl hd' with hnil | h
      · cases hnil
      · exact h
    apply hold.burstIngestLocal order flushed
    · intro d' hd'
      obtain ⟨d, hd, text, htext, rfl⟩ := hadmitted d' hd'
      have htitle := (hsafe d hd ⟨text, htext⟩).publishedAs
      exact .inr ⟨d, mem_append_right _ hd, .inl rfl, d.title, text, htitle, htext, .inr rfl⟩
    · intro ch hch
      obtain ⟨d', hd', hdc⟩ := mem_documentsToChunks.mp hch
      obtain ⟨d, hd, text, htext, rfl⟩ := hadmitted d' hd'
      obtain ⟨-, -, rfl⟩ := documentChunk_eq_some_iff.mp hdc
      have htitle := (hsafe d hd ⟨text, htext⟩).publishedAs
      exact .inr ⟨d, mem_append_right _ hd, .inr rfl, d.title, text, htitle, htext, .inl rfl⟩
  | delta new flushed =>
    apply hold.continualDeltaLocal flushed
    intro ch hch
    obtain ⟨hmem, hchanged⟩ := mem_changedChunks.mp hch
    obtain ⟨d, hd, hdc⟩ := mem_documentsToChunks.mp hmem
    obtain ⟨htitle, htext⟩ := hsafe d hd ch hdc hchanged
    obtain ⟨-, -, rfl⟩ := documentChunk_eq_some_iff.mp hdc
    exact .inr ⟨d, mem_append_right _ hd, .inr rfl, d.title, d.text, htitle.publishedAs, htext, .inl rfl⟩

theorem accounted_run {c : Client Unit} {bag : Bag} {calls : List IngestCall}
    (hc : c.All (Accounted verdict bag docs))
    (hsafe : SafeRun verdict (guardedBrain tc verdict hasCortex hasDense) c calls) :
    ((guardedBrain tc verdict hasCortex hasDense).run c calls).All
      (Accounted verdict bag (docs ++ calls.flatMap IngestCall.docs)) := by
  induction calls generalizing c docs with
  | nil =>
    rw [flatMap_nil, append_nil]
    exact hc
  | cons call rest ih =>
    rw [flatMap_cons, ← append_assoc]
    exact ih (accounted_call hc hsafe.1) hsafe.2

/-- In every run of safe calls, each text that a store is given was stored before
the run or is made of projections of a submitted document. -/
theorem ingest_hands_on_projections (m : Memory) (calls : List IngestCall)
    (hsafe : SafeRun verdict (guardedBrain tc verdict hasCortex hasDense) (openedClient m) calls) :
    ∀ e ∈ ((guardedBrain tc verdict hasCortex hasDense).run (openedClient m) calls).handed,
      Accounted verdict m.bag (calls.flatMap IngestCall.docs) e.documentID e.text := by
  have hstart : (openedClient m).All (Accounted verdict m.bag []) :=
    ⟨fun k ch h => .inl ⟨k, ch, h, rfl, rfl⟩, fun e he => by cases he⟩
  intro e he
  simpa using (accounted_run hstart hsafe).handed e he

end Guarded

/-- A guard that masks one address when it is all of the text. -/
def maskAddress (text : GoString) : Verdict :=
  .published (if text = lit "ann@x.io" then lit "********" else text)

def emptyMemory : Memory := ⟨∅, ⟨∅, false⟩⟩

def addressInText : LocalDocument := ⟨lit "d", lit "note", lit "ann@x.io", []⟩

def addressInTitle : LocalDocument := ⟨lit "d", lit "ann@x.io", lit "hello world", []⟩

theorem safeRun_addressInText : SafeRun maskAddress (guardedBrain .ascii maskAddress true true)
    (openedClient emptyMemory) [.burst [addressInText] .inOrder true] := by
  refine ⟨fun d hd _ => ?_, trivial⟩
  obtain rfl := mem_singleton.mp hd
  exact .inr (by decide)

/-- The address in the text is masked in the chunk store. -/
theorem ingest_hands_on_projections_note :
    Accounted maskAddress ∅ [addressInText] (lit "d") (lit "note\n\n********") :=
  ingest_hands_on_projections emptyMemory _ safeRun_addressInText
    ⟨.chunkStore, lit "d", lit "note\n\n********"⟩ (by decide +kernel)

/-- The address in the title reaches the chunk store as it is. -/
theorem address_in_title_is_stored :
    ¬ ∀ calls : List IngestCall,
      ∀ e ∈ ((guardedBrain .ascii maskAddress true true).run (openedClient emptyMemory) calls).handed,
        Accounted maskAddress ∅ (calls.flatMap IngestCall.docs) e.documentID e.text := by
  intro h
  have hmem : (⟨.chunkStore, lit "d", lit "ann@x.io\n\nhello world"⟩ : Handed) ∈
      ((guardedBrain .ascii maskAddress true true).run (openedClient emptyMemory)
        [.burst [addressInTitle] .inOrder true]).handed := by
    decide +kernel
  rcases h _ _ hmem with ⟨k, ch, hch, -⟩ | ⟨d, hd, -, title', text', htitle, htext, hmade⟩
  · simp at hch
  · obtain rfl : d = addressInTitle := mem_singleton.mp hd
    obtain rfl : lit "hello world" = text' := Verdict.published.inj htext
    rcases htitle with ⟨hnil, -⟩ | hpub
    · exact absurd hnil (by decide)
    · obtain rfl : lit "********" = title' := Verdict.published.inj hpub
      rcases hmade with he | he
      · exact absurd he (by decide +kernel)
      · exact absurd he (by decide +kernel)

end CodeMemory.Hosted
