import CodeMemory.Broker.Scopes

/-! Executed effects. An authorized `Execute` call has a section under the lock in
which it claims its key or finds it claimed, then the mutation outside the lock, and
a second section that records the receipt. Calls overlap in any way; the log keeps
what each section answered. -/

namespace CodeMemory.Broker

open Lib Lib.GoString Capability Lib.GoMap List

inductive Status where
  | rejected
  | completed
  deriving DecidableEq

structure Receipt where
  operationID : Identifier
  status : Status
  reasonCode : Reason
  deriving DecidableEq

/-- A call that passed `authorizeLeaf` in the world it found. -/
structure AuthorizedCall where
  world : World
  leaf : Leaf
  request : Request
  authorized : world.authorizeLeaf leaf request = .ok ()
  keyed : request.idempotencyKey ≠ []

def Request.receipt (request : Request) (status : Status) (reason : Reason) : Receipt :=
  ⟨⟨lit "effect", request.idempotencyKey⟩, status, reason⟩

def joinNul (fields : List GoString) : GoString := List.intercalate [0x00] fields

namespace AuthorizedCall

def requestText (c : AuthorizedCall) : GoString :=
  joinNul [lit "ouroboros.stage05.effect-request.v1", c.leaf.grant.grantID.value, c.request.action, c.request.path,
    c.request.resource.idNamespace, c.request.resource.value, c.request.idempotencyKey]

def requestDigest (sha256 : GoString → GoString) (c : AuthorizedCall) : Digest := digestBytes sha256 c.requestText

def tableKey (c : AuthorizedCall) : GoString :=
  joinNul [c.leaf.grant.tenant.value, c.leaf.grant.grantID.value, c.request.idempotencyKey]

def triple (c : AuthorizedCall) : GoString × GoString × GoString :=
  (c.leaf.grant.tenant.value, c.leaf.grant.grantID.value, c.request.idempotencyKey)

def effect (c : AuthorizedCall) : GoString × GoString × Identifier :=
  (c.request.action, c.request.path, c.request.resource)

end AuthorizedCall

/-- An entry of the table; there is no receipt before the mutation has succeeded. -/
structure ExecutedEffect where
  requestDigest : Digest
  receipt : Option Receipt

abbrev Table := GoMap GoString ExecutedEffect

inductive Answer where
  | started
  | replayed (receipt : Receipt)
  | denied (receipt : Receipt)
  deriving DecidableEq

variable (sha256 : GoString → GoString)

def claim (t : Table) (c : AuthorizedCall) : Answer × Table :=
  match t.lookup c.tableKey with
  | some recorded =>
    match recorded.receipt with
    | some receipt =>
      if recorded.requestDigest ≠ c.requestDigest sha256 then
        (.denied (c.request.receipt .rejected .idempotencyConflict), t)
      else (.replayed receipt, t)
    | none => (.denied (c.request.receipt .rejected .idempotencyConflict), t)
  | none => (.started, t.insert c.tableKey ⟨c.requestDigest sha256, none⟩)

/-- The second section, after the mutation has succeeded. -/
def recordReceipt (t : Table) (c : AuthorizedCall) (receipt : Receipt) : Table :=
  t.insert c.tableKey ⟨c.requestDigest sha256, some receipt⟩

inductive Entry where
  | answered (c : AuthorizedCall) (a : Answer)
  | completed (c : AuthorizedCall) (receipt : Receipt)
  | failed (c : AuthorizedCall)

/-- The table, the calls whose mutation is running, and the log, oldest first. -/
structure EffectState where
  executed : Table
  running : List AuthorizedCall
  log : List Entry

/-- A section of some call; a mutation that fails leaves the key claimed. -/
inductive Event where
  | execute (c : AuthorizedCall)
  | mutated (i : ℕ) (ok : Bool)

def EffectState.step (b : EffectState) : Event → EffectState
  | .execute c =>
    let (answer, table) := claim sha256 b.executed c
    { executed := table
      running := if answer = .started then b.running ++ [c] else b.running
      log := b.log ++ [.answered c answer] }
  | .mutated i ok =>
    match b.running[i]? with
    | none => b
    | some c =>
      let receipt := c.request.receipt .completed .allowed
      { executed := if ok then recordReceipt sha256 b.executed c receipt else b.executed
        running := b.running.eraseIdx i
        log := b.log ++ [if ok then .completed c receipt else .failed c] }

def newBroker : EffectState := ⟨∅, [], []⟩

def EffectState.run (b : EffectState) (es : List Event) : EffectState := es.foldl (EffectState.step sha256) b

def Started (log : List Entry) (c : AuthorizedCall) : Prop := .answered c .started ∈ log

/-- What has to hold of an entry after the given ones. A mutation starts if none was started for its triple; a receipt
is that of a completed execution of the same effect for the same triple; and no call is denied on account of another
triple. -/
def Fits (log : List Entry) : Entry → Prop
  | .answered c .started => ∀ c', Started log c' → c'.triple ≠ c.triple
  | .answered c (.replayed receipt) => ∃ c', .completed c' receipt ∈ log ∧ c'.triple = c.triple ∧ c'.effect = c.effect
  | .answered c (.denied _) => ∃ c', Started log c' ∧ c'.triple = c.triple
  | .completed c _ => Started log c
  | .failed c => Started log c

def AtMostOnce (log : List Entry) : Prop := ∀ before x after, log = before ++ x :: after → Fits before x

theorem AtMostOnce.append {log : List Entry} (h : AtMostOnce log) {x : Entry} (hx : Fits log x) :
    AtMostOnce (log ++ [x]) := by
  intro before y after heq
  rcases eq_nil_or_concat after with rfl | ⟨rest, z, rfl⟩
  · obtain ⟨rfl, hxy⟩ := append_inj' heq rfl
    cases hxy
    exact hx
  · have heq' : log ++ [x] = (before ++ y :: rest) ++ [z] := by rw [heq]; simp
    obtain ⟨hlog, -⟩ := append_inj' heq' rfl
    exact h before y rest hlog

/-- The calls can be told apart by the keys and digests the broker compares. -/
def Distinguishable (calls : Set AuthorizedCall) : Prop :=
  (∀ c ∈ calls, ∀ c' ∈ calls, c.tableKey = c'.tableKey → c.triple = c'.triple) ∧
    ∀ c ∈ calls, ∀ c' ∈ calls, c.triple = c'.triple → c.requestDigest sha256 = c'.requestDigest sha256 →
      c.effect = c'.effect

variable {c c' : AuthorizedCall}

theorem tableKey_eq_of_triple (h : c.triple = c'.triple) : c.tableKey = c'.tableKey := by
  simp only [AuthorizedCall.triple, Prod.mk.injEq] at h
  simp only [AuthorizedCall.tableKey, h]

/-- What the table says of the log, and who is in it. -/
structure Tracks (calls : Set AuthorizedCall) (b : EffectState) : Prop where
  claimed : ∀ k e, b.executed.lookup k = some e → ∃ c, Started b.log c ∧ c.tableKey = k
  recorded : ∀ k d r, b.executed.lookup k = some ⟨d, some r⟩ →
    ∃ c, .completed c r ∈ b.log ∧ c.tableKey = k ∧ c.requestDigest sha256 = d
  started : ∀ c, Started b.log c → (b.executed.lookup c.tableKey).isSome = true
  running : ∀ c ∈ b.running, Started b.log c
  among : ∀ c a, .answered c a ∈ b.log → c ∈ calls
  completed : ∀ c r, .completed c r ∈ b.log → Started b.log c

theorem tracks_newBroker (calls : Set AuthorizedCall) : Tracks sha256 calls newBroker where
  claimed := by simp [newBroker]
  recorded := by simp [newBroker]
  started := by simp [newBroker, Started]
  running := by simp [newBroker]
  among := by simp [newBroker]
  completed := by simp [newBroker]

section Step

variable {sha256} {calls : Set AuthorizedCall} {b : EffectState} {c : AuthorizedCall}

theorem Started.append {log : List Entry} (h : Started log c) (x : Entry) : Started (log ++ [x]) c :=
  mem_append_left _ h

section

variable (h : Tracks sha256 calls b)
include h

/-- A call that finds its key free. -/
theorem Tracks.start (hc : c ∈ calls) (hfree : b.executed.lookup c.tableKey = none) :
    Tracks sha256 calls ⟨b.executed.insert c.tableKey ⟨c.requestDigest sha256, none⟩, b.running ++ [c],
      b.log ++ [.answered c .started]⟩ ∧ Fits b.log (.answered c .started) := by
  have hnew : Started (b.log ++ [.answered c .started]) c := mem_append_right _ (.head _)
  refine ⟨⟨?_, ?_, ?_, ?_, ?_, ?_⟩, ?_⟩
  · intro k e hk
    rw [lookup_insert_eq] at hk
    split_ifs at hk with heq
    · exact ⟨c, hnew, heq.symm⟩
    · obtain ⟨c', hstart, hkey⟩ := h.claimed k e hk
      exact ⟨c', hstart.append _, hkey⟩
  · intro k d r hk
    rw [lookup_insert_eq] at hk
    split_ifs at hk with heq
    · cases hk
    · obtain ⟨c', hcomp, hkey⟩ := h.recorded k d r hk
      exact ⟨c', mem_append_left _ hcomp, hkey⟩
  · intro c' hc'
    rw [lookup_insert_eq]
    split_ifs with heq
    · rfl
    · rcases mem_append.mp hc' with hold | hlast
      · exact h.started c' hold
      · rw [mem_singleton] at hlast
        cases hlast
        exact absurd rfl heq
  · intro c' hc'
    rcases mem_append.mp hc' with hold | hlast
    · exact (h.running c' hold).append _
    · rw [mem_singleton] at hlast
      subst hlast
      exact hnew
  · intro c' a ha
    rcases mem_append.mp ha with hold | hlast
    · exact h.among c' a hold
    · rw [mem_singleton] at hlast
      cases hlast
      exact hc
  · intro c' r hr
    rcases mem_append.mp hr with hold | hlast
    · exact (h.completed c' r hold).append _
    · rw [mem_singleton] at hlast
      cases hlast
  · intro c' hstart htriple
    have hsome := h.started c' hstart
    rw [tableKey_eq_of_triple htriple, hfree] at hsome
    cases hsome

/-- An entry of the log that starts nothing and leaves the table as it is. -/
theorem Tracks.note {x : Entry} (hstart : ∀ c, x ≠ .answered c .started)
    (hamong : ∀ c a, x = .answered c a → c ∈ calls) (hcomp : ∀ c r, x = .completed c r → Started b.log c)
    {running : List AuthorizedCall} (hrun : running ⊆ b.running) :
    Tracks sha256 calls ⟨b.executed, running, b.log ++ [x]⟩ := by
  refine ⟨?_, ?_, ?_, ?_, ?_, ?_⟩
  · intro k e hk
    obtain ⟨c, hc, hkey⟩ := h.claimed k e hk
    exact ⟨c, hc.append x, hkey⟩
  · intro k d r hk
    obtain ⟨c, hc, hkey⟩ := h.recorded k d r hk
    exact ⟨c, mem_append_left _ hc, hkey⟩
  · intro c hc
    rcases mem_append.mp hc with hold | hlast
    · exact h.started c hold
    · rw [mem_singleton] at hlast
      exact absurd hlast.symm (hstart c)
  · exact fun c hc => (h.running c (hrun hc)).append x
  · intro c a ha
    rcases mem_append.mp ha with hold | hlast
    · exact h.among c a hold
    · rw [mem_singleton] at hlast
      exact hamong c a hlast.symm
  · intro c r hr
    rcases mem_append.mp hr with hold | hlast
    · exact (h.completed c r hold).append x
    · rw [mem_singleton] at hlast
      exact (hcomp c r hlast.symm).append x

/-- A mutation that succeeded writes its receipt over its own claim. -/
theorem Tracks.complete (hc : c ∈ b.running) (r : Receipt)
    {running : List AuthorizedCall} (hrun : running ⊆ b.running) :
    Tracks sha256 calls ⟨recordReceipt sha256 b.executed c r, running, b.log ++ [.completed c r]⟩ := by
  have hnote := h.note (x := .completed c r) (fun c' hc' => by cases hc') (fun c' a hc' => by cases hc')
    (fun c' r' hc' => by cases hc'; exact h.running c hc) hrun
  refine ⟨?_, ?_, ?_, hnote.running, hnote.among, hnote.completed⟩
  · intro k e hk
    rw [recordReceipt, lookup_insert_eq] at hk
    split_ifs at hk with heq
    · exact ⟨c, (h.running c hc).append _, heq.symm⟩
    · exact hnote.claimed k e hk
  · intro k d r' hk
    rw [recordReceipt, lookup_insert_eq] at hk
    split_ifs at hk with heq
    · cases hk
      exact ⟨c, mem_append_right _ (.head _), heq.symm, rfl⟩
    · exact hnote.recorded k d r' hk
  · intro c' hc'
    rw [recordReceipt, lookup_insert_eq]
    split_ifs
    · rfl
    · exact hnote.started c' hc'

/-- A call that finds its key claimed is denied, or gets the receipt of the execution that claimed it. -/
theorem Tracks.fits_found (hdist : Distinguishable sha256 calls)
    (hc : c ∈ calls) {e : ExecutedEffect} (hfound : b.executed.lookup c.tableKey = some e) :
    (claim sha256 b.executed c).2 = b.executed ∧ (claim sha256 b.executed c).1 ≠ .started ∧
      Fits b.log (.answered c (claim sha256 b.executed c).1) := by
  obtain ⟨d, receipt⟩ := e
  obtain ⟨c₀, hstart, hkey⟩ := h.claimed _ _ hfound
  have hden : ∀ r, Fits b.log (.answered c (.denied r)) :=
    fun r => ⟨c₀, hstart, hdist.1 c₀ (h.among c₀ _ hstart) c hc hkey⟩
  unfold claim
  rw [hfound]
  cases receipt with
  | none => exact ⟨rfl, by simp, hden _⟩
  | some r =>
    by_cases hdig : d = c.requestDigest sha256
    · subst hdig
      simp only [ne_eq, not_true_eq_false, if_false]
      obtain ⟨c', hcomp, hkey', hdig'⟩ := h.recorded _ _ _ hfound
      have hc' : c' ∈ calls := h.among c' _ (h.completed c' r hcomp)
      have htriple : c'.triple = c.triple := hdist.1 c' hc' c hc hkey'
      exact ⟨trivial, by simp, c', hcomp, htriple, hdist.2 c' hc' c hc htriple hdig'⟩
    · simp only [ne_eq, hdig, not_false_eq_true, if_true]
      exact ⟨trivial, by simp, hden _⟩

theorem Tracks.step (hdist : Distinguishable sha256 calls) (hlog : AtMostOnce b.log)
    (e : Event) (he : ∀ c, e = .execute c → c ∈ calls) :
    Tracks sha256 calls (b.step sha256 e) ∧ AtMostOnce (b.step sha256 e).log := by
  cases e with
  | execute c =>
    have hc : c ∈ calls := he c rfl
    cases hfound : b.executed.lookup c.tableKey with
    | none =>
      have hclaim : claim sha256 b.executed c =
          (.started, b.executed.insert c.tableKey ⟨c.requestDigest sha256, none⟩) := by
        simp only [claim, hfound]
      simp only [EffectState.step, hclaim, if_true]
      exact ⟨(h.start hc hfound).1, hlog.append (h.start hc hfound).2⟩
    | some e =>
      obtain ⟨htable, hstart, hfits⟩ := h.fits_found hdist hc hfound
      simp only [EffectState.step, htable, if_neg hstart]
      refine ⟨h.note (fun c' hx => ?_) (fun c' a hx => ?_) (fun c' r hx => by cases hx) (List.Subset.refl _),
        hlog.append hfits⟩
      · injection hx with _ ha
        exact hstart ha
      · injection hx with hcc
        exact hcc ▸ hc
  | mutated i ok =>
    cases hi : b.running[i]? with
    | none =>
      simp only [EffectState.step, hi]
      exact ⟨h, hlog⟩
    | some c =>
      have hc : c ∈ b.running := mem_of_getElem? hi
      have hsub : b.running.eraseIdx i ⊆ b.running := (eraseIdx_sublist _ _).subset
      simp only [EffectState.step, hi]
      cases ok with
      | true => exact ⟨h.complete hc _ hsub, hlog.append (x := .completed c _) (h.running c hc)⟩
      | false =>
        refine ⟨h.note (x := .failed c) ?_ ?_ ?_ hsub, hlog.append (x := .failed c) (h.running c hc)⟩ <;>
        · intros
          simp_all

end

end Step

variable {sha256} in
theorem tracks_run {calls : Set AuthorizedCall} (hdist : Distinguishable sha256 calls) {b : EffectState}
    (h : Tracks sha256 calls b) (hlog : AtMostOnce b.log) (es : List Event) (hes : ∀ c, .execute c ∈ es → c ∈ calls) :
    AtMostOnce (b.run sha256 es).log := by
  induction es generalizing b with
  | nil => exact hlog
  | cons e es ih =>
    obtain ⟨h', hlog'⟩ := h.step hdist hlog e (fun c hc => hes c (by simp [hc]))
    exact ih h' hlog' (fun c hc => hes c (.tail _ hc))

/-- A second call under a key that is claimed and not recorded. -/
theorem log_execute_execute (hkey : c.tableKey = c'.tableKey) :
    (newBroker.run sha256 [.execute c, .execute c']).log = [.answered c .started] ++
      [.answered c' (.denied (c'.request.receipt .rejected .idempotencyConflict))] := by
  simp [EffectState.run, EffectState.step, newBroker, claim, hkey]

theorem triple_eq_of_fits_denied {r : Receipt}
    (h : Fits [.answered c .started] (.answered c' (.denied r))) : c.triple = c'.triple := by
  obtain ⟨c₀, hstart, htriple⟩ := h
  simp only [Started, mem_singleton, Entry.answered.injEq, and_true] at hstart
  rw [← hstart, htriple]

/-- In every interleaving of the calls each triple starts its own mutation once, and gets its own receipt, exactly when
the calls can be told apart by what the broker compares. -/
theorem at_most_once_iff (calls : Set AuthorizedCall) :
    (∀ es : List Event, (∀ c, .execute c ∈ es → c ∈ calls) → AtMostOnce (newBroker.run sha256 es).log) ↔
      Distinguishable sha256 calls := by
  constructor
  · intro h
    refine ⟨fun c hc c' hc' hkey => ?_, fun c hc c' hc' htriple hdig => ?_⟩
    · -- The second call finds the claim of the first.
      exact triple_eq_of_fits_denied (h [.execute c, .execute c'] (by simp [hc, hc']) _ _ []
        (log_execute_execute sha256 hkey))
    · -- The second call gets the receipt of the first.
      have hkey : c.tableKey = c'.tableKey := tableKey_eq_of_triple htriple
      let receipt := c.request.receipt .completed .allowed
      have hlog : (newBroker.run sha256 [.execute c, .mutated 0 true, .execute c']).log =
          [.answered c .started, .completed c receipt] ++ [.answered c' (.replayed receipt)] := by
        simp [EffectState.run, EffectState.step, newBroker, claim, recordReceipt, hkey, hdig, receipt]
      obtain ⟨c₀, hcomp, -, heff⟩ := h [.execute c, .mutated 0 true, .execute c'] (by simp [hc, hc']) _ _ [] hlog
      simp only [mem_cons, reduceCtorEq, Entry.completed.injEq, and_true, not_mem_nil, or_false,
        false_or] at hcomp
      rw [← hcomp, heff]
  · intro hdist es hes
    exact tracks_run hdist (tracks_newBroker sha256 calls) (fun before x after heq => by simp [newBroker] at heq) es hes

def exampleCall (grantID tenant : GoString)
    (h : exampleWorld.authorizeLeaf (exampleLeaf grantID tenant [lit "src"] [])
      ⟨actionFileWrite, lit "src/a.go", ⟨[], []⟩, lit "k"⟩ = .ok ()) : AuthorizedCall :=
  ⟨exampleWorld, exampleLeaf grantID tenant [lit "src"] [], ⟨actionFileWrite, lit "src/a.go", ⟨[], []⟩, lit "k"⟩, h,
    by simp [lit]⟩

/-- The tenant `a` with the grant `b NUL c`, and the tenant `a NUL b` with the grant `c`: the second is denied although
nothing was ever started for it. -/
theorem at_most_once_shares_key :
    ∃ c c' : AuthorizedCall, c.triple ≠ c'.triple ∧
      ¬ AtMostOnce (newBroker.run id [.execute c, .execute c']).log := by
  let c := exampleCall (lit "b\x00c") (lit "a") (by decide +kernel)
  let c' := exampleCall (lit "c") (lit "a\x00b") (by decide +kernel)
  have hne : c.triple ≠ c'.triple := by decide +kernel
  have hkey : c.tableKey = c'.tableKey := by decide +kernel
  exact ⟨c, c', hne, fun h => hne (triple_eq_of_fits_denied (h _ _ [] (log_execute_execute id hkey)))⟩

end CodeMemory.Broker
