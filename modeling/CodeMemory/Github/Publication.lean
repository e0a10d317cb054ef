import CodeMemory.Github.Broker

/-! Publications of one tuple converge: the provider keeps the pull request
single, and the outbox keeps the receipt single as long as no call still acts on
what it read of the row before the receipt was written. -/

namespace CodeMemory.Github

open Lib Lib.GoString List

/-- Everything that was created for a publication joins its branches, and there is one such pull request at most. -/
structure Provider.Single (p : Provider) (head base : GoString) : Prop where
  created : p.created ≤ 1
  there : p.created = 1 → p.pulls.any (·.joins head base) = true

theorem Provider.Single.create {p : Provider} {input : CreatePRInput} (h : p.Single input.head input.base) (number : ℕ)
    (nodeID : GoString) (draft : Bool) : (p.create input number nodeID draft).2.Single input.head input.base := by
  unfold Provider.create
  split
  · exact h
  · next hnone =>
    have hzero : p.created = 0 := by
      have := h.created
      by_contra hne
      exact hnone (h.there (by omega))
    refine ⟨by simp [hzero], fun _ => ?_⟩
    simp [PullRequest.joins]

theorem any_modify {α : Type} {p : α → Bool} {f : α → α} (hf : ∀ a, p (f a) = p a) (l : List α) (i : ℕ) :
    (l.modify i f).any p = l.any p := by
  induction l generalizing i with
  | nil => simp
  | cons a l ih =>
    cases i with
    | zero => simp [hf]
    | succ i => simp [ih]

theorem Provider.Single.edit {p : Provider} {head base : GoString} (h : p.Single head base) (i : ℕ) (draft : Bool)
    (state : PullState) (title body : GoString) : (p.edit i draft state title body).Single head base := by
  refine ⟨h.created, fun hone => ?_⟩
  exact (any_modify (f := fun pr => { pr with draft := draft, state := state, title := title, body := body })
    (fun _ => rfl) p.pulls i).trans (h.there hone)

def Phase.rereads : Phase → Bool
  | .branch | .draft => true
  | _ => false

def Phase.commits : Phase → Bool
  | .commit _ => true
  | _ => false

/-- What a step does to the row of its call, and where the call stands then. -/
inductive Step (D : Digests) (request : PublishRequest) (row : OutboxRow) (phase : Phase) (w : World) :
    Next → World → Prop
  /-- The row stays; a call that found the publication done still rereads. -/
  | look (next : Next) (w' : World) (outbox : w'.outbox = w.outbox)
    (provider : w'.provider = w.provider ∨ ∃ number nodeID draft,
      w'.provider = (w.provider.create (createPRInput D request) number nodeID draft).2)
        (silent : ∀ r, next ≠ .returns r)
    (done : phase.rereads = true → row.state = .prCreated → ∀ q, next = .goes q → q.rereads = true) :
    Step D request row phase w next w'
  | answer (done : row.state = .prCreated) : Step D request row phase w (.returns row.receipt) w
  /-- The row takes another state; a call that rereads does so only before the publication is done. -/
  | write (next : Next) (state : OutboxState) (unfinished : state ≠ .prCreated) (silent : ∀ r, next ≠ .returns r)
    (early : phase.rereads = true → row.state ≠ .prCreated) :
    Step D request row phase w next (w.setRow D request { row with state := state })
  | commit (pr : PullRequest) (commits : phase = .commit pr) :
    Step D request row phase w (.returns (prReceipt D request pr)) (w.setRow D request
      { row with
        state := .prCreated
        providerPRID := (prReceipt D request pr).providerPRID
        receipt := prReceipt D request pr })

theorem checkBase_silent (request : PublishRequest) (phase : Phase) (sha : Option (Option GoString)) (r : Receipt) :
    checkBase request phase sha ≠ .returns r := by
  unfold checkBase
  split
  · simp
  · split <;> simp

theorem checkHead_silent (request : PublishRequest) {absent : Next} (h : ∀ r, absent ≠ .returns r)
    (sha : Option (Option GoString)) (r : Receipt) : checkHead request absent sha ≠ .returns r := by
  unfold checkHead
  split
  · simp
  · exact h r
  · split <;> simp

theorem recover_silent (D : Digests) (request : PublishRequest) (pulls : List PullRequest) (r : Receipt) :
    recover D request pulls ≠ .returns r := by
  unfold recover
  dsimp only
  split <;> simp

/-- A creation ends no call and writes nothing in the outbox. -/
theorem create_cases (D : Digests) (w : World) (request : PublishRequest) (c : Creation) :
    (w.create D request c).2.outbox = w.outbox ∧ ((w.create D request c).2.provider = w.provider ∨
      ∃ number nodeID draft,
        (w.create D request c).2.provider = (w.provider.create (createPRInput D request) number nodeID draft).2) ∧
      ∀ r, (w.create D request c).1 ≠ .returns r := by
  cases c with
  | failed => exact ⟨rfl, .inl rfl, by simp [World.create]⟩
  | lost number nodeID draft => exact ⟨rfl, .inr ⟨number, nodeID, draft, rfl⟩, by simp [World.create]⟩
  | answered number nodeID draft =>
    simp only [World.create]
    split
    · exact ⟨rfl, .inl rfl, by simp⟩
    · refine ⟨rfl, .inr ⟨number, nodeID, draft, rfl⟩, ?_⟩
      split <;> simp

theorem step_act {D : Digests} {w w' : World} {request : PublishRequest} {row : OutboxRow} {phase : Phase}
    {answer : Answer} {next : Next} (h : w.act D request row phase answer = some (next, w')) :
    Step D request row phase w next w' := by
  cases phase <;> cases answer <;> simp only [World.act, reduceCtorEq] at h
  case branch.authorized ok =>
    cases ok with
    | false =>
      cases h
      exact .look _ _ rfl (.inl rfl) (by simp) fun _ _ _ hq => by cases hq
    | true =>
      cases hstate : row.state with
      | branchPublished | prPending | prInFlight | prCreated =>
        rw [hstate] at h
        cases h
        refine .look _ _ rfl (.inl rfl) (by simp) fun _ _ q hq => ?_
        cases hq
        rfl
      | _ =>
        rw [hstate] at h
        cases h
        exact .write _ _ (by simp) (by simp) fun _ hdone => by simp_all
  case draft.authorized ok =>
    cases ok with
    | false =>
      cases h
      exact .look _ _ rfl (.inl rfl) (by simp) fun _ _ _ hq => by cases hq
    | true =>
      dsimp only at h
      split at h <;> cases h
      · next hdone => exact .answer hdone
      · next hdone => exact .write _ _ (by simp) (by simp) fun _ => hdone
  -- No other answer that fits finds a call that rereads, except where permission fails.
  case branchBase.ref | draftBase.ref =>
    cases h
    exact .look _ _ rfl (.inl rfl) (checkBase_silent _ _ _) fun hr => by cases hr
  case branchHead.ref | branchHeadAgain.ref =>
    cases h
    exact .look _ _ rfl (.inl rfl) (checkHead_silent _ (by simp) _) fun hr => by cases hr
  case createRef.madeRef =>
    cases h
    exact .look _ _ rfl (.inl rfl) (by simp) fun hr => by cases hr
  case listing.listed ok =>
    cases ok <;> cases h <;> exact .look _ _ rfl (.inl rfl) (by simp) fun hr => by cases hr
  case listingAgain.listed ok =>
    cases ok <;> cases h
    · exact .look _ _ rfl (.inl rfl) (by simp) fun hr => by cases hr
    · exact .look _ _ rfl (.inl rfl) (recover_silent _ _ _) fun hr => by cases hr
  case creating.created =>
    obtain ⟨houtbox, hprovider, hsilent⟩ := create_cases D w request _
    obtain ⟨rfl, rfl⟩ := Prod.mk.inj (Option.some.inj h)
    exact .look _ _ houtbox hprovider hsilent fun hr => by cases hr
  case commit.locked pr =>
    cases h
    exact .commit pr rfl
  all_goals
    cases h
    exact .write _ _ (by simp) (by simp) fun hr => by cases hr

/-- The event begins no call for another publication: tuple, content and idempotency key are those of `p`. -/
def Event.For (p : PublishRequest) : Event → Prop
  | .publish r => r.tuple = p.tuple ∧ r.content = p.content ∧ r.idempotencyKey = p.idempotencyKey
  | _ => True

instance (p : PublishRequest) : DecidablePred (Event.For p)
  | .publish _ => inferInstanceAs (Decidable (_ ∧ _ ∧ _))
  | .act .. | .edit .. | .restart | .orphan .. => isTrue trivial

/-- Calls and creations under way are for the tuple. -/
structure System.For (p : PublishRequest) (s : System) : Prop where
  calls : ∀ c ∈ s.calls, c.request.tuple = p.tuple
  orphans : ∀ r ∈ s.orphans, r.tuple = p.tuple

theorem createPRInput_of_tuple (D : Digests) {p r : PublishRequest} (h : r.tuple = p.tuple) :
    (createPRInput D r).head = (createPRInput D p).head ∧ (createPRInput D r).base = (createPRInput D p).base := by
  simp only [createPRInput, h, and_self]

section Invariants

variable {D : Digests} {p : PublishRequest} {s : System} {w : World}

/-- The calls that are there after a step of call `i` were there before, or are call `i`. -/
theorem mem_next {i : ℕ} {call c : Call} {next : Next} (hc : c ∈ (s.next i call w next).calls) :
    c ∈ s.calls ∨ ∃ phase, next = .goes phase ∧ c = { call with phase := phase } := by
  cases next with
  | goes phase =>
    rcases mem_or_eq_of_mem_set hc with hc | rfl
    · exact .inl hc
    · exact .inr ⟨phase, rfl, rfl⟩
  | fails | returns r => exact .inl (mem_of_mem_eraseIdx hc)

theorem next_orphans (i : ℕ) (call : Call) (w : World) (next : Next) : (s.next i call w next).orphans = s.orphans := by
  cases next <;> rfl

theorem next_world (i : ℕ) (call : Call) (w : World) (next : Next) : (s.next i call w next).world = w := by
  cases next <;> rfl

theorem next_returned {i : ℕ} {call : Call} {next : Next} (silent : ∀ r, next ≠ .returns r) :
    (s.next i call w next).returned = s.returned := by
  cases next with
  | goes | fails => rfl
  | returns r => exact absurd rfl (silent r)

inductive Turn (D : Digests) (s : System) : Event → System → Prop
  | idle (e : Event) : Turn D s e s
  | told {request : PublishRequest} {row : OutboxRow} (hrow : s.world.outbox.lookup (D.tuple request.tuple) = some row)
    (done : row.state = .prCreated) : Turn D s (.publish request) { s with returned := s.returned ++ [row.receipt] }
  | begun {request : PublishRequest} {outbox : GoMap GoString OutboxRow} (entered : outbox = s.world.outbox ∨
      ∃ row : OutboxRow, row.state = .branchPending ∧ s.world.outbox.lookup (D.tuple request.tuple) = none ∧
        outbox = s.world.outbox.insert (D.tuple request.tuple) row) :
    Turn D s (.publish request)
      { s with world := { s.world with outbox := outbox }, calls := s.calls ++ [⟨request, .branch⟩] }
  | acts {i : ℕ} {answer : Answer} {call : Call} {row : OutboxRow} {next : Next} {w : World}
    (hi : s.calls[i]? = some call) (hrow : s.world.outbox.lookup (D.tuple call.request.tuple) = some row)
    (step : Step D call.request row call.phase s.world next w) : Turn D s (.act i answer) (s.next i call w next)
  | edited (i : ℕ) (draft : Bool) (state : PullState) (title body : GoString) :
    Turn D s (.edit i draft state title body)
      { s with world := { s.world with provider := s.world.provider.edit i draft state title body } }
  | restarted : Turn D s .restart (s.step D .restart)
  | orphaned {i : ℕ} {request : PublishRequest} (hi : s.orphans[i]? = some request) (number : ℕ) (nodeID : GoString)
    (draft : Bool) : Turn D s (.orphan i number nodeID draft) { s with world := { s.world with
      provider := (s.world.provider.create (createPRInput D request) number nodeID draft).2 } }

theorem turn_step (D : Digests) (s : System) (e : Event) : Turn D s e (s.step D e) := by
  cases e with
  | publish request =>
    simp only [System.step, System.publish, enter]
    cases hrow : s.world.outbox.lookup (D.tuple request.tuple) with
    | none => exact .begun (.inr ⟨_, rfl, hrow, rfl⟩)
    | some row =>
      dsimp only
      by_cases hprint : row.requestFingerprint ≠ fingerprint D request
      · rw [if_pos hprint]
        exact .idle _
      · rw [if_neg hprint]
        cases hstate : row.state with
        | prCreated => exact .told hrow hstate
        | terminalConflict | prAlreadyClosed => exact .idle _
        | _ => exact .begun (.inl rfl)
  | act i answer =>
    simp only [System.step, System.act]
    split
    · exact .idle _
    · next call hi =>
      split
      · exact .idle _
      · next row hrow =>
        split
        · exact .idle _
        · next next w hact => exact .acts hi hrow (step_act hact)
  | edit i draft state title body => exact .edited i draft state title body
  | restart => exact .restarted
  | orphan i number nodeID draft =>
    simp only [System.step]
    split
    · exact .idle _
    · next request hi => exact .orphaned hi number nodeID draft

variable {t : System} {e : Event}

theorem System.For.turn (hs : s.For p) (ht : Turn D s e t) (he : e.For p) : t.For p := by
  cases ht with
  | idle => exact hs
  | told | edited | orphaned => exact ⟨hs.calls, hs.orphans⟩
  | begun =>
    exact ⟨forall_mem_append.mpr ⟨hs.calls, forall_mem_singleton.mpr he.1⟩, hs.orphans⟩
  | @acts i answer call row next w hi =>
    refine ⟨fun c hc => ?_, fun r hr => hs.orphans r (next_orphans i call w next ▸ hr)⟩
    rcases mem_next hc with hc | ⟨phase, -, rfl⟩
    · exact hs.calls c hc
    · exact hs.calls call (mem_of_getElem? hi)
  | restarted =>
    refine ⟨fun c hc => absurd hc not_mem_nil, forall_mem_append.mpr ⟨hs.orphans, forall_mem_map.mpr fun c hc => ?_⟩⟩
    exact hs.calls c (mem_of_mem_filter hc)

def System.Single (D : Digests) (p : PublishRequest) (s : System) : Prop :=
  s.world.provider.Single (createPRInput D p).head (createPRInput D p).base

theorem single_create {r : PublishRequest} (hr : r.tuple = p.tuple)
    (h : w.provider.Single (createPRInput D p).head (createPRInput D p).base) (number : ℕ) (nodeID : GoString)
    (draft : Bool) : (w.provider.create (createPRInput D r) number nodeID draft).2.Single (createPRInput D p).head
      (createPRInput D p).base := by
  obtain ⟨hhead, hbase⟩ := createPRInput_of_tuple D hr
  rw [← hhead, ← hbase] at h ⊢
  exact h.create number nodeID draft

theorem System.Single.turn (hs : s.Single D p) (ht : Turn D s e t) (hp : s.For p) : t.Single D p := by
  cases ht with
  | idle | told | begun | restarted => exact hs
  | acts hi _ step =>
    rw [System.Single, next_world]
    cases step with
    | look _ _ _ provider =>
      rcases provider with heq | ⟨number, nodeID, draft, heq⟩
      · rwa [heq]
      · rw [heq]
        exact single_create (hp.calls _ (mem_of_getElem? hi)) hs number nodeID draft
    | answer | write | commit => exact hs
  | edited i draft state title body => exact Provider.Single.edit hs i draft state title body
  | orphaned hi number nodeID draft => exact single_create (hp.orphans _ (mem_of_getElem? hi)) hs number nodeID draft

/-- A call that writes its receipt finds every other call at a point where it will look at the row again. -/
def Undisturbed (s : System) : Event → Prop
  | .act i _ => (s.calls[i]?).any (·.phase.commits) = true → ∀ c ∈ s.calls.eraseIdx i, c.phase.rereads = true
  | _ => True

instance (s : System) : DecidablePred (Undisturbed s)
  | .act .. => inferInstanceAs (Decidable (_ → _))
  | .publish _ | .edit .. | .restart | .orphan .. => isTrue trivial

def System.rowState (D : Digests) (p : PublishRequest) (s : System) : Option OutboxState :=
  (s.world.outbox.lookup (D.tuple p.tuple)).map (·.state)

/-- The receipts of this lifetime are the one of the row, and calls next to a finished row reread it. -/
structure System.Settled (D : Digests) (p : PublishRequest) (s : System) : Prop where
  rereads : ∀ row, s.world.outbox.lookup (D.tuple p.tuple) = some row → row.state = .prCreated →
    ∀ c ∈ s.calls, c.phase.rereads = true
  receipts : ∀ r ∈ s.returned, ∃ row, s.world.outbox.lookup (D.tuple p.tuple) = some row ∧
    row.state = .prCreated ∧ row.receipt = r

theorem settled_start (pulls : List PullRequest) : (System.start pulls).Settled D p := by
  refine ⟨fun row hrow => ?_, fun r hr => absurd hr not_mem_nil⟩
  simp [System.start] at hrow

variable {row : OutboxRow}

section

variable (hs : s.Settled D p)
include hs

/-- Nothing was returned yet while the row is unfinished. -/
theorem System.Settled.returned_eq_nil
    (hrow : s.world.outbox.lookup (D.tuple p.tuple) = some row) (hopen : row.state ≠ .prCreated) : s.returned = [] := by
  refine eq_nil_iff_forall_not_mem.mpr fun r hr => ?_
  obtain ⟨row', hrow', hdone, -⟩ := hs.receipts r hr
  rw [hrow] at hrow'
  cases hrow'
  exact hopen hdone

/-- A step of a call of the publication, in terms of the row. -/
theorem System.Settled.next {i : ℕ} {call : Call} {next : Next}
    (hi : s.calls[i]? = some call) (hcall : call.request.tuple = p.tuple)
    (hrow : s.world.outbox.lookup (D.tuple p.tuple) = some row)
    (hstep : Step D call.request row call.phase s.world next w)
    (halone : call.phase.commits = true → ∀ c ∈ s.calls.eraseIdx i, c.phase.rereads = true) :
    (s.next i call w next).Settled D p := by
  have hmem : call ∈ s.calls := mem_of_getElem? hi
  cases hstep with
  | look next w outbox _ silent done =>
    have hlookup : (s.next i call w next).world.outbox = s.world.outbox := by rw [next_world, outbox]
    refine ⟨fun row' hrow' hdone c hc => ?_, fun r hr => ?_⟩
    · rw [hlookup, hrow] at hrow'
      cases hrow'
      rcases mem_next hc with hc | ⟨q, hq, rfl⟩
      · exact hs.rereads row hrow hdone c hc
      · exact done (hs.rereads row hrow hdone call hmem) hdone q hq
    · rw [hlookup]
      exact hs.receipts r (next_returned silent ▸ hr)
  | answer done =>
    refine ⟨fun row' hrow' hdone c hc => hs.rereads row' hrow' hdone c (mem_of_mem_eraseIdx hc), ?_⟩
    exact forall_mem_append.mpr ⟨hs.receipts, forall_mem_singleton.mpr ⟨row, hrow, done, rfl⟩⟩
  | write next state unfinished silent early =>
    -- The row was not finished, since the call had not read it anew.
    have hopen : row.state ≠ .prCreated := fun hdone => early (hs.rereads row hrow hdone call hmem) hdone
    refine ⟨fun row' hrow' hdone => ?_, fun r hr => ?_⟩
    · rw [next_world, World.setRow, hcall, Finmap.lookup_insert] at hrow'
      cases hrow'
      exact absurd hdone unfinished
    · rw [next_returned silent, hs.returned_eq_nil hrow hopen] at hr
      cases hr
  | commit pr commits =>
    have hopen : row.state ≠ .prCreated := by
      intro hdone
      have hreads := hs.rereads row hrow hdone call hmem
      rw [commits] at hreads
      cases hreads
    refine ⟨fun row' hrow' hdone c hc => halone (by rw [commits]; rfl) c hc, fun r hr => ?_⟩
    change r ∈ s.returned ++ [prReceipt D call.request pr] at hr
    rw [hs.returned_eq_nil hrow hopen, nil_append, mem_singleton] at hr
    subst hr
    simp only [next_world, World.setRow, hcall, Finmap.lookup_insert]
    exact ⟨_, rfl, rfl, rfl⟩

theorem System.Settled.turn (ht : Turn D s e t) (hp : s.For p) (he : e.For p) (hu : Undisturbed s e) :
    t.Settled D p := by
  cases ht with
  | idle => exact hs
  | told hrow done =>
    rw [he.1] at hrow
    exact ⟨hs.rereads, forall_mem_append.mpr ⟨hs.receipts, forall_mem_singleton.mpr ⟨_, hrow, done, rfl⟩⟩⟩
  | begun entered =>
    rw [he.1] at entered
    rcases entered with rfl | ⟨row, hpend, hnone, rfl⟩
    · refine ⟨fun row hrow hdone => ?_, hs.receipts⟩
      exact forall_mem_append.mpr ⟨hs.rereads row hrow hdone, forall_mem_singleton.mpr rfl⟩
    · refine ⟨fun row' hrow' hdone => ?_, fun r hr => ?_⟩
      · rw [Finmap.lookup_insert] at hrow'
        cases hrow'
        rw [hpend] at hdone
        cases hdone
      · obtain ⟨row', hrow', -⟩ := hs.receipts r hr
        rw [hnone] at hrow'
        cases hrow'
  | acts hi hrow step =>
    have hcall := hp.calls _ (mem_of_getElem? hi)
    rw [hcall] at hrow
    exact hs.next hi hcall hrow step fun hcom => hu (by rw [hi]; exact hcom)
  | edited | orphaned => exact ⟨hs.rereads, hs.receipts⟩
  | restarted =>
    refine ⟨fun row hrow => ?_, fun r hr => absurd hr not_mem_nil⟩
    simp [System.step] at hrow

/-- A finished row stays as it is until the broker restarts. -/
theorem System.Settled.row_stays (ht : Turn D s e t) (hp : s.For p) (he : e.For p) (hlive : e ≠ .restart)
    (hrow : s.world.outbox.lookup (D.tuple p.tuple) = some row) (hdone : row.state = .prCreated) :
    t.world.outbox.lookup (D.tuple p.tuple) = some row := by
  cases ht with
  | idle | told | edited | orphaned => exact hrow
  | begun entered =>
    rcases entered with rfl | ⟨row', -, hnone, rfl⟩
    · exact hrow
    · rw [he.1, hrow] at hnone
      cases hnone
  | acts hi hrow' step =>
    have hmem := mem_of_getElem? hi
    have hreads := hs.rereads row hrow hdone _ hmem
    rw [hp.calls _ hmem, hrow] at hrow'
    cases hrow'
    rw [next_world]
    cases step with
    | look _ _ outbox => rwa [outbox]
    | answer => exact hrow
    | write _ _ _ _ early => exact absurd hdone (early hreads)
    | commit pr commits =>
      rw [commits] at hreads
      cases hreads
  | restarted => exact absurd rfl hlive

end

end Invariants

section Runs

variable (D : Digests) {p : PublishRequest}

/-- An event of the publication that finds nothing to disturb. -/
def Orderly (p : PublishRequest) (s : System) (e : Event) : Prop := e.For p ∧ Undisturbed s e

theorem for_start (pulls : List PullRequest) : (System.start pulls).For p :=
  ⟨fun _ hc => absurd hc not_mem_nil, fun _ hr => absurd hr not_mem_nil⟩

variable {es : List Event}

theorem single_run (pulls : List PullRequest) (h : ∀ e ∈ es, e.For p) :
    ((System.start pulls).run D es).Single D p := by
  have hrun : ((System.start pulls).run D es).For p ∧ ((System.start pulls).run D es).Single D p := by
    refine List.foldlRecOn (motive := fun s : System => s.For p ∧ s.Single D p) es _ ⟨for_start pulls, ?_⟩ ?_
    · exact ⟨Nat.zero_le 1, fun h => by cases h⟩
    · rintro s ⟨hp, hs⟩ e he
      exact ⟨hp.turn (turn_step D s e) (h e he), hs.turn (turn_step D s e) hp⟩
  exact hrun.2

theorem settled_run {s : System} (hp : s.For p) (hs : s.Settled D p)
    (h : Schedule.Meets (System.step D) (Orderly p) s es) : (s.run D es).For p ∧ (s.run D es).Settled D p :=
  h.keeps (P := fun s => s.For p ∧ s.Settled D p)
    (fun _ _ ho hs => ⟨hs.1.turn (turn_step D _ _) ho.1, hs.2.turn (turn_step D _ _) hs.1 ho.1 ho.2⟩) ⟨hp, hs⟩

theorem finished_run {s : System} (hp : s.For p) (hs : s.Settled D p)
    (h : Schedule.Meets (System.step D) (Orderly p) s es) (hlive : Event.restart ∉ es) {row : OutboxRow}
    (hrow : s.world.outbox.lookup (D.tuple p.tuple) = some row) (hdone : row.state = .prCreated) :
    (s.run D es).world.outbox.lookup (D.tuple p.tuple) = some row := by
  induction es generalizing s with
  | nil => exact hrow
  | cons e es ih =>
    obtain ⟨he, hrest⟩ := h
    rw [mem_cons, not_or] at hlive
    have ht := turn_step D s e
    exact ih (hp.turn ht he.1) (hs.turn ht hp he.1 he.2)
      hrest hlive.2 (hs.row_stays ht hp he.1 (Ne.symm hlive.1) hrow hdone)

/-- In every interleaving of calls for one tuple, content and idempotency key, with lost answers and restarts, at most
one pull request is created. If every call that writes its receipt finds the others at a point where they will look at
the row again, then in each lifetime all receipts are the same, and a finished row stays finished. -/
theorem publication_converges (pulls : List PullRequest) {es : List Event} (hfor : ∀ e ∈ es, e.For p) :
    let s := (System.start pulls).run D es
    s.world.provider.created ≤ 1 ∧
      (Schedule.Meets (System.step D) Undisturbed (System.start pulls) es →
        (∀ r ∈ s.returned, ∀ r' ∈ s.returned, r = r') ∧
          ∀ before after, es = before ++ after → Event.restart ∉ after →
            ((System.start pulls).run D before).rowState D p = some .prCreated → s.rowState D p = some .prCreated) := by
  intro s
  refine ⟨(single_run D pulls hfor).created, fun h => ?_⟩
  have horderly : Schedule.Meets (System.step D) (Orderly p) (System.start pulls) es := h.and_forall hfor
  constructor
  · have hset := (settled_run D (for_start pulls) (settled_start pulls) horderly).2
    intro r hr r' hr'
    obtain ⟨row, hrow, -, hrcpt⟩ := hset.receipts r hr
    obtain ⟨row', hrow', -, hrcpt'⟩ := hset.receipts r' hr'
    rw [hrow] at hrow'
    cases hrow'
    exact hrcpt.symm.trans hrcpt'
  · rintro before after rfl hlive hbef
    obtain ⟨hb, ha⟩ := Schedule.meets_append.mp horderly
    obtain ⟨hp, hs⟩ := settled_run D (for_start pulls) (settled_start pulls) hb
    obtain ⟨row, hrow, hdone⟩ := Option.map_eq_some_iff.mp hbef
    have hend : s = ((System.start pulls).run D before).run D after := foldl_append
    rw [System.rowState, hend, finished_run D hp hs ha hlive hrow hdone, Option.map_some, hdone]

end Runs

def sampleRequest (a : String) : PublishRequest where
  tuple :=
    { tenantID := lit "t", installationID := [], repositoryOwner := lit "o", repositoryName := lit "r"
      baseRef := lit "main", baseCommitOID := List.replicate 40 0x61, headCommitOID := List.replicate 40 0x62
      changeSetDigest := List.replicate 64 0x61, effectApprovalDigest := List.replicate 64 0x61
      policyDigest := List.replicate 64 0x61, configDigest := List.replicate 64 0x61 }
  content := ⟨lit "title", lit "body"⟩
  idempotencyKey := lit "k"
  actionID := lit a

def sampleDigests : Digests := ⟨fun _ => List.replicate 64 0x30, fun _ => List.replicate 64 0x31⟩

def baseFound (i : ℕ) : Event := .act i (.ref (some (some (List.replicate 40 0x61))))

/-- Call `i` goes from its first section of `ensureDraftPR` to the creation of pull request 7 and its receipt. -/
def createsDraft (i : ℕ) : List Event :=
  [.act i (.authorized true), baseFound i, .act i (.listed true), .act i (.created (.answered 7 [] true)),
    .act i .locked]

/-- A call publishes; a call that had only begun then, and a later one, answer with its receipt. -/
theorem publication_converges_retry :
    let es := [.publish (sampleRequest "a"), .publish (sampleRequest "b"), .act 0 (.authorized true), baseFound 0,
      .act 0 (.ref (some none)), .act 0 (.madeRef true), .act 0 .locked] ++ createsDraft 0 ++
      [.act 0 (.authorized true), .act 0 (.authorized true), .publish (sampleRequest "c")]
    let s := (System.start []).run sampleDigests es
    s.returned.length = 3 ∧ s.world.provider.created ≤ 1 ∧ ∀ r ∈ s.returned, ∀ r' ∈ s.returned, r = r' := by
  intro es s
  have hfor : ∀ e ∈ es, e.For (sampleRequest "a") := by decide +kernel
  have hconverges := publication_converges sampleDigests [] hfor
  exact ⟨by decide +kernel, hconverges.1, (hconverges.2 (by decide +kernel)).1⟩

/-- Two calls overlap. The second, which read the row before the first had finished, takes the row back to
`branch_published` and then returns another receipt. -/
theorem overlapping_publish_regresses :
    let before := [.publish (sampleRequest "a"), .publish (sampleRequest "b"), .act 0 (.authorized true),
      .act 1 (.authorized true), baseFound 0, .act 0 (.ref (some none)), .act 0 (.madeRef true), .act 0 .locked] ++
      createsDraft 0
    let after := [baseFound 0, .act 0 (.ref (some (some (List.replicate 40 0x62)))), .act 0 .locked]
    let last := [.act 0 (.authorized true), baseFound 0, .act 0 (.listed true), .act 0 .locked]
    let p := sampleRequest "a"
    let s := (System.start []).run sampleDigests before
    (∀ e ∈ before ++ after ++ last, e.For p) ∧ s.rowState sampleDigests p = some .prCreated ∧
      (s.run sampleDigests after).rowState sampleDigests p = some .branchPublished ∧
      ((s.run sampleDigests after).run sampleDigests last).returned.map (·.actionID) = [lit "a", lit "b"] := by
  decide +kernel

end CodeMemory.Github
