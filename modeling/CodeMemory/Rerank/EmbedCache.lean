import CodeMemory.Lib.Fields
import CodeMemory.Lib.GoMap
import CodeMemory.Lib.Schedule

/-! The cache in front of an embedder, which joins concurrent calls for one text. Each turn of
a loop of `Embed` is a step of its own, so that the interleavings include those in which the
lock keeps a loop together. -/

namespace CodeMemory.Rerank

open Lib Lib.GoString List

/-- What a vector is asked for. -/
structure Source where
  inputType : GoString
  tenant : GoString
  generation : GoString
  text : GoString
  deriving DecidableEq

def maxCacheKeyInputBytes : ℕ := 2 ^ 20

/-- The eight bytes of a length, the highest first. -/
def lenBuf (n : ℕ) : GoString := (List.range 8).map fun i => UInt8.ofNat (n / 256 ^ (7 - i))

/-- The text that a key is the hash of. -/
def keyText (src : Source) : GoString :=
  src.inputType ++ 0 :: (src.tenant ++ 0 :: (src.generation ++ 0 :: (lenBuf src.text.length ++ src.text)))

def buildEmbedKey (sha256 : GoString → GoString) (src : Source) : Option GoString :=
  if maxCacheKeyInputBytes < src.text.length then none else some (sha256 (keyText src))

/-- A vector, with what it was asked for and the identity of the embedder that made it. -/
structure Produced (I V : Type) where
  value : V
  source : Source
  identity : I

structure CacheEntry (I V : Type) where
  identity : I
  vec : Produced I V
  expires : ℕ

inductive EmbedError
  | inner
  | countMismatch
  | missingVector
  deriving DecidableEq

/-- A claim, with the key and the call it was made for and the calls that closed it. -/
structure InflightClaim (I V : Type) where
  key : GoString
  owner : ℕ
  vec : Option (Produced I V)
  err : Option EmbedError
  closedBy : List ℕ

structure Pending where
  idx : ℕ
  key : Option GoString
  text : GoString

/-- The claims ever made, and those that can be joined. -/
structure Flights (I V : Type) where
  inflight : GoMap GoString ℕ
  claims : ℕ → InflightClaim I V
  next : ℕ

structure Cache (I V : Type) where
  identity : I
  now : ℕ
  items : GoMap GoString (CacheEntry I V)
  flights : Flights I V

structure Request where
  inputType : GoString
  tenant : GoString
  generation : GoString
  texts : List GoString

inductive Phase (I V : Type)
  | classifying (todo : List (ℕ × GoString))
  | calling
  | publishing (done : List Pending) (todo : List (Pending × Produced I V))
  | closing (err : Option EmbedError) (todo : List Pending)
  | waiting (err : Option EmbedError) (todo : List (Pending × ℕ))
  | returned (err : Option EmbedError)

structure Call (I V : Type) where
  request : Request
  identity : I
  phase : Phase I V
  misses : List Pending
  waiters : List (Pending × ℕ)
  out : List (ℕ × Produced I V)

variable {I V : Type}

def Request.source (r : Request) (text : GoString) : Source := ⟨r.inputType, r.tenant, r.generation, text⟩

def Call.lead (c : Call I V) (m : Pending) : Call I V := { c with misses := c.misses ++ [m] }

namespace Flights

def register (fl : Flights I V) (n : ℕ) (k : GoString) : Flights I V :=
  { inflight := fl.inflight.insert k fl.next
    claims := Function.update fl.claims fl.next ⟨k, n, none, none, []⟩
    next := fl.next + 1 }

/-- The vector goes to whichever claim the key has. -/
def publish (fl : Flights I V) (k : GoString) (v : Produced I V) : Flights I V :=
  { fl with claims := (fl.inflight.lookup k).elim fl.claims fun K =>
      Function.update fl.claims K { fl.claims K with vec := some v } }

/-- Whichever claim the key has is completed and forgotten. -/
def close (fl : Flights I V) (n : ℕ) (err : Option EmbedError) (k : GoString) : Flights I V :=
  { fl with
    inflight := fl.inflight.erase k
    claims := (fl.inflight.lookup k).elim fl.claims fun K =>
      Function.update fl.claims K { fl.claims K with err := err, closedBy := (fl.claims K).closedBy ++ [n] } }

end Flights

section Steps

variable [DecidableEq I] (sha256 : GoString → GoString) (ttl : ℕ)

def CacheEntry.stale (e : CacheEntry I V) (identity : I) (now : ℕ) : Bool := e.identity ≠ identity || e.expires < now

/-- One text of the first section. A stale entry makes a leader that has no claim. -/
def classify (s : Cache I V) (n : ℕ) (c : Call I V) (i : ℕ) (text : GoString) : Cache I V × Call I V :=
  match buildEmbedKey sha256 (c.request.source text) with
  | none => (s, c.lead ⟨i, none, text⟩)
  | some k =>
    match s.items.lookup k with
    | some e =>
      if e.stale c.identity s.now = true then ({ s with items := s.items.erase k }, c.lead ⟨i, some k, text⟩)
      else (s, { c with out := c.out ++ [(i, e.vec)] })
    | none =>
      match s.flights.inflight.lookup k with
      | some K => (s, { c with waiters := c.waiters ++ [(⟨i, some k, text⟩, K)] })
      | none => ({ s with flights := s.flights.register n k }, c.lead ⟨i, some k, text⟩)

/-- The entry and the claim of one leader text get its vector. -/
def Cache.publish (s : Cache I V) (c : Call I V) (m : Pending) (v : Produced I V) : Cache I V :=
  m.key.elim s fun k =>
    { s with items := s.items.insert k ⟨c.identity, v, s.now + ttl⟩, flights := s.flights.publish k v }

def Cache.close (s : Cache I V) (n : ℕ) (err : Option EmbedError) (m : Pending) : Cache I V :=
  m.key.elim s fun k => { s with flights := s.flights.close n err k }

/-- What a waiter does with a claim that is closed. -/
def collect (c : Call I V) (m : Pending) (claim : InflightClaim I V) (err : Option EmbedError)
    (todo : List (Pending × ℕ)) : Call I V :=
  match err, claim.err, claim.vec with
  | some e, _, _ => { c with phase := .waiting (some e) todo }
  | none, some e, _ => { c with phase := .returned (some e) }
  | none, none, none => { c with phase := .returned (some .missingVector) }
  | none, none, some v => { c with phase := .waiting none todo, out := c.out ++ [(m.idx, v)] }

/-- The phase after the embedder has answered. -/
def Call.answered (c : Call I V) (identity : I) : Except Unit (List V) → Phase I V
  | .error _ => .closing (some .inner) c.misses
  | .ok vs =>
    if vs.length = c.misses.length then
      .publishing [] ((c.misses.zip vs).map fun p => (p.1, ⟨p.2, c.request.source p.1.text, identity⟩))
    else .closing (some .countMismatch) c.misses

/-- The next step of a call; `answer` is that of the inner embedder when it is called. -/
def advance (s : Cache I V) (n : ℕ) (c : Call I V) (answer : Except Unit (List V)) : Cache I V × Call I V :=
  match c.phase with
  | .classifying ((i, text) :: todo) => classify sha256 s n { c with phase := .classifying todo } i text
  | .classifying [] => (s, { c with phase := if c.misses.isEmpty then .waiting none c.waiters else .calling })
  | .calling => (s, { c with phase := c.answered s.identity answer })
  | .publishing done ((m, v) :: todo) =>
    (s.publish ttl c m v, { c with phase := .publishing (done ++ [m]) todo, out := c.out ++ [(m.idx, v)] })
  | .publishing done [] => (s, { c with phase := .closing none done })
  | .closing err (m :: todo) => (s.close n err m, { c with phase := .closing err todo })
  | .closing err [] => (s, { c with phase := .waiting err c.waiters })
  | .waiting err ((m, K) :: todo) =>
    if (s.flights.claims K).closedBy.isEmpty then (s, c) else (s, collect c m (s.flights.claims K) err todo)
  | .waiting err [] => (s, { c with phase := .returned err })
  | .returned _ => (s, c)

structure State (I V : Type) where
  cache : Cache I V
  calls : ℕ → Option (Call I V)

/-- The steps of calls, and what happens between them; `drop` is an eviction or an
invalidation. -/
inductive Event (I V : Type)
  | start (n : ℕ) (r : Request)
  | advance (n : ℕ) (answer : Except Unit (List V))
  | drop (k : GoString)
  | clock (now : ℕ)
  | identify (i : I)

def Request.call (r : Request) (i : I) : Call I V :=
  { request := r, identity := i, misses := [], waiters := [], out := []
    phase := if r.texts.isEmpty then .returned none else .classifying (r.texts.zipIdx.map Prod.swap) }

def State.put (s : State I V) (n : ℕ) (r : Cache I V × Call I V) : State I V :=
  ⟨r.1, Function.update s.calls n (some r.2)⟩

/-- An event that no call is there for changes nothing. -/
def State.step (s : State I V) : Event I V → State I V
  | .start n r => if (s.calls n).isSome then s else s.put n (s.cache, r.call s.cache.identity)
  | .advance n answer => (s.calls n).elim s fun c => s.put n (advance sha256 ttl s.cache n c answer)
  | .drop k => { s with cache := { s.cache with items := s.cache.items.erase k } }
  | .clock now => { s with cache := { s.cache with now := now } }
  | .identify i => { s with cache := { s.cache with identity := i } }

end Steps

/-- A new cache in front of an embedder; `blank` stands where no claim was made. -/
def State.new (i : I) (blank : InflightClaim I V) : State I V :=
  ⟨⟨i, 0, ∅, ⟨∅, fun _ => blank, 0⟩⟩, fun _ => none⟩

namespace Call

variable (c : Call I V)

/-- The keys of the leader texts whose claims the call has not yet come to close. -/
def owed : List GoString :=
  match c.phase with
  | .classifying _ | .calling => c.misses.filterMap Pending.key
  | .publishing done todo => done.filterMap Pending.key ++ todo.filterMap (Pending.key ·.1)
  | .closing _ todo => todo.filterMap Pending.key
  | .waiting _ _ | .returned _ => []

/-- The owed keys whose claims have their vectors. -/
def published : List GoString :=
  match c.phase with
  | .publishing done _ => done.filterMap Pending.key
  | .closing none todo => todo.filterMap Pending.key
  | _ => []

/-- The claims that the call waits on, or will. -/
def awaited : List (Pending × ℕ) :=
  match c.phase with
  | .waiting _ todo => todo
  | .returned _ => []
  | _ => c.waiters

end Call

namespace Flights

variable (fl : Flights I V) (n : ℕ) (k : GoString)

theorem claims_publish (v : Produced I V) (K : ℕ) : (fl.publish k v).claims K =
    if fl.inflight.lookup k = some K then { fl.claims K with vec := some v } else fl.claims K := by
  unfold publish
  cases fl.inflight.lookup k with
  | none => rfl
  | some J => by_cases h : K = J <;> simp [h, eq_comm]

theorem claims_close (err : Option EmbedError) (K : ℕ) : (fl.close n err k).claims K =
    if fl.inflight.lookup k = some K then
      { fl.claims K with err := err, closedBy := (fl.claims K).closedBy ++ [n] } else fl.claims K := by
  unfold close
  cases fl.inflight.lookup k with
  | none => rfl
  | some J => by_cases h : K = J <;> simp [h, eq_comm]

theorem lookup_close {err : Option EmbedError} {j : GoString} {K : ℕ} :
    (fl.close n err k).inflight.lookup j = some K ↔ j ≠ k ∧ fl.inflight.lookup j = some K := by
  show (fl.inflight.erase k).lookup j = some K ↔ _
  rw [GoMap.lookup_erase_eq]
  split_ifs with h <;> simp [h]

end Flights

/-- The step comes upon an entry of another identity or one that has expired. -/
def State.findsStale [DecidableEq I] (sha256 : GoString → GoString) (s : State I V) : Event I V → Bool
  | .advance n _ => (s.calls n).any fun c =>
    match c.phase with
    | .classifying ((_, text) :: _) => (buildEmbedKey sha256 (c.request.source text)).any fun k =>
      (s.cache.items.lookup k).any (·.stale c.identity s.cache.now)
    | _ => false
  | _ => false

/-- What a step of a call does to the claims and to what the call owes; in `lead` the call comes
upon a stale entry. -/
inductive Move (fl : Flights I V) (n : ℕ) (c : Call I V) (stale : Prop) : Flights I V → Call I V → Prop
  | quiet {c' : Call I V} (owed : c'.owed = c.owed) (published : c'.published ⊆ c.published)
      (awaited : ∀ w ∈ c'.awaited, w ∈ c.awaited ∨ ∃ k, fl.inflight.lookup k = some w.2) : Move fl n c stale fl c'
  | lead {c' : Call I V} (k : GoString) (found : stale) (owed : c'.owed = c.owed ++ [k]) : Move fl n c stale fl c'
  | register {c' : Call I V} (k : GoString) (free : fl.inflight.lookup k = none) (owed : c'.owed = c.owed ++ [k])
      (published : c'.published = []) (awaited : c'.awaited = c.awaited) : Move fl n c stale (fl.register n k) c'
  | publish {c' : Call I V} (k : GoString) (v : Produced I V) (mem : k ∈ c.owed) (owed : c'.owed = c.owed)
      (published : c'.published = c.published ++ [k]) (awaited : c'.awaited = c.awaited) :
      Move fl n c stale (fl.publish k v) c'
  | close {c' : Call I V} (k : GoString) (err : Option EmbedError) (owed : c.owed = k :: c'.owed)
      (vec : err = none → k ∈ c.published) (published : c'.published ⊆ c.published) (awaited : c'.awaited = c.awaited) :
      Move fl n c stale (fl.close n err k) c'

section Moves

variable [DecidableEq I] {sha256 : GoString → GoString} {ttl : ℕ} {s : State I V} {n : ℕ} {c : Call I V}

theorem classify_move {i : ℕ} {text : GoString} {todo : List (ℕ × GoString)} (hc : s.calls n = some c)
    (hph : c.phase = .classifying ((i, text) :: todo)) {answer : Except Unit (List V)} :
    Move s.cache.flights n c (s.findsStale sha256 (.advance n answer) = true)
      (classify sha256 s.cache n { c with phase := .classifying todo } i text).1.flights
      (classify sha256 s.cache n { c with phase := .classifying todo } i text).2 := by
  have howed : c.owed = c.misses.filterMap Pending.key := by simp [Call.owed, hph]
  have hwait : c.awaited = c.waiters := by simp [Call.awaited, hph]
  unfold classify
  cases hkey : buildEmbedKey sha256 (c.request.source text) with
  | none =>
    refine .quiet ?_ (nil_subset _) fun w hw => .inl (hwait ▸ hw)
    rw [howed]
    simp [Call.owed, Call.lead]
  | some k =>
    dsimp only
    cases hitem : s.cache.items.lookup k with
    | some e =>
      dsimp only
      split_ifs with hstale
      · refine .lead k ?_ (howed ▸ filterMap_append ..)
        simpa [State.findsStale, hc, hph, hkey, hitem] using hstale
      · exact .quiet howed.symm (nil_subset _) fun w hw => .inl (hwait ▸ hw)
    | none =>
      cases hclaim : s.cache.flights.inflight.lookup k with
      | some K =>
        refine .quiet howed.symm (nil_subset _) fun w hw => ?_
        rcases mem_append.1 (show w ∈ c.waiters ++ [_] from hw) with hw | hw
        · exact .inl (hwait ▸ hw)
        · exact .inr ⟨k, by rw [mem_singleton.1 hw, hclaim]⟩
      | none => exact .register k hclaim (howed ▸ filterMap_append ..) rfl hwait.symm

omit [DecidableEq I] in
/-- The answer of the embedder leaves what the call owes. -/
theorem owed_answered (c : Call I V) (identity : I) (answer : Except Unit (List V)) :
    let c' : Call I V := { c with phase := c.answered identity answer }
    c'.owed = c.misses.filterMap Pending.key ∧ c'.published = [] ∧ c'.awaited = c.waiters := by
  cases answer with
  | error e => exact ⟨rfl, rfl, rfl⟩
  | ok vs =>
    by_cases hlen : vs.length = c.misses.length
    · simp only [Call.answered, if_pos hlen]
      refine ⟨?_, rfl, rfl⟩
      have hfst : (c.misses.zip vs).map Prod.fst = c.misses := map_fst_zip hlen.ge
      conv_rhs => rw [← hfst]
      show List.filterMap _ (List.map _ _) = _
      rw [filterMap_map, filterMap_map]
      rfl
    · simp only [Call.answered, if_neg hlen]
      exact ⟨rfl, rfl, rfl⟩

theorem advance_move (hc : s.calls n = some c) (answer : Except Unit (List V)) :
    Move s.cache.flights n c (s.findsStale sha256 (.advance n answer) = true)
      (advance sha256 ttl s.cache n c answer).1.flights (advance sha256 ttl s.cache n c answer).2 := by
  obtain ⟨request, identity, phase, misses, waiters, out⟩ := c
  cases phase with
  | classifying todo =>
    cases todo with
    | cons p todo => exact classify_move hc rfl
    | nil =>
      cases misses with
      | nil | cons m misses => exact .quiet rfl (nil_subset _) fun w hw => .inl hw
  | calling =>
    obtain ⟨howed, hpub, hwait⟩ := owed_answered ⟨request, identity, .calling, misses, waiters, out⟩
      s.cache.identity answer
    exact .quiet howed (hpub.symm ▸ nil_subset _) fun w hw => .inl (hwait ▸ hw :)
  | publishing done todo =>
    cases todo with
    | nil => exact .quiet (append_nil _).symm (List.Subset.refl _) fun w hw => .inl hw
    | cons p todo =>
      obtain ⟨⟨idx, key, text⟩, v⟩ := p
      cases key with
      | none => exact .quiet (by simp [advance, Call.owed]) (by simp [advance, Call.published]) fun w hw => .inl hw
      | some k =>
        refine .publish k v ?_ ?_ ?_ rfl
        · simp [Call.owed]
        · simp [advance, Call.owed]
        · simp [advance, Call.published]
  | closing err todo =>
    cases todo with
    | nil => exact .quiet rfl (nil_subset _) fun w hw => .inl hw
    | cons m todo =>
      have hpub : Call.published ⟨request, identity, .closing err todo, misses, waiters, out⟩ ⊆
          Call.published ⟨request, identity, .closing err (m :: todo), misses, waiters, out⟩ := by
        cases err with
        | none => exact ((sublist_cons_self m todo).filterMap _).subset
        | some e => exact nil_subset _
      obtain ⟨idx, key, text⟩ := m
      cases key with
      | none => exact .quiet (by simp [advance, Call.owed]) hpub fun w hw => .inl hw
      | some k =>
        refine .close k err rfl (fun he => ?_) hpub rfl
        simp [he, Call.published]
  | waiting err todo =>
    cases todo with
    | nil => exact .quiet rfl (nil_subset _) fun w hw => absurd hw (not_mem_nil)
    | cons p todo =>
      unfold advance
      dsimp only
      split_ifs with hopen
      · exact .quiet rfl (List.Subset.refl _) fun w hw => .inl hw
      · unfold collect
        split <;> exact .quiet rfl (nil_subset _) fun w hw => .inl (by
          first | exact .tail _ hw | cases hw)
  | returned err => exact .quiet rfl (List.Subset.refl _) fun w hw => .inl hw

end Moves

/-- Every claim that can be joined is one that its own call will come to close. -/
def Led (fl : Flights I V) (calls : ℕ → Option (Call I V)) : Prop :=
  ∀ k K, fl.inflight.lookup k = some K →
    K < fl.next ∧ (fl.claims K).key = k ∧ ∃ c, calls (fl.claims K).owner = some c ∧ k ∈ c.owed

section Led

variable {fl fl' : Flights I V} {calls : ℕ → Option (Call I V)} {n : ℕ} {c c' : Call I V}

/-- A claim that was there is kept for its call. -/
theorem Led.kept (h : Led fl calls) (hc : calls n = some c) {k : GoString} {K : ℕ} (hk : fl.inflight.lookup k = some K)
    (howed : k ∈ c.owed → k ∈ c'.owed) : ∃ d, Function.update calls n (some c') (fl.claims K).owner = some d ∧
      k ∈ d.owed := by
  obtain ⟨-, -, d, hd, hmem⟩ := h k K hk
  by_cases hn : (fl.claims K).owner = n
  · rw [hn] at hd
    obtain rfl := Option.some.inj (hd.symm.trans hc)
    exact ⟨c', by rw [hn, Function.update_self], howed hmem⟩
  · exact ⟨d, by rw [Function.update_of_ne hn, hd], hmem⟩

/-- A step keeps this, whether or not it comes upon a stale entry. -/
theorem Led.move (h : Led fl calls) {stale : Prop} (hc : calls n = some c) (hm : Move fl n c stale fl' c') :
    Led fl' (Function.update calls n (some c')) := by
  intro k K hk
  cases hm with
  | quiet owed published awaited => exact ⟨(h k K hk).1, (h k K hk).2.1, h.kept hc hk fun hmem => owed ▸ hmem⟩
  | lead j found owed =>
    exact ⟨(h k K hk).1, (h k K hk).2.1, h.kept hc hk fun hmem => owed ▸ mem_append_left _ hmem⟩
  | register j free owed published awaited =>
    change (fl.inflight.insert j fl.next).lookup k = some K at hk
    rw [GoMap.lookup_insert_eq] at hk
    split_ifs at hk with hkj
    · cases hk
      simp [Flights.register, owed, hkj]
    · have hlt := (h k K hk).1
      simp only [Flights.register, Function.update_of_ne hlt.ne]
      exact ⟨by omega, (h k K hk).2.1, h.kept hc hk fun hmem => owed ▸ mem_append_left _ hmem⟩
  | publish j v mem owed published awaited =>
    rw [Flights.claims_publish]
    have hkept := h.kept hc hk fun hmem => owed ▸ hmem
    split_ifs <;> exact ⟨(h k K hk).1, (h k K hk).2.1, hkept⟩
  | close j err owed vec published awaited =>
    obtain ⟨hne, hk⟩ := (fl.lookup_close n j).1 hk
    have hkept := h.kept hc hk fun hmem => (mem_cons.1 (owed ▸ hmem)).resolve_left hne
    rw [Flights.claims_close]
    split_ifs <;> exact ⟨(h k K hk).1, (h k K hk).2.1, hkept⟩

end Led

def single : Request := ⟨[], [], [], [lit "t"]⟩

def blankClaim : InflightClaim I ℕ := ⟨[], 0, none, none, []⟩

/-- The steps of a call that the embedder, when it is asked, answers with one vector. -/
def steps (n count : ℕ) : List (Event I ℕ) := replicate count (.advance n (.ok [7]))

end CodeMemory.Rerank
