import CodeMemory.Rerank.EmbedCache

/-! One inner call for each text at a time. As long as no call comes upon a stale entry, every
leader has a claim for each of its texts, so a claim is closed once, by the call that made it
and with an outcome. -/

namespace CodeMemory.Rerank

open Lib Lib.GoString List

variable {I V : Type}

/-- The claims are in order. -/
structure Orderly (fl : Flights I V) (calls : ℕ → Option (Call I V)) : Prop where
  led : Led fl calls
  joinable : ∀ k K, fl.inflight.lookup k = some K → (fl.claims K).closedBy = []
  claim : ∀ K < fl.next, fl.inflight.lookup (fl.claims K).key = some K ∨
    (fl.claims K).closedBy = [(fl.claims K).owner] ∧ ((fl.claims K).vec.isSome ∨ (fl.claims K).err.isSome)
  held : ∀ n c, calls n = some c → ∀ k ∈ c.owed, ∃ K, fl.inflight.lookup k = some K ∧ (fl.claims K).owner = n ∧
    (k ∈ c.published → (fl.claims K).vec.isSome)
  nodup : ∀ n c, calls n = some c → c.owed.Nodup
  waits : ∀ n c, calls n = some c → ∀ w ∈ c.awaited, w.2 < fl.next

section Step

variable {fl fl' : Flights I V} {calls : ℕ → Option (Call I V)} {n : ℕ} {c c' : Call I V}

section

variable (h : Orderly fl calls)
include h

/-- A step of a call that leaves the claims of the others. -/
theorem Orderly.change (hled : Led fl' (Function.update calls n (some c')))
    (hothers : ∀ k K, fl.inflight.lookup k = some K → (fl.claims K).owner ≠ n →
      fl'.inflight.lookup k = some K ∧ fl'.claims K = fl.claims K) (hnext : fl.next ≤ fl'.next)
    (hjoinable : ∀ k K, fl'.inflight.lookup k = some K → (fl'.claims K).closedBy = [])
    (hclaim : ∀ K < fl'.next, fl'.inflight.lookup (fl'.claims K).key = some K ∨
      (fl'.claims K).closedBy = [(fl'.claims K).owner] ∧ ((fl'.claims K).vec.isSome ∨ (fl'.claims K).err.isSome))
    (hheld : ∀ k ∈ c'.owed, ∃ K, fl'.inflight.lookup k = some K ∧ (fl'.claims K).owner = n ∧
      (k ∈ c'.published → (fl'.claims K).vec.isSome)) (hnodup : c'.owed.Nodup)
    (hwaits : ∀ w ∈ c'.awaited, w.2 < fl'.next) : Orderly fl' (Function.update calls n (some c')) := by
  have hcases : ∀ {m d}, Function.update calls n (some c') m = some d → m = n ∧ d = c' ∨ m ≠ n ∧ calls m = some d := by
    intro m d hd
    by_cases hm : m = n
    · subst hm
      rw [Function.update_self] at hd
      exact .inl ⟨rfl, (Option.some.inj hd).symm⟩
    · exact .inr ⟨hm, by rwa [Function.update_of_ne hm] at hd⟩
  refine ⟨hled, hjoinable, hclaim, ?_, ?_, ?_⟩ <;> intro m d hd
  · rcases hcases hd with ⟨rfl, rfl⟩ | ⟨hm, hd⟩
    · exact hheld
    · intro k hk
      obtain ⟨K, hK, howner, hvec⟩ := h.held m d hd k hk
      obtain ⟨hK', hsame⟩ := hothers k K hK (howner ▸ hm)
      exact ⟨K, hK', hsame.symm ▸ howner, hsame.symm ▸ hvec⟩
  · rcases hcases hd with ⟨rfl, rfl⟩ | ⟨hm, hd⟩
    · exact hnodup
    · exact h.nodup m d hd
  · rcases hcases hd with ⟨rfl, rfl⟩ | ⟨hm, hd⟩
    · exact hwaits
    · exact fun w hw => (h.waits m d hd w hw).trans_le hnext

theorem Orderly.register (hc : calls n = some c) {k : GoString}
    (hled : Led (fl.register n k) (Function.update calls n (some c'))) (hfree : fl.inflight.lookup k = none)
    (howed : c'.owed = c.owed ++ [k]) (hpub : c'.published = []) (hwait : c'.awaited = c.awaited) :
    Orderly (fl.register n k) (Function.update calls n (some c')) := by
  have hold : ∀ j K, fl.inflight.lookup j = some K →
      (fl.register n k).inflight.lookup j = some K ∧ (fl.register n k).claims K = fl.claims K := by
    intro j K hj
    have hne : j ≠ k := by
      rintro rfl
      rw [hfree] at hj
      cases hj
    exact ⟨by simp [Flights.register, hne, hj],
      by simp [Flights.register, (h.led j K hj).1.ne]⟩
  have hself : (fl.register n k).inflight.lookup k = some fl.next := by simp [Flights.register]
  have hnew : (fl.register n k).claims fl.next = ⟨k, n, none, none, []⟩ := by simp [Flights.register]
  refine h.change hled (fun j K hj _ => hold j K hj) (Nat.le_succ _) ?_ ?_ ?_ ?_ ?_
  · intro j K hj
    change (fl.inflight.insert k fl.next).lookup j = some K at hj
    rw [GoMap.lookup_insert_eq] at hj
    split_ifs at hj with hjk
    · cases hj
      rw [hnew]
    · rw [(hold j K hj).2, h.joinable j K hj]
  · intro K hK
    rcases Nat.lt_succ_iff_lt_or_eq.1 hK with hlt | rfl
    · have hsame : (fl.register n k).claims K = fl.claims K := by simp [Flights.register, hlt.ne]
      rw [hsame]
      exact (h.claim K hlt).imp (fun hj => (hold _ K hj).1) id
    · exact .inl (by rw [hnew, hself])
  · intro j hj
    rw [howed] at hj
    rcases mem_append.1 hj with hj | hj
    · obtain ⟨K, hK, howner, -⟩ := h.held n c hc j hj
      exact ⟨K, (hold j K hK).1, (hold j K hK).2.symm ▸ howner, by simp [hpub]⟩
    · rw [mem_singleton.1 hj]
      exact ⟨_, hself, by rw [hnew], by simp [hpub]⟩
  · rw [howed, nodup_append]
    refine ⟨h.nodup n c hc, nodup_singleton k, ?_⟩
    rintro j hj _ hk rfl
    obtain ⟨K, hK, -⟩ := h.held n c hc j hj
    rw [mem_singleton.1 hk, hfree] at hK
    cases hK
  · exact hwait ▸ fun w hw => (h.waits n c hc w hw).trans_le (Nat.le_succ _)

theorem Orderly.publish (hc : calls n = some c) {k : GoString} {v : Produced I V}
    (hled : Led (fl.publish k v) (Function.update calls n (some c'))) (hmem : k ∈ c.owed) (howed : c'.owed = c.owed)
    (hpublished : c'.published = c.published ++ [k]) (hwait : c'.awaited = c.awaited) :
    Orderly (fl.publish k v) (Function.update calls n (some c')) := by
  obtain ⟨K, hK, howner, -⟩ := h.held n c hc k hmem
  have hclaims := fl.claims_publish k v
  refine h.change hled ?_ le_rfl ?_ ?_ ?_ (howed ▸ h.nodup n c hc) (hwait ▸ h.waits n c hc)
  · intro j J hj hne
    refine ⟨hj, ?_⟩
    rw [hclaims, if_neg]
    intro hkJ
    cases hK.symm.trans hkJ
    exact hne howner
  · intro j J hj
    rw [hclaims]
    split_ifs <;> exact h.joinable j J hj
  · intro J hJ
    by_cases hkJ : fl.inflight.lookup k = some J
    · rw [hclaims, if_pos hkJ]
      exact (h.claim J hJ).imp id fun hcl => ⟨hcl.1, .inl rfl⟩
    · rw [hclaims, if_neg hkJ]
      exact h.claim J hJ
  · intro j hj
    obtain ⟨J, hJ, hown, hvec⟩ := h.held n c hc j (howed ▸ hj)
    refine ⟨J, hJ, by rw [hclaims]; split_ifs <;> exact hown, fun hpub => ?_⟩
    rw [hclaims]
    split_ifs with hkJ
    · rfl
    · rw [hpublished] at hpub
      rcases mem_append.1 hpub with hpub | hpub
      · exact hvec hpub
      · exact absurd (mem_singleton.1 hpub ▸ hJ) hkJ

theorem Orderly.close (hc : calls n = some c) {k : GoString} {err : Option EmbedError}
    (hled : Led (fl.close n err k) (Function.update calls n (some c'))) (howed : c.owed = k :: c'.owed)
    (hvec : err = none → k ∈ c.published) (hpublished : c'.published ⊆ c.published) (hwait : c'.awaited = c.awaited) :
    Orderly (fl.close n err k) (Function.update calls n (some c')) := by
  obtain ⟨K, hK, howner, hpub⟩ := h.held n c hc k (howed ▸ (.head _))
  have hclaims := fl.claims_close n k err
  have hnodup := howed ▸ h.nodup n c hc
  -- the claim of another key stays as it is
  have hold : ∀ j J, j ≠ k → fl.inflight.lookup j = some J →
      (fl.close n err k).inflight.lookup j = some J ∧ (fl.close n err k).claims J = fl.claims J := by
    intro j J hne hj
    refine ⟨(fl.lookup_close n k).2 ⟨hne, hj⟩, ?_⟩
    rw [hclaims, if_neg]
    intro hkJ
    exact hne ((h.led j J hj).2.1.symm.trans (h.led k J hkJ).2.1)
  refine h.change hled ?_ le_rfl ?_ ?_ ?_ (nodup_cons.1 hnodup).2 (hwait ▸ h.waits n c hc)
  · intro j J hj hne
    refine hold j J ?_ hj
    rintro rfl
    cases hK.symm.trans hj
    exact hne howner
  · intro j J hj
    obtain ⟨hne, hj⟩ := (fl.lookup_close n k).1 hj
    rw [(hold j J hne hj).2, h.joinable j J hj]
  · intro J hJ
    by_cases hkJ : fl.inflight.lookup k = some J
    · cases hK.symm.trans hkJ
      rw [hclaims, if_pos hK]
      refine .inr ⟨by simp [h.joinable k K hK, howner], ?_⟩
      cases err with
      | none => exact .inl (hpub (hvec rfl))
      | some e => exact .inr rfl
    · rw [hclaims, if_neg hkJ]
      refine (h.claim J hJ).imp (fun hj => (hold _ J (fun he => hkJ (he ▸ hj)) hj).1) id
  · intro j hj
    have hne : j ≠ k := fun he => (nodup_cons.1 hnodup).1 (he ▸ hj)
    obtain ⟨J, hJ, hown, hv⟩ := h.held n c hc j (howed ▸ mem_cons_of_mem k hj)
    obtain ⟨hJ', hsame⟩ := hold j J hne hJ
    exact ⟨J, hJ', hsame.symm ▸ hown, fun hp => hsame.symm ▸ hv (hpublished hp)⟩

/-- Every step that comes upon no stale entry. -/
theorem Orderly.move (hc : calls n = some c) {stale : Prop} (hfresh : ¬ stale)
    (hm : Move fl n c stale fl' c') : Orderly fl' (Function.update calls n (some c')) := by
  have hled := h.led.move hc hm
  cases hm with
  | quiet owed published awaited =>
    refine h.change hled (fun k K hk _ => ⟨hk, rfl⟩) le_rfl h.joinable h.claim ?_ (owed ▸ h.nodup n c hc) ?_
    · intro k hk
      obtain ⟨K, hK, howner, hvec⟩ := h.held n c hc k (owed ▸ hk)
      exact ⟨K, hK, howner, fun hp => hvec (published hp)⟩
    · intro w hw
      rcases awaited w hw with hold | ⟨k, hk⟩
      · exact h.waits n c hc w hold
      · exact (h.led k w.2 hk).1
  | lead k found owed => exact absurd found hfresh
  | register k free owed published awaited => exact h.register hc hled free owed published awaited
  | publish k v mem owed published awaited => exact h.publish hc hled mem owed published awaited
  | close k err owed vec published awaited => exact h.close hc hled owed vec published awaited

end

end Step

/-- A claim stays that of its call. -/
theorem Move.owner {fl fl' : Flights I V} {n : ℕ} {c c' : Call I V} {stale : Prop}
    (hm : Move fl n c stale fl' c') {K : ℕ}
    (hK : K < fl.next) : K < fl'.next ∧ (fl'.claims K).owner = (fl.claims K).owner := by
  cases hm with
  | quiet | lead => exact ⟨hK, rfl⟩
  | register k => exact ⟨Nat.lt_succ_of_lt hK, by simp [Flights.register, hK.ne]⟩
  | publish k v =>
    refine ⟨hK, ?_⟩
    rw [Flights.claims_publish]
    split_ifs <;> rfl
  | close k err =>
    refine ⟨hK, ?_⟩
    rw [Flights.claims_close]
    split_ifs <;> rfl

/-- A bound on the steps of its own after which a call has closed its claims. -/
def Call.ahead (c : Call I V) : ℕ :=
  match c.phase with
  | .classifying todo => 3 * todo.length + 2 * c.misses.length + 4
  | .calling => 2 * c.misses.length + 3
  | .publishing done todo => done.length + 2 * todo.length + 2
  | .closing _ todo => todo.length + 1
  | .waiting _ _ | .returned _ => 0

theorem Call.owed_of_ahead {c : Call I V} (h : c.ahead = 0) : c.owed = [] := by
  obtain ⟨request, identity, phase, misses, waiters, out⟩ := c
  cases phase <;> simp_all [Call.ahead, Call.owed]

section Runs

variable [DecidableEq I] {sha256 : GoString → GoString} {ttl : ℕ} {s : State I V}

/-- No step of a call that has claims to close waits for another call. -/
theorem ahead_advance (n : ℕ) (c : Call I V) (answer : Except Unit (List V)) :
    (advance sha256 ttl s.cache n c answer).2.ahead ≤ c.ahead - 1 := by
  obtain ⟨request, identity, phase, misses, waiters, out⟩ := c
  cases phase with
  | classifying todo =>
    cases todo with
    | nil => cases misses <;> simp [advance, Call.ahead]
    | cons p todo =>
      have hlead : 3 * todo.length + 2 * (misses.length + 1) + 4 ≤ 3 * (todo.length + 1)
        + 2 * misses.length + 4 - 1 := by
        omega
      simp only [advance, classify]
      split
      · simpa [Call.ahead, Call.lead] using hlead
      · split
        · split_ifs
          · simpa [Call.ahead, Call.lead] using hlead
          · simp [Call.ahead]
        · split
          · simp [Call.ahead]
          · simpa [Call.ahead, Call.lead] using hlead
  | calling =>
    cases answer with
    | error e => simp only [advance, Call.answered, Call.ahead]; omega
    | ok vs =>
      by_cases hlen : vs.length = misses.length
      · simp [advance, Call.answered, Call.ahead, hlen]
      · simp only [advance, Call.answered, Call.ahead, if_neg hlen]; omega
  | publishing done todo =>
    cases todo with
    | nil => simp [advance, Call.ahead]
    | cons p todo => simp only [advance, Call.ahead, length_append, length_cons, length_nil]; omega
  | closing err todo => cases todo <;> simp [advance, Call.ahead]
  | waiting err todo =>
    cases todo with
    | nil => simp [advance, Call.ahead]
    | cons p todo =>
      simp only [advance]
      split_ifs
      · simp [Call.ahead]
      · unfold collect
        split <;> simp [Call.ahead]
  | returned err => simp [advance, Call.ahead]

def Event.advances (n : ℕ) : Event I V → Bool
  | .advance m _ => m == n
  | _ => false

theorem run_owner (es : List (Event I V)) {K : ℕ} (hK : K < s.cache.flights.next) :
    let s' := es.foldl (State.step sha256 ttl) s
    K < s'.cache.flights.next ∧ (s'.cache.flights.claims K).owner = (s.cache.flights.claims K).owner := by
  induction es generalizing s with
  | nil => exact ⟨hK, rfl⟩
  | cons e es ih =>
    have hstep : K < (s.step sha256 ttl e).cache.flights.next ∧
        ((s.step sha256 ttl e).cache.flights.claims K).owner = (s.cache.flights.claims K).owner := by
      cases e with
      | start n r =>
        simp only [State.step]
        split_ifs <;> exact ⟨hK, rfl⟩
      | advance n answer =>
        simp only [State.step]
        cases hc : s.calls n with
        | none => exact ⟨hK, rfl⟩
        | some c => exact (advance_move hc answer).owner hK
      | drop k | clock now | identify i => exact ⟨hK, rfl⟩
    obtain ⟨hnext, howner⟩ := ih hstep.1
    exact ⟨hnext, howner.trans hstep.2⟩

theorem run_ahead (es : List (Event I V)) {n : ℕ} {c : Call I V} (hc : s.calls n = some c) :
    ∃ d, (es.foldl (State.step sha256 ttl) s).calls n = some d ∧ d.ahead ≤ c.ahead - es.countP (Event.advances n) := by
  induction es generalizing s c with
  | nil => exact ⟨c, hc, le_rfl⟩
  | cons e es ih =>
    have hstep : ∃ d, (s.step sha256 ttl e).calls n = some d ∧ d.ahead ≤ c.ahead - if e.advances n then 1 else 0 := by
      cases e with
      | start m r =>
        refine ⟨c, ?_, le_rfl⟩
        simp only [State.step]
        split_ifs with hm
        · exact hc
        · have hne : n ≠ m := by
            rintro rfl
            simp [hc] at hm
          simp [State.put, hne, hc]
      | advance m answer =>
        simp only [State.step]
        by_cases hm : m = n
        · subst hm
          simp only [hc, Option.elim_some, State.put, Function.update_self, Event.advances, beq_self_eq_true, if_true]
          exact ⟨_, rfl, ahead_advance m c answer⟩
        · refine ⟨c, ?_, by simp [Event.advances, hm]⟩
          cases s.calls m <;> simp [State.put, Ne.symm hm, hc]
      | drop k | clock now | identify i => exact ⟨c, hc, le_rfl⟩
    obtain ⟨d, hd, hle⟩ := hstep
    obtain ⟨d', hd', hle'⟩ := ih hd
    refine ⟨d', hd', ?_⟩
    rw [countP_cons]
    omega

theorem Orderly.step (h : Orderly s.cache.flights s.calls) {e : Event I V} (hfresh : s.findsStale sha256 e = false) :
    Orderly (s.step sha256 ttl e).cache.flights (s.step sha256 ttl e).calls := by
  cases e with
  | start n r =>
    simp only [State.step]
    split_ifs with hn
    · exact h
    have hblank : (r.call s.cache.identity : Call I V).owed = [] ∧
      (r.call s.cache.identity : Call I V).awaited = [] := by
      unfold Request.call
      split_ifs <;> exact ⟨rfl, rfl⟩
    refine h.change ?_ (fun k K hk _ => ⟨hk, rfl⟩) le_rfl h.joinable h.claim ?_ ?_ ?_
    · intro k K hk
      obtain ⟨hlt, hkey, c, hc, hmem⟩ := h.led k K hk
      have hne : (s.cache.flights.claims K).owner ≠ n := by
        rintro rfl
        simp [hc] at hn
      exact ⟨hlt, hkey, c, (Function.update_of_ne hne ..).trans hc, hmem⟩
    all_goals simp [hblank]
  | advance n answer =>
    simp only [State.step]
    cases hc : s.calls n with
    | none => exact h
    | some c => exact h.move hc (by simp [hfresh]) (advance_move hc answer)
  | drop k | clock now | identify i => exact h

omit [DecidableEq I] in
theorem orderly_new (i : I) (blank : InflightClaim I V) :
    Orderly (State.new i blank).cache.flights (State.new i blank).calls := by
  constructor <;> simp [State.new, Led]

/-- Every claim was closed at most once, by the call that made it, and then with an outcome. -/
def State.ClosesOnce (s : State I V) : Prop :=
  ∀ K < s.cache.flights.next, (s.cache.flights.claims K).closedBy = [] ∨
    (s.cache.flights.claims K).closedBy = [(s.cache.flights.claims K).owner] ∧
      ((s.cache.flights.claims K).vec.isSome ∨ (s.cache.flights.claims K).err.isSome)

/-- As long as no call comes upon an entry of another identity or an expired one, claims are
closed once, and a claim that a call waits on is closed as soon as its own call has taken the
steps it has ahead. -/
theorem embed_single_flight (sha256 : GoString → GoString) (ttl : ℕ) (i : I) (blank : InflightClaim I V)
    (es es' : List (Event I V))
    (hfresh : Schedule.Meets (State.step sha256 ttl) (fun s e => s.findsStale sha256 e = false) (State.new i blank)
      (es ++ es')) :
    let s := es.foldl (State.step sha256 ttl) (State.new i blank)
    s.ClosesOnce ∧ ∀ n c, s.calls n = some c → ∀ w ∈ c.awaited, (s.cache.flights.claims w.2).closedBy ≠ [] ∨
      ∃ owner, s.calls (s.cache.flights.claims w.2).owner = some owner ∧
        (owner.ahead ≤ es'.countP (Event.advances (s.cache.flights.claims w.2).owner) →
          ((es'.foldl (State.step sha256 ttl) s).cache.flights.claims w.2).closedBy ≠ []) := by
  intro s
  rw [Schedule.meets_append] at hfresh
  have hkeeps : ∀ (s : State I V) e, s.findsStale sha256 e = false → Orderly s.cache.flights s.calls →
      Orderly (s.step sha256 ttl e).cache.flights (s.step sha256 ttl e).calls := fun s e hf hs => hs.step hf
  have hs : Orderly s.cache.flights s.calls :=
    hfresh.1.keeps (P := fun s => Orderly s.cache.flights s.calls) hkeeps (orderly_new i blank)
  have hs' := hfresh.2.keeps (P := fun s => Orderly s.cache.flights s.calls) hkeeps hs
  refine ⟨fun K hK => (hs.claim K hK).imp (hs.joinable _ K) id, fun n c hc w hw => ?_⟩
  have hlt := hs.waits n c hc w hw
  rcases hs.claim w.2 hlt with hjoin | hcl
  · obtain ⟨-, -, owner, howner, -⟩ := hs.led _ _ hjoin
    refine .inr ⟨owner, howner, fun hahead => ?_⟩
    obtain ⟨d, hd, hle⟩ := run_ahead es' howner
    obtain ⟨hlt', hsame⟩ := run_owner es' hlt
    rcases hs'.claim w.2 hlt' with hjoin' | hcl'
    · -- a claim that can still be joined is owed by its call, which has nothing ahead
      obtain ⟨-, -, d', hd', hmem⟩ := hs'.led _ _ hjoin'
      rw [hsame] at hd'
      obtain rfl := Option.some.inj (hd.symm.trans hd')
      rw [Call.owed_of_ahead (by omega)] at hmem
      cases hmem
    · rw [hcl'.1]
      exact cons_ne_nil _ _
  · exact .inl (by rw [hcl.1]; exact cons_ne_nil _ _)

end Runs

/-- The second of two calls for a text joins the first. -/
def joining : List (Event Unit ℕ) := .start 0 single :: steps 0 1 ++ .start 1 single :: steps 1 2

def joined : State Unit ℕ := joining.foldl (State.step id 1) (State.new () blankClaim)

/-- The claim is closed when the first call has taken the six steps it has ahead. -/
theorem embed_single_flight_joined :
    joined.ClosesOnce ∧ (((steps 0 6).foldl (State.step id 1) joined).cache.flights.claims 0).closedBy ≠ [] := by
  obtain ⟨honce, hlive⟩ := embed_single_flight id 1 () blankClaim joining (steps 0 6) (by decide +kernel)
  rw [show joining.foldl (State.step id 1) (State.new () blankClaim) = joined from rfl] at hlive
  refine ⟨honce, ?_⟩
  have hwaiter : (joined.calls 1).any (·.awaited.any (·.2 = 0)) = true := by decide +kernel
  have howner : (joined.cache.flights.claims 0).owner = 0 := by decide +kernel
  have hahead : (joined.calls 0).all (·.ahead ≤ 6) = true := by decide +kernel
  obtain ⟨c, hc, hw⟩ := (Option.any_eq_true _ _).1 hwaiter
  obtain ⟨w, hw, hzero⟩ := any_eq_true.1 hw
  have hjoin := hlive 1 c hc w hw
  rw [of_decide_eq_true hzero, howner] at hjoin
  rcases hjoin with hcl | ⟨owner, hcall, hfinish⟩
  · exact absurd (by decide +kernel) hcl
  · rw [hcall] at hahead
    exact hfinish (of_decide_eq_true hahead)

/-- Call 1 comes upon the expired entry of call 0 and leads without a claim; between its two
last sections the entry goes, call 2 makes a claim and call 3 joins it. -/
def crossed : List (Event Unit ℕ) :=
  .start 0 single :: steps 0 6 ++ .clock 10 :: .start 1 single :: steps 1 5 ++
    .drop (keyText (single.source (lit "t"))) :: .start 2 single :: steps 2 1 ++ .start 3 single :: steps 3 2 ++
    steps 1 1 ++ steps 3 1

/-- The claim of call 2 is closed by call 1 with neither a vector nor an error. -/
theorem embed_flight_crossed :
    let s := crossed.foldl (State.step id 1) (State.new () blankClaim)
    (s.cache.flights.claims 1).owner = 2 ∧ (s.cache.flights.claims 1).closedBy = [1] ∧
      (s.cache.flights.claims 1).vec.isNone ∧ (s.cache.flights.claims 1).err.isNone ∧ ¬ s.ClosesOnce := by
  have hclaim : (((crossed.foldl (State.step id 1) (State.new () blankClaim)).cache.flights.claims 1).owner,
      ((crossed.foldl (State.step id 1) (State.new () blankClaim)).cache.flights.claims 1).closedBy) = (2, [1]) := by
    decide +kernel
  obtain ⟨howner, hcl⟩ := Prod.mk.inj hclaim
  refine ⟨howner, hcl, by decide +kernel, by decide +kernel, fun honce => ?_⟩
  rcases honce 1 (by decide +kernel) with hopen | ⟨hown, -⟩
  · cases hopen
  · cases hown

end CodeMemory.Rerank
