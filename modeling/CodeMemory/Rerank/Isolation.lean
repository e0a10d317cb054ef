import CodeMemory.Rerank.EmbedCache

/-! Whose vectors a call is given. The hash of a key tells texts, tenants and generations apart
where no field holds the separator; the identity is compared for entries only, so it has to
stay while calls are under way. -/

namespace CodeMemory.Rerank

open Lib Lib.GoString Lib.GoMap List

variable {I V : Type}

/-- No field before the length holds the separator. -/
def Request.Plain (r : Request) : Prop := 0 ∉ r.inputType ∧ 0 ∉ r.tenant ∧ 0 ∉ r.generation

/-- The text of a key gives back what it was made of. -/
theorem keyText_inj {r r' : Request} (hr : r.Plain) (hr' : r'.Plain) {text text' : GoString}
    (h : keyText (r.source text) = keyText (r'.source text')) : r.source text = r'.source text' := by
  have hcount : ∀ {s s' : GoString}, 0 ∉ s → 0 ∉ s' → s.count 0 = s'.count 0 := fun hs hs' => by
    rw [count_eq_zero_of_not_mem hs, count_eq_zero_of_not_mem hs']
  obtain ⟨htype, h⟩ := Fields.append_cons_inj_of_count (hcount hr.1 hr'.1) h
  obtain ⟨htenant, h⟩ := Fields.append_cons_inj_of_count (hcount hr.2.1 hr'.2.1) h
  obtain ⟨hgen, h⟩ := Fields.append_cons_inj_of_count (hcount hr.2.2 hr'.2.2) h
  obtain ⟨-, htext⟩ := append_inj h (by simp [lenBuf])
  simp only [Request.source] at htype htenant hgen htext ⊢
  rw [htype, htenant, hgen, htext]

def Call.finished (c : Call I V) : Bool :=
  match c.phase with
  | .returned _ => true
  | _ => false

section Isolation

variable (sha256 : GoString → GoString) (Asked : Source → Prop)

/-- The pending text is that of its position, under its key. -/
def Request.Has (r : Request) (m : Pending) : Prop :=
  r.texts[m.idx]? = some m.text ∧ m.key = buildEmbedKey sha256 (r.source m.text)

/-- The vector is the one that the request asks for at the position. -/
def Request.Owns (r : Request) (i : I) (idx : ℕ) (v : Produced I V) : Prop :=
  ∃ text, r.texts[idx]? = some text ∧ v.source = r.source text ∧ v.identity = i

/-- The texts that the call still has in hand. -/
def Phase.Has (r : Request) (i : I) : Phase I V → Prop
  | .classifying todo => ∀ p ∈ todo, r.texts[p.1]? = some p.2
  | .publishing _ todo => ∀ p ∈ todo, r.Has sha256 p.1 ∧ r.Owns i p.1.idx p.2
  | _ => True

/-- What is known of a call while the embedder has the identity `i`. -/
structure Call.Isolated (fl : Flights I V) (i : I) (c : Call I V) : Prop where
  asked : ∀ text ∈ c.request.texts, Asked (c.request.source text)
  current : c.finished = false → c.identity = i
  out : ∀ p ∈ c.out, c.request.Owns c.identity p.1 p.2
  misses : ∀ m ∈ c.misses, c.request.Has sha256 m
  phase : c.phase.Has sha256 c.request c.identity
  awaited : ∀ w ∈ c.waiters ++ c.awaited, c.request.Has sha256 w.1 ∧ w.2 < fl.next ∧ w.1.key = some (fl.claims w.2).key
  fresh : ∀ w ∈ c.awaited, ∀ v, (fl.claims w.2).vec = some v → v.identity = i

/-- Every vector that is kept bears the key it is kept under. -/
structure Isolated (s : State I V) : Prop where
  led : Led s.cache.flights s.calls
  items : ∀ k e, s.cache.items.lookup k = some e →
    Asked e.vec.source ∧ buildEmbedKey sha256 e.vec.source = some k ∧ e.identity = e.vec.identity
  claims : ∀ K < s.cache.flights.next, ∀ v, (s.cache.flights.claims K).vec = some v →
    Asked v.source ∧ buildEmbedKey sha256 v.source = some (s.cache.flights.claims K).key
  joinable : ∀ k K, s.cache.flights.inflight.lookup k = some K → ∀ v, (s.cache.flights.claims K).vec = some v →
    v.identity = s.cache.identity
  calls : ∀ n c, s.calls n = some c → c.Isolated sha256 Asked s.cache.flights s.cache.identity

variable {sha256 Asked}

/-- Claims keep their keys, and get vectors of the identity `i` only. -/
def Gains (i : I) (fl fl' : Flights I V) : Prop :=
  fl.next ≤ fl'.next ∧ ∀ K < fl.next, (fl'.claims K).key = (fl.claims K).key ∧
    ∀ v, (fl'.claims K).vec = some v → (fl.claims K).vec = some v ∨ v.identity = i

theorem gains_refl (i : I) (fl : Flights I V) : Gains i fl fl := ⟨le_rfl, fun _ _ => ⟨rfl, fun _ hv => .inl hv⟩⟩

theorem gains_register (i : I) (fl : Flights I V) (n : ℕ) (k : GoString) : Gains i fl (fl.register n k) := by
  refine ⟨Nat.le_succ _, fun K hK => ?_⟩
  rw [show (fl.register n k).claims K = fl.claims K from Function.update_of_ne hK.ne ..]
  exact ⟨rfl, fun _ hv => .inl hv⟩

theorem gains_publish {i : I} (fl : Flights I V) (k : GoString) {v : Produced I V} (hv : v.identity = i) :
    Gains i fl (fl.publish k v) := by
  refine ⟨le_rfl, fun K _ => ?_⟩
  rw [Flights.claims_publish]
  split_ifs
  · exact ⟨rfl, fun u hu => .inr (Option.some.inj hu ▸ hv)⟩
  · exact ⟨rfl, fun _ hv => .inl hv⟩

theorem gains_close (i : I) (fl : Flights I V) (n : ℕ) (err : Option EmbedError) (k : GoString) :
    Gains i fl (fl.close n err k) := by
  refine ⟨le_rfl, fun K _ => ?_⟩
  rw [Flights.claims_close]
  split_ifs <;> exact ⟨rfl, fun _ hv => .inl hv⟩

section Calls

variable {fl fl' : Flights I V} {i : I} {c : Call I V}

section

variable (h : c.Isolated sha256 Asked fl i)
include h

theorem Call.Isolated.gains (hg : Gains i fl fl') : c.Isolated sha256 Asked fl' i :=
  { h with
    awaited := fun w hw => by
      obtain ⟨hhas, hlt, hkey⟩ := h.awaited w hw
      exact ⟨hhas, hlt.trans_le hg.1, by rw [hkey, (hg.2 _ hlt).1]⟩
    fresh := fun w hw v hv => by
      have hlt := (h.awaited w (mem_append_right _ hw)).2.1
      exact ((hg.2 _ hlt).2 v hv).elim (h.fresh w hw v) id }

/-- A call under way enters another phase, with no more claims to wait on. -/
theorem Call.Isolated.enter (hway : c.finished = false) {p : Phase I V}
    (hp : p.Has sha256 c.request c.identity) (hwait : ({ c with phase := p } : Call I V).awaited ⊆ c.awaited) :
    ({ c with phase := p } : Call I V).Isolated sha256 Asked fl i :=
  { h with
    current := fun _ => h.current hway
    phase := hp
    awaited := fun w hw => h.awaited w (mem_append.2 ((mem_append.1 hw).imp id fun hmem => hwait hmem))
    fresh := fun w hw => h.fresh w (hwait hw) }

theorem Call.Isolated.give {idx : ℕ} {v : Produced I V} (hv : c.request.Owns c.identity idx v) :
    ({ c with out := c.out ++ [(idx, v)] } : Call I V).Isolated sha256 Asked fl i :=
  { h with
    out := fun p hp => by
      rcases mem_append.1 hp with hp | hp
      · exact h.out p hp
      · obtain rfl := mem_singleton.1 hp
        exact hv
    phase := h.phase }

theorem Call.Isolated.lead {m : Pending} (hm : c.request.Has sha256 m) :
    (c.lead m).Isolated sha256 Asked fl i :=
  { h with
    misses := fun m' hm' => by
      rcases mem_append.1 hm' with hm' | hm'
      · exact h.misses m' hm'
      · exact mem_singleton.1 hm' ▸ hm
    phase := h.phase }

end

end Calls

section Step

variable {s : State I V} {n : ℕ} {c c' : Call I V}

/-- The call at hand takes a step that keeps what is known. -/
theorem Isolated.put (h : Isolated sha256 Asked s) {cache : Cache I V} (hid : cache.identity = s.cache.identity)
    (hled : Led cache.flights (Function.update s.calls n (some c')))
    (hg : Gains s.cache.identity s.cache.flights cache.flights)
    (hitems : ∀ k e, cache.items.lookup k = some e → s.cache.items.lookup k = some e ∨
      Asked e.vec.source ∧ buildEmbedKey sha256 e.vec.source = some k ∧ e.identity = e.vec.identity)
    (hclaims : ∀ K < cache.flights.next, ∀ v, (cache.flights.claims K).vec = some v →
      K < s.cache.flights.next ∧ (s.cache.flights.claims K).vec = some v ∨
        Asked v.source ∧ buildEmbedKey sha256 v.source = some (cache.flights.claims K).key)
    (hjoinable : ∀ k K, cache.flights.inflight.lookup k = some K → s.cache.flights.inflight.lookup k = some K ∨
      (cache.flights.claims K).vec = none) (hc' : c'.Isolated sha256 Asked s.cache.flights s.cache.identity) :
    Isolated sha256 Asked (s.put n (cache, c')) where
  led := hled
  items := fun k e he => (hitems k e he).elim (h.items k e) id
  claims := fun K hK v hv => by
    rcases hclaims K hK v hv with ⟨hlt, hold⟩ | hnew
    · exact (h.claims K hlt v hold).imp id fun hkey => hkey.trans (congrArg some (hg.2 K hlt).1.symm)
    · exact hnew
  joinable := fun k K hk v hv => by
    rcases hjoinable k K hk with hold | hnone
    · exact (((hg.2 K (h.led k K hold).1).2 v hv).elim (h.joinable k K hold v) id).trans hid.symm
    · cases hnone.symm.trans hv
  calls := fun m d hd => by
    show d.Isolated sha256 Asked cache.flights cache.identity
    rw [hid]
    by_cases hm : m = n
    · subst hm
      rw [show (s.put m (cache, c')).calls m = some c' from Function.update_self ..] at hd
      exact Option.some.inj hd ▸ hc'.gains hg
    · rw [show (s.put n (cache, c')).calls m = s.calls m from Function.update_of_ne hm ..] at hd
      exact (h.calls m d hd).gains hg

/-- A step that changes neither entries nor claims. -/
theorem Isolated.putCall (h : Isolated sha256 Asked s)
    (hled : Led s.cache.flights (Function.update s.calls n (some c')))
    (hc' : c'.Isolated sha256 Asked s.cache.flights s.cache.identity) : Isolated sha256 Asked (s.put n (s.cache, c')) :=
  h.put rfl hled (gains_refl _ _) (fun _ _ he => .inl he) (fun _ hK _ hv => .inl ⟨hK, hv⟩) (fun _ _ hk => .inl hk) hc'

variable [DecidableEq I]

/-- Keys tell apart what is asked for. -/
def Separates (sha256 : GoString → GoString) (Asked : Source → Prop) : Prop :=
  ∀ a b, Asked a → Asked b → ∀ k, buildEmbedKey sha256 a = some k → buildEmbedKey sha256 b = some k → a = b

theorem Isolated.classify (hsep : Separates sha256 Asked) (h : Isolated sha256 Asked s) (hc : s.calls n = some c)
    {idx : ℕ} {text : GoString} {todo : List (ℕ × GoString)} (hph : c.phase = .classifying ((idx, text) :: todo))
    (hled : Led (classify sha256 s.cache n { c with phase := .classifying todo } idx text).1.flights
      (Function.update s.calls n (some (classify sha256 s.cache n { c with phase := .classifying todo } idx text).2))) :
    Isolated sha256 Asked (s.put n (classify sha256 s.cache n { c with phase := .classifying todo } idx text)) := by
  have hcall := h.calls n c hc
  have hway : c.finished = false := by simp [Call.finished, hph]
  have htodo := hcall.phase
  rw [hph] at htodo
  obtain ⟨htext, htodo⟩ := forall_mem_cons.1 htodo
  have hnext := hcall.enter hway (p := .classifying todo) htodo (by simp [Call.awaited, hph])
  have hasked := hcall.asked text (mem_of_getElem? htext)
  revert hled
  unfold Rerank.classify
  cases hkey : buildEmbedKey sha256 (c.request.source text) with
  | none => exact fun hled => h.putCall hled (hnext.lead ⟨htext, hkey.symm⟩)
  | some k =>
    have hhas : c.request.Has sha256 ⟨idx, some k, text⟩ := ⟨htext, hkey.symm⟩
    dsimp only
    cases hitem : s.cache.items.lookup k with
    | some e =>
      obtain ⟨ha, hk, hid⟩ := h.items k e hitem
      dsimp only
      split_ifs with hstale
      · intro hled
        refine h.put rfl hled (gains_refl _ _) (fun j e' he => .inl ?_) (fun _ hK _ hv => .inl ⟨hK, hv⟩)
          (fun _ _ hj => .inl hj) (hnext.lead hhas)
        rw [lookup_erase_eq] at he
        split_ifs at he
        exact he
      · refine fun hled => h.putCall hled (hnext.give ⟨text, htext, hsep _ _ ha hasked k hk hkey, ?_⟩)
        simp only [CacheEntry.stale, Bool.or_eq_true, decide_eq_true_eq, not_or, not_not] at hstale
        exact hid.symm.trans hstale.1
    | none =>
      cases hclaim : s.cache.flights.inflight.lookup k with
      | some K =>
        obtain ⟨hlt, hkeyK, -⟩ := h.led k K hclaim
        have hnew : ∀ (ws : List (Pending × ℕ)) (w : Pending × ℕ), w ∈ ws ++ [(⟨idx, some k, text⟩, K)] →
            w ∈ ws ∨ w = (⟨idx, some k, text⟩, K) := fun ws w hw => (mem_append.1 hw).imp id mem_singleton.1
        refine fun hled => h.putCall hled
          { hnext with phase := htodo, awaited := fun w hw => ?_, fresh := fun w hw => ?_ }
        · rcases hnew _ w ((mem_append.1 hw).elim id id) with hw | rfl
          · exact hnext.awaited w (mem_append_left _ hw)
          · exact ⟨hhas, hlt, congrArg some hkeyK.symm⟩
        · rcases hnew _ w hw with hw | rfl
          · exact hnext.fresh w hw
          · exact h.joinable k K hclaim
      | none =>
        refine fun hled => h.put rfl hled (gains_register _ _ n k) (fun _ _ he => .inl he) ?_ ?_ (hnext.lead hhas)
        · intro K hK v hv
          rcases Nat.lt_succ_iff_lt_or_eq.1 hK with hlt | rfl
          · exact .inl ⟨hlt, by simpa [Flights.register, hlt.ne] using hv⟩
          · simp [Flights.register] at hv
        · intro j K hj
          change (s.cache.flights.inflight.insert k _).lookup j = some K at hj
          rw [lookup_insert_eq] at hj
          split_ifs at hj
          · cases hj
            exact .inr (by simp [Flights.register])
          · exact .inl hj

omit [DecidableEq I] in
theorem Isolated.publish {ttl : ℕ} (h : Isolated sha256 Asked s) (hc : s.calls n = some c) {done : List Pending}
    {m : Pending}
    {v : Produced I V} {todo : List (Pending × Produced I V)} (hph : c.phase = .publishing done ((m, v) :: todo))
    (hled : Led (s.cache.publish ttl c m v).flights
      (Function.update s.calls n
        (some { c with phase := .publishing (done ++ [m]) todo, out := c.out ++ [(m.idx, v)] }))) :
    Isolated sha256 Asked (s.put n (s.cache.publish ttl c m v,
      { c with phase := .publishing (done ++ [m]) todo, out := c.out ++ [(m.idx, v)] })) := by
  have hcall := h.calls n c hc
  have hway : c.finished = false := by simp [Call.finished, hph]
  have htodo := hcall.phase
  rw [hph] at htodo
  obtain ⟨⟨hhas, howns⟩, htodo⟩ := forall_mem_cons.1 htodo
  have hnext := (hcall.enter hway (p := .publishing (done ++ [m]) todo) htodo (by simp [Call.awaited, hph])).give howns
  obtain ⟨text, htext, hsrc, hid⟩ := howns
  obtain rfl := Option.some.inj (hhas.1.symm.trans htext)
  obtain ⟨idx, key, text⟩ := m
  cases key with
  | none => exact h.putCall hled hnext
  | some k =>
    have hgood : Asked v.source ∧ buildEmbedKey sha256 v.source = some k := by
      rw [hsrc]
      exact ⟨hcall.asked text (mem_of_getElem? htext), hhas.2.symm⟩
    refine h.put rfl hled (gains_publish _ k (hid.trans (hcall.current hway))) ?_ ?_ (fun _ _ hj => .inl hj) hnext
    · intro j e he
      change (s.cache.items.insert k _).lookup j = some e at he
      rw [lookup_insert_eq] at he
      split_ifs at he with hjk
      · cases he
        exact .inr ⟨hgood.1, hjk ▸ hgood.2, hid.symm⟩
      · exact .inl he
    · intro K hK u hu
      change ((s.cache.flights.publish k v).claims K).vec = some u at hu
      rw [Flights.claims_publish] at hu
      split_ifs at hu with hjoin
      · cases hu
        refine .inr ⟨hgood.1, hgood.2.trans (congrArg some ?_)⟩
        change k = ((s.cache.flights.publish k v).claims K).key
        rw [Flights.claims_publish, if_pos hjoin]
        exact (h.led k K hjoin).2.1.symm
      · exact .inl ⟨hK, hu⟩

omit [DecidableEq I] in
/-- Vectors that the embedder returns are for the texts it was asked for. -/
theorem Call.Isolated.answered {fl : Flights I V} {i : I} (h : c.Isolated sha256 Asked fl i) (hph : c.phase = .calling)
    (answer : Except Unit (List V)) :
    ({ c with phase := c.answered i answer } : Call I V).Isolated sha256 Asked fl i := by
  have hway : c.finished = false := by simp [Call.finished, hph]
  refine h.enter hway ?_ ?_
  · cases answer with
    | error e => trivial
    | ok vs =>
      simp only [Call.answered]
      split_ifs
      · intro p hp
        obtain ⟨q, hq, rfl⟩ := mem_map.1 hp
        have hhas := h.misses q.1 (of_mem_zip hq).1
        exact ⟨hhas, q.1.text, hhas.1, rfl, (h.current hway).symm⟩
      · trivial
  · rw [(owed_answered _ _ answer).2.2]
    simp [Call.awaited, hph]

omit [DecidableEq I] in
theorem Isolated.close (h : Isolated sha256 Asked s) {err : Option EmbedError} {m : Pending}
    (hled : Led (s.cache.close n err m).flights (Function.update s.calls n (some c')))
    (hc' : c'.Isolated sha256 Asked s.cache.flights s.cache.identity) :
    Isolated sha256 Asked (s.put n (s.cache.close n err m, c')) := by
  obtain ⟨idx, key, text⟩ := m
  cases key with
  | none => exact h.putCall hled hc'
  | some k =>
    refine h.put rfl hled (gains_close _ _ n err k) (fun _ _ he => .inl he) ?_
      (fun j K hj => .inl (((s.cache.flights.lookup_close n k).1 hj).2)) hc'
    intro K hK v hv
    refine .inl ⟨hK, ?_⟩
    change ((s.cache.flights.close n err k).claims K).vec = some v at hv
    rw [Flights.claims_close] at hv
    split_ifs at hv <;> exact hv

omit [DecidableEq I] in
/-- A waiter takes the vector of a claim for its own key, so for its own text. -/
theorem Isolated.collect (hsep : Separates sha256 Asked) (h : Isolated sha256 Asked s) (hc : s.calls n = some c)
    {err : Option EmbedError} {p : Pending × ℕ} {todo : List (Pending × ℕ)} (hph : c.phase = .waiting err (p :: todo)) :
    (collect c p.1 (s.cache.flights.claims p.2) err todo).Isolated sha256 Asked s.cache.flights s.cache.identity := by
  have hcall := h.calls n c hc
  have hway : c.finished = false := by simp [Call.finished, hph]
  have hawaited : c.awaited = p :: todo := by simp [Call.awaited, hph]
  have hnext : ∀ e, ({ c with phase := .waiting e todo } : Call I V).Isolated sha256 Asked s.cache.flights
      s.cache.identity := fun e => hcall.enter hway trivial (hawaited ▸ subset_cons_self p todo)
  unfold Rerank.collect
  split
  · exact hnext _
  · exact hcall.enter hway trivial (nil_subset _)
  · exact hcall.enter hway trivial (nil_subset _)
  · next v _ hvec =>
    have hmem : p ∈ c.awaited := hawaited ▸ .head _
    obtain ⟨hhas, hlt, hkey⟩ := hcall.awaited p (mem_append_right _ hmem)
    obtain ⟨ha, hv⟩ := h.claims p.2 hlt v hvec
    have hsrc := hsep _ _ ha (hcall.asked p.1.text (mem_of_getElem? hhas.1)) _ hv (hhas.2.symm.trans hkey)
    exact (hnext none).give
      ⟨p.1.text, hhas.1, hsrc, (hcall.fresh p hmem v hvec).trans (hcall.current hway).symm⟩

theorem Isolated.advance {ttl : ℕ} (hsep : Separates sha256 Asked) (h : Isolated sha256 Asked s)
    (hc : s.calls n = some c)
    (answer : Except Unit (List V)) : Isolated sha256 Asked (s.put n (advance sha256 ttl s.cache n c answer)) := by
  have hled : Led (Rerank.advance sha256 ttl s.cache n c answer).1.flights
    (Function.update s.calls n (some (Rerank.advance sha256 ttl s.cache n c answer).2)) :=
      h.led.move hc (advance_move hc answer)
  have hcall := h.calls n c hc
  obtain ⟨request, identity, phase, misses, waiters, out⟩ := c
  cases phase with
  | classifying todo =>
    cases todo with
    | cons p todo => exact h.classify hsep hc rfl hled
    | nil =>
      refine h.putCall hled (hcall.enter rfl ?_ ?_)
      · split_ifs <;> trivial
      · split_ifs <;> exact List.Subset.refl _
  | calling => exact h.putCall hled (hcall.answered rfl answer)
  | publishing done todo =>
    cases todo with
    | nil => exact h.putCall hled (hcall.enter rfl trivial (List.Subset.refl _))
    | cons p todo => exact h.publish hc rfl hled
  | closing err todo =>
    cases todo with
    | nil => exact h.putCall hled (hcall.enter rfl trivial (List.Subset.refl _))
    | cons m todo =>
      exact h.close hled (hcall.enter rfl (p := .closing err todo) trivial (List.Subset.refl _))
  | waiting err todo =>
    cases todo with
    | nil => exact h.putCall hled (hcall.enter rfl trivial (nil_subset _))
    | cons p todo =>
      revert hled
      unfold Rerank.advance
      dsimp only
      split_ifs
      · exact fun hled => h.putCall hled hcall
      · exact fun hled => h.putCall hled (h.collect hsep hc rfl)
  | returned err => exact h.putCall hled hcall

/-- The identity changes only while no call is under way. -/
def Steady (s : State I V) : Event I V → Prop
  | .identify _ => ∀ n c, s.calls n = some c → c.finished = true
  | _ => True

def Event.Asks (P : Source → Prop) : Event I V → Prop
  | .start _ r => ∀ text ∈ r.texts, P (r.source text)
  | _ => True

theorem Isolated.step {ttl : ℕ} (hsep : Separates sha256 Asked) (h : Isolated sha256 Asked s) {e : Event I V}
    (hasks : e.Asks Asked) (hsteady : Steady s e) : Isolated sha256 Asked (s.step sha256 ttl e) := by
  cases e with
  | start n r =>
    simp only [State.step]
    split_ifs with hn
    · exact h
    have hnone : s.calls n = none := by simpa using hn
    refine h.putCall ?_ ⟨hasks, fun _ => rfl, ?_, ?_, ?_, ?_, ?_⟩
    · intro k K hk
      obtain ⟨hlt, hkey, c, hc, hmem⟩ := h.led k K hk
      have hne : (s.cache.flights.claims K).owner ≠ n := by
        rintro rfl
        cases hnone.symm.trans hc
      exact ⟨hlt, hkey, c, (Function.update_of_ne hne ..).trans hc, hmem⟩
    all_goals unfold Request.call; split_ifs
    all_goals simp [Phase.Has, Call.awaited, mem_zipIdx_iff_getElem?]
    rintro idx text _ _ htext rfl rfl
    exact htext
  | advance n answer =>
    simp only [State.step]
    cases hc : s.calls n with
    | none => exact h
    | some c => exact h.advance hsep hc answer
  | drop k =>
    refine ⟨h.led, fun j e he => h.items j e ?_, h.claims, h.joinable, h.calls⟩
    change (s.cache.items.erase k).lookup j = some e at he
    rw [lookup_erase_eq] at he
    split_ifs at he
    exact he
  | clock now => exact ⟨h.led, h.items, h.claims, h.joinable, h.calls⟩
  | identify i =>
    have howed : ∀ c : Call I V, c.finished = true → c.owed = [] ∧ c.awaited = [] := by
      rintro ⟨request, identity, phase, misses, waiters, out⟩ hfin
      cases phase <;> first | exact ⟨rfl, rfl⟩ | cases hfin
    refine ⟨h.led, h.items, h.claims, fun k K hk => ?_, fun n c hc => ?_⟩
    · obtain ⟨-, -, c, hc, hmem⟩ := h.led k K hk
      rw [(howed c (hsteady _ c hc)).1] at hmem
      cases hmem
    · have hfin := hsteady n c hc
      refine { h.calls n c hc with current := fun hway => ?_, fresh := fun w hw => ?_ }
      · rw [hfin] at hway
        cases hway
      · rw [(howed c hfin).2] at hw
        cases hw

end Step

end Isolation

/-- The sources that the calls of a run ask for. -/
def asked (es : List (Event I V)) (src : Source) : Prop :=
  ∃ n r, .start n r ∈ es ∧ ∃ text ∈ r.texts, src = Request.source r text

theorem separates_asked {sha256 : GoString → GoString} {es : List (Event I V)}
    (hplain : ∀ n r, .start n r ∈ es → r.Plain)
    (hsha : ∀ a b, asked es a → asked es b → sha256 (keyText a) = sha256 (keyText b) → keyText a = keyText b) :
    Separates sha256 (asked es) := by
  intro a b ha hb k hka hkb
  have hhash : sha256 (keyText a) = sha256 (keyText b) := by
    unfold buildEmbedKey at hka hkb
    split_ifs at hka hkb
    exact Option.some.inj (hka.trans hkb.symm)
  have htext := hsha a b ha hb hhash
  obtain ⟨n, r, hr, text, -, rfl⟩ := ha
  obtain ⟨n', r', hr', text', -, rfl⟩ := hb
  exact keyText_inj (hplain n r hr) (hplain n' r' hr') htext

/-- Where no field of a request holds a NUL byte and the identity changes only while no call is
under way, every vector that a call is given was made for its text, input type, tenant and
generation under the identity that the call found at its start. -/
theorem embed_isolated [DecidableEq I] (sha256 : GoString → GoString) (ttl : ℕ) (i : I) (blank : InflightClaim I V)
    (es : List (Event I V)) (hplain : ∀ n r, .start n r ∈ es → r.Plain)
    (hsha : ∀ a b, asked es a → asked es b → sha256 (keyText a) = sha256 (keyText b) → keyText a = keyText b)
    (hsteady : Schedule.Meets (State.step sha256 ttl) Steady (State.new i blank) es) :
    ∀ n c, (es.foldl (State.step sha256 ttl) (State.new i blank)).calls n = some c →
      ∀ p ∈ c.out, c.request.Owns c.identity p.1 p.2 := by
  have hnew : Isolated sha256 (asked es) (State.new i blank) := by
    constructor <;> simp [State.new, Led]
  have hasks : ∀ e ∈ es, e.Asks (asked es) := by
    intro e he
    cases e with
    | start n r => exact fun text htext => ⟨n, r, he, text, htext, rfl⟩
    | _ => trivial
  have hrun := (hsteady.and_forall hasks).keeps (P := Isolated sha256 (asked es))
    (fun s e he hs => hs.step (separates_asked hplain hsha) he.1 he.2) hnew
  exact fun n c hc => (hrun.calls n c hc).out

/-- The identity changes while no call is there. Call 1 asks for the text of call 0 for another tenant, call 2 joins the
claim of call 0, and call 3 finds the entry. -/
def settled : List (Event Bool ℕ) :=
  .identify true :: .start 0 single :: steps 0 1 ++ .start 1 { single with tenant := lit "b" } :: steps 1 8 ++
    .start 2 single :: steps 2 2 ++ steps 0 7 ++ steps 2 1 ++ .start 3 single :: steps 3 1

theorem embed_isolated_settled :
    let s := settled.foldl (State.step id 1) (State.new false blankClaim)
    (∀ n < 4, (s.calls n).any (fun c => c.identity && c.out.length == 1) = true) ∧
      (s.calls 2).any (·.waiters.length == 1) = true ∧ (s.calls 3).any (·.misses.isEmpty) = true ∧
      ∀ n c, s.calls n = some c → ∀ p ∈ c.out, c.request.Owns c.identity p.1 p.2 := by
  refine ⟨by decide +kernel, by decide +kernel, by decide +kernel,
    embed_isolated id 1 false blankClaim settled ?_ (fun a b _ _ h => h) ?_⟩
  · intro n r hr
    have hr' : r = single ∨ r = { single with tenant := lit "b" } := by
      simp [settled, steps] at hr
      tauto
    rcases hr' with rfl | rfl <;> exact ⟨by decide, by decide, by decide⟩
  · refine ⟨fun _ _ hc => (Option.some_ne_none _ hc.symm).elim, Schedule.meets_of_forall (fun e he s => ?_) _⟩
    cases e with
    | identify i => simp [steps] at he
    | _ => trivial

/-- Call 1 starts under another identity and joins the claim of call 0. -/
def mixed : List (Event Bool ℕ) :=
  .start 0 single :: steps 0 3 ++ .identify true :: .start 1 single :: steps 1 2 ++ steps 0 3 ++ steps 1 1

theorem embed_mixes_identities :
    let s := mixed.foldl (State.step id 1) (State.new false blankClaim)
    ∃ c, s.calls 1 = some c ∧ c.identity = true ∧ ∃ p ∈ c.out, p.2.identity = false := by
  have hmixed : ((mixed.foldl (State.step id 1) (State.new false blankClaim)).calls 1).any
      (fun c => c.identity && c.out.any (!·.2.identity)) = true := by decide +kernel
  obtain ⟨c, hc, h⟩ := (Option.any_eq_true _ _).1 hmixed
  obtain ⟨hid, hout⟩ := Bool.and_eq_true_iff.1 h
  obtain ⟨p, hp, hne⟩ := any_eq_true.1 hout
  exact ⟨c, hc, hid, p, hp, by simpa using hne⟩

end CodeMemory.Rerank
