import CodeMemory.Orgscope.Projections
import CodeMemory.Orgscope.Reads

/-! Every interleaving of the calls, cut at the three mutexes. Erased ids stay out of
every projection and the indexes stay exact. A read cites only what one policy epoch
allowed, from the beginning of its authorization pass to its re-check. -/

namespace CodeMemory.Orgscope

open Lib Lib.GoString List

/-- What holds between the sections of the calls. -/
structure World.Exact (cfg : Config) (w : World) : Prop where
  store : w.store.Exact cfg
  authority : w.authority.Keyed

/-- What every section guarantees. -/
structure World.Lasts (cfg : Config) (w w' : World) : Prop where
  policy : w.Le w'
  tombstones : w.store.tombstones.keys ⊆ w'.store.tombstones.keys
  exact : w.Exact cfg → w'.Exact cfg

section Sections

variable {cfg : Config}

theorem World.Lasts.refl (w : World) : w.Lasts cfg w := ⟨.refl w, Finset.Subset.refl _, fun h => h⟩

theorem World.Lasts.trans {w₁ w₂ w₃ : World} (h : w₁.Lasts cfg w₂) (h' : w₂.Lasts cfg w₃) : w₁.Lasts cfg w₃ :=
  ⟨h.policy.trans h'.policy, h.tombstones.trans h'.tombstones, fun hw => h'.exact (h.exact hw)⟩

theorem World.Le.of_raised {w w' : World} (h : w.directory.Raised w'.directory) : w.Le w' :=
  ⟨(Nat.le_succ _).trans_eq h.epoch.symm, fun heq => absurd (heq.trans h.epoch) (Nat.ne_of_lt (Nat.lt_succ_self _))⟩

/-- A section of the store leaves the policy. -/
theorem lasts_store {w w' : World} (hdir : w'.directory = w.directory) (hauth : w'.authority = w.authority)
    (htomb : w.store.tombstones.keys ⊆ w'.store.tombstones.keys) (hstore : w.store.Exact cfg → w'.store.Exact cfg) :
    w.Lasts cfg w' := by
  refine ⟨⟨?_, fun _ => ⟨hdir.symm, hauth.symm⟩⟩, htomb, fun hw => ⟨hstore hw.store, ?_⟩⟩
  · rw [World.epoch, World.epoch, hdir]
  · rw [hauth]
    exact hw.authority

theorem Step.lasts {w w' : World} {e : Effect} (h : Step cfg w e w') : w.Lasts cfg w' := by
  cases h with
  | same => exact .refl w
  | tick _ now => exact lasts_store rfl rfl (Finset.Subset.refl _) fun h => h
  | directory _ d raised => exact ⟨.of_raised raised, Finset.Subset.refl _, fun hw => ⟨hw.store, hw.authority⟩⟩
  | authority _ a d raised keyed =>
    exact ⟨.of_raised raised, Finset.Subset.refl _, fun hw => ⟨hw.store, keyed hw.authority⟩⟩
  | put item s hput =>
    have hputs := puts_of_put hput
    refine lasts_store rfl rfl ?_ fun h => h.put hputs
    rw [hputs.tombstones]
  | erase _ reason now ids =>
    refine lasts_store rfl rfl ?_ fun h => h.erase reason now ids
    rw [tombstones_erase]
    exact Finset.subset_union_left
  | fence scopes owners lifting => exact lasts_store rfl rfl (Finset.Subset.refl _) fun h => h.fence scopes owners
  | rebuild _ order =>
    refine lasts_store rfl rfl ?_ fun h => h.rebuild order
    rw [(rebuild_rebuilds _ _ order).tombstones]
  | restore order b =>
    have hrest := restore_restores cfg w.store order b
    exact lasts_store rfl rfl (fun id hid => (hrest.tombstones id).mpr (.inl hid)) fun _ => hrest.exact

/-- The contract of every call. -/
abbrev lasting (cfg : Config) : Routine.Contract World := .free (World.Exact cfg) (World.Lasts cfg)

theorem allowed_lasting (e : Effect) : Allowed cfg (lasting cfg) e :=
  fun _ _ hstep hw _ => ⟨hstep.lasts.exact hw, hstep.lasts⟩

theorem record_lasts (w : World) (key : CacheKey) (fromCache : Bool) (candidates ids : List GoString)
    (served : List (PrincipalKey × Item)) :
    w.Lasts cfg { w with store := w.store.record key fromCache candidates ids, served := served } :=
  lasts_store rfl rfl (Finset.Subset.refl _) fun h => h.record key fromCache candidates ids

end Sections

def Request.reader : Request → Option Principal
  | .query p _ | .searchClaims p _ | .history p | .graph p | .replay p => some p
  | _ => none

/-- One policy at all moments from the beginning of the pass to the re-check; it allows every item that is cited, and
the item was live with that text in between. -/
def Reading.Granted (p : Principal) (r : Reading) (seen : List World) : Prop :=
  ∃ (after : List World) (rechecked : World) (since : List World) (begun : World) (before : List World),
    seen = after ++ rechecked :: (since ++ begun :: before) ∧
    begun.epoch = r.epoch ∧ rechecked.epoch = r.epoch ∧
    begun.directory.incarnation p.userID = some r.key.incarnation ∧
    (∀ m ∈ rechecked :: since, m.epoch = r.epoch ∧ m.directory = begun.directory ∧ m.authority = begun.authority) ∧
    ∀ citation ∈ r.citations, ∃ item : Item, citation = item.cite ∧
      (∃ m ∈ since, Allows begun.directory begun.authority m.now p.userID r.key.incarnation item.scope) ∧
      ∃ m ∈ since, m.store.live item.id = some item

theorem live_id {cfg : Config} {w : World} (hw : w.Exact cfg) {id : GoString} {item : Item}
    (h : w.store.live id = some item) : item.id = id := by
  unfold Store.live at h
  split_ifs at h
  exact hw.store.keyed id item h

theorem granted_of_rechecked {cfg : Config} {p : Principal} {r : Reading} {top moments rest : List World}
    (hr : Rechecked p r.key r.candidates r.items r.epoch moments) (hset : Settled (top ++ moments ++ rest))
    (hexact : ∀ m ∈ top ++ moments ++ rest, m.Exact cfg) : r.Granted p (top ++ moments ++ rest) := by
  obtain ⟨after, rechecked, since, begun, before, rfl, hbegun, hchk, hauth⟩ := hr
  have hseen : top ++ (after ++ rechecked :: (since ++ begun :: before)) ++ rest =
      (top ++ after) ++ rechecked :: (since ++ begun :: (before ++ rest)) := by simp
  rw [hseen] at hset hexact ⊢
  obtain ⟨-, hlater, -⟩ := hset.append
  obtain ⟨hlast, hpass⟩ := pairwise_cons.mp hlater
  obtain ⟨-, hold, hfirst⟩ := Settled.append hpass
  have hfixed := fixed_between (rechecked :: since) (hchk.trans hbegun.symm)
    (fun m hm => by
      rcases mem_cons.mp hm with rfl | hm
      · exact hlast begun (by simp)
      · exact hfirst m hm begun (.head _))
    (fun m hm => by
      rcases mem_cons.mp hm with rfl | hm
      · exact .refl m
      · exact hlast m (by simp [hm]))
  have hsince : Settled (since ++ [begun]) := hpass.sublist (by simp)
  obtain ⟨hinc, hallow⟩ := hauth.allowed hsince fun m hm => (hexact m (by grind)).authority
  refine ⟨top ++ after, rechecked, since, begun, before ++ rest, rfl, hbegun, hchk, hinc, ?_, ?_⟩
  · rw [← hbegun]
    exact hfixed
  · intro citation hcitation
    obtain ⟨item, hitem, rfl⟩ := mem_map.mp hcitation
    refine ⟨item, rfl, ?_, ?_⟩
    · obtain ⟨m, hm, -, hallows⟩ := hallow item hitem
      have hm' := hfixed m (.tail _ hm)
      rw [hm'.2.1, hm'.2.2] at hallows
      exact ⟨m, hm, hallows⟩
    · obtain ⟨id, -, m, hm, hlive⟩ := hauth.live item hitem
      refine ⟨m, hm, ?_⟩
      rw [live_id (hexact m (by simp [hm])) hlive]
      exact hlive

section Calls

variable {cfg : Config}

/-- What a call returns: if it reads, what it cites is granted. -/
def Answers (q : Request) (result : Result) (seen : List World) : Prop :=
  ∀ p r, q.reader = some p → result = .reading r → r.key.userID = p.userID ∧ r.Granted p seen

theorem readWith_answers {q : Request} {p : Principal} (hq : q.reader = some p) {valid : Bool}
    {find : PrincipalKey → Store → List GoString × Bool}
    {last : PrincipalKey → List GoString × Bool → List Item → Call Unit}
    (hlast : ∀ key found items n h, Completes (lasting cfg) (last key found items) n h) {w : World} (hw : w.Exact cfg) :
    (readWith cfg p valid find last).Ensures (lasting cfg) (fun _ => Answers q) 0 [w] := by
  have hread : (readWith cfg p valid find last).Ensures (lasting cfg)
    (fun _ result seen => ∀ r, result = .reading r → r.key.userID = p.userID ∧ ∃ top moments rest,
        seen = top ++ moments ++ rest ∧ Rechecked p r.key r.candidates r.items r.epoch moments) 0 [w] := by
    refine readWith_ensures World.Lasts.refl (fun _ _ _ r h => by cases h) (World.Lasts cfg) (fun _ _ _ _ h => h)
      (fun _ _ h => h) fun key w' old items epoch n new _ hkey _ hchk _ => ?_
    have hgrows := (hlast key (find key w'.store) items n (new ++ w' :: old)).grows (World.Lasts cfg)
      (fun _ _ _ _ h => h) (fun _ _ h => h) (Nat.zero_le n)
    refine hgrows.mono fun _ _ h hpost r hr => ?_
    cases hr
    obtain ⟨top, rfl⟩ := hpost.2.suffix
    exact ⟨hkey, top, new, w' :: old, by rw [append_assoc], hchk⟩
  refine (hread.grows (World.Lasts cfg) (fun _ _ _ _ h => h) (fun _ _ h => h) (Nat.zero_le 0)).mono ?_
  intro n result seen hpost p' r hreader hres
  obtain rfl := Option.some.inj (hq.symm.trans hreader)
  obtain ⟨hkey, top, moments, rest, rfl, hchk⟩ := hpost.1 r hres
  have hordered := hpost.2.pairwise (fun _ _ _ => .trans) (pairwise_singleton _ w)
  have hexact : ∀ m ∈ top ++ moments ++ rest, m.Exact cfg := by
    obtain ⟨new, hnew, habove⟩ := hpost.2.above fun _ _ _ => .trans
    intro m hm
    rw [hnew] at hm
    rcases mem_append.mp hm with hm | hm
    · exact (habove m hm).exact hw
    · obtain rfl := mem_singleton.mp hm
      exact hw
  exact ⟨hkey, granted_of_rechecked hchk (hordered.imp fun h => h.policy) hexact⟩

theorem routine_answers (cfg : Config) : Routine.Keeps (routine cfg) (.free (World.Exact cfg) (World.Lasts cfg))
    Answers := by
  intro callID q w hw
  have haudit : ∀ (key : PrincipalKey) (found : List GoString × Bool) items n h,
      Completes (lasting cfg) (auditRead items) n h := fun _ _ _ _ _ => completes_reads (allowed_lasting .plain)
  -- A call that is no read has nothing to answer for.
  have hvac : q.reader = none → Completes (lasting cfg) (routine cfg callID q) 0 [w] →
      (routine cfg callID q).Ensures (lasting cfg) (fun _ => Answers q) 0 [w] := by
    intro hnone hcomp
    refine hcomp.mono fun _ _ _ _ p r hreader => ?_
    rw [hnone] at hreader
    cases hreader
  cases q with
  | query p text =>
    simp only [routine, query]
    refine readWith_answers rfl (fun key found items n h => ?_) hw
    exact .atomic fun w h' _ hw _ _ => ⟨(record_lasts w _ _ _ _ _).exact hw, record_lasts w _ _ _ _ _, trivial⟩
  | searchClaims | history | graph | replay =>
    simp only [routine, searchClaims, history, graph, replay]
    exact readWith_answers rfl haudit hw
  | _ => exact hvac rfl (change_completes (allowed_lasting _) callID rfl)

theorem exact_start (now : Int) : (World.new now).Exact cfg :=
  ⟨exact_new, fun subject byScope key g h => by simp [World.new] at h⟩

theorem calls_sound (cfg : Config) (now : Int) (es : List (Routine.Event Request (List GoString))) :
    ((Routine.System.start (World.new now)).run (routine cfg) es).Sound (.free (World.Exact cfg) (World.Lasts cfg))
      Answers :=
  .run_free (routine_answers cfg) (exact_start now) es

/-- What a section does to the counters. -/
def World.Counts (w w' : World) : Prop := w'.epoch ≤ w.epoch + 1 ∧ (w.directory.Counted → w'.directory.Counted)

theorem Step.counts {w w' : World} {e : Effect} (h : Step cfg w e w') : w.Counts w' := by
  cases h with
  | directory _ d raised | authority _ a d raised keyed => exact ⟨raised.epoch.le, raised.counted⟩
  | _ => exact ⟨Nat.le_succ _, fun h => h⟩

theorem routine_counts (cfg : Config) :
    Routine.Keeps (routine cfg) (.free (·.directory.Counted) World.Counts) fun _ _ _ => True := by
  intro callID q w _
  have hallow : ∀ e, Allowed cfg (.free (·.directory.Counted) World.Counts) e := fun e _ _ hstep hw _ =>
    ⟨hstep.counts.2 hw, hstep.counts⟩
  have hsame : ∀ w : World, w.Counts w := fun _ => ⟨Nat.le_succ _, fun h => h⟩
  cases q with
  | query | searchClaims | history | graph | replay =>
    simp only [routine, query, searchClaims, history, graph, replay]
    refine readWith_ensures hsame (fun _ _ _ => trivial) World.Counts (fun _ _ _ _ h => h) (fun _ _ h => h) ?_
    exact fun _ _ _ _ _ _ _ _ _ _ _ _ => .atomic fun w _ _ hw _ _ => ⟨hw, hsame w, trivial⟩
  | _ => exact change_completes (hallow _) callID rfl

/-- The epoch and the incarnations are `uint64` in the source. No interleaving of fewer than `2 ^ 64` sections wraps
them. -/
theorem counters_fit (now : Int) (es : List (Routine.Event Request (List GoString))) (hes : es.length < 2 ^ 64) :
    let d := ((Routine.System.start (World.new now)).run (routine cfg) es).shared.directory
    d.epoch < 2 ^ 64 ∧ ∀ id, (d.versions.lookup id).getD 0 < 2 ^ 64 ∧ (d.groupVer.lookup id).getD 0 < 2 ^ 64 := by
  have hsound := fun es => Routine.System.Sound.run_free (routine_counts cfg) (s := World.new now)
    (fun id => by simp [World.new]) es
  have hle : ∀ es, ((Routine.System.start (World.new now)).run (routine cfg) es).shared.epoch ≤ es.length := by
    intro es
    induction es using reverseRecOn with
    | nil => exact Nat.le_refl 0
    | append_singleton es e ih =>
      have hstep := (hsound es).step_le (routine cfg) (fun _ => ⟨Nat.le_succ _, fun h => h⟩)
        (fun _ _ _ _ h => h) Routine.tolerant_free (e := e) trivial
      rw [Routine.System.run, foldl_concat, length_append]
      exact hstep.1.trans (Nat.succ_le_succ ih)
  have hepoch := (hle es).trans_lt hes
  exact ⟨hepoch, fun id => ⟨((hsound es).keeps id).1.trans_lt hepoch, ((hsound es).keeps id).2.trans_lt hepoch⟩⟩

end Calls

/-- Erased ids stay erased everywhere and the projections stay exact. In every state reached by an interleaving of the
calls: no tombstoned id is in the items, in the two indexes, in the graph, in an entry of the cache or of a history; the
tombstones stay whatever comes after; and an id is listed under a term exactly when it is a live item whose text has the
term. -/
theorem erased_stay_erased (cfg : Config) (now : Int) (before after : List (Routine.Event Request (List GoString))) :
    let reached := (Routine.System.start (World.new now)).run (routine cfg) before
    let s := reached.shared.store
    (∀ id ∈ s.tombstones.keys, id ∉ s.items.keys ∧ (∀ t, id ∉ s.index.under t) ∧ (∀ t, id ∉ s.claims.under t) ∧
      id ∉ s.graph ∧ (∀ key ids, s.cache.lookup key = some ids → id ∉ ids) ∧
      (∀ key entries, s.sessions.lookup key = some entries → ∀ entry ∈ entries, id ∉ entry) ∧
      ∀ key entries, s.replay.lookup key = some entries → ∀ entry ∈ entries, id ∉ entry) ∧
    s.tombstones.keys ⊆ (reached.run (routine cfg) after).shared.store.tombstones.keys ∧
    ∀ t id, (id ∈ s.index.under t ↔ ∃ item, s.live id = some item ∧ t ∈ tokenize cfg item.text) ∧
      (id ∈ s.claims.under t ↔ ∃ item, s.live id = some item ∧ t ∈ tokenize cfg item.text) := by
  intro reached s
  have hsound := calls_sound cfg now before
  have hexact : s.Exact cfg := hsound.keeps.store
  have hlive : ∀ id, s.live id = s.items.lookup id := by
    intro id
    unfold Store.live
    split_ifs with hdead
    · exact (hexact.items id hdead).symm
    · rfl
  have hlasts : reached.shared.Lasts cfg (reached.run (routine cfg) after).shared :=
    Routine.System.Sound.run_free_le (routine_answers cfg) .refl (fun _ _ _ => .trans) hsound after
  refine ⟨fun id hdead => ⟨?_, fun t hid => ?_, fun t hid => ?_, fun hid => hexact.graph id hid hdead, ?_, ?_, ?_⟩,
    hlasts.tombstones, fun t id => ⟨?_, ?_⟩⟩
  · intro hid
    obtain ⟨item, hitem⟩ := GoMap.mem_keys_iff.mp hid
    rw [hexact.items id hdead] at hitem
    cases hitem
  · obtain ⟨item, hitem, -⟩ := (hexact.index t id).mp hid
    rw [hexact.items id hdead] at hitem
    cases hitem
  · obtain ⟨item, hitem, -⟩ := (hexact.claims t id).mp hid
    rw [hexact.items id hdead] at hitem
    cases hitem
  · exact fun key ids hkey hid => hexact.cache key ids hkey id hid hdead
  · exact fun key entries hkey entry hentry hid => hexact.sessions key entries hkey entry hentry id hid hdead
  · exact fun key entries hkey entry hentry hid => hexact.replay key entries hkey entry hentry id hid hdead
  · rw [hlive]
    exact hexact.index t id
  · rw [hlive]
    exact hexact.claims t id

/-- A revocation wins over a concurrent read. In every interleaving of the calls, what a read returns was authorized for
its principal at one epoch: that epoch and its policy were current from the beginning of the authorization pass to the
re-check, the principal was active in the incarnation the read was made for, and each citation is of an item that the
policy allowed and that was live, not tombstoned, with the cited text in between. -/
theorem revocation_wins (cfg : Config) (now : Int) (es : List (Routine.Event Request (List GoString))) (q : Request)
    (p : Principal) (hq : q.reader = some p) (r : Reading) (seen : List World)
    (hreturn : ⟨q, .reading r, seen⟩ ∈ ((Routine.System.start (World.new now)).run (routine cfg) es).returns) :
    r.key.userID = p.userID ∧ r.Granted p seen :=
  (calls_sound cfg now es).returned _ hreturn p r hq rfl

def sampleConfig : Config := ⟨lit "t", id, fun _ _ _ => lit "d"⟩

def samplePrincipal : Principal := ⟨lit "u", lit "t"⟩

def sampleScope : Scope := ⟨.company, []⟩

def sampleItem (id text : String) : Item := ⟨lit id, sampleScope, lit "o", lit text⟩

/-- A call that runs alone. -/
def alone (q : Request) (sections : ℕ) : List (Routine.Event Request (List GoString)) :=
  .call q :: List.replicate sections (.resume 0 [])

def sampleSetup : List (Routine.Event Request (List GoString)) :=
  alone (.provision (lit "u")) 1 ++ alone (.grant ⟨lit "user:u", sampleScope, none, []⟩) 2 ++
    alone (.put (sampleItem "x" "go")) 1

def Result.items : Result → List Item
  | .reading r => r.items
  | _ => []

def Result.epoch : Result → ℕ
  | .reading r => r.epoch
  | _ => 0

/-- The grant is revoked after the re-check and before the read returns. -/
def sampleRevoked : List (Routine.Event Request (List GoString)) :=
  sampleSetup ++ alone (.query samplePrincipal (lit "go")) 16 ++
    ([.call (.revoke (lit "user:u") sampleScope), .resume 1 [], .resume 0 []] :
      List (Routine.Event Request (List GoString)))

/-- What is cited was allowed at the epoch of the read, which the revocation came after. -/
theorem revocation_wins_revoked :
    ∃ q r seen, ⟨q, .reading r, seen⟩ ∈
        ((Routine.System.start (World.new 0)).run (routine sampleConfig) sampleRevoked).returns ∧
      r.items = [sampleItem "x" "go"] ∧ r.epoch = 2 ∧ r.Granted samplePrincipal seen := by
  have hret : ∃ r ∈ ((Routine.System.start (World.new 0)).run (routine sampleConfig) sampleRevoked).returns,
      r.request.reader = some samplePrincipal ∧ r.result.items = [sampleItem "x" "go"] ∧ r.result.epoch = 2 := by
    decide +kernel
  obtain ⟨⟨q, result, seen⟩, hmem, hreader, hitems, hepoch⟩ := hret
  cases result with
  | reading r =>
    exact ⟨q, r, seen, hmem, hitems, hepoch,
      (revocation_wins sampleConfig 0 sampleRevoked q samplePrincipal hreader r seen hmem).2⟩
  | _ => cases hitems

end CodeMemory.Orgscope
