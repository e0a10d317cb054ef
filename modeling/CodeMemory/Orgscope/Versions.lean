import CodeMemory.Orgscope.Interleavings

/-! What a query writes back. A query finds its candidates in one section and writes
them, with the ids it served, in a later one. If no `Put` or `Restore` runs in between,
the cache holds what the index gives and the histories name only versions that were
served; an erasure in between does no harm. -/

namespace CodeMemory.Orgscope

open Lib Lib.GoString Lib.GoMap List

/-- Items are at most erased. -/
structure World.Calms (cfg : Config) (w w' : World) : Prop where
  lasts : w.Lasts cfg w'
  kept : ∀ id item, w'.store.items.lookup id = some item → w.store.items.lookup id = some item
  erased : ∀ id item, w.store.items.lookup id = some item →
    w'.store.items.lookup id = some item ∨ id ∈ w'.store.tombstones.keys

section Calms

variable {cfg : Config} {w w' : World} {e : Effect}

theorem World.Calms.of_items (hlasts : w.Lasts cfg w') (hitems : w'.store.items = w.store.items) : w.Calms cfg w' :=
  ⟨hlasts, fun _ _ h => hitems ▸ h, fun _ _ h => .inl (hitems ▸ h)⟩

theorem World.Calms.refl (w : World) : w.Calms cfg w := .of_items (.refl w) rfl

theorem World.Calms.trans {w₁ w₂ w₃ : World} (h : w₁.Calms cfg w₂) (h' : w₂.Calms cfg w₃) : w₁.Calms cfg w₃ := by
  refine ⟨h.lasts.trans h'.lasts, fun id item hitem => h.kept id item (h'.kept id item hitem), fun id item hitem => ?_⟩
  rcases h.erased id item hitem with hitem | hdead
  · exact h'.erased id item hitem
  · exact .inr (h'.lasts.tombstones hdead)

/-- Whether a section may bring items in. -/
def Effect.disturbs : Effect → Bool
  | .put _ | .restore _ => true
  | _ => false

/-- A step calms unless it brings items in. -/
theorem Step.calms_or (h : Step cfg w e w') : w.Calms cfg w' ∨
    (∃ item s, e = .put item ∧ w.store.put cfg item = some s ∧ w' = { w with store := s }) ∨
    ∃ order b, e = .restore b ∧ w' = { w with store := w.store.restore cfg order b } := by
  have hlasts := h.lasts
  cases h with
  | same => exact .inl (.refl w)
  | tick | directory | authority | fence => exact .inl (.of_items hlasts rfl)
  | erase _ reason now ids =>
    refine .inl ⟨hlasts, fun id item hitem => ?_, fun id item hitem => ?_⟩
    · rw [items_erase] at hitem
      split_ifs at hitem
      exact hitem
    · rw [items_erase, tombstones_erase, Finset.mem_union]
      split_ifs with hid
      · exact .inr (.inr hid)
      · exact .inl hitem
  | rebuild _ order =>
    have hreb := rebuild_rebuilds cfg w.store order
    refine .inl ⟨hlasts, fun id item hitem => ?_, fun id item hitem => ?_⟩
    · rw [hreb.items] at hitem
      split_ifs at hitem
      exact hitem
    · rw [hreb.items, hreb.tombstones]
      split_ifs with hdead
      · exact .inr hdead
      · exact .inl hitem
  | put item s hput => exact .inr (.inl ⟨item, s, rfl, hput, rfl⟩)
  | restore order b => exact .inr (.inr ⟨order, b, rfl, rfl⟩)

theorem Step.calms (h : Step cfg w e w') (he : e.disturbs = false) : w.Calms cfg w' := by
  obtain hcalms | ⟨_, _, rfl, -⟩ | ⟨_, _, rfl, -⟩ := h.calms_or
  · exact hcalms
  · cases he
  · cases he

end Calms

/-- The items that a history names are the versions that were served. -/
def Histories.Noted (h : Histories) (items : GoMap GoString Item) (served : List (PrincipalKey × Item)) : Prop :=
  ∀ key entries, h.lookup key = some entries → ∀ entry ∈ entries, ∀ id ∈ entry, ∃ item, items.lookup id = some item ∧
    (key, item) ∈ served

section Noted

variable {h : Histories} {items items' : GoMap GoString Item} {served : List (PrincipalKey × Item)}

section

variable (hh : h.Noted items served)
include hh

theorem Histories.Noted.mono {served' : List (PrincipalKey × Item)} (hsub : served ⊆ served') :
    h.Noted items served' := by
  intro key entries hkey entry hentry id hid
  obtain ⟨item, hitem, hserved⟩ := hh key entries hkey entry hentry id hid
  exact ⟨item, hitem, hsub hserved⟩

/-- Items may be added. -/
theorem Histories.Noted.add
    (hitems : ∀ id item, items.lookup id = some item → items'.lookup id = some item) : h.Noted items' served := by
  intro key entries hkey entry hentry id hid
  obtain ⟨item, hitem, hserved⟩ := hh key entries hkey entry hentry id hid
  exact ⟨item, hitems id item hitem, hserved⟩

theorem Histories.Noted.without {gone : Finset GoString}
    (hitems : ∀ id ∉ gone, items'.lookup id = items.lookup id) : (h.without gone).Noted items' served := by
  refine Histories.All.without hh fun key id hgone hid => ?_
  rw [hitems id hgone]
  exact hid

theorem Histories.Noted.append {key : PrincipalKey} {entry : List GoString}
    (hentry : ∀ id ∈ entry, ∃ item, items.lookup id = some item ∧ (key, item) ∈ served) :
    (h.append key entry).Noted items served :=
  Histories.All.append hh hentry

end

theorem noted_empty : (∅ : Histories).Noted items served := by
  intro key entries hkey
  simp at hkey

end Noted

/-- The candidates that the index gives for a query. -/
def Indexed (cfg : Config) (s : Store) (query : GoString) (ids : List GoString) : Prop :=
  ∀ id, id ∈ ids ↔ ∃ t ∈ tokenize cfg query, id ∈ s.index.under t

structure World.Remembers (cfg : Config) (w : World) : Prop where
  exact : w.Exact cfg
  cache : ∀ key ids, w.store.cache.lookup key = some ids → Indexed cfg w.store key.query ids
  sessions : w.store.sessions.Noted w.store.items w.served
  replay : w.store.replay.Noted w.store.items w.served

section Remembers

variable {cfg : Config} {w w' : World}

theorem indexed_candidatesOf (s : Store) (query : GoString) :
    Indexed cfg s query (candidatesOf s.index (tokenize cfg query)) := by
  intro id
  rw [candidatesOf, mem_sortedSet, Finset.mem_biUnion]
  simp

/-- An index that is exact lists what is left of the items. -/
theorem Indexed.calm (h : w.Calms cfg w') (hw : w.Exact cfg) {query : GoString} {ids : List GoString}
    (hids : Indexed cfg w.store query ids) :
    Indexed cfg w'.store query (ids.filter (· ∉ w'.store.tombstones.keys)) := by
  have hw' := h.lasts.exact hw
  intro id
  rw [mem_filter, hids id, decide_eq_true_eq]
  constructor
  · rintro ⟨⟨t, ht, hid⟩, hlive⟩
    obtain ⟨item, hitem, hterm⟩ := (hw.store.index t id).mp hid
    exact ⟨t, ht, (hw'.store.index t id).mpr ⟨item, (h.erased id item hitem).resolve_right hlive, hterm⟩⟩
  · rintro ⟨t, ht, hid⟩
    obtain ⟨item, hitem, hterm⟩ := (hw'.store.index t id).mp hid
    refine ⟨⟨t, ht, (hw.store.index t id).mpr ⟨item, h.kept id item hitem, hterm⟩⟩, fun hdead => ?_⟩
    rw [hw'.store.items id hdead] at hitem
    cases hitem

theorem World.Remembers.put (hw : w.Remembers cfg) {item : Item} {s : Store} (hput : w.store.put cfg item = some s) :
    ({ w with store := s } : World).Remembers cfg := by
  have hputs := puts_of_put hput
  have hsame : ∀ id, id ≠ item.id → s.items.lookup id = w.store.items.lookup id := by
    intro id hid
    rw [hputs.items, lookup_insert_eq, if_neg hid]
  -- A history that is not scrubbed does not name the id, which is new.
  have hhistory : ∀ h h' : Histories, h.Noted w.store.items w.served →
      h' = (if item.id ∈ w.store.items.keys then h.without {item.id} else h) → h'.Noted s.items w.served := by
    rintro h h' hh rfl
    split_ifs with hold
    · exact hh.without fun id hid => hsame id (by simpa using hid)
    · refine hh.add fun id item' hitem' => ?_
      rw [hsame id fun heq => hold (heq ▸ mem_keys_of_lookup hitem')]
      exact hitem'
  refine ⟨⟨hw.exact.store.put hputs, hw.exact.authority⟩, fun key ids hkey => ?_, ?_, ?_⟩
  · rw [show ({ w with store := s } : World).store.cache = ∅ from hputs.cache] at hkey
    simp at hkey
  · exact hhistory _ _ hw.sessions hputs.sessions
  · exact hhistory _ _ hw.replay hputs.replay

theorem Step.remembers {e : Effect} (h : Step cfg w e w') (hw : w.Remembers cfg) : w'.Remembers cfg := by
  have hexact := h.lasts.exact hw.exact
  cases h with
  | same => exact hw
  | tick _ now | directory _ d raised | authority _ a d raised keyed | fence scopes owners lifting =>
    exact ⟨hexact, hw.cache, hw.sessions, hw.replay⟩
  | put item s hput => exact hw.put hput
  | restore order b =>
    have hrest := restore_restores cfg w.store order b
    refine ⟨hexact, fun key ids hkey => ?_, ?_, ?_⟩
    · rw [hrest.cache] at hkey
      simp at hkey
    · rw [hrest.sessions]
      exact noted_empty
    · rw [hrest.replay]
      exact noted_empty
  | erase e reason now ids =>
    have hsame : ∀ id ∉ ids.toFinset, (w.store.erase reason now ids).items.lookup id = w.store.items.lookup id :=
      fun id hid => by rw [items_erase, if_neg hid]
    refine ⟨hexact, fun key entry hkey => ?_, hw.sessions.without hsame, hw.replay.without hsame⟩
    simp only [Store.erase, lookup_filterMap, Option.bind_eq_some_iff] at hkey
    obtain ⟨old, hold, heq⟩ := hkey
    cases heq
    intro id
    simp only [Store.erase, Store.removeIndexed, Postings.mem_drop, mem_filter, hw.cache key old hold id]
    simp only [decide_eq_true_eq, mem_toFinset]
    constructor
    · rintro ⟨⟨t, ht, hid⟩, hgone⟩
      exact ⟨t, ht, hid, hgone⟩
    · rintro ⟨t, ht, hid, hgone⟩
      exact ⟨⟨t, ht, hid⟩, hgone⟩
  | rebuild e order =>
    have hreb := rebuild_rebuilds cfg w.store order
    have hitems : ∀ id item, w.store.items.lookup id = some item →
      (w.store.rebuild cfg order).items.lookup id = some item := by
      intro id item hitem
      rw [hreb.items]
      split_ifs with hdead
      · rw [hw.exact.store.items id hdead] at hitem
        cases hitem
      · exact hitem
    refine ⟨hexact, fun key ids hkey => ?_, ?_, ?_⟩
    · rw [hreb.cache] at hkey
      simp at hkey
    · rw [hreb.sessions]
      exact hw.sessions.add hitems
    · rw [hreb.replay]
      exact hw.replay.add hitems

/-- What is left of the items that a query found and let through. -/
theorem World.Remembers.record (hw : w.Remembers cfg) (hw' : w'.Remembers cfg) (hcalms : w.Calms cfg w')
    (key : CacheKey) {allowed : List Item}
    (hallow : ∀ item ∈ allowed, w.store.items.lookup item.id = some item) :
    let found := w.store.queryCandidates cfg key
    ({ w' with
      store := w'.store.record key found.2 found.1 (allowed.map Item.id)
      served := w'.served ++ allowed.map fun item => (key.principal, item) } : World).Remembers cfg := by
  intro found
  have hserved : ∀ id ∈ w'.store.withoutTombstoned (allowed.map Item.id), ∃ item, w'.store.items.lookup id = some item ∧
      (key.principal, item) ∈ w'.served ++ allowed.map fun item => (key.principal, item) := by
    intro id hid
    obtain ⟨hid, hlive⟩ := mem_filter.mp hid
    obtain ⟨item, hitem, rfl⟩ := mem_map.mp hid
    refine ⟨item, (hcalms.erased item.id item (hallow item hitem)).resolve_right (by simpa using hlive), ?_⟩
    exact mem_append_right _ (mem_map.mpr ⟨item, hitem, rfl⟩)
  refine ⟨⟨hw'.exact.store.record key _ _ _, hw'.exact.authority⟩, fun key' ids hkey => ?_, ?_, ?_⟩
  · simp only [Store.record] at hkey
    split at hkey
    · exact hw'.cache key' ids hkey
    · next hmiss =>
      rw [lookup_insert_eq] at hkey
      split_ifs at hkey with heq
      · cases hkey
        subst heq
        have hfound : Indexed cfg w.store key'.query found.1 := by
          simp only [found, Store.queryCandidates] at hmiss ⊢
          split
          · next hit => simp [hit] at hmiss
          · exact indexed_candidatesOf w.store key'.query
        exact hfound.calm hcalms hw.exact
      · exact hw'.cache key' ids hkey
  · exact (hw'.sessions.mono (subset_append_left _ _)).append hserved
  · exact (hw'.replay.mono (subset_append_left _ _)).append hserved

end Remembers

/-- The reads that use or write the cache and the histories. -/
def Request.remembers : Request → Bool
  | .query .. | .history _ | .replay _ => true
  | _ => false

/-- From its second section on, such a read relies on items being at most erased. -/
def versioned (cfg : Config) : Routine.Discipline Request World where
  inv := World.Remembers cfg
  ok _ _ := True
  rely _ q n w w' := q.remembers = true → 2 ≤ n → w.Calms cfg w'
  guar _ q w w' := q.effect.disturbs = false → w.Calms cfg w'

/-- What a read may return: candidates from the cache are those of the index at some moment of the call, and what a
history names was served to the same incarnation in that version. -/
def Faithful (cfg : Config) (q : Request) (result : Result) (seen : List World) : Prop :=
  ∀ r, result = .reading r →
    (∀ p text, q = .query p text → r.fromCache = true → ∃ m ∈ seen, Indexed cfg m.store text r.candidates) ∧
    ∀ p, q = .history p ∨ q = .replay p → ∀ item ∈ r.items, ∃ m ∈ seen, (r.key, item) ∈ m.served

section Calls

variable {cfg : Config} {p : Principal} {key : PrincipalKey} {q : Request} {valid : Bool}
  {find : PrincipalKey → Store → List GoString × Bool} {callID : ℕ} {w : World}

theorem allowed_versioned (callID : ℕ) (q : Request) : Allowed cfg ((versioned cfg).contract callID q) q.effect :=
  fun _ _ hstep hw _ => ⟨hstep.remembers hw, hstep.calms⟩

/-- An item that a read lets through is the one that was there when it found its candidates. -/
theorem found_of_rechecked {w : World} {old new : List World} (hw : w.Exact cfg)
    (hgrows : Routine.Grows (World.Calms cfg) (w :: old) (new ++ w :: old))
    {candidates : List GoString} {items : List Item} {epoch : ℕ} (hr : Rechecked p key candidates items epoch new)
    {item : Item} (hitem : item ∈ items) : item.id ∈ candidates ∧ w.store.items.lookup item.id = some item := by
  obtain ⟨id, hid, m, hm, hlive⟩ := hr.live hitem
  have hcalms := hgrows.since (fun _ _ _ => .trans) m hm
  obtain rfl := live_id (hcalms.lasts.exact hw) hlive
  refine ⟨hid, hcalms.kept _ item ?_⟩
  unfold Store.live at hlive
  split_ifs at hlive
  exact hlive

theorem query_faithful (p : Principal) (text : GoString) :
    (query cfg p text).Ensures ((versioned cfg).contract callID (.query p text))
      (fun _ => Faithful cfg (.query p text)) 0 [w] := by
  have hrely : ∀ n, 2 ≤ n → ∀ w w', ((versioned cfg).contract callID (.query p text)).rely n w w' → w.Calms cfg w' :=
    fun n hn w w' h => h rfl hn
  have hguar : ∀ w w', ((versioned cfg).contract callID (.query p text)).guar w w' → w.Calms cfg w' :=
    fun w w' h => h rfl
  refine readWith_ensures (fun w _ => .refl w) (fun _ _ _ r h => by cases h) (World.Calms cfg)
    hrely hguar fun key w old items epoch n new hw _ hn hchk hgrows => ?_
  refine .atomic fun w' h' hgrows' hw' _ _ => ⟨?_, fun _ => ?_, ?_⟩
  · have hcalms := (hgrows.trans (hgrows'.mono (hrely n hn))).head .refl fun _ _ _ => .trans
    exact hw.record hw' hcalms ⟨key, text⟩ fun item hitem => (found_of_rechecked hw.exact hgrows hchk hitem).2
  · exact .of_items (record_lasts w' _ _ _ _ _) rfl
  · intro r hr
    cases hr
    refine ⟨fun p' text' hq hcached => ?_, fun p' hq => by rcases hq with hq | hq <;> cases hq⟩
    cases hq
    obtain ⟨top, htop⟩ := hgrows'.suffix
    refine ⟨w, by simp [htop], ?_⟩
    simp only [Store.queryCandidates] at hcached ⊢
    split
    · next ids hit => exact hw.cache ⟨key, text⟩ ids hit
    · next hmiss => simp [hmiss] at hcached

/-- A read of the ids of a history. -/
theorem readWith_noted (hq : q.remembers = true) (hplain : q.effect.disturbs = false)
     (hnoquery : ∀ p text, q ≠ .query p text)
    (hfind : ∀ key (w : World), w.Remembers cfg → ∀ id ∈ (find key w.store).1,
      ∃ item, w.store.items.lookup id = some item ∧ (key, item) ∈ w.served) :
    (readWith cfg p valid find fun _ _ => auditRead).Ensures ((versioned cfg).contract callID q)
      (fun _ => Faithful cfg q) 0 [w] := by
  have hguar : ∀ w, ((versioned cfg).contract callID q).guar w w := fun w _ => .refl w
  refine readWith_ensures hguar (fun _ _ _ r h => by cases h) (World.Calms cfg) (fun n hn w w' h => h hq hn)
    (fun w w' h => h hplain) fun key w old items epoch n new hw _ hn hchk hgrows => ?_
  refine .reads hguar fun w' h' hgrows' _ r hr => ?_
  cases hr
  refine ⟨fun p' text hquery => absurd hquery (hnoquery p' text), fun _ _ item hitem => ?_⟩
  obtain ⟨hcand, hthere⟩ := found_of_rechecked hw.exact hgrows hchk hitem
  obtain ⟨item', hthere', hserved⟩ := hfind key w hw item.id hcand
  rw [hthere] at hthere'
  cases hthere'
  obtain ⟨top, htop⟩ := hgrows'.suffix
  exact ⟨w, by simp [htop], hserved⟩

/-- The other reads have nothing to answer for. -/
theorem readWith_unversioned (hq : q.remembers = false) (hplain : q.effect.disturbs = false) :
    (readWith cfg p valid find fun _ _ => auditRead).Ensures ((versioned cfg).contract callID q)
      (fun _ => Faithful cfg q) 0 [w] := by
  have hguar : ∀ w, ((versioned cfg).contract callID q).guar w w := fun w _ => .refl w
  refine readWith_ensures hguar (fun _ _ _ r h => by cases h) (fun _ _ => True) (fun _ _ _ _ _ => trivial)
    (fun _ _ _ => trivial) fun key w old items epoch n new hw _ hn hchk hgrows => ?_
  refine .reads hguar fun w' h' hgrows' _ r hr => ⟨fun p' text hquery => ?_, fun p' hhistory => ?_⟩
  · subst hquery
    cases hq
  · rcases hhistory with rfl | rfl <;> cases hq

theorem noted_ids {h : Histories} {items : GoMap GoString Item} {served : List (PrincipalKey × Item)}
    (hh : h.Noted items served) {id : GoString} (hid : id ∈ h.ids key) :
    ∃ item, items.lookup id = some item ∧ (key, item) ∈ served := by
  rw [Histories.ids, mem_eraseDups, mem_flatten] at hid
  obtain ⟨entry, hentry, hid⟩ := hid
  cases hlookup : h.lookup key with
  | none => simp [hlookup] at hentry
  | some entries =>
    rw [hlookup, Option.getD_some] at hentry
    exact hh key entries hlookup entry hentry id hid

theorem routine_faithful (cfg : Config) : Routine.Keeps (routine cfg) (versioned cfg) (Faithful cfg) := by
  intro callID q w hw
  -- A call that is no read has nothing to answer for.
  have hvac : q.isRead = false → Completes ((versioned cfg).contract callID q) (routine cfg callID q) 0 [w] →
      (routine cfg callID q).Ensures ((versioned cfg).contract callID q) (fun _ => Faithful cfg q) 0 [w] := by
    intro hread hcomp
    refine hcomp.mono fun _ _ _ _ r _ => ⟨fun p text hq => ?_, fun p hq => ?_⟩
    · subst hq
      cases hread
    · rcases hq with rfl | rfl <;> cases hread
  cases q with
  | query p text => exact query_faithful p text
  | history p =>
    simp only [routine, history]
    exact readWith_noted rfl rfl (fun _ _ h => by cases h) fun key w hw id hid => noted_ids hw.sessions hid
  | replay p =>
    simp only [routine, replay]
    refine readWith_noted rfl rfl (fun _ _ h => by cases h) fun key w hw id hid => noted_ids hw.replay ?_
    exact (perm_sortStrings _).mem_iff.mp hid
  | searchClaims | graph =>
    simp only [routine, searchClaims, graph]
    exact readWith_unversioned rfl rfl
  | _ => exact hvac rfl (change_completes (allowed_versioned callID _) callID rfl)

end Calls

/-- No `Put` and no `Restore` runs while a query, a history or a replay is under way that has found its candidates. -/
def Undisturbed (sys : Routine.System Request (List GoString) World Result) :
    Routine.Event Request (List GoString) → Prop
  | .call _ => True
  | .resume n _ => ∀ f ∈ sys.flights[n]?, f.request.effect.disturbs = true →
      ∀ g ∈ sys.flights.eraseIdx n, g.request.remembers = true → g.ran < 2

instance (sys : Routine.System Request (List GoString) World Result) :
    ∀ e : Routine.Event Request (List GoString), Decidable (Undisturbed sys e)
  | .call _ => isTrue trivial
  | .resume n _ => inferInstanceAs (Decidable (∀ f ∈ sys.flights[n]?, f.request.effect.disturbs = true →
      ∀ g ∈ sys.flights.eraseIdx n, g.request.remembers = true → g.ran < 2))

theorem tolerant_versioned (cfg : Config) : Routine.Tolerant Undisturbed (versioned cfg) := by
  refine ⟨fun _ _ _ _ _ _ => trivial, fun sys n i f hC hf s' hguar g hg _ hremembers hran => ?_⟩
  refine hguar (Bool.eq_false_iff.mpr fun hdisturbs => ?_)
  exact absurd (hC f hf hdisturbs g hg hremembers) (Nat.not_lt.mpr hran)

theorem remembers_start (now : Int) (cfg : Config) : (World.new now).Remembers cfg :=
  ⟨exact_start now, fun key ids h => by simp [World.new, Store.new] at h, noted_empty, noted_empty⟩

/-- Cached candidates and histories do not outlive the items they came from, in every interleaving in which nothing is
put or restored while a query, a history or a replay that has found its candidates is under way: a query answered from
the cache uses the candidates that the index gives at some moment of the call, and a history or a replay returns an item
only in a version that a query returned to the same incarnation of the principal. -/
theorem remembered_versions (cfg : Config) (now : Int) (es : List (Routine.Event Request (List GoString)))
    (hes : Schedule.Meets (Routine.System.step (routine cfg)) Undisturbed (Routine.System.start (World.new now)) es)
    (q : Request) (r : Reading) (seen : List World)
    (hreturn : ⟨q, .reading r, seen⟩ ∈ ((Routine.System.start (World.new now)).run (routine cfg) es).returns) :
    (∀ p text, q = .query p text → r.fromCache = true →
      ∃ m ∈ seen, ∀ id, id ∈ r.candidates ↔ ∃ t ∈ tokenize cfg text, id ∈ m.store.index.under t) ∧
    ∀ p, q = .history p ∨ q = .replay p → ∀ item ∈ r.items, ∃ m ∈ seen, (r.key, item) ∈ m.served :=
  (Routine.System.Sound.run (routine_faithful cfg) (tolerant_versioned cfg) (remembers_start now cfg) hes).returned _
    hreturn r rfl

/-- An item is put while a query has found no candidates; the query then writes that to the cache. -/
def sampleStale : List (Routine.Event Request (List GoString)) :=
  alone (.provision (lit "u")) 1 ++ alone (.query samplePrincipal (lit "go")) 2 ++
    ([.call (.put (sampleItem "x" "go")), .resume 1 []] : List (Routine.Event Request (List GoString))) ++
    List.replicate 6 (.resume 0 []) ++ alone (.query samplePrincipal (lit "go")) 8

/-- An item is replaced between the last check of a query and the section in which it notes what it served. -/
def sampleReplaced : List (Routine.Event Request (List GoString)) :=
  sampleSetup ++ alone (.query samplePrincipal (lit "go")) 16 ++
    ([.call (.put (sampleItem "x" "go two")), .resume 1 [], .resume 0 []] :
      List (Routine.Event Request (List GoString))) ++
    alone (.history samplePrincipal) 17

def Result.candidates : Result → Option (Bool × List GoString)
  | .reading r => some (r.fromCache, r.candidates)
  | _ => none

/-- A query is answered from the cache with no candidates although the index lists the item in every state it overlaps,
and a history returns a version that no query has returned. -/
theorem remembered_versions_disturbed :
    (∃ r ∈ ((Routine.System.start (World.new 0)).run (routine sampleConfig) sampleStale).returns,
      r.request = .query samplePrincipal (lit "go") ∧ r.result.candidates = some (true, []) ∧
        ∀ m ∈ r.seen, lit "x" ∈ m.store.index.under (lit "go")) ∧
    ∃ r ∈ ((Routine.System.start (World.new 0)).run (routine sampleConfig) sampleReplaced).returns,
      r.request = .history samplePrincipal ∧ r.result.items = [sampleItem "x" "go two"] ∧
        ∀ m ∈ r.seen, ∀ served ∈ m.served, served.2 ≠ sampleItem "x" "go two" := by
  decide +kernel

def sampleHistory : List (Routine.Event Request (List GoString)) :=
  sampleSetup ++ alone (.query samplePrincipal (lit "go")) 17 ++ alone (.history samplePrincipal) 17

theorem remembered_versions_alone :
    ∃ key seen, (∃ r, ⟨.history samplePrincipal, .reading r, seen⟩ ∈
        ((Routine.System.start (World.new 0)).run (routine sampleConfig) sampleHistory).returns ∧ r.key = key) ∧
      ∃ m ∈ seen, (key, sampleItem "x" "go") ∈ m.served := by
  have hret : ∃ r ∈ ((Routine.System.start (World.new 0)).run (routine sampleConfig) sampleHistory).returns,
      r.request = .history samplePrincipal ∧ r.result.items = [sampleItem "x" "go"] := by decide +kernel
  obtain ⟨⟨q, result, seen⟩, hmem, hreq, hitems⟩ := hret
  subst hreq
  cases result with
  | reading r =>
    have hversions := (remembered_versions sampleConfig 0 sampleHistory (by decide +kernel) _ r seen hmem).2
    refine ⟨r.key, seen, ⟨r, hmem, rfl⟩, hversions samplePrincipal (.inl rfl) _ ?_⟩
    rw [show r.items = _ from hitems]
    exact mem_singleton_self _
  | _ => cases hitems

end CodeMemory.Orgscope
