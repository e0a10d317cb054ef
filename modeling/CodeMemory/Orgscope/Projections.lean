import CodeMemory.Orgscope.Store

/-! The projections of the store are exact: the two indexes list an item under its terms
and nothing else, and no tombstoned id is anywhere. Each section keeps that. -/

namespace CodeMemory.Orgscope

open Lib Lib.GoString Lib.GoMap List

/-- Entries that are added unless their key is there. -/
theorem mem_keys_addNew {α V : Type} (key : α → GoString) (value : α → V) (l : List α) (m : GoMap GoString V)
    (k : GoString) :
    k ∈ (l.foldl (fun m x => if key x ∈ m.keys then m else m.insert (key x) (value x)) m).keys ↔
      k ∈ m.keys ∨ k ∈ l.map key := by
  induction l generalizing m with
  | nil => simp
  | cons x l ih =>
    rw [foldl_cons, ih, map_cons, mem_cons]
    split_ifs with hx
    · constructor
      · rintro (hk | hk)
        · exact .inl hk
        · exact .inr (.inr hk)
      · rintro (hk | rfl | hk)
        · exact .inl hk
        · exact .inl hx
        · exact .inr hk
    · rw [Finmap.mem_keys, Finmap.mem_insert, Finmap.mem_keys]
      tauto

/-- Every id that an entry of the history names satisfies the predicate. -/
def Histories.All (h : Histories) (P : PrincipalKey → GoString → Prop) : Prop :=
  ∀ key entries, h.lookup key = some entries → ∀ entry ∈ entries, ∀ id ∈ entry, P key id

variable {h : Histories} {P : PrincipalKey → GoString → Prop} {entry : List GoString}

theorem Histories.All.without {Q : PrincipalKey → GoString → Prop} (hh : h.All P)
    {gone : Finset GoString} (hPQ : ∀ key, ∀ id ∉ gone, P key id → Q key id) : (h.without gone).All Q := by
  intro key entries hkey entry hentry id hid
  rw [Histories.without, lookup_filterMap, Option.bind_eq_some_iff] at hkey
  obtain ⟨old, hold, heq⟩ := hkey
  cases heq
  obtain ⟨entry', hentry', rfl⟩ := mem_map.mp hentry
  obtain ⟨hid, hgone⟩ := mem_filter.mp hid
  exact hPQ key id (by simpa using hgone) (hh key old hold entry' hentry' id hid)

theorem Histories.All.append (hh : h.All P) {key : PrincipalKey}
    (hentry : ∀ id ∈ entry, P key id) : (h.append key entry).All P := by
  intro key' entries hkey entry' hentry' id hid
  rw [Histories.append, lookup_insert_eq] at hkey
  split_ifs at hkey with heq
  · cases hkey
    rw [heq]
    rcases mem_append.mp hentry' with hold | hnew
    · cases hlookup : h.lookup key with
      | none => simp [hlookup] at hold
      | some old =>
        rw [hlookup, Option.getD_some] at hold
        exact hh key old hlookup entry' hold id hid
    · obtain rfl := mem_singleton.mp hnew
      exact hentry id hid
  · exact hh key' entries hkey entry' hentry' id hid

/-- No entry of the history names one of the ids. -/
def Histories.Avoids (h : Histories) (ids : Finset GoString) : Prop :=
  ∀ key entries, h.lookup key = some entries → ∀ entry ∈ entries, ∀ id ∈ entry, id ∉ ids

variable {ids : Finset GoString}

theorem Histories.Avoids.without (hh : h.Avoids ids) (gone : Finset GoString) :
    (h.without gone).Avoids (ids ∪ gone) := by
  refine Histories.All.without (P := fun _ id => id ∉ ids) hh fun _ id hgone hid => ?_
  rw [Finset.mem_union, not_or]
  exact ⟨hid, hgone⟩

theorem Histories.Avoids.mono {ids' : Finset GoString} (hh : h.Avoids ids) (hsub : ids' ⊆ ids) : h.Avoids ids' :=
  fun key entries hkey entry hentry id hid hmem => hh key entries hkey entry hentry id hid (hsub hmem)

theorem Histories.Avoids.append (hh : h.Avoids ids) (key : PrincipalKey)
    (hentry : ∀ id ∈ entry, id ∉ ids) : (h.append key entry).Avoids ids :=
  Histories.All.append (P := fun _ id => id ∉ ids) hh hentry

theorem avoids_empty (ids : Finset GoString) : (∅ : Histories).Avoids ids := by
  intro key entries hkey
  simp at hkey

def termsOf (cfg : Config) (item : Item) : List GoString := tokenize cfg item.text

structure Store.Exact (cfg : Config) (s : Store) : Prop where
  keyed : ∀ id item, s.items.lookup id = some item → item.id = id
  items : ∀ id ∈ s.tombstones.keys, s.items.lookup id = none
  index : Postings.Exact (termsOf cfg) s.items s.index
  claims : Postings.Exact (termsOf cfg) s.items s.claims
  graph : ∀ id ∈ s.graph, id ∉ s.tombstones.keys
  cache : ∀ key ids, s.cache.lookup key = some ids → ∀ id ∈ ids, id ∉ s.tombstones.keys
  sessions : s.sessions.Avoids s.tombstones.keys
  replay : s.replay.Avoids s.tombstones.keys

section Sections

variable {cfg : Config} {s : Store}

theorem exact_new : Store.new.Exact cfg where
  keyed id item h := by simp [Store.new] at h
  items id h := by simp [Store.new] at h
  index := Postings.exact_empty
  claims := Postings.exact_empty
  graph id h := by simp [Store.new] at h
  cache key ids h := by simp [Store.new] at h
  sessions := avoids_empty _
  replay := avoids_empty _

/-- What `Put` makes of the store. -/
structure Store.Puts (cfg : Config) (s : Store) (item : Item) (s' : Store) : Prop where
  fresh : item.id ∉ s.tombstones.keys
  unfenced : ∀ k : Fence, k.covers item = true → s.fenced k = false
  tombstones : s'.tombstones = s.tombstones
  items : s'.items = s.items.insert item.id item
  index : s'.index = (s.index.drop {item.id}).addAll item.id (termsOf cfg item)
  claims : s'.claims = (s.claims.drop {item.id}).addAll item.id (termsOf cfg item)
  graph : s'.graph = insert item.id (s.graph \ {item.id})
  cache : s'.cache = ∅
  sessions : s'.sessions = if item.id ∈ s.items.keys then s.sessions.without {item.id} else s.sessions
  replay : s'.replay = if item.id ∈ s.items.keys then s.replay.without {item.id} else s.replay
  fences : ∀ k, s'.fenced k = s.fenced k

variable {item : Item} {s' : Store}

theorem puts_of_put (h : s.put cfg item = some s') : s.Puts cfg item s' := by
  unfold Store.put at h
  split at h
  · cases h
  · next hopen =>
    cases h
    refine ⟨fun hdead => hopen (.inl hdead), fun k hk => ?_, ?_, ?_, ?_, ?_, ?_, ?_, ?_, ?_, fun k => ?_⟩
    · cases k with
      | scope target => exact decide_eq_false fun hfenced => hopen (.inr (.inl (of_decide_eq_true hk ▸ hfenced)))
      | owner userID => exact decide_eq_false fun hfenced => hopen (.inr (.inr (of_decide_eq_true hk ▸ hfenced)))
    all_goals split <;> rfl

theorem Store.Exact.put (hs : s.Exact cfg) (h : s.Puts cfg item s') : s'.Exact cfg where
  keyed id item' hitem' := by
    rw [h.items, lookup_insert_eq] at hitem'
    split_ifs at hitem' with heq
    · cases hitem'
      exact heq.symm
    · exact hs.keyed id item' hitem'
  items id hdead := by
    rw [h.tombstones] at hdead
    have hne : id ≠ item.id := fun heq => h.fresh (heq ▸ hdead)
    rw [h.items, lookup_insert_eq, if_neg hne]
    exact hs.items id hdead
  index := by
    rw [h.items, h.index]
    exact hs.index.replace item.id item
  claims := by
    rw [h.items, h.claims]
    exact hs.claims.replace item.id item
  graph id hid := by
    rw [h.tombstones]
    rw [h.graph, Finset.mem_insert, Finset.mem_sdiff] at hid
    rcases hid with rfl | ⟨hid, -⟩
    · exact h.fresh
    · exact hs.graph id hid
  cache key ids hkey := by
    rw [h.cache] at hkey
    simp at hkey
  sessions := by
    rw [h.sessions, h.tombstones]
    split
    · exact (hs.sessions.without _).mono Finset.subset_union_left
    · exact hs.sessions
  replay := by
    rw [h.replay, h.tombstones]
    split
    · exact (hs.replay.without _).mono Finset.subset_union_left
    · exact hs.replay

theorem tombstones_erase (reason : GoString) (now : Int) (ids : List GoString) :
    (s.erase reason now ids).tombstones.keys = s.tombstones.keys ∪ ids.toFinset := by
  ext id
  rw [Finset.mem_union, mem_toFinset]
  have hkeys := mem_keys_addNew (fun id : GoString => id) (fun id => (⟨id, reason, some now⟩ : Tombstone))
    ids s.tombstones id
  rwa [map_id'] at hkeys

theorem items_erase (reason : GoString) (now : Int) (ids : List GoString) (id : GoString) :
    (s.erase reason now ids).items.lookup id = if id ∈ ids.toFinset then none else s.items.lookup id := by
  simp only [Store.erase, lookup_filterKeys, decide_eq_true_eq, mem_toFinset, ite_not]

theorem Store.Exact.erase (hs : s.Exact cfg) (reason : GoString) (now : Int) (ids : List GoString) :
    (s.erase reason now ids).Exact cfg where
  keyed id item h := by
    rw [items_erase] at h
    split_ifs at h
    exact hs.keyed id item h
  items id hdead := by
    rw [tombstones_erase, Finset.mem_union] at hdead
    rw [items_erase]
    split_ifs with hid
    · rfl
    · exact hs.items id (hdead.resolve_right hid)
  index := hs.index.drop (items_erase reason now ids)
  claims := hs.claims.drop (items_erase reason now ids)
  graph id hid := by
    obtain ⟨hid, hgone⟩ := Finset.mem_sdiff.mp hid
    rw [tombstones_erase, Finset.mem_union, not_or]
    exact ⟨hs.graph id hid, hgone⟩
  cache key entry hkey id hid := by
    simp only [Store.erase, lookup_filterMap, Option.bind_eq_some_iff] at hkey
    obtain ⟨old, hold, heq⟩ := hkey
    cases heq
    obtain ⟨hid, hgone⟩ := mem_filter.mp hid
    rw [tombstones_erase, Finset.mem_union, not_or, mem_toFinset]
    exact ⟨hs.cache key old hold id hid, by simpa using hgone⟩
  sessions := by
    rw [tombstones_erase]
    exact hs.sessions.without ids.toFinset
  replay := by
    rw [tombstones_erase]
    exact hs.replay.without ids.toFinset

/-- What the loop over the items adds to the projections. -/
structure Store.Indexes (cfg : Config) (items : GoMap GoString Item) (ids : List GoString) (s s' : Store) : Prop where
  index : ∀ t d, d ∈ s'.index.under t ↔
    d ∈ s.index.under t ∨ d ∈ ids ∧ ∃ item, items.lookup d = some item ∧ t ∈ termsOf cfg item
  claims : ∀ t d, d ∈ s'.claims.under t ↔
    d ∈ s.claims.under t ∨ d ∈ ids ∧ ∃ item, items.lookup d = some item ∧ t ∈ termsOf cfg item
  graph : ∀ d ∈ s'.graph, d ∈ s.graph ∨ d ∈ items.keys
  rest : s' = { s with index := s'.index, claims := s'.claims, graph := s'.graph }

theorem indexAll_indexes (items : GoMap GoString Item) (ids : List GoString) (s : Store) :
    s.Indexes cfg items ids (s.indexAll cfg items ids) := by
  induction ids generalizing s with
  | nil => exact ⟨by simp [Store.indexAll], by simp [Store.indexAll], fun d hd => .inl hd, rfl⟩
  | cons id ids ih =>
    unfold Store.indexAll
    cases hitem : items.lookup id with
    | none =>
      -- An id without an item adds nothing.
      have hnone : ∀ t d, (d ∈ id :: ids ∧ ∃ item, items.lookup d = some item ∧ t ∈ termsOf cfg item) ↔
          d ∈ ids ∧ ∃ item, items.lookup d = some item ∧ t ∈ termsOf cfg item := by
        intro t d
        constructor
        · rintro ⟨hd, item, hlookup, ht⟩
          rcases mem_cons.mp hd with rfl | hd
          · rw [hitem] at hlookup
            cases hlookup
          · exact ⟨hd, item, hlookup, ht⟩
        · rintro ⟨hd, hitem⟩
          exact ⟨mem_cons_of_mem id hd, hitem⟩
      exact ⟨fun t d => by rw [hnone, (ih s).index], fun t d => by rw [hnone, (ih s).claims], (ih s).graph, (ih s).rest⟩
    | some item =>
      have hsome : ∀ t d (P : Prop), ((P ∨ d = id ∧ t ∈ termsOf cfg item) ∨
          d ∈ ids ∧ ∃ item, items.lookup d = some item ∧ t ∈ termsOf cfg item) ↔
          P ∨ d ∈ id :: ids ∧ ∃ item, items.lookup d = some item ∧ t ∈ termsOf cfg item := by
        intro t d P
        rw [mem_cons]
        constructor
        · rintro ((h | ⟨rfl, ht⟩) | ⟨hd, hitem⟩)
          · exact .inl h
          · exact .inr ⟨.inl rfl, item, hitem, ht⟩
          · exact .inr ⟨.inr hd, hitem⟩
        · rintro (h | ⟨rfl | hd, item', hlookup, ht⟩)
          · exact .inl (.inl h)
          · rw [hitem] at hlookup
            cases hlookup
            exact .inl (.inr ⟨rfl, ht⟩)
          · exact .inr ⟨hd, item', hlookup, ht⟩
      have hrest := ih (s.indexItem cfg id item)
      refine ⟨fun t d => ?_, fun t d => ?_, fun d hd => ?_, ?_⟩
      · rw [hrest.index, ← hsome]
        exact or_congr_left Postings.mem_addAll
      · rw [hrest.claims, ← hsome]
        exact or_congr_left Postings.mem_addAll
      · rcases hrest.graph d hd with hd | hd
        · rcases Finset.mem_insert.mp hd with rfl | hd
          · exact .inr (mem_keys_of_lookup hitem)
          · exact .inl hd
        · exact .inr hd
      · exact hrest.rest

/-- What `rebuildProjectionsLocked` makes of the store. -/
structure Store.Rebuilds (cfg : Config) (s s' : Store) : Prop where
  items : ∀ id, s'.items.lookup id = if id ∈ s.tombstones.keys then none else s.items.lookup id
  index : Postings.Exact (termsOf cfg) s'.items s'.index
  claims : Postings.Exact (termsOf cfg) s'.items s'.claims
  graph : ∀ id ∈ s'.graph, id ∈ s'.items.keys
  cache : s'.cache = ∅
  sessions : s'.sessions = s.sessions
  replay : s'.replay = s.replay
  tombstones : s'.tombstones = s.tombstones
  fences : ∀ k, s'.fenced k = s.fenced k

theorem rebuild_rebuilds (cfg : Config) (s : Store) (order : List GoString) : s.Rebuilds cfg (s.rebuild cfg order) := by
  let items := filterKeys (· ∉ s.tombstones.keys) s.items
  let empty : Store := { s with items := items, index := ∅, claims := ∅, graph := ∅, cache := ∅ }
  have hloop : empty.Indexes cfg items (iterated order items) (s.rebuild cfg order) := indexAll_indexes _ _ _
  have hitems : (s.rebuild cfg order).items = items := by rw [hloop.rest]
  -- The loop passes every item.
  have hall : ∀ t d, (d ∈ iterated order items ∧ ∃ item, items.lookup d = some item ∧ t ∈ termsOf cfg item) ↔
      ∃ item, items.lookup d = some item ∧ t ∈ termsOf cfg item := by
    intro t d
    refine and_iff_right_of_imp ?_
    rintro ⟨item, hitem, -⟩
    exact mem_iterated.mpr (mem_keys_of_lookup hitem)
  refine ⟨fun id => ?_, fun t d => ?_, fun t d => ?_, fun id hid => ?_, ?_, ?_, ?_, ?_, fun k => ?_⟩
  · rw [hitems, lookup_filterKeys]
    simp only [decide_eq_true_eq, ite_not]
  · rw [hloop.index, hall, hitems]
    simp [empty]
  · rw [hloop.claims, hall, hitems]
    simp [empty]
  · rw [hitems]
    exact (hloop.graph id hid).resolve_left (Finset.notMem_empty id)
  · rw [hloop.rest]
  · rw [hloop.rest]
  · rw [hloop.rest]
  · rw [hloop.rest]
  · rw [hloop.rest]
    cases k <;> rfl

/-- The projections are made anew from the items; the items that are tombstoned go. -/
theorem Store.Exact.of_rebuilds (hkeyed : ∀ id item, s.items.lookup id = some item → item.id = id)
    (hsessions : s.sessions.Avoids s.tombstones.keys) (hreplay : s.replay.Avoids s.tombstones.keys)
    (h : s.Rebuilds cfg s') : s'.Exact cfg where
  keyed id item hitem := by
    rw [h.items] at hitem
    split_ifs at hitem
    exact hkeyed id item hitem
  items id hdead := by
    rw [h.tombstones] at hdead
    rw [h.items, if_pos hdead]
  index := h.index
  claims := h.claims
  graph id hid hdead := by
    obtain ⟨item, hitem⟩ := mem_keys_iff.mp (h.graph id hid)
    rw [h.tombstones] at hdead
    rw [h.items, if_pos hdead] at hitem
    cases hitem
  cache key ids hkey := by
    rw [h.cache] at hkey
    simp at hkey
  sessions := by
    rw [h.sessions, h.tombstones]
    exact hsessions
  replay := by
    rw [h.replay, h.tombstones]
    exact hreplay

theorem Store.Exact.rebuild (hs : s.Exact cfg) (order : List GoString) : (s.rebuild cfg order).Exact cfg :=
  .of_rebuilds hs.keyed hs.sessions hs.replay (rebuild_rebuilds _ _ order)

variable {dead : Finset GoString} {items : List Item} {m : GoMap GoString Item} {id : GoString}

/-- The items of a backup that are not tombstoned, under their ids. -/
theorem mem_restored
    (h : (items.foldl (fun m item => if item.id ∈ dead then m else m.insert item.id item) m).lookup id = some item) :
    m.lookup id = some item ∨ item ∈ items ∧ item.id = id ∧ id ∉ dead := by
  induction items generalizing m with
  | nil => exact .inl h
  | cons item' items ih =>
    rw [foldl_cons] at h
    rcases ih h with hm | ⟨hmem, hid⟩
    · split_ifs at hm with hdead
      · exact .inl hm
      · rw [lookup_insert_eq] at hm
        split_ifs at hm with heq
        · cases hm
          exact .inr ⟨mem_cons_self, heq.symm, heq ▸ hdead⟩
        · exact .inl hm
    · exact .inr ⟨mem_cons_of_mem item' hmem, hid⟩

theorem exists_restored (h : (∃ item, m.lookup id = some item) ∨ (∃ item ∈ items, item.id = id) ∧ id ∉ dead) :
    ∃ item, (items.foldl (fun m item => if item.id ∈ dead then m else m.insert item.id item) m).lookup id =
      some item := by
  induction items generalizing m with
  | nil => simpa using h
  | cons item' items ih =>
    rw [foldl_cons]
    apply ih
    by_cases hid : item'.id = id
    · by_cases hdead : id ∈ dead
      · rw [if_pos (hid ▸ hdead)]
        exact .inl (h.resolve_right fun h => h.2 hdead)
      · rw [if_neg (hid ▸ hdead)]
        exact .inl ⟨item', by rw [lookup_insert_eq, if_pos hid.symm]⟩
    · have hstays : (if item'.id ∈ dead then m else m.insert item'.id item').lookup id = m.lookup id := by
        split_ifs
        · rfl
        · rw [lookup_insert_eq, if_neg fun heq => hid heq.symm]
      rw [hstays]
      refine h.imp_right fun hmem => ⟨?_, hmem.2⟩
      obtain ⟨item, hitem, rfl⟩ := hmem.1
      rcases mem_cons.mp hitem with rfl | hitem
      · exact absurd rfl hid
      · exact ⟨item, hitem, rfl⟩

/-- What `Restore` makes of the store. -/
structure Store.Restores (cfg : Config) (s : Store) (b : Backup) (s' : Store) : Prop where
  exact : s'.Exact cfg
  tombstones : ∀ id, id ∈ s'.tombstones.keys ↔ id ∈ s.tombstones.keys ∨ id ∈ b.tombstones.map Tombstone.itemID
  items : ∀ id item, s'.items.lookup id = some item → item ∈ b.items ∧ item.id = id
  present : ∀ id, (∃ item ∈ b.items, item.id = id) → id ∉ s'.tombstones.keys → ∃ item, s'.items.lookup id = some item
  cache : s'.cache = ∅
  sessions : s'.sessions = ∅
  replay : s'.replay = ∅
  fences : ∀ k, s'.fenced k = s.fenced k

theorem restore_restores (cfg : Config) (s : Store) (order : List GoString) (b : Backup) :
    s.Restores cfg b (s.restore cfg order b) := by
  let tombstones := b.tombstones.foldl (fun stones t =>
    if t.itemID ∈ stones.keys then stones else stones.insert t.itemID t) s.tombstones
  let items : GoMap GoString Item := b.items.foldl (fun items item =>
    if item.id ∈ tombstones.keys then items else items.insert item.id item) ∅
  let base : Store := { s with tombstones := tombstones, items := items, sessions := ∅, replay := ∅ }
  have hreb : base.Rebuilds cfg (s.restore cfg order b) := rebuild_rebuilds cfg base order
  have hitems : ∀ id item, items.lookup id = some item → item ∈ b.items ∧ item.id = id := by
    intro id item h
    rcases mem_restored h with hempty | hmem
    · simp at hempty
    · exact ⟨hmem.1, hmem.2.1⟩
  refine ⟨?_, fun id => ?_, fun id item h => ?_, fun id hid hlive => ?_, hreb.cache, hreb.sessions,
    hreb.replay, fun k => ?_⟩
  · exact .of_rebuilds (fun id item h => (hitems id item h).2) (avoids_empty _) (avoids_empty _) hreb
  · rw [hreb.tombstones]
    exact mem_keys_addNew Tombstone.itemID (fun t => t) b.tombstones s.tombstones id
  · rw [hreb.items] at h
    split_ifs at h
    exact hitems id item h
  · rw [hreb.tombstones] at hlive
    rw [hreb.items, if_neg hlive]
    exact exists_restored (.inr ⟨hid, hlive⟩)
  · rw [hreb.fences]
    cases k <;> rfl

theorem Store.Exact.fence (hs : s.Exact cfg) (scopes : Finset Scope) (owners : Finset GoString) :
    ({ s with erasingScopes := scopes, erasingOwners := owners } : Store).Exact cfg :=
  ⟨hs.keyed, hs.items, hs.index, hs.claims, hs.graph, hs.cache, hs.sessions, hs.replay⟩

/-- A query writes back what is not tombstoned by then. -/
theorem Store.Exact.record (hs : s.Exact cfg) (key : CacheKey) (fromCache : Bool) (candidates ids : List GoString) :
    (s.record key fromCache candidates ids).Exact cfg := by
  have hwithout : ∀ (ids : List GoString), ∀ id ∈ s.withoutTombstoned ids, id ∉ s.tombstones.keys := by
    intro ids id hid
    simpa using (mem_filter.mp hid).2
  refine ⟨hs.keyed, hs.items, hs.index, hs.claims, hs.graph, fun key' entry hkey => ?_, ?_, ?_⟩
  · simp only [Store.record] at hkey
    split at hkey
    · exact hs.cache key' entry hkey
    · rw [lookup_insert_eq] at hkey
      split_ifs at hkey
      · cases hkey
        exact hwithout candidates
      · exact hs.cache key' entry hkey
  · exact hs.sessions.append key.principal (hwithout ids)
  · exact hs.replay.append key.principal (hwithout ids)

end Sections

end CodeMemory.Orgscope
