import CodeMemory.ContextPack.Pack
import CodeMemory.Lib.Schedule

/-! References of a session to what it was given before. They are right as long as the
content of a range does not change and no call limits its tokens: the reference of a range
is not renewed with its content, and its key does not know the tokens that were left. -/

namespace CodeMemory.ContextPack

open Lib Lib.GoString Lib.GoMap List

/-- A session: its ledger, the items it was given, and the sources of all requests. -/
structure Session where
  registry : Registry
  log : List PackedItem
  given : List Source

namespace Session

def start : Session := ⟨newRegistry, [], []⟩

def step (sha256 : GoString → GoString) (fl : Floats) (s : Session) (call : Request × Option Governor) : Session :=
  let p := pack sha256 call.1 fl (some s.registry) call.2
  ⟨p.registry.getD s.registry, s.log ++ p.items, s.given ++ call.1.sources⟩

end Session

/-- What the references say: an earlier item has the reference and carries what this one would have carried, and no
other content has it. -/
structure Honest (log : List PackedItem) : Prop where
  refers : ∀ earlier item later, log = earlier ++ item :: later → item.dedup = true → ∃ e ∈ earlier, e.dedup = false ∧
    e.ref = item.ref
  agrees : ∀ e ∈ log, ∀ item ∈ log, e.dedup = false → e.ref = item.ref → e.content = item.carried
  carries : ∀ item ∈ log, item.dedup = false → item.content = item.carried

def Source.SameRange (a b : Source) : Prop := a.path = b.path ∧ a.startLine = b.startLine ∧ a.endLine = b.endLine

def Unchanged (given : List Source) : Prop := ∀ a ∈ given, ∀ b ∈ given, a.SameRange b → a.content = b.content

/-- The call does not limit its tokens, and no range of it had another content before. -/
def Steady (s : Session) (call : Request × Option Governor) : Prop :=
  call.1.budget.maxTokens ≤ 0 ∧ Unchanged (s.given ++ call.1.sources)

def Carries (given : List Source) (k : Key) (carried : GoString) : Prop :=
  ∃ s ∈ given, ∃ (mode : GoString) (alloc : ℤ),
    k = ⟨s.path, s.startLine, s.endLine, mode ++ lit ":" ++ Decimal.intText alloc⟩ ∧
      carried = (cut (render s.content mode) alloc).1

theorem variant_inj {mode mode' : GoString} {alloc alloc' : ℤ}
    (h : mode ++ lit ":" ++ Decimal.intText alloc = mode' ++ lit ":" ++ Decimal.intText alloc') :
    mode = mode' ∧ alloc = alloc' := by
  have hcolon : lit ":" = [0x3A] := by decide
  have hcount : ∀ n : ℤ, (Decimal.intText n).count 0x3A = 0 := fun n => Fields.count_intText (by decide) (by decide) n
  rw [hcolon, append_assoc, append_assoc] at h
  have hcounts := congrArg (List.count 0x3A) h
  simp only [count_append, hcount] at hcounts
  obtain ⟨hmode, halloc⟩ := Fields.append_cons_inj_of_count (by omega) h
  exact ⟨hmode, Fields.intText_injective halloc⟩

/-- The key determines the content. -/
theorem Carries.eq {given : List Source} (hgiven : Unchanged given) {k : Key} {carried carried' : GoString}
    (h : Carries given k carried) (h' : Carries given k carried') : carried = carried' := by
  obtain ⟨s, hs, mode, alloc, rfl, rfl⟩ := h
  obtain ⟨s', hs', mode', alloc', hk, rfl⟩ := h'
  simp only [Key.mk.injEq] at hk
  obtain ⟨hpath, hstart, hend, hvariant⟩ := hk
  obtain ⟨rfl, rfl⟩ := variant_inj hvariant
  rw [hgiven s hs s' hs' ⟨hpath, hstart, hend⟩]

theorem dedupRef_injective : Function.Injective dedupRef :=
  fun _ _ h => Fields.natText_injective (append_cancel_left h)

/-- The ledger stands for the items. -/
structure Tracks (given : List Source) (r : Registry) (log : List PackedItem) : Prop where
  below : ∀ k n, r.byKey.lookup k = some n → n ≤ r.seq
  inj : ∀ k k' n, r.byKey.lookup k = some n → r.byKey.lookup k' = some n → k = k'
  emitted : ∀ item ∈ log, ∃ n, r.byKey.lookup item.handle.key = some n ∧ item.ref = dedupRef n ∧
    Carries given item.handle.key item.carried
  latest : ∀ k f, r.latest.lookup k = some f → ∃ item ∈ log, item.dedup = false ∧ item.handle.key = k
  carries : ∀ item ∈ log, item.dedup = false → item.content = item.carried
  refers : ∀ earlier item later, log = earlier ++ item :: later → item.dedup = true → ∃ e ∈ earlier, e.dedup = false ∧
    e.ref = item.ref

section Tracks

variable {given : List Source} {r : Registry} {log : List PackedItem}

theorem Tracks.honest (hgiven : Unchanged given) (h : Tracks given r log) : Honest log := by
  refine ⟨h.refers, fun e he item hitem hdedup href => ?_, h.carries⟩
  obtain ⟨n, hn, hrefn, hcarr⟩ := h.emitted e he
  obtain ⟨m, hm, hrefm, hcarr'⟩ := h.emitted item hitem
  obtain rfl : n = m := dedupRef_injective (hrefn.symm.trans (href.trans hrefm))
  rw [h.carries e he hdedup, hcarr.eq hgiven (h.inj _ _ n hn hm ▸ hcarr')]

theorem Tracks.issue (h : Tracks given r log) (handle : Handle) : Tracks given (r.issue handle) log :=
  ⟨h.below, h.inj, h.emitted, h.latest, h.carries, h.refers⟩

theorem Tracks.mono {given' : List Source} (h : Tracks given r log) (hsub : given ⊆ given') : Tracks given' r log := by
  refine { h with emitted := fun item hitem => ?_ }
  obtain ⟨n, hn, href, s, hs, hcarr⟩ := h.emitted item hitem
  exact ⟨n, hn, href, s, hsub hs, hcarr⟩

/-- One more item at the end. -/
theorem refers_concat {item : PackedItem} (h : ∀ earlier item later, log = earlier ++ item :: later →
    item.dedup = true → ∃ e ∈ earlier, e.dedup = false ∧ e.ref = item.ref)
    (hitem : item.dedup = true → ∃ e ∈ log, e.dedup = false ∧ e.ref = item.ref) :
    ∀ earlier item' later, log ++ [item] = earlier ++ item' :: later → item'.dedup = true →
      ∃ e ∈ earlier, e.dedup = false ∧ e.ref = item'.ref := by
  intro earlier item' later heq hdedup
  rcases eq_nil_or_concat' later with rfl | ⟨later, last, rfl⟩
  · obtain ⟨rfl, hlast⟩ := append_inj' heq rfl
    obtain rfl := singleton_inj.mp hlast
    exact hitem hdedup
  · rw [← cons_append, ← append_assoc] at heq
    exact h earlier item' later (append_inj' heq rfl).1 hdedup

/-- The ledger after one more emission. -/
theorem Tracks.track (h : Tracks given r log) (item : PackedItem) (hcarr : Carries given item.handle.key item.carried)
    (hdedup : item.dedup = (r.track item.handle.key item.handle.fingerprint).1)
    (href : item.ref = (r.track item.handle.key item.handle.fingerprint).2.1)
    (hcont : item.dedup = false → item.content = item.carried) :
    Tracks given (r.track item.handle.key item.handle.fingerprint).2.2 (log ++ [item]) := by
  have hkeeps : ∀ item' ∈ log ++ [item], item'.dedup = false → item'.content = item'.carried :=
    forall_mem_append.mpr ⟨h.carries, forall_mem_singleton.mpr hcont⟩
  unfold Registry.track at hdedup href ⊢
  by_cases hseen : r.latest.lookup item.handle.key = some item.handle.fingerprint
  · simp only [if_pos hseen] at hdedup href ⊢
    obtain ⟨e, he, hfirst, hkey⟩ := h.latest _ _ hseen
    obtain ⟨n, hn, hrefn, -⟩ := h.emitted e he
    rw [hkey] at hn
    rw [hn, Option.getD_some] at href
    refine ⟨h.below, h.inj, ?_, fun k f hk => ?_, hkeeps, refers_concat h.refers fun _ =>
      ⟨e, he, hfirst, hrefn.trans href.symm⟩⟩
    · exact forall_mem_append.mpr ⟨h.emitted, forall_mem_singleton.mpr ⟨n, hn, href, hcarr⟩⟩
    · obtain ⟨e, he, hrest⟩ := h.latest k f hk
      exact ⟨e, mem_append_left _ he, hrest⟩
  · simp only [if_neg hseen] at hdedup href ⊢
    generalize hordinal : (r.byKey.lookup item.handle.key).getD (r.seq + 1) = ordinal at href ⊢
    -- The ordinal is the old one of the key, or new.
    have hold : ∀ n, r.byKey.lookup item.handle.key = some n → ordinal = n := by
      intro n hn
      rw [← hordinal, hn, Option.getD_some]
    have hone : ∀ k n, r.byKey.lookup k = some n → n = ordinal → k = item.handle.key := by
      rintro k n hk rfl
      cases hmine : r.byKey.lookup item.handle.key with
      | some m => exact h.inj _ _ m (hold m hmine ▸ hk) hmine
      | none =>
        rw [hmine, Option.getD_none] at hordinal
        have := h.below k n hk
        omega
    refine ⟨fun k n hk => ?_, fun k k' n hk hk' => ?_, ?_, fun k f hk => ?_, hkeeps,
      refers_concat h.refers fun htrue => by rw [hdedup] at htrue; cases htrue⟩
    · rw [lookup_insert_eq] at hk
      split_ifs at hk with heq
      · rw [← Option.some.inj hk, ← hordinal]
        cases hmine : r.byKey.lookup item.handle.key with
        | none => exact le_refl _
        | some m => exact (h.below _ m hmine).trans (Nat.le_succ _)
      · exact (h.below k n hk).trans (Nat.le_succ _)
    · rw [lookup_insert_eq] at hk hk'
      split_ifs at hk hk' with heq heq' heq'
      · rw [heq, heq']
      · rw [heq]
        exact (hone k' n hk' (Option.some.inj hk).symm).symm
      · rw [heq']
        exact hone k n hk (Option.some.inj hk').symm
      · exact h.inj k k' n hk hk'
    · refine forall_mem_append.mpr ⟨fun e he => ?_, forall_mem_singleton.mpr ⟨ordinal, ?_, href, hcarr⟩⟩
      · obtain ⟨n, hn, hrefn, hcarr'⟩ := h.emitted e he
        refine ⟨n, ?_, hrefn, hcarr'⟩
        rw [lookup_insert_eq]
        split_ifs with heq
        · rw [hold n (heq ▸ hn)]
        · exact hn
      · exact Finmap.lookup_insert _
    · rw [lookup_insert_eq] at hk
      split_ifs at hk with heq
      · exact ⟨item, mem_append_right _ (mem_singleton_self _), hdedup, heq.symm⟩
      · obtain ⟨e, he, hrest⟩ := h.latest k f hk
        exact ⟨e, mem_append_left _ he, hrest⟩

end Tracks

section Calls

variable {sha256 : GoString → GoString} {fl : Floats} {q : Request} {given : List Source} {log : List PackedItem}
  {p : Packing}

/-- The ledger of the loop stands for the items so far. -/
def Loop (given : List Source) (log : List PackedItem) (p : Packing) : Prop :=
  ∃ r, p.registry = some r ∧ Tracks given r (log ++ p.items)

theorem Loop.packOne (h : Loop given log p) (hlimit : q.budget.maxTokens ≤ 0) {c : Candidate} (alloc : ℤ)
    (hsrc : c.source ∈ given) (hrendered : c.rendered = render c.source.content q.mode) :
    Loop given log (packOne sha256 q p (c, alloc)) := by
  obtain ⟨r, hr, htracks⟩ := h
  rcases packOne_cases sha256 q p c alloc with ⟨governor, o, -, -, -, hp⟩ | ⟨governor, limit, hroom, -, -, hp⟩
  · rw [hp]
    exact ⟨_, by rw [hr]; rfl, htracks.issue _⟩
  · rw [itemLimit, if_neg (not_lt.mpr hlimit), Option.some.injEq] at hroom
    generalize hhandle : newHandle sha256 (q.key c alloc) c.source.content = handle at hp
    have hcarr : Carries given handle.key (cut c.rendered limit).1 :=
      ⟨c.source, hsrc, q.mode, alloc, by rw [← hhandle]; rfl, by rw [hrendered, hroom]⟩
    rw [hp, hr]
    refine ⟨_, rfl, ?_⟩
    have hnext := (htracks.issue handle).track
      (packedItem (some (r.issue handle)) c handle (cut c.rendered limit).1 (cut c.rendered limit).2) hcarr rfl rfl
      fun hfirst => if_neg (Bool.not_eq_true _ ▸ hfirst)
    rwa [append_assoc] at hnext

theorem Loop.foldl (sha256 : GoString → GoString) (h : Loop given log p) (hlimit : q.budget.maxTokens ≤ 0)
    (cas : List (Candidate × ℤ))
    (hcas : ∀ ca ∈ cas, ca.1.source ∈ given ∧ ca.1.rendered = render ca.1.source.content q.mode) :
    Loop given log (cas.foldl (ContextPack.packOne sha256 q) p) := by
  induction cas generalizing p with
  | nil => exact h
  | cons ca cas ih =>
    obtain ⟨hca, hrest⟩ := forall_mem_cons.mp hcas
    exact ih (h.packOne hlimit ca.2 hca.1 hca.2) hrest

theorem mem_ordered {c : Candidate} (h : c ∈ q.ordered) : c.source ∈ q.sources ∧
    c.rendered = render c.source.content q.mode := by
  obtain ⟨s, hs, rfl⟩ := mem_map.mp h
  exact ⟨fst_mem_of_mem_zipIdx ((mem_insertionSort _).mp hs), rfl⟩

theorem tracks_step {s : Session} (h : Tracks s.given s.registry s.log) (call : Request × Option Governor)
    (hcall : Steady s call) :
    Tracks (s.step sha256 fl call).given (s.step sha256 fl call).registry (s.step sha256 fl call).log := by
  have hstart : Loop (s.given ++ call.1.sources) s.log ⟨some s.registry, call.2, [], [], 0, 0, 0, 0, 0⟩ := by
    refine ⟨_, rfl, ?_⟩
    rw [append_nil]
    exact h.mono (subset_append_left _ _)
  obtain ⟨r, hr, htracks⟩ := hstart.foldl sha256 hcall.1 (call.1.ordered.zip (call.1.allocations fl)) fun ca hca => by
    obtain ⟨hsrc, hrendered⟩ := mem_ordered (of_mem_zip hca).1
    exact ⟨mem_append_right _ hsrc, hrendered⟩
  have hreg : (s.step sha256 fl call).registry = r := by
    rw [Session.step, pack, hr, Option.getD_some]
  rw [hreg]
  exact htracks

end Calls

/-- In every session whose calls meet the condition, the references are right. -/
theorem references_honest (sha256 : GoString → GoString) (fl : Floats) (calls : List (Request × Option Governor))
    (h : Schedule.Meets (Session.step sha256 fl) Steady Session.start calls) :
    Honest (calls.foldl (Session.step sha256 fl) Session.start).log := by
  have hstart : Tracks Session.start.given Session.start.registry Session.start.log ∧
    Unchanged Session.start.given := by
    refine ⟨⟨?_, ?_, ?_, ?_, ?_, ?_⟩, ?_⟩ <;> simp [Session.start, newRegistry, Unchanged]
  have hall := h.keeps (P := fun s => Tracks s.given s.registry s.log ∧ Unchanged s.given)
    (fun s call hcall hs => ⟨tracks_step hs.1 call hcall, hcall.2⟩) hstart
  exact hall.1.honest hall.2

def sampleSource (path : String) (content : String) (score : ℚ) : Source := ⟨lit path, 1, 3, lit content, score, false⟩

/-- The content of a range changes. -/
def driftingSession : Session :=
  [(⟨[sampleSource "a" "x" 1], ⟨0, 0⟩, [], 0⟩, none), (⟨[sampleSource "a" "y" 1], ⟨0, 0⟩, [], 0⟩, none)].foldl
    (Session.step id .exact) Session.start

def tokenRequest (maxTokens : ℤ) : Request :=
  ⟨[sampleSource "b" "bbbb" 1, sampleSource "a" "x\ny\nz" 0], ⟨0, maxTokens⟩, [], 0⟩

/-- The same range is packed with few tokens left and then with many. -/
def tokenSession : Session :=
  [(tokenRequest 2, none), (tokenRequest 10, none)].foldl (Session.step id .exact) Session.start

/-- One reference for two contents, and a reference to an item that carried less. -/
theorem references_mislead :
    (driftingSession.log.map fun item => (item.ref, item.dedup, item.content)) =
      [(lit "d1", false, lit "x"), (lit "d1", false, lit "y")] ∧
    (tokenSession.log.map fun item => (item.ref, item.dedup, item.carried)) =
      [(lit "d1", false, lit "bbbb"), (lit "d2", false, lit "x\ny"), (lit "d1", true, lit "bbbb"),
        (lit "d2", true, lit "x\ny\nz")] := by
  decide +kernel

theorem references_honest_twice :
    (([(⟨[sampleSource "a" "x" 1], ⟨0, 0⟩, [], 0⟩, none), (⟨[sampleSource "a" "x" 2], ⟨0, 0⟩, [], 0⟩, none)].foldl
      (Session.step id .exact) Session.start).log.map (·.dedup)) = [false, true] ∧
    Honest ([(⟨[sampleSource "a" "x" 1], ⟨0, 0⟩, [], 0⟩, none), (⟨[sampleSource "a" "x" 2], ⟨0, 0⟩, [], 0⟩, none)].foldl
      (Session.step id .exact) Session.start).log := by
  refine ⟨by decide +kernel, references_honest id .exact _ ⟨⟨le_refl _, ?_⟩, ⟨le_refl _, ?_⟩, trivial⟩⟩
  · simp [Unchanged, Session.start, sampleSource]
  · simp [Unchanged, Session.step, Session.start, sampleSource]

end CodeMemory.ContextPack
