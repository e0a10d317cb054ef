import CodeMemory.Lib.Overflow
import CodeMemory.SessionLog.Compaction

/-! The summary of a session: what applying its events one by one gives, and `Rebuild`,
which validates and applies the events a log retains. A fold adds up the counters of the
events it replaces, so the totals of the retained events are those of every event ever
appended, up to the keys that the fold writes itself. -/

namespace CodeMemory.SessionLog

open Lib Lib.GoString Lib.Decimal Lib.Overflow Lib.GoMap List

/-- A path and a range that were seen. -/
structure ReadPointer where
  path : GoString
  range : Range
  deriving DecidableEq

structure Summary where
  session : GoString
  eventCounts : GoMap GoString Int64
  totals : GoMap GoString Int64
  readRanges : List ReadPointer
  changedFiles : List GoString
  failures : List GoString
  coverageWarnings : List GoString
  lastFreshness : Freshness
  started : Bool
  completed : Bool
  firstTime : GoString
  lastTime : GoString

def maxSummaryFailures : ℕ := 64

def maxSummaryWarnings : ℕ := 64

/-- Some more at the end of a list of bounded length. -/
def appendBounded {α : Type} (bound : ℕ) (xs more : List α) : List α :=
  more.foldl (fun xs x => if xs.length < bound then xs ++ [x] else xs) xs

/-- One more at the end of a list unless it is there. -/
def appendNew {α : Type} [DecidableEq α] (xs : List α) (x : α) : List α := if x ∈ xs then xs else xs ++ [x]

/-- `for k, v := range counts { totals[k] += v }`. -/
def addCounts (totals counts : GoMap GoString Int64) : GoMap GoString Int64 :=
  update (fun _ v old => old.getD 0 + v) totals counts

namespace Summary

/-- The summary under construction; the sets of its builder hold what its two lists of pointers and files list. -/
def new : Summary := ⟨[], ∅, ∅, [], [], [], [], .unset, false, false, [], []⟩

def apply (s : Summary) (ev : Event) : Summary where
  session := if s.session = [] then ev.session else s.session
  firstTime := if s.firstTime = [] ∨ (ev.time ≠ [] ∧ strLt ev.time s.firstTime) then ev.time else s.firstTime
  lastTime := if strLt s.lastTime ev.time then ev.time else s.lastTime
  eventCounts := s.eventCounts.insert ev.kind.text ((s.eventCounts.lookup ev.kind.text).getD 0 + 1)
  totals := addCounts s.totals ev.counts
  readRanges := if ev.provenance.path ≠ [] ∧ ev.provenance.range ≠ ⟨0, 0⟩ then
      appendNew s.readRanges ⟨ev.provenance.path, ev.provenance.range⟩ else s.readRanges
  changedFiles := if (ev.kind = .edit ∨ ev.kind = .refresh) ∧ ev.provenance.path ≠ [] then
      appendNew s.changedFiles ev.provenance.path else s.changedFiles
  failures := if ev.kind = .failure ∧ ev.freeText ≠ [] then
      appendBounded maxSummaryFailures s.failures [ev.freeText] else s.failures
  started := if ev.kind = .taskStart then true else s.started
  completed := if ev.kind = .completion then true else s.completed
  coverageWarnings := appendBounded maxSummaryWarnings s.coverageWarnings ev.coverageWarnings
  lastFreshness := if ev.kind ≠ .compaction ∧ ev.freshness ≠ .unset then ev.freshness else s.lastFreshness

/-- The order of the pointers: by path, then by range. -/
def pointerLe (p q : ReadPointer) : Bool :=
  if p.path ≠ q.path then strLe p.path q.path
  else if p.range.start ≠ q.range.start then p.range.start ≤ q.range.start
  else p.range.stop ≤ q.range.stop

/-- `canonicalCounts` copies the two maps; the pointers, files and warnings are sorted. -/
def finalize (s : Summary) : Summary :=
  { s with
    readRanges := s.readRanges.insertionSort fun p q => pointerLe p q = true
    changedFiles := sortStrings s.changedFiles
    coverageWarnings := sortStrings s.coverageWarnings }

end Summary

namespace Runtime

variable (rt : Runtime)

def replay : List Event → Summary → Except LogError Summary
  | [], s => .ok s
  | ev :: events, s => do
    ev.validate rt.timeOk
    replay events (s.apply ev)

def rebuild (events : List Event) : Except LogError Summary := do
  let s ← rt.replay events .new
  .ok s.finalize

end Runtime

/-- The summary kept while the events come in. -/
def Summary.live (events : List Event) : Summary := (events.foldl Summary.apply .new).finalize

def Event.count (k : GoString) (e : Event) : Int64 := (e.counts.lookup k).getD 0

/-- What the events count under a key, without overflow. -/
def total (k : GoString) (events : List Event) : ℤ := (events.map fun e => (e.count k).toInt).sum

@[simp] theorem total_nil (k : GoString) : total k [] = 0 := rfl

@[simp] theorem total_cons (k : GoString) (e : Event) (events : List Event) :
    total k (e :: events) = (e.count k).toInt + total k events := rfl

@[simp] theorem total_append (k : GoString) (events events' : List Event) :
    total k (events ++ events') = total k events + total k events' := by
  simp [total]

theorem lookup_addCounts (totals counts : GoMap GoString Int64) (k : GoString) :
    ((addCounts totals counts).lookup k).getD 0 = (totals.lookup k).getD 0 + (counts.lookup k).getD 0 := by
  rw [addCounts, lookup_update]
  cases counts.lookup k with
  | none => exact (Int64.add_zero _).symm
  | some v => rfl

theorem totals_apply (s : Summary) (ev : Event) (k : GoString) :
    (((s.apply ev).totals.lookup k).getD 0).toInt ≡ ((s.totals.lookup k).getD 0).toInt + (ev.count k).toInt
      [ZMOD 2 ^ 64] := by
  rw [Summary.apply, lookup_addCounts]
  exact int64_add_modEq _ _

theorem totals_foldl (events : List Event) (s : Summary) (k : GoString) :
    (((events.foldl Summary.apply s).totals.lookup k).getD 0).toInt ≡
      ((s.totals.lookup k).getD 0).toInt + total k events [ZMOD 2 ^ 64] := by
  induction events generalizing s with
  | nil => simp
  | cons ev events ih =>
    refine (ih (s.apply ev)).trans ?_
    rw [total_cons, ← add_assoc]
    exact (totals_apply s ev k).add_right _

theorem totals_live (events : List Event) (k : GoString) :
    (((Summary.live events).totals.lookup k).getD 0).toInt ≡ total k events [ZMOD 2 ^ 64] := by
  have h := totals_foldl events .new k
  have hzero : ((Summary.new.totals.lookup k).getD 0).toInt = 0 := rfl
  rw [hzero, zero_add] at h
  exact h

def kindKey (kind : Kind) : GoString := kind.text ++ lit "_events"

/-- The keys that a fold writes itself. -/
def reservedKeys : List GoString := lit "folded_events" :: lit "folded_bytes" :: Kind.allKinds.map kindKey

theorem ne_kindKey {k : GoString} (hk : k ∉ reservedKeys) {e : Event} (he : e.kind.valid = true) :
    k ≠ kindKey e.kind := by
  rintro rfl
  refine hk (.tail _ (.tail _ ?_))
  exact mem_map_of_mem (of_decide_eq_true he)

theorem total_tally {k : GoString} (hk : k ∉ reservedKeys) {src : List Event} (hsrc : ∀ e ∈ src, e.kind.valid = true) :
    (((tally src).lookup k).getD 0).toInt ≡ total k src [ZMOD 2 ^ 64] := by
  induction src using List.reverseRecOn with
  | nil => rfl
  | append_singleton src e ih =>
    obtain ⟨hsrc, he⟩ := forall_mem_append.mp hsrc
    have hne := ne_kindKey hk (he e (mem_singleton_self e))
    have hlast : tally (src ++ [e]) = addCounts ((tally src).insert (kindKey e.kind)
        (((tally src).lookup (kindKey e.kind)).getD 0 + 1)) e.counts := foldl_concat ..
    rw [hlast, lookup_addCounts, lookup_insert_eq, if_neg hne, total_append, total_cons, total_nil, add_zero]
    exact (int64_add_modEq _ _).trans ((ih hsrc).add_right _)

namespace Runtime

variable {rt : Runtime} {limit : Limit} {src events : List Event} {k now : GoString}

theorem count_compactionFrom (hk : k ∉ reservedKeys)
    (hsrc : ∀ e ∈ src, e.kind.valid = true) (now session : GoString) :
    ((rt.compactionFrom src now session).count k).toInt ≡ total k src [ZMOD 2 ^ 64] := by
  have hevents : k ≠ lit "folded_events" := fun h => hk (h ▸ (.head _))
  have hbytes : k ≠ lit "folded_bytes" := fun h => hk (h ▸ .tail _ (.head _))
  simp only [Event.count, compactionFrom, lookup_insert_eq, if_neg hevents, if_neg hbytes]
  exact total_tally hk hsrc

theorem total_renumber (k : GoString) (events : List Event) : total k (rt.renumber events) = total k events := by
  rw [total, map_renumber (fun _ _ _ => rfl), total]

/-- One append adds the counters of its event, folded or not. -/
theorem total_nextEvents (hk : k ∉ reservedKeys)
    (hevents : ∀ e ∈ events, e.kind.valid = true) {ev : Event} (hev : ev.kind.valid = true) (now : GoString) :
    total k (rt.nextEvents limit events ev now) ≡ total k events + (ev.count k).toInt [ZMOD 2 ^ 64] := by
  have hnext : ∀ e ∈ events ++ [rt.sealEvent (UInt64.ofNat (events.length + 1)) now ev], e.kind.valid = true :=
    forall_mem_append.mpr ⟨hevents, forall_mem_singleton.mpr hev⟩
  have htotal : total k (events ++ [rt.sealEvent (UInt64.ofNat (events.length + 1)) now ev]) =
      total k events + (ev.count k).toInt := by
    rw [total_append, total_cons, total_nil, add_zero]
    rfl
  rw [← htotal]
  simp only [nextEvents]
  split_ifs with hover
  · -- what is dropped from the front is counted in the fold
    generalize events ++ [rt.sealEvent (UInt64.ofNat (events.length + 1)) now ev] = next at hnext ⊢
    generalize next.length - limit.maxEvents + 1 = overflow
    rw [total_renumber, total_cons]
    nth_rewrite 3 [← take_append_drop overflow next]
    rw [total_append]
    exact (count_compactionFrom hk (fun e he => hnext e (mem_of_mem_take he)) now ev.session).add_right _
  · rfl

/-- A bound on the reading of a clock: RFC 3339 with nanoseconds and a zone offset. -/
def maxTimeBytes : ℕ := 35

/-- What `Validate` asks of an event, apart from what `Sound` says. -/
structure Brief (e : Event) : Prop where
  freeText : e.freeText.length ≤ maxFreeTextBytes
  time : e.time.length ≤ maxTimeBytes

theorem length_foldl_time {replaces : GoString → Event → Prop} [∀ t e, Decidable (replaces t e)]
    (h : ∀ e ∈ src, e.time.length ≤ maxTimeBytes) :
    (src.foldl (fun t e => if replaces t e then e.time else t) []).length ≤ maxTimeBytes := by
  refine List.foldlRecOn (motive := fun t : GoString => t.length ≤ maxTimeBytes) src _ (Nat.zero_le _)
    fun t ht e he => ?_
  split_ifs
  · exact h e he
  · exact ht

theorem brief_compactionFrom (hlen : src.length < 10 ^ 20) (h : ∀ e ∈ src, e.time.length ≤ maxTimeBytes)
    (hnow : now.length ≤ maxTimeBytes) (session : GoString) : Brief (rt.compactionFrom src now session) := by
  refine ⟨?_, hnow⟩
  have hdigits := length_natText_le (by decide : 0 < 20) hlen
  have hearliest : (earliestTime src).length ≤ maxTimeBytes := length_foldl_time h
  have hlatest : (latestTime src).length ≤ maxTimeBytes := length_foldl_time h
  have hopening : (lit "compacted ").length = 10 := rfl
  have hmiddle : (lit " events (").length = 9 := rfl
  have hdots : (lit "..").length = 2 := rfl
  have hclosing : (lit ")").length = 1 := rfl
  simp only [compactionFrom, length_append, hopening, hmiddle, hdots, hclosing, maxFreeTextBytes]
  simp only [maxTimeBytes] at hearliest hlatest
  omega

theorem length_cut (s : GoString) : (cut s).length ≤ maxFreeTextBytes := by
  rw [cut]
  split_ifs with h
  · exact length_take_le _ _
  · exact Nat.not_lt.mp h

theorem brief_nextEvents (hlen : events.length ≤ limit.maxEvents) (h : ∀ e ∈ events, Brief e)
    (ev : Event) (hnow : now.length ≤ maxTimeBytes) : ∀ e ∈ rt.nextEvents limit events ev.sanitize now, Brief e := by
  have hlt := limit.lt
  have hnext : ∀ e ∈ events ++ [rt.sealEvent (UInt64.ofNat (events.length + 1)) now ev.sanitize], Brief e :=
    forall_mem_append.mpr ⟨h, forall_mem_singleton.mpr ⟨length_cut _, hnow⟩⟩
  simp only [nextEvents]
  split_ifs with hover
  · have hlength : (events ++ [rt.sealEvent (UInt64.ofNat (events.length + 1)) now ev.sanitize]).length ≤ 2 ^ 63 := by
      rw [length_append, length_singleton]
      omega
    generalize events ++ [rt.sealEvent (UInt64.ofNat (events.length + 1)) now ev.sanitize] = next at hnext hlength ⊢
    generalize next.length - limit.maxEvents + 1 = overflow
    have hfold : Brief (rt.compactionFrom (next.take overflow) now ev.sanitize.session) := by
      refine brief_compactionFrom ?_ (fun e he => (hnext e (mem_of_mem_take he)).time) hnow _
      rw [length_take]
      omega
    have hkept : ∀ e ∈ rt.compactionFrom (next.take overflow) now ev.sanitize.session :: next.drop overflow, Brief e :=
      forall_mem_cons.mpr ⟨hfold, fun e he => hnext e (mem_of_mem_drop he)⟩
    intro e he
    obtain ⟨i, hi, rfl⟩ := mem_mapIdx.mp he
    have hbrief := hkept _ (getElem_mem hi)
    exact ⟨hbrief.freeText, hbrief.time⟩
  · exact hnext

theorem rebuild_eq_live (hs : ∀ e ∈ events, rt.Sound e) (hb : ∀ e ∈ events, Brief e) :
    rt.rebuild events = .ok (Summary.live events) := by
  have hreplay : ∀ s, rt.replay events s = .ok (events.foldl Summary.apply s) := by
    induction events with
    | nil => exact fun s => rfl
    | cons e events ih =>
      intro s
      rw [forall_mem_cons] at hs hb
      rw [replay, hs.1.validate_ok_iff.mpr hb.1.freeText]
      exact ih hs.2 hb.2 (s.apply e)
  rw [rebuild, hreplay]
  rfl

/-- What the retained events have in common with the events of the calls. -/
structure Retains (rt : Runtime) (limit : Limit) (calls : List rt.Call) (events : List Event) : Prop where
  length_le : events.length ≤ limit.maxEvents
  sound : ∀ e ∈ events, rt.Sound e
  brief : ∀ e ∈ events, Brief e
  totals : ∀ k ∉ reservedKeys, total k events ≡ total k (calls.map (·.event)) [ZMOD 2 ^ 64]

theorem retains_append {done : List rt.Call} {c : rt.Call} (hfs : c.event.sanitize.FieldsOk)
    (hnow : c.now.length ≤ maxTimeBytes) (h : Retains rt limit done events) :
    Retains rt limit (done ++ [c]) (rt.nextEvents limit events c.event.sanitize c.now) where
  length_le := length_nextEvents _ _ _ _
  sound := sound_nextEvents h.length_le h.sound hfs c.now_ok
  brief := brief_nextEvents h.length_le h.brief c.event hnow
  totals k hk := by
    rw [map_append, total_append]
    refine (total_nextEvents hk (fun e he => (h.sound e he).fields.kind) hfs.kind c.now).trans ?_
    have hcount : total k ([c].map (·.event)) = (c.event.sanitize.count k).toInt := by
      rw [map_singleton, total_cons, total_nil, add_zero]
      rfl
    rw [hcount]
    exact (h.totals k hk).add_right _

theorem retains_run {calls : List rt.Call} (hnow : ∀ c ∈ calls, c.now.length ≤ maxTimeBytes) {sealed : List Event}
    {log : Log} (h : appendAll (Log.fresh limit) calls = .ok (sealed, log)) :
    Retains rt limit calls log.writer.events := by
  have hstart : Retains rt limit [] [] :=
    ⟨Nat.zero_le _, fun e he => by simp at he, fun e he => by simp at he, fun _ _ => rfl⟩
  exact appendAll_keeps (fun _ _ _ hfs hnow hretains => retains_append hfs hnow hretains) rfl h hnow hstart

/-- After any number of successful appends to a fresh log the retained events rebuild to a summary whose totals are, up
to overflow, the sums over every event ever appended, and so those of the summary that was kept live. -/
theorem rebuilt_totals {calls : List rt.Call} (hnow : ∀ c ∈ calls, c.now.length ≤ maxTimeBytes) {sealed : List Event}
    {log : Log} (h : appendAll (Log.fresh limit) calls = .ok (sealed, log)) :
    ∃ s, rt.rebuild log.writer.events = .ok s ∧ ∀ k ∉ reservedKeys,
      ((s.totals.lookup k).getD 0).toInt ≡ (calls.map fun c => (c.event.count k).toInt).sum [ZMOD 2 ^ 64] ∧
        (s.totals.lookup k).getD 0 = ((Summary.live (calls.map (·.event))).totals.lookup k).getD 0 := by
  obtain ⟨-, hsound, hbrief, htotals⟩ := retains_run hnow h
  refine ⟨_, rebuild_eq_live hsound hbrief, fun k hk => ?_⟩
  have hrebuilt := (totals_live log.writer.events k).trans (htotals k hk)
  constructor
  · rw [total, map_map] at hrebuilt
    exact hrebuilt
  · exact int64_inj_of_modEq (hrebuilt.trans (totals_live (calls.map (·.event)) k).symm)

end Runtime

def oneEvent : Limit := ⟨1, by decide, by decide⟩

/-- A read that counts the given number of tokens. -/
def tokensCall (n : Int64) : sampleRuntime.Call :=
  { noteCall (lit "ok") with
    event := { Event.zero with kind := .read, counts := (∅ : GoMap GoString Int64).insert (lit "tokens") n } }

theorem rebuilt_totals_tokens :
    let calls := [tokensCall 3, tokensCall 4, tokensCall 5]
    ∃ sealed log s, Runtime.appendAll (Log.fresh oneEvent) calls = .ok (sealed, log) ∧
      sampleRuntime.rebuild log.writer.events = .ok s ∧
        ((s.totals.lookup (lit "tokens")).getD 0).toInt ≡ 12 [ZMOD 2 ^ 64] := by
  intro calls
  have h : Result.succeeds (Runtime.appendAll (Log.fresh oneEvent) calls) (fun _ => true) = true := by decide +kernel
  obtain ⟨⟨sealed, log⟩, happ, -⟩ := Result.succeeds_iff.mp h
  have hnow : ∀ c ∈ calls, c.now.length ≤ Runtime.maxTimeBytes := by
    decide +kernel
  obtain ⟨s, hrebuild, htotals⟩ := Runtime.rebuilt_totals hnow happ
  refine ⟨sealed, log, s, happ, hrebuild, ?_⟩
  have htok := (htotals (lit "tokens") (by decide +kernel)).1
  exact htok

end CodeMemory.SessionLog
