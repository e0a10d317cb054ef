import CodeMemory.Crawl.Durability
import CodeMemory.Crawl.Scip
import CodeMemory.Lib.ReadThrough

/-! The index cache under concurrency. Any number of threads load the index of one
path, refresh it, ingest SCIP documents into it and save it; `loadCached` hands
out one decoded index to all of them. The theorem says when each load returns
what decoding the file gave at some moment of the load. -/

namespace CodeMemory.Crawl

open Lib Lib.GoString Lib.ReadThrough

section

variable (tc : Toolchain)

/-- Stat gives size and modification time of a regular file, and `Load` decodes
it; what is at the path may be nothing. -/
def gobFormat : Format (Option GobFile) FileStamp (Index × DurableMeta) where
  identity gob := gob.bind GobFile.identity
  decode := loadGob tc

abbrev Process := State (Option GobFile) FileStamp (Index × DurableMeta)

/-- Whether `OpenOrRefresh` serves a loaded index as it is. -/
def servesWarm (env : RefreshEnv) (rootAbs : GoString) (T : Tree)
    (loaded : Index × DurableMeta) : Bool :=
  (boundIndex env rootAbs (some loaded)).isSome && decide (loaded.1.inverted ≠ ∅) &&
    stAllStampsMatch tc T loaded.1

/-- What a thread does next. A load is `stat`, `lookup`, `decode`, `restat` and
`store`; a save is `fillGlobals`, `replace` or `saveFailed`, and `invalidate`;
an ingest is a load that `serve` or `refresh` turns into an index in hand, then
`ingest`, then a save. -/
inductive ThreadAction where
  | stat | lookup | load | decode | restat | store
  /-- `OpenOrRefresh` returns the loaded index. -/
  | serve (env : RefreshEnv) (rootAbs : GoString) (T : Tree)
  /-- `OpenOrRefresh` builds an index of its own, by a full or an incremental crawl. -/
  | refresh (idx : Index) (durableMeta : DurableMeta)
  | ingest (doc : SCIPDocument) (path language : GoString)
  | fillGlobals
  | replace (root gitHead : GoString) (identity : FileStamp)
  | saveFailed
  | invalidate
  | drop

def inHand (s : Process) (t : Nat) : Option (Index × DurableMeta) :=
  match s.phase t with
  | .held p => some (s.heap p)
  | _ => none

/-- What an action does to the path, the cache and the index in hand. -/
def effect (edgeCap : Nat) (s : Process) (t : Nat) :
    ThreadAction → Option (Action (Option GobFile) (Index × DurableMeta))
  | .stat => some (.stat t)
  | .lookup => some (.lookup t)
  | .load => some (.load t)
  | .decode => some (.decode t)
  | .restat => some (.restat t)
  | .store => some (.store t)
  | .serve env rootAbs T =>
    match s.phase t with
    | .returning p => if servesWarm tc env rootAbs T (s.heap p) then some (.hold t) else none
    | _ => none
  | .refresh idx durableMeta => some (.build t (idx, durableMeta))
  | .ingest doc path language =>
    (inHand s t).bind (fun r =>
      if path ∈ r.1.files then
        match r.1.ingestSCIP edgeCap doc path language with
        | .ok (idx, _) => some (.write t (idx, r.2))
        | .error _ => none
      else none)
  -- a save fills missing globals of the index itself, and then encodes it
  | .fillGlobals => (inHand s t).map (fun r => .write t (r.1.prepared tc, r.2))
  | .replace root gitHead identity =>
    (inHand s t).map (fun r => .replace t (some ⟨some identity, some (r.1.snap tc root gitHead)⟩))
  | .saveFailed => some (.abandon t)
  | .invalidate => some (.invalidate t)
  | .drop => some (.drop t)

def Process.act (edgeCap : Nat) (s : Process) (t : Nat) (a : ThreadAction) : Option Process :=
  (effect tc edgeCap s t a).bind (s.step (gobFormat tc))

def Process.begin (gob : Option GobFile) : Process :=
  State.start gob (newEmptyIndex, ⟨[], [], 0, []⟩)

/-- The processes reached by steps that satisfy `ok`. -/
inductive Process.Reached (tc : Toolchain) (edgeCap : Nat) (gob : Option GobFile)
    (ok : Process → Nat → ThreadAction → Prop) : Process → Prop where
  | begin : Reached tc edgeCap gob ok (Process.begin gob)
  | step {s s' : Process} (t : Nat) (a : ThreadAction) (h : Reached tc edgeCap gob ok s)
      (hs : s.act tc edgeCap t a = some s') (ha : ok s t a) : Reached tc edgeCap gob ok s'

/-- Size and modification time determine the bytes: a file that a save puts at the
path is the one that `content` gives for its identity. -/
def Identified (content : FileStamp → Option GobFile) (s : Process) (t : Nat) :
    ThreadAction → Prop
  | .replace root gitHead identity => ∀ r, inHand s t = some r →
      content identity = some ⟨some identity, some (r.1.snap tc root gitHead)⟩
  | _ => True

/-- No index is changed in place while the cache or a load in flight has it, and
no save restores the identity that a load in flight began with after that load
has decoded another file. -/
def Undisturbed (edgeCap : Nat) (s : Process) (t : Nat) : ThreadAction → Prop
  | .ingest doc path language => ∀ p, s.phase t = .held p → s.Shared p →
      ∀ idx stats, (s.heap p).1.ingestSCIP edgeCap doc path language = .ok (idx, stats) → idx = (s.heap p).1
  | .fillGlobals => ∀ p, s.phase t = .held p → s.Shared p → (s.heap p).1.prepared tc = (s.heap p).1
  | .replace root gitHead identity => ∀ r, inHand s t = some r →
      ∀ u source p, s.phase u = .decoded identity source p →
        source = some ⟨some identity, some (r.1.snap tc root gitHead)⟩
  | _ => True

/-- A load that is about to return returns what decoding the file gives that was
at the path at some moment of the load. -/
def Process.transparent (s : Process) (t : Nat) : Bool :=
  match s.phase t with
  | .returning p => (s.window t).any (fun gob => loadGob tc gob = some (s.heap p))
  | _ => true

end

section

variable {tc : Toolchain} {edgeCap : Nat} {gob : Option GobFile} {content : FileStamp → Option GobFile} {s : Process}
  {t : Nat} {a : ThreadAction} {e : Action (Option GobFile) (Index × DurableMeta)}

theorem inHand_eq_some_iff {r : Index × DurableMeta} :
    inHand s t = some r ↔ ∃ p, s.phase t = .held p ∧ s.heap p = r := by
  unfold inHand
  cases s.phase t <;> simp

/-- The actions that change an index in place or the file. -/
theorem effect_touches (he : effect tc edgeCap s t a = some e) (ht : e.touches = true) :
    (∃ doc path language p idx stats, a = .ingest doc path language ∧ s.phase t = .held p ∧
      (s.heap p).1.ingestSCIP edgeCap doc path language = .ok (idx, stats) ∧ e = .write t (idx, (s.heap p).2)) ∨
    (∃ p, a = .fillGlobals ∧ s.phase t = .held p ∧ e = .write t ((s.heap p).1.prepared tc, (s.heap p).2)) ∨
    ∃ root gitHead identity r, a = .replace root gitHead identity ∧ inHand s t = some r ∧
      e = .replace t (some ⟨some identity, some (r.1.snap tc root gitHead)⟩) := by
  cases a with
  | ingest doc path language =>
    obtain ⟨r, hr, hef⟩ := Option.bind_eq_some_iff.mp he
    obtain ⟨p, hp, rfl⟩ := inHand_eq_some_iff.mp hr
    split_ifs at hef
    split at hef
    · rename_i idx stats hi
      exact .inl ⟨doc, path, language, p, idx, stats, rfl, hp, hi, (Option.some.inj hef).symm⟩
    · cases hef
  | fillGlobals =>
    obtain ⟨r, hr, hef⟩ := Option.map_eq_some_iff.mp he
    obtain ⟨p, hp, rfl⟩ := inHand_eq_some_iff.mp hr
    exact .inr (.inl ⟨p, rfl, hp, hef.symm⟩)
  | replace root gitHead identity =>
    obtain ⟨r, hr, hef⟩ := Option.map_eq_some_iff.mp he
    exact .inr (.inr ⟨root, gitHead, identity, r, rfl, hr, hef.symm⟩)
  | serve env rootAbs T =>
    simp only [effect] at he
    split at he
    · split_ifs at he
      cases he
      cases ht
    · cases he
  | stat | lookup | load | decode | restat | store | refresh _ _ | saveFailed | invalidate | drop =>
    cases he
    cases ht

/-- The conditions on a thread's action are those on its effect. -/
theorem honest_undisturbed (hi : Identified tc content s t a) (hu : Undisturbed tc edgeCap s t a)
    (he : effect tc edgeCap s t a = some e) :
    State.Honest (gobFormat tc) content e ∧ State.Undisturbed (gobFormat tc) s e := by
  cases ht : e.touches with
  | false => exact State.honest_undisturbed_of_not_touches ht
  | true =>
    rcases effect_touches he ht with ⟨doc, path, language, p, idx, stats, rfl, hp, hok, rfl⟩ |
      ⟨p, rfl, hp, rfl⟩ | ⟨root, gitHead, identity, r, rfl, hr, rfl⟩
    · refine ⟨trivial, fun q hq hs => ?_⟩
      obtain rfl : p = q := Phase.held.inj (hp.symm.trans hq)
      exact Prod.ext (hu p hp hs idx stats hok) rfl
    · refine ⟨trivial, fun q hq hs => ?_⟩
      obtain rfl : p = q := Phase.held.inj (hp.symm.trans hq)
      exact Prod.ext (hu p hp hs) rfl
    · refine ⟨fun id hid => ?_, fun u id source p hph hid => ?_⟩
      · obtain rfl : identity = id := Option.some.inj hid
        exact hi r hr
      · obtain rfl : identity = id := Option.some.inj hid
        exact hu r hr u source p hph

/-- What holds of every process that such steps reach. -/
theorem Process.Reached.coherent (hgob : ∀ id, (gobFormat tc).identity gob = some id → content id = gob)
    (h : Reached tc edgeCap gob
      (fun s t a => Identified tc content s t a ∧ Undisturbed tc edgeCap s t a) s) :
    State.Coherent (gobFormat tc) content s := by
  induction h with
  | begin => exact State.coherent_start hgob
  | step t a _ hs ha ih =>
    obtain ⟨e, he, hstep⟩ := Option.bind_eq_some_iff.mp hs
    have hok := honest_undisturbed ha.1 ha.2 he
    exact ih.step hstep hok.1 hok.2

/-- In every run in which no shared index is changed in place, every load is
transparent. -/
theorem loadCached_transparent (hgob : ∀ id, gob.bind GobFile.identity = some id → content id = gob)
    {s : Process} (h : s.Reached tc edgeCap gob
      (fun s t a => Identified tc content s t a ∧ Undisturbed tc edgeCap s t a)) (t : Nat) :
    s.transparent tc t = true := by
  unfold Process.transparent
  split
  · rename_i p hp
    obtain ⟨f, hf, hd⟩ := (h.coherent hgob).returning hp
    exact List.any_eq_true.mpr ⟨f, hf, decide_eq_true hd⟩
  · rfl

end

def Process.run (tc : Toolchain) (edgeCap : Nat) : Process → List (Nat × ThreadAction) → Option Process
  | s, [] => some s
  | s, (t, a) :: rest => (s.act tc edgeCap t a).bind (fun s' => run tc edgeCap s' rest)

def ThreadAction.reads : ThreadAction → Bool
  | .ingest _ _ _ | .fillGlobals | .replace _ _ _ => false
  | _ => true

variable {tc : Toolchain} {edgeCap : Nat} {s : Process}

theorem ThreadAction.undisturbed_of_reads {content : FileStamp → Option GobFile}
    {t : Nat} {a : ThreadAction} (h : a.reads = true) :
    Identified tc content s t a ∧ Undisturbed tc edgeCap s t a := by
  cases a with
  | ingest _ _ _ | fillGlobals | replace _ _ _ => cases h
  | _ => exact ⟨trivial, trivial⟩

theorem Process.Reached.run {gob : Option GobFile}
    {ok : Process → Nat → ThreadAction → Prop} {acts : List (Nat × ThreadAction)} {s' : Process}
    (h : s.Reached tc edgeCap gob ok) (hok : ∀ s t a, (t, a) ∈ acts → ok s t a)
    (hs : s.run tc edgeCap acts = some s') : s'.Reached tc edgeCap gob ok := by
  induction acts generalizing s with
  | nil => exact Option.some.inj hs ▸ h
  | cons ta acts ih =>
    obtain ⟨s₁, h₁, h₂⟩ := Option.bind_eq_some_iff.mp hs
    refine ih (.step ta.1 ta.2 h h₁ (hok s ta.1 ta.2 (.head _))) ?_ h₂
    exact fun s t a ha => hok s t a (List.mem_cons_of_mem ta ha)

/-- One thread loads the index of the pair and `OpenOrRefresh` serves it. -/
def warmLoad (t : Nat) : List (Nat × ThreadAction) :=
  [(t, .stat), (t, .lookup), (t, .decode), (t, .restat), (t, .store),
    (t, .serve checkout (lit "/repo") (pairTree false))]

/-- A second thread takes the identity and looks for the entry. -/
def lateLookup (t : Nat) : List (Nat × ThreadAction) := [(t, .stat), (t, .lookup)]

/-- A second thread is served from the entry of the first. -/
theorem loadCached_transparent_hit :
    ∃ s : Process, (s.phase 2).loading = some 0 ∧ s.transparent .ascii 2 = true := by
  have heval : ((Process.begin pairStore.gob).run .ascii 512 (warmLoad 1 ++ lateLookup 2)).map
      (fun s => (s.phase 2).loading) = some (some 0) := by
    decide +kernel
  obtain ⟨s, hs, hp⟩ := Option.map_eq_some_iff.mp heval
  have hreads : (warmLoad 1 ++ lateLookup 2).all (fun ta => ta.2.reads) = true := by decide +kernel
  have hreach : s.Reached .ascii 512 pairStore.gob (fun s t a =>
      Identified .ascii (fun _ => pairStore.gob) s t a ∧ Undisturbed .ascii 512 s t a) := by
    refine Process.Reached.run .begin (fun s t a ha => ?_) hs
    exact ThreadAction.undisturbed_of_reads (List.all_eq_true.mp hreads (t, a) ha)
  exact ⟨s, hp, loadCached_transparent (fun _ _ => rfl) hreach 2⟩

def oneDefinition : SCIPDocument where
  toolName := lit "scip-python"
  toolVersion := lit "0"
  occurrences := [⟨[0, 6, 9], lit "scip-python pkg Foo#", 1⟩]
  symbols := []

/-- Between the ingest and the save of the first thread, the second one gets the
changed index, which no file at the path decodes to. -/
theorem ingest_is_served_before_save :
    ¬ ∀ s : Process, s.Reached .ascii 512 pairStore.gob (Identified .ascii (fun _ => pairStore.gob)) →
      ∀ t, s.transparent .ascii t = true := by
  intro h
  have heval : ((Process.begin pairStore.gob).run .ascii 512 (warmLoad 1 ++
      (1, .ingest oneDefinition (lit "a.py") (lit "python")) :: lateLookup 2)).map
      (fun s => s.transparent .ascii 2) = some false := by
    decide +kernel
  obtain ⟨s, hs, hfalse⟩ := Option.map_eq_some_iff.mp heval
  have hreach : s.Reached .ascii 512 pairStore.gob (Identified .ascii (fun _ => pairStore.gob)) := by
    refine Process.Reached.run .begin (fun s t a ha => ?_) hs
    simp only [warmLoad, lateLookup, List.cons_append, List.nil_append, List.mem_cons, Prod.mk.injEq, List.not_mem_nil,
      or_false] at ha
    rcases ha with ⟨-, rfl⟩ | ⟨-, rfl⟩ | ⟨-, rfl⟩ | ⟨-, rfl⟩ | ⟨-, rfl⟩ | ⟨-, rfl⟩ | ⟨-, rfl⟩ | ⟨-, rfl⟩ |
      ⟨-, rfl⟩ <;> exact trivial
  rw [h s hreach 2] at hfalse
  cases hfalse

end CodeMemory.Crawl
