import CodeMemory.Crawl.Freshness

/-! The filesystem watcher: a bounded queue of changed paths and the loop that
refreshes the index from it. The loop is one goroutine, so a refresh sees the
queue as it was when it began. A refresh is its outcome and the time it ended. -/

namespace CodeMemory.Crawl

open Lib Lib.GoString Lib.Path Ignore

structure RefreshQueue where
  capacity : Nat
  paths : Finset GoString
  version : Nat
  overflow : Bool

def newRefreshQueue (capacity : Int) : RefreshQueue :=
  ⟨if capacity < 1 then 4096 else capacity.toNat, ∅, 0, false⟩

namespace RefreshQueue

def enqueue (q : RefreshQueue) (path : GoString) : RefreshQueue :=
  let q := { q with version := q.version + 1 }
  if path = [] then { q with overflow := true }
  else if path ∈ q.paths then q
  else if q.capacity ≤ q.paths.card then { q with overflow := true }
  else { q with paths := insert path q.paths }

def pending (q : RefreshQueue) : Bool := q.overflow || 0 < q.paths.card

def commit (q : RefreshQueue) (version : Nat) : Bool × RefreshQueue :=
  if q.version ≠ version then (false, q) else (true, { q with paths := ∅, overflow := false })

/-- A path that has to be looked at is in the queue, or the whole tree is to be scanned. -/
def Covers (q : RefreshQueue) (path : GoString) : Prop := path ∈ q.paths ∨ q.overflow = true

theorem covers_enqueue_self (q : RefreshQueue) (path : GoString) : (q.enqueue path).Covers path := by
  unfold enqueue
  dsimp only
  split_ifs with h₁ h₂ h₃
  · exact .inr rfl
  · exact .inl h₂
  · exact .inr rfl
  · exact .inl (Finset.mem_insert_self _ _)

variable {q : RefreshQueue}

theorem Covers.enqueue {path : GoString} (h : q.Covers path) (p : GoString) : (q.enqueue p).Covers path := by
  unfold RefreshQueue.enqueue
  dsimp only
  split_ifs
  · exact .inr rfl
  · exact h
  · exact .inr rfl
  · exact h.imp_left Finset.mem_insert_of_mem

theorem Covers.pending {path : GoString} (h : q.Covers path) : q.pending = true := by
  rcases h with h | h
  · simp [RefreshQueue.pending, Finset.card_pos.mpr ⟨path, h⟩]
  · simp [RefreshQueue.pending, h]

theorem card_enqueue_le (h : q.paths.card ≤ q.capacity) (p : GoString) :
    (q.enqueue p).paths.card ≤ (q.enqueue p).capacity := by
  unfold enqueue
  dsimp only
  split_ifs with h₁ h₂ h₃
  · exact h
  · exact h
  · exact h
  · exact (Finset.card_insert_le _ _).trans (Nat.lt_of_not_le h₃)

end RefreshQueue

structure WatchFSOptions extends WatchOptions where
  queueSize : Int
  maxCycles : Int

/-- An event of the kernel's watcher: whether its kind is one of write, create, remove and rename, the name, and
whether the name is that of a directory now. -/
structure FsEvent where
  changes : Bool
  name : GoString
  isDir : Bool

def isIgnoreFile (name : GoString) : Bool :=
  Path.base name = lit ".gitignore" || Path.base name = lit ".dockerignore" ||
    (Path.base name = lit "exclude" && decide (lit "/.git/info/" <:+: name))

/-- What an event puts into the queue: nothing, the mark for a full scan, or its name. -/
def queuedPath (tc : Toolchain) (m : Matcher) (rootAbs : GoString) (ev : FsEvent) : Option GoString :=
  if !ev.changes then none
  else match Path.rel rootAbs ev.name with
    | none => none
    | some rel =>
      if m.ignored rel false then none
      else if ev.isDir then (if m.ignored rel true then none else some [])
      else if !isIgnoreFile ev.name && tc.toLower (ext ev.name) ≠ [] && !tc.extOK ev.name then none
      else some ev.name

structure RefreshOutcome where
  succeeded : Bool
  now : Int

inductive WatchInput where
  | event (ev : FsEvent) (now : Int)
  | watcherError (now : Int)
  | tick (now : Int) (outcome : RefreshOutcome)

/-- The variables of the loop; a zero time is none. A loop that has returned is `stopped`. -/
structure Loop where
  queue : RefreshQueue
  dirtyAt : Option Int
  retryAt : Option Int
  retryCount : Nat
  cycles : Nat
  stopped : Bool

section Loop

variable (tc : Toolchain) (m : Matcher) (rootAbs : GoString) (opt : WatchFSOptions)

def Loop.enqueue (s : Loop) (path : GoString) (now : Int) : Loop :=
  { s with queue := s.queue.enqueue path, dirtyAt := some now }

/-- The refresh, and the return after the last cycle. -/
def Loop.refresh (s : Loop) (o : RefreshOutcome) : Loop :=
  if !o.succeeded then
    { s with
      retryCount := s.retryCount + 1
      retryAt := some (o.now + retryDelay (s.retryCount + 1) opt.retryInitial opt.retryMax) }
  else
    let version := s.queue.version
    let committed := s.queue.commit version
    { queue := committed.2
      dirtyAt := if committed.1 then none else some o.now
      retryAt := none
      retryCount := 0
      cycles := s.cycles + 1
      stopped := decide (0 < opt.maxCycles ∧ opt.maxCycles ≤ s.cycles + 1) }

def Loop.due (s : Loop) (now : Int) : Bool :=
  s.queue.pending && s.dirtyAt.any (fun t => opt.filled.debounce ≤ now - t) &&
    s.retryAt.all (fun t => t ≤ now) && !s.stopped

def WatchInput.queued : WatchInput → Option (GoString × Int)
  | .event ev now => (queuedPath tc m rootAbs ev).map (·, now)
  | .watcherError now => some ([], now)
  | .tick _ _ => none

def Loop.attempt (s : Loop) : WatchInput → Option RefreshOutcome
  | .tick now o => if s.due opt now then some o else none
  | _ => none

def Loop.step (s : Loop) (i : WatchInput) : Loop :=
  if s.stopped then s
  else match i.queued tc m rootAbs, s.attempt opt i with
    | some (path, now), _ => s.enqueue path now
    | none, some o => s.refresh opt o
    | none, none => s

def Loop.start (o : RefreshOutcome) : Loop :=
  Loop.refresh opt ⟨newRefreshQueue opt.queueSize, none, none, 0, 0, false⟩ o

/-- The loop together with what it owes: the enqueued paths no successful refresh has covered since, and whether
the last refresh failed. -/
structure Ledgered where
  loop : Loop
  uncovered : List GoString
  failed : Bool

def Ledgered.step (t : Ledgered) (i : WatchInput) : Ledgered where
  loop := t.loop.step tc m rootAbs opt i
  uncovered :=
    if t.loop.stopped then t.uncovered
    else match i.queued tc m rootAbs, t.loop.attempt opt i with
      | some (path, _), _ => path :: t.uncovered
      | none, some o => if o.succeeded then [] else t.uncovered
      | none, none => t.uncovered
  failed :=
    match t.loop.attempt opt i with
    | some o => !o.succeeded
    | none => t.failed

def watchFS (o : RefreshOutcome) (inputs : List WatchInput) : Ledgered :=
  inputs.foldl (Ledgered.step tc m rootAbs opt) ⟨Loop.start opt o, [], !o.succeeded⟩

/-- Nothing is forgotten: what is uncovered is in the queue or stands for a full scan, the queue keeps its bound,
and after a failed refresh there is a time from which on every tick refreshes. -/
structure Ledgered.Remembers (t : Ledgered) : Prop where
  covers : ∀ p ∈ t.uncovered, t.loop.queue.Covers p
  bounded : t.loop.queue.paths.card ≤ t.loop.queue.capacity
  retries : t.failed = true → t.loop.queue.pending = true ∧ t.loop.dirtyAt.isSome = true ∧
    ∃ t₀, ∀ now, t₀ ≤ now → t.loop.due opt now = true

variable {tc m rootAbs opt}

/-- What every step keeps, whatever the outcome of the initial refresh. -/
structure Ledgered.Inv (t : Ledgered) : Prop where
  covers : ∀ p ∈ t.uncovered, t.loop.queue.Covers p
  bounded : t.loop.queue.paths.card ≤ t.loop.queue.capacity
  dirty : t.loop.queue.pending = true → t.loop.dirtyAt.isSome = true
  running : t.failed = true → t.loop.stopped = false

theorem Loop.attempt_eq_none_of_queued {s : Loop} {i : WatchInput} {x : GoString × Int}
    (h : i.queued tc m rootAbs = some x) : s.attempt opt i = none := by
  cases i with
  | tick now o => cases h
  | _ => rfl

theorem Loop.attempt_eq_some {s : Loop} {i : WatchInput} {o : RefreshOutcome} (h : s.attempt opt i = some o) :
    s.queue.pending = true ∧ s.stopped = false := by
  cases i with
  | tick now o' =>
    simp only [Loop.attempt] at h
    split at h
    · next hdue =>
      simp only [Loop.due, Bool.and_eq_true, Bool.not_eq_true'] at hdue
      exact ⟨hdue.1.1.1, hdue.2⟩
    · cases h
  | _ => cases h

/-- The three things a step can be: a path is queued, a refresh runs, or nothing happens. -/
theorem Ledgered.step_cases (tc : Toolchain) (m : Matcher) (rootAbs : GoString) (opt : WatchFSOptions)
    (t : Ledgered) (i : WatchInput) :
    (∃ path now, i.queued tc m rootAbs = some (path, now) ∧ t.loop.stopped = false ∧
      t.step tc m rootAbs opt i = ⟨t.loop.enqueue path now, path :: t.uncovered, t.failed⟩) ∨
    (∃ o, t.loop.queue.pending = true ∧ t.loop.stopped = false ∧
      t.step tc m rootAbs opt i = ⟨t.loop.refresh opt o, if o.succeeded then [] else t.uncovered, !o.succeeded⟩) ∨
    ((i.queued tc m rootAbs = none ∨ t.loop.stopped = true) ∧ t.step tc m rootAbs opt i = t) := by
  unfold Ledgered.step Loop.step
  cases hs : t.loop.stopped with
  | true =>
    have hatt : t.loop.attempt opt i = none := by
      by_contra h
      obtain ⟨o, ho⟩ := Option.ne_none_iff_exists'.mp h
      rw [(Loop.attempt_eq_some ho).2] at hs
      cases hs
    simp [hatt]
  | false =>
    cases hq : i.queued tc m rootAbs with
    | some x =>
      obtain ⟨path, now⟩ := x
      rw [Loop.attempt_eq_none_of_queued hq]
      exact .inl ⟨path, now, rfl, rfl, rfl⟩
    | none =>
      cases ha : t.loop.attempt opt i with
      | some o => exact .inr (.inl ⟨o, (Loop.attempt_eq_some ha).1, rfl, rfl⟩)
      | none => simp

variable {t : Ledgered}

theorem Ledgered.Inv.step (h : t.Inv) (i : WatchInput) : (t.step tc m rootAbs opt i).Inv := by
  rcases t.step_cases tc m rootAbs opt i with ⟨path, now, -, hs, heq⟩ | ⟨o, -, hs, heq⟩ | ⟨-, heq⟩
  · rw [heq]
    refine ⟨?_, RefreshQueue.card_enqueue_le h.bounded path, fun _ => rfl, fun _ => hs⟩
    intro p hp
    rcases List.mem_cons.mp hp with rfl | hp
    · exact RefreshQueue.covers_enqueue_self _ _
    · exact (h.covers p hp).enqueue path
  · rw [heq]
    cases ho : o.succeeded with
    | true =>
      refine ⟨?_, ?_, ?_, ?_⟩ <;> simp [Loop.refresh, ho, RefreshQueue.commit, RefreshQueue.pending]
    | false =>
      refine ⟨?_, ?_, ?_, ?_⟩ <;> simp [Loop.refresh, ho, hs, h.bounded]
      · exact h.covers
      · exact h.dirty
  · rw [heq]
    exact h

/-- After a failed refresh there is something to retry. -/
def Ledgered.Owes (t : Ledgered) : Prop := t.failed = true → t.loop.queue.pending = true

theorem Ledgered.Owes.step (h : t.Owes) (i : WatchInput) : (t.step tc m rootAbs opt i).Owes := by
  rcases t.step_cases tc m rootAbs opt i with ⟨path, now, -, -, heq⟩ | ⟨o, hp, -, heq⟩ | ⟨-, heq⟩
  · rw [heq]
    exact fun _ => (RefreshQueue.covers_enqueue_self _ path).pending
  · rw [heq]
    intro hfailed
    have ho : o.succeeded = false := by simpa using hfailed
    simpa [Loop.refresh, ho] using hp
  · rw [heq]
    exact h

theorem Ledgered.Inv.foldl (h : t.Inv) (inputs : List WatchInput) :
    (inputs.foldl (Ledgered.step tc m rootAbs opt) t).Inv := by
  induction inputs generalizing t with
  | nil => exact h
  | cons i inputs ih => exact ih (h.step i)

theorem Ledgered.Owes.foldl (h : t.Owes) (inputs : List WatchInput) :
    (inputs.foldl (Ledgered.step tc m rootAbs opt) t).Owes := by
  induction inputs generalizing t with
  | nil => exact h
  | cons i inputs ih => exact ih (h.step i)

theorem inv_start (o : RefreshOutcome) : Ledgered.Inv ⟨Loop.start opt o, [], !o.succeeded⟩ := by
  cases ho : o.succeeded <;>
    refine ⟨?_, ?_, ?_, ?_⟩ <;>
    simp [Loop.start, Loop.refresh, ho, newRefreshQueue, RefreshQueue.commit, RefreshQueue.pending]

/-- Once an input is queued, a failed refresh is retried; until then a failed initial refresh stays alone. -/
theorem owes_foldl_iff (hfailed : t.failed = true) (hidle : t.loop.queue.pending = false)
    (hs : t.loop.stopped = false) (inputs : List WatchInput) :
    (inputs.foldl (Ledgered.step tc m rootAbs opt) t).Owes ↔ ∃ i ∈ inputs, (i.queued tc m rootAbs).isSome = true := by
  induction inputs with
  | nil => simp [Ledgered.Owes, hfailed, hidle]
  | cons i inputs ih =>
    rw [List.foldl_cons, List.exists_mem_cons_iff]
    rcases t.step_cases tc m rootAbs opt i with
      ⟨path, now, hq, -, heq⟩ | ⟨o, hp, -, -⟩ | ⟨hq, heq⟩
    · rw [heq, hq]
      have howes : Ledgered.Owes ⟨t.loop.enqueue path now, path :: t.uncovered, t.failed⟩ :=
        fun _ => (RefreshQueue.covers_enqueue_self _ path).pending
      exact iff_of_true (howes.foldl inputs) (.inl rfl)
    · rw [hidle] at hp
      cases hp
    · have hq : i.queued tc m rootAbs = none := hq.resolve_right (by rw [hs]; exact Bool.false_ne_true)
      rw [heq, hq]
      simpa using ih

theorem Ledgered.due_eventually (h : t.Inv) (hfailed : t.failed = true)
    (hp : t.loop.queue.pending = true) : ∃ t₀, ∀ now, t₀ ≤ now → t.loop.due opt now = true := by
  obtain ⟨d, hd⟩ := Option.isSome_iff_exists.mp (h.dirty hp)
  refine ⟨max (d + opt.filled.debounce) (t.loop.retryAt.getD 0), fun now hnow => ?_⟩
  have hdebounce : opt.filled.debounce ≤ now - d := by
    have := (le_max_left _ _).trans hnow
    omega
  have hretry : t.loop.retryAt.getD 0 ≤ now := (le_max_right _ _).trans hnow
  cases hr : t.loop.retryAt with
  | none => simp [Loop.due, hp, hd, hdebounce, hr, h.running hfailed]
  | some r =>
    rw [hr, Option.getD_some] at hretry
    simp [Loop.due, hp, hd, hdebounce, hr, hretry, h.running hfailed]

/-- The watcher forgets nothing exactly if its initial refresh succeeded or something was queued since. -/
theorem watchFS_remembers_iff (tc : Toolchain) (m : Matcher) (rootAbs : GoString) (opt : WatchFSOptions)
    (o : RefreshOutcome) (inputs : List WatchInput) :
    (watchFS tc m rootAbs opt o inputs).Remembers opt ↔
      o.succeeded = true ∨ ∃ i ∈ inputs, (i.queued tc m rootAbs).isSome = true := by
  have hinv : (watchFS tc m rootAbs opt o inputs).Inv := (inv_start o).foldl inputs
  have hremembers : (watchFS tc m rootAbs opt o inputs).Remembers opt ↔
      (watchFS tc m rootAbs opt o inputs).Owes := by
    constructor
    · exact fun h hf => (h.retries hf).1
    · intro h
      refine ⟨hinv.covers, hinv.bounded, fun hf => ⟨h hf, hinv.dirty (h hf), ?_⟩⟩
      exact Ledgered.due_eventually hinv hf (h hf)
  rw [hremembers]
  cases ho : o.succeeded with
  | true =>
    have howes : Ledgered.Owes ⟨Loop.start opt o, [], !o.succeeded⟩ := by
      intro hf
      simp [ho] at hf
    exact iff_of_true (howes.foldl inputs) (.inl rfl)
  | false =>
    rw [or_iff_right Bool.false_ne_true]
    refine owes_foldl_iff ?_ ?_ ?_ inputs
    · simp [ho]
    · simp [Loop.start, Loop.refresh, ho, newRefreshQueue, RefreshQueue.pending]
    · simp [Loop.start, Loop.refresh, ho]

/-- The initial refresh fails and no tick tries again. -/
theorem failed_start_is_forgotten :
    ¬ (watchFS Toolchain.ascii ⟨[]⟩ (lit "/r") ⟨⟨1, 0, 0, 0⟩, 0, 0⟩ ⟨false, 0⟩
      [.tick (10 ^ 12) ⟨true, 10 ^ 12⟩]).Remembers ⟨⟨1, 0, 0, 0⟩, 0, 0⟩ := by
  intro h
  have hpend := (h.retries (by decide)).1
  revert hpend
  decide

end Loop

end CodeMemory.Crawl
